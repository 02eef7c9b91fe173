import Rome.Proofs.AtreeRemove
import Rome.Proofs.ATree

/-!
# Counting the samples

The tree in memory of the calls `InsertOrUpdate(key, 1, 1)` and `Clear` is the tree that counts the
samples (`Denotes`): what is known of the search by rank there holds of the loop that goes through
the nodes. A percentile above 0 of few samples has rank 0, and the search for it ends in the first
leaf, before which the tree may have samples.
-/

namespace Rome

open SearchTree BinaryTree ATreeState Machine

variable {K W : Type*} [LinearOrder K] [AddCommMonoidWithOne W]

/-! ## The tree in memory and the tree that counts -/

/-- The nodes have the keys, the values and the metadata of the tree. -/
def Denotes : BinaryTree (Entry K W W) → ATree K → Prop
  | nil, .nil => True
  | node e l r, .node l' key value metadata r' =>
    e.key = key ∧ e.value = value ∧ e.metadata = metadata ∧ Denotes l l' ∧ Denotes r r'
  | _, _ => False

section Denotes

variable {t l r : BinaryTree (Entry K W W)} {T L R : ATree K} {k : K}

omit [LinearOrder K] in
theorem Denotes.metadata (h : Denotes t T) : (topMetadata t).getD 0 = (T.metadata : W) := by
  cases t <;> cases T
  · exact Nat.cast_zero.symm
  · exact h.elim
  · exact h.elim
  · exact h.2.2.1

omit [LinearOrder K] in
theorem Denotes.visit {e : Entry K W W} {value : ℕ} (hl : Denotes l L) (hr : Denotes r R)
    (hv : e.value = value) :
    Denotes (setTop (visited subtreeCountVisit) (node e l r)) (ATree.visit L e.key value R) := by
  refine ⟨rfl, hv, ?_, hl, hr⟩
  show (topMetadata l).getD 0 + (topMetadata r).getD 0 + e.value = _
  rw [hl.metadata, hr.metadata, hv, Nat.cast_add, Nat.cast_add]

/-- What an insertion makes of the tree its search ended in. -/
def touch (a : ℕ) (k : K) : BinaryTree (Entry K W W) → BinaryTree (Entry K W W)
  | nil => setTop (visited subtreeCountVisit) (node ⟨a, k, 1, 1⟩ nil nil)
  | node e l r =>
    setTop (fun left right n => subtreeCountVisitor.update n 1 1 left right) (node e l r)

/-- An insertion with the visits of its way is an insertion in the tree that counts. -/
theorem Denotes.insertOrUpdate (h : Denotes t T) (a : ℕ) (k : K)
    (c : List (Step (Entry K W W))) :
    ∃ t', Denotes t' (T.insertOrUpdate k)
      ∧ revisit subtreeCountVisit (descend Entry.key k t c).1
          (touch a k (descend Entry.key k t c).2) = revisit subtreeCountVisit c t' := by
  induction t generalizing T c with
  | nil =>
    cases T with
    | nil =>
      have hnil : Denotes (nil : BinaryTree (Entry K W W)) (.nil : ATree K) := trivial
      exact ⟨_, Denotes.visit (e := ⟨a, k, 1, 1⟩) hnil hnil Nat.cast_one.symm, rfl⟩
    | node => exact h.elim
  | node e l r ihl ihr =>
    cases T with
    | nil => exact h.elim
    | node L key value metadata R =>
      obtain ⟨rfl, hv, hm, hl, hr⟩ := h
      unfold descend ATree.insertOrUpdate
      split_ifs with h1 h2
      · refine ⟨_, ?_, rfl⟩
        exact Denotes.visit (e := { e with value := e.value + 1 }) hl hr
          (by rw [hv, Nat.cast_succ])
      · obtain ⟨t', ht', heq⟩ := ihr hr (.right e l :: c)
        exact ⟨_, Denotes.visit hl ht' hv, heq⟩
      · obtain ⟨t', ht', heq⟩ := ihl hl (.left e r :: c)
        exact ⟨_, Denotes.visit ht' hr hv, heq⟩

theorem Denotes.mem_iff (h : Denotes t T) (hw : T.Wf) {x : K} :
    (∃ e ∈ toList t, e.key = x) ↔ x ∈ T.toList := by
  induction t generalizing T with
  | nil =>
    cases T with
    | nil => simp [toList, ATree.toList]
    | node => exact h.elim
  | node e l r ihl ihr =>
    cases T with
    | nil => exact h.elim
    | node L key value metadata R =>
      obtain ⟨rfl, hv, hm, hl, hr⟩ := h
      obtain ⟨hwl, hwr, hone, -⟩ := hw
      simp only [toList, ATree.toList, List.mem_append, List.mem_cons, List.mem_replicate,
        ← ihl hl hwl, ← ihr hr hwr]
      constructor
      · rintro ⟨e', he | rfl | he, rfl⟩
        · exact .inl (.inl ⟨e', he, rfl⟩)
        · exact .inl (.inr ⟨by omega, rfl⟩)
        · exact .inr ⟨e', he, rfl⟩
      · rintro ((⟨e', he, rfl⟩ | ⟨-, rfl⟩) | ⟨e', he, rfl⟩)
        · exact ⟨e', .inl he, rfl⟩
        · exact ⟨e, .inr (.inl rfl), rfl⟩
        · exact ⟨e', .inr (.inr he), rfl⟩

theorem Denotes.value_eq (h : Denotes t T) (hw : T.Wf) :
    ∀ e ∈ toList t, e.value = (T.toList.count e.key : W) := by
  induction t generalizing T with
  | nil => simp [toList]
  | node e l r ihl ihr =>
    cases T with
    | nil => exact h.elim
    | node L key value metadata R =>
      obtain ⟨rfl, hv, hm, hl, hr⟩ := h
      obtain ⟨hwl, hwr, -, -, hlt, hgt⟩ := hw
      have hL : ∀ x, e.key ≤ x → L.toList.count x = 0 := fun x hx =>
        List.count_eq_zero_of_not_mem fun hm => absurd (hlt x hm) (not_lt.2 hx)
      have hR : ∀ x, x ≤ e.key → R.toList.count x = 0 := fun x hx =>
        List.count_eq_zero_of_not_mem fun hm => absurd (hgt x hm) (not_lt.2 hx)
      intro e' he'
      rw [ATree.toList, List.count_append, List.count_append]
      simp only [toList, List.mem_append, List.mem_cons] at he'
      rcases he' with he | rfl | he
      · have hlt' : e'.key < e.key := hlt _ ((hl.mem_iff hwl).1 ⟨e', he, rfl⟩)
        rw [ihl hl hwl e' he, hR _ hlt'.le, List.count_replicate, if_neg (by simp [hlt'.ne'])]
        rfl
      · rw [hL _ le_rfl, hR _ le_rfl, List.count_replicate_self, hv, zero_add, add_zero]
      · have hgt' : e.key < e'.key := hgt _ ((hr.mem_iff hwr).1 ⟨e', he, rfl⟩)
        rw [ihr hr hwr e' he, hL _ hgt'.le, List.count_replicate, if_neg (by simp [hgt'.ne]),
          zero_add, zero_add]

end Denotes

/-- The samples since the last `Clear`, the latest first. -/
def since (L : List K) : CountCall K → List K
  | .insertOrUpdate key => key :: L
  | .clear => []

/-- The tree that counts, after a call. -/
def counted (T : ATree K) : CountCall K → ATree K
  | .insertOrUpdate key => T.insertOrUpdate key
  | .clear => .nil

/-- The state is a tree that counts the samples `L`. -/
structure Counts (s : ATreeState K W W) (t : BinaryTree (Entry K W W)) (T : ATree K)
    (L : List K) : Prop where
  built : Built SubtreeCount s t
  denotes : Denotes t T
  wf : T.Wf
  perm : T.toList.Perm L

section Run

variable {s : ATreeState K W W} {t : BinaryTree (Entry K W W)} {T : ATree K} {L : List K}

theorem Counts.insertOrUpdate (H : Counts s t T L) (key : K) :
    ∃ s' t', s.insertOrUpdate key subtreeCountVisitor 1 1 = some s'
      ∧ Counts s' t' (T.insertOrUpdate key) (key :: L) := by
  have hw := H.wf.insertOrUpdate key
  have hp := (ATree.toList_insertOrUpdate key T).trans (H.perm.cons key)
  obtain ⟨t', hden, htouch⟩ := H.denotes.insertOrUpdate s.next key []
  rcases hd : descend Entry.key key t [] with ⟨c, t₀⟩
  rw [hd] at htouch
  have hfind := H.built.shows.findInternal (k := key)
  rw [hd] at hfind
  cases t₀ with
  | nil =>
    obtain ⟨s', t₁, hs', hsh, ht₁, hsize, hnum, hf⟩ := insertNew_spec H.built.shows hd (1 : W) 1
      subtreeCountVisitor_sets H.built.fits
    obtain rfl : t₁ = t' := ht₁.trans htouch
    refine ⟨s', t₁, ?_, ⟨hsh, ?_, hf⟩, hden, hw, hp⟩
    · rw [ATreeState.insertOrUpdate, hfind]
      exact hs'
    · rw [hsize, hnum, H.built.size, Nat.cast_succ]
  | node e l r =>
    obtain ⟨s', t₁, hs', hsh, ht₁, hsize, hnum, hf⟩ := visitUpdate_spec H.built.shows hd (1 : W) 1
      subtreeCountVisitor_sets H.built.fits
    obtain rfl : t₁ = t' := ht₁.trans htouch
    refine ⟨s', t₁, ?_, ⟨hsh, ?_, hf⟩, hden, hw, hp⟩
    · rw [ATreeState.insertOrUpdate, hfind]
      exact hs'
    · rw [hsize, hnum, H.built.size]

theorem Counts.clear (H : Counts s t T L) : ∃ s', s.clear = some s' ∧ Counts s' nil .nil [] := by
  obtain ⟨n, hn, -⟩ := H.built.shows.way
  have hroot : Function.update s.nodes kRoot (some { n with left := none }) kRoot
      = some { n with left := none } := Function.update_self ..
  refine ⟨⟨Function.update s.nodes kRoot (some { n with left := none }), s.next, 0⟩, ?_,
    ⟨⟨⟨_, hroot, rfl⟩, trivial, ?_⟩, rfl, trivial⟩, trivial, trivial, .nil⟩
  · simp [ATreeState.clear, setLeft, ATreeState.modify, hn]
  · exact ⟨H.built.shows.arranged.root, .nil, .nil, by simp [cells, toList]⟩

theorem Counts.step (H : Counts s t T L) (e : CountCall K) :
    ∃ s' t', countStep s e = some s' ∧ Counts s' t' (counted T e) (since L e) := by
  cases e with
  | insertOrUpdate key => exact H.insertOrUpdate key
  | clear =>
    obtain ⟨s', h1, h2⟩ := H.clear
    exact ⟨s', _, h1, h2⟩

theorem Counts.run (es : List (CountCall K)) : ∀ {s : ATreeState K W W}
    {t : BinaryTree (Entry K W W)} {T : ATree K} {L : List K}, Counts s t T L →
    ∃ s' t', run countStep s es = some s'
      ∧ Counts s' t' (es.foldl counted T) (es.foldl since L) := by
  induction es with
  | nil => exact fun H => ⟨_, _, rfl, H⟩
  | cons e es ih =>
    intro s t T L H
    obtain ⟨s₁, t₁, h1, H1⟩ := H.step e
    obtain ⟨s', t', h2, H2⟩ := ih H1
    refine ⟨s', t', ?_, H2⟩
    rw [Machine.run, h1, Option.bind_some, h2]

theorem counts_init [Inhabited K] [Inhabited W] :
    Counts (ATreeState.init : ATreeState K W W) nil .nil [] :=
  ⟨built_init, trivial, trivial, .nil⟩

end Run

theorem Counts.getSize {s : ATreeState K W W} {t : BinaryTree (Entry K W W)} {T : ATree K}
    {L : List K} (H : Counts s t T L) : s.getSize = some (L.length : W) := by
  obtain ⟨n, hn, hl⟩ := H.built.shows.way
  rw [ATreeState.getSize, hn, Option.bind_some, hl, childMetadata_ptr H.built.shows.holds,
    Option.map_some, H.denotes.metadata, H.wf.metadata_eq, H.perm.length_eq]

/-- After any calls of `InsertOrUpdate(key, 1, 1)` and `Clear` the tree is a search tree of the
samples since the last `Clear`: a node's value is the number of samples with its key, its metadata
the sum of the values in its subtree. -/
theorem atree_counts [Inhabited K] [Inhabited W] (calls : List (CountCall K)) :
    ∃ (s : ATreeState K W W) (t : BinaryTree (Entry K W W)),
      run countStep ATreeState.init calls = some s ∧ Shows s t ∧ Sorted Entry.key t
      ∧ (∀ e ∈ toList t, e.value = ((calls.foldl since []).count e.key : W)) ∧ Counted t
      ∧ s.getSize = some ((calls.foldl since []).length : W)
      ∧ ∀ k, ∃ o, s.find k = some o ∧ (o ≠ none ↔ k ∈ calls.foldl since []) := by
  obtain ⟨s, t, hrun, H⟩ := (counts_init (K := K) (W := W)).run calls
  have hsh := H.built.shows
  refine ⟨s, t, hrun, hsh, hsh.sorted, fun e he => ?_, (counted_of_fits H.built.fits).1, H.getSize,
    fun k => ?_⟩
  · rw [H.denotes.value_eq H.wf e he, H.perm.count_eq]
  · obtain ⟨o, ho, hv⟩ := hsh.find k
    refine ⟨o, ho, ?_⟩
    rw [← H.perm.mem_iff, ← H.denotes.mem_iff H.wf, Option.ne_none_iff_exists']
    constructor
    · rintro ⟨v, rfl⟩
      have hmem := (hv v).1 rfl
      rw [contents_eq, List.mem_map] at hmem
      obtain ⟨e, he, heq⟩ := hmem
      exact ⟨e, he, congrArg Prod.fst heq⟩
    · rintro ⟨e, he, rfl⟩
      exact ⟨e.value, (hv _).2 (by rw [contents_eq]; exact List.mem_map_of_mem he)⟩

/-! ## Ranks -/

section Ranks

variable {s : ATreeState K ℤ ℤ} {t : BinaryTree (Entry K ℤ ℤ)} {T : ATree K} {L : List K}

omit [LinearOrder K] in
theorem Denotes.isNil (h : Denotes t T) : T.isNil = true ↔ ptr t = none := by
  cases t <;> cases T
  · simp [ATree.isNil, ptr]
  · exact h.elim
  · exact h.elim
  · simp [ATree.isNil, ptr]

omit [LinearOrder K] in
/-- The loop through the nodes is the search by rank in the tree that counts. -/
theorem findRankLoop_eq (hh : Holds s.nodes t) (hd : Denotes t T) : ∀ {f : ℕ},
    t.numNodes ≤ f → ∀ rank : ℤ,
      (((ptr t).bind fun curr => s.findRankLoop f curr rank).bind fun a =>
        (s.nodes a).map fun n => n.key) = T.findRank rank := by
  induction t generalizing T with
  | nil =>
    intro fuel hf rank
    cases T with
    | nil => rfl
    | node => exact hd.elim
  | node e l r ihl ihr =>
    intro fuel hf rank
    cases T with
    | nil => exact hd.elim
    | node L key value metadata R =>
      obtain ⟨rfl, hv, hm, hl, hr⟩ := hd
      obtain ⟨h1, h2, h3⟩ := hh
      unfold numNodes at hf
      obtain ⟨fuel, rfl⟩ : ∃ n, fuel = n + 1 := ⟨fuel - 1, by omega⟩
      have ihl' := ihl h2 hl (f := fuel) (by omega) rank
      have ihr' := ihr h3 hr (f := fuel) (by omega) (rank - (metadata - R.metadata))
      rw [ATree.findRank_node, ptr, Option.bind_some, findRankLoop, h1]
      simp only [Entry.node, childMetadata_ptr h2, childMetadata_ptr h3, Option.bind_some,
        hl.metadata, hr.metadata, hm, hl.isNil, hr.isNil, ← Bool.not_eq_true, ne_eq]
      split_ifs
      · simp [h1, Entry.node]
      · rfl
      · simp [h1, Entry.node]
      · exact ihl'
      · exact ihr'

/-- What the search by rank finds in the tree that counts, the loop finds in memory. -/
theorem Counts.findRankLoop (H : Counts s t T L) {rank : ℤ} {k : K}
    (hk : T.findRank rank = some k) :
    ∃ root curr a n, s.nodes kRoot = some root ∧ root.left = some curr
      ∧ s.findRankLoop s.next curr rank = some a ∧ s.nodes a = some n ∧ n.key = k := by
  have hsh := H.built.shows
  obtain ⟨root, hroot, hl⟩ := hsh.way
  have hlen := hsh.arranged.length_lt
  rw [length_cells] at hlen
  rw [← findRankLoop_eq hsh.holds H.denotes hlen.le rank, Option.bind_eq_some_iff] at hk
  obtain ⟨a, ha, hn⟩ := hk
  obtain ⟨curr, hcurr, hloop⟩ := Option.bind_eq_some_iff.1 ha
  obtain ⟨n, hn, hkey⟩ := Option.map_eq_some_iff.1 hn
  exact ⟨root, curr, a, n, hroot, hl.trans hcurr, hloop, hn, hkey⟩

/-- The samples of the tree are the samples in order. -/
theorem Counts.sorted (H : Counts s t T L) : T.toList = L.mergeSort (· ≤ ·) := by
  have hsort : (L.mergeSort (· ≤ ·)).Pairwise (· ≤ ·) := by
    refine (List.pairwise_mergeSort (fun a b c hab hbc => ?_) (fun a b => ?_) L).imp
      of_decide_eq_true
    · exact decide_eq_true ((of_decide_eq_true hab).trans (of_decide_eq_true hbc))
    · simpa using le_total a b
  exact (H.perm.trans (List.mergeSort_perm L _).symm).eq_of_pairwise
    (fun _ _ _ _ hab hba => le_antisymm hab hba) H.wf.sorted hsort

end Ranks

/-- The loop started with a rank ends, with no assertion failing, at the sample of that rank. -/
theorem find_rank_order_statistic [Inhabited K] (calls : List (CountCall K)) :
    ∃ s : ATreeState K ℤ ℤ, run countStep ATreeState.init calls = some s
      ∧ ∀ r : ℕ, 1 ≤ r → r ≤ (calls.foldl since []).length → ∃ root curr a n,
        s.nodes kRoot = some root ∧ root.left = some curr
          ∧ s.findRankLoop s.next curr r = some a ∧ s.nodes a = some n
          ∧ ((calls.foldl since []).mergeSort (· ≤ ·))[r - 1]? = some n.key := by
  obtain ⟨s, t, hrun, H⟩ := (counts_init (K := K) (W := ℤ)).run calls
  refine ⟨s, hrun, fun r h1 h2 => ?_⟩
  obtain ⟨r, rfl⟩ := Nat.exists_eq_add_of_le' h1
  have hlt : r < (calls.foldl counted .nil).toList.length := by
    rw [H.perm.length_eq]
    omega
  have hspec := H.wf.findRank_spec hlt
  rw [List.getElem?_eq_getElem hlt] at hspec
  obtain ⟨root, curr, a, n, h3, h4, h5, h6, h7⟩ := H.findRankLoop hspec
  refine ⟨root, curr, a, n, h3, h4, by exact_mod_cast h5, h6, ?_⟩
  rw [← H.sorted, Nat.add_sub_cancel, List.getElem?_eq_getElem hlt, h7]

/-! ## Percentiles -/

namespace ATree

/-- The key of the leaf one comes to by going left where there is a left child, and right
elsewhere. -/
def firstLeaf : ATree K → Option K
  | nil => none
  | node left key _ _ right =>
    if left.isNil = true ∧ right.isNil = true then some key
    else if left.isNil = true then right.firstLeaf
    else left.firstLeaf

variable {T : ATree K}

/-- The search for a rank below 1 ends in the first leaf. -/
theorem Wf.findRank_nonpos (h : T.Wf) : ∀ {r : ℤ}, r ≤ 0 → T.findRank r = T.firstLeaf := by
  induction T with
  | nil => exact fun _ => rfl
  | node left key value m right ihl ihr =>
    intro r hr
    obtain ⟨h1, h2, h3, h4, -⟩ := h
    have hskip : ¬ (r ≤ (m : ℤ) - right.metadata ∧ (left.metadata : ℤ) < r) := by omega
    rw [findRank_node, if_neg hskip]
    unfold firstLeaf
    cases hl : left.isNil with
    | false =>
      simp only [Bool.false_eq_true, false_and, if_false, true_and]
      rw [if_pos (by omega)]
      exact ihl h1 hr
    | true =>
      cases hr' : right.isNil with
      | false =>
        simp only [Bool.false_eq_true, Bool.true_eq_false, and_false, false_and, if_false, if_true]
        exact ihr h2 (by omega)
      | true =>
        simp only [and_self, if_true]
        exact if_pos (by omega)

omit [LinearOrder K] in
theorem firstLeaf_nil_iff : T.firstLeaf = none ↔ T.isNil = true := by
  induction T with
  | nil => simp [firstLeaf, isNil]
  | node left key value m right ihl ihr =>
    unfold firstLeaf
    split_ifs with h1 h2
    · simp [isNil]
    · rw [ihr]
      exact ⟨fun h => absurd ⟨h2, h⟩ h1, fun h => by simp [isNil] at h⟩
    · rw [ihl]
      exact ⟨fun h => absurd h h2, fun h => by simp [isNil] at h⟩

theorem Wf.firstLeaf_mem (h : T.Wf) {x : K} (hx : T.firstLeaf = some x) : x ∈ T.toList := by
  induction T with
  | nil => cases hx
  | node left key value m right ihl ihr =>
    obtain ⟨h1, h2, h3, -⟩ := h
    unfold firstLeaf at hx
    simp only [toList, List.mem_append, List.mem_replicate]
    split_ifs at hx
    · exact .inl (.inr ⟨by omega, (Option.some.inj hx).symm⟩)
    · exact .inr (ihr h2 hx)
    · exact .inl (.inl (ihl h1 hx))

end ATree

/-- In a sorted list the elements below a bound come first. -/
theorem getElem_lt_iff {l : List K} (hl : l.Pairwise (· ≤ ·)) (x : K) :
    ∀ {i : ℕ} (hi : i < l.length), l[i] < x ↔ i < l.countP (· < x) := by
  induction l with
  | nil => exact fun hi => absurd hi (Nat.not_lt_zero _)
  | cons a l ih =>
    obtain ⟨ha, hl⟩ := List.pairwise_cons.1 hl
    intro i hi
    by_cases hax : a < x
    · rw [List.countP_cons_of_pos (by simpa using hax)]
      cases i with
      | zero => simp [hax]
      | succ i =>
        rw [List.getElem_cons_succ, ih hl, Nat.succ_lt_succ_iff]
    · have hall : ∀ b ∈ a :: l, ¬ b < x := by
        intro b hb
        rcases List.mem_cons.1 hb with rfl | hb
        · exact hax
        · exact fun h => hax ((ha b hb).trans_lt h)
      have hzero : (a :: l).countP (· < x) = 0 := by
        rw [List.countP_eq_zero]
        exact fun b hb => by simpa using hall b hb
      rw [hzero]
      exact ⟨fun h => absurd h (hall _ (List.getElem_mem hi)),
        fun h => absurd h (Nat.not_lt_zero _)⟩

section Percentiles

variable {s : ATreeState K ℤ ℤ} {t : BinaryTree (Entry K ℤ ℤ)} {T : ATree K} {L : List K}
  {p q : ℚ}

/-- The rank of a percentile is between 0 and the number of samples. -/
theorem percentileRank_bounds (h0 : 0 ≤ p) (h1 : p ≤ 100) {n : ℕ} (hn : 1 ≤ n) :
    0 ≤ percentileRank p n ∧ percentileRank p n ≤ n := by
  unfold percentileRank
  split_ifs
  · omega
  · have hN : (0 : ℚ) ≤ n := Nat.cast_nonneg n
    refine ⟨Int.floor_nonneg.2 (by positivity), ?_⟩
    rw [← Int.floor_natCast (R := ℚ) n]
    refine Int.floor_mono ?_
    exact mul_le_of_le_one_left hN (by linarith)

theorem percentileRank_mono (h0 : 0 < p) (hpq : p ≤ q) (n : ℕ) :
    percentileRank p n ≤ percentileRank q n := by
  unfold percentileRank
  rw [if_neg h0.ne', if_neg (h0.trans_le hpq).ne']
  have hN : (0 : ℚ) ≤ n := Nat.cast_nonneg n
  refine Int.floor_mono ?_
  push_cast
  exact mul_le_mul_of_nonneg_right (by linarith) hN

theorem Counts.findRank (H : Counts s t T L) (hne : L ≠ []) {r : ℤ} (h0 : r ≤ L.length) :
    (∃ x, T.firstLeaf = some x ∧ x ∈ T.toList ∧ (r < 1 → T.findRank r = some x))
      ∧ (1 ≤ r → ∃ x, T.toList[r.toNat - 1]? = some x ∧ T.findRank r = some x) := by
  have hlen := H.perm.length_eq
  constructor
  · have hnil : T.firstLeaf ≠ none := by
      rw [Ne, ATree.firstLeaf_nil_iff]
      intro h
      rw [ATree.toList_of_isNil h, List.length_nil, eq_comm, List.length_eq_zero_iff] at hlen
      exact hne hlen
    obtain ⟨x, hx⟩ := Option.ne_none_iff_exists'.1 hnil
    exact ⟨x, hx, H.wf.firstLeaf_mem hx, fun hr => (H.wf.findRank_nonpos (by omega)).trans hx⟩
  · intro h1
    have hlt : r.toNat - 1 < T.toList.length := by omega
    have hspec := H.wf.findRank_spec hlt
    rw [show ((r.toNat - 1 : ℕ) : ℤ) + 1 = r by omega] at hspec
    exact ⟨_, List.getElem?_eq_getElem hlt, hspec.trans (List.getElem?_eq_getElem hlt)⟩

theorem Counts.findNthPercentile (H : Counts s t T L) (hne : L ≠ []) (h0 : 0 ≤ p) (h1 : p ≤ 100) :
    ∃ k, s.findNthPercentile p = some k ∧ T.findRank (percentileRank p L.length) = some k := by
  have hlen : 1 ≤ L.length := List.length_pos_of_ne_nil hne
  obtain ⟨⟨x, -, -, hx⟩, hin⟩ := H.findRank hne (percentileRank_bounds h0 h1 hlen).2
  obtain ⟨k, hk⟩ : ∃ k, T.findRank (percentileRank p L.length) = some k := by
    rcases lt_or_ge (percentileRank p L.length) 1 with hr | hr
    · exact ⟨x, hx hr⟩
    · obtain ⟨y, -, hy⟩ := hin hr
      exact ⟨y, hy⟩
  obtain ⟨root, curr, a, n, h2, h3, h4, h5, rfl⟩ := H.findRankLoop hk
  refine ⟨n.key, ?_, hk⟩
  unfold ATreeState.findNthPercentile
  rw [if_neg (by rintro (h | h) <;> linarith), h2, Option.bind_some, h3, Option.bind_some,
    H.getSize, Option.bind_some]
  rw [h4, Option.bind_some, h5, Option.map_some]

/-- A rank of 1 or more is one of a percentile that is 0 or high enough. -/
theorem one_le_percentileRank (h0 : p ≠ 0) (n : ℕ) :
    1 ≤ percentileRank p n ↔ 1 ≤ p / 100 * n := by
  unfold percentileRank
  rw [if_neg h0, Int.le_floor]
  norm_num

/-- The keys of two ranks, 0 among them, in the order of the tree. -/
theorem Counts.findRank_le_iff (H : Counts s t T L) (hne : L ≠ []) {i j : ℤ} (hij : i ≤ j)
    (hj : j ≤ L.length) {a b : K} (ha : T.findRank i = some a) (hb : T.findRank j = some b) :
    a ≤ b ↔ 1 ≤ i ∨ j < 1 ∨ ∀ x ∈ T.firstLeaf, ((L.countP (· < x) : ℕ) : ℤ) < j := by
  obtain ⟨⟨x, hx, -, hlow⟩, hi⟩ := H.findRank hne (hij.trans hj)
  obtain ⟨⟨x', hx', -, hlow'⟩, hin⟩ := H.findRank hne hj
  obtain rfl : x = x' := Option.some.inj (hx.symm.trans hx')
  rcases lt_or_ge i 1 with h1 | h1
  · obtain rfl : a = x := Option.some.inj (ha.symm.trans (hlow h1))
    rcases lt_or_ge j 1 with h2 | h2
    · obtain rfl : b = a := Option.some.inj (hb.symm.trans (hlow' h2))
      exact ⟨fun _ => .inr (.inl h2), fun _ => le_rfl⟩
    · obtain ⟨y, hy, hb'⟩ := hin h2
      obtain rfl := Option.some.inj (hb.symm.trans hb')
      obtain ⟨hlt, rfl⟩ := List.getElem?_eq_some_iff.1 hy
      rw [← not_lt, getElem_lt_iff H.wf.sorted a hlt, H.perm.countP_eq]
      constructor
      · intro h
        refine .inr (.inr fun y hy => ?_)
        obtain rfl : a = y := Option.some.inj (hx.symm.trans hy)
        omega
      · rintro (h | h | h)
        · omega
        · omega
        · have := h a hx
          omega
  · obtain ⟨y, hy, ha'⟩ := hi h1
    obtain rfl := Option.some.inj (ha.symm.trans ha')
    obtain ⟨hlt, rfl⟩ := List.getElem?_eq_some_iff.1 hy
    obtain ⟨z, hz, hb'⟩ := hin (h1.trans hij)
    obtain rfl := Option.some.inj (hb.symm.trans hb')
    obtain ⟨hlt', rfl⟩ := List.getElem?_eq_some_iff.1 hz
    refine ⟨fun _ => .inl h1, fun _ => ?_⟩
    rcases (show i.toNat - 1 ≤ j.toNat - 1 by omega).eq_or_lt with he | hl
    · exact le_of_eq (by simp only [he])
    · exact List.pairwise_iff_getElem.1 H.wf.sorted _ _ _ _ hl

end Percentiles

/-- A greater percentile has no smaller key, but where the smaller one is above 0 and has rank 0,
and there are as many samples before the first leaf as the rank of the greater one. -/
theorem percentile_monotone [Inhabited K] (calls : List (CountCall K))
    (hne : calls.foldl since [] ≠ []) (p q : ℚ) (h0 : 0 ≤ p) (hpq : p ≤ q) (h100 : q ≤ 100) :
    ∃ (s : ATreeState K ℤ ℤ) (kp kq : K), run countStep ATreeState.init calls = some s
      ∧ s.findNthPercentile p = some kp ∧ s.findNthPercentile q = some kq
      ∧ (kp ≤ kq ↔ p = 0 ∨ 1 ≤ p / 100 * (calls.foldl since []).length
        ∨ q / 100 * (calls.foldl since []).length < 1
        ∨ ∀ x ∈ (calls.foldl counted .nil).firstLeaf,
          (((calls.foldl since []).countP (· < x) : ℕ) : ℤ)
            < ⌊q / 100 * (calls.foldl since []).length⌋) := by
  obtain ⟨s, t, hrun, H⟩ := (counts_init (K := K) (W := ℤ)).run calls
  generalize calls.foldl since [] = L at *
  generalize calls.foldl counted .nil = T at *
  have hlen : 1 ≤ L.length := List.length_pos_of_ne_nil hne
  have hq0 : 0 ≤ q := h0.trans hpq
  obtain ⟨kp, hp, hfp⟩ := H.findNthPercentile hne h0 (hpq.trans h100)
  obtain ⟨kq, hq, hfq⟩ := H.findNthPercentile hne hq0 h100
  refine ⟨s, kp, kq, hrun, hp, hq, ?_⟩
  have hbq := percentileRank_bounds hq0 h100 hlen
  by_cases hpz : p = 0
  · -- the rank of 0 is 1, and no key of the tree is below the one of rank 1
    refine iff_of_true ?_ (.inl hpz)
    have hrank : percentileRank p L.length = 1 := if_pos hpz
    rw [hrank] at hfp
    obtain ⟨-, hone⟩ := H.findRank hne (r := 1) (by omega)
    obtain ⟨y, hy, hone⟩ := hone le_rfl
    obtain rfl := Option.some.inj (hfp.symm.trans hone)
    obtain ⟨hlt, rfl⟩ := List.getElem?_eq_some_iff.1 hy
    have hmin : ∀ b ∈ T.toList, T.toList[(1 : ℤ).toNat - 1] ≤ b := by
      intro b hb
      obtain ⟨i, hi, rfl⟩ := List.getElem_of_mem hb
      rcases Nat.eq_zero_or_pos i with rfl | hi0
      · exact le_rfl
      · exact List.pairwise_iff_getElem.1 H.wf.sorted _ _ _ _ hi0
    obtain ⟨⟨x, -, hmem, hlow⟩, hin⟩ := H.findRank hne hbq.2
    rcases lt_or_ge (percentileRank q L.length) 1 with h1 | h1
    · obtain rfl := Option.some.inj (hfq.symm.trans (hlow h1))
      exact hmin _ hmem
    · obtain ⟨z, hz, hb⟩ := hin h1
      obtain rfl := Option.some.inj (hfq.symm.trans hb)
      obtain ⟨hlt', rfl⟩ := List.getElem?_eq_some_iff.1 hz
      exact hmin _ (List.getElem_mem _)
  · have hqz : q ≠ 0 := ((lt_of_le_of_ne h0 (Ne.symm hpz)).trans_le hpq).ne'
    rw [H.findRank_le_iff hne
      (percentileRank_mono (lt_of_le_of_ne h0 (Ne.symm hpz)) hpq _) hbq.2 hfp hfq,
      one_le_percentileRank hpz, ← not_le, one_le_percentileRank hqz, not_le]
    have hfloor : percentileRank q L.length = ⌊q / 100 * (L.length : ℚ)⌋ := by
      unfold percentileRank
      rw [if_neg hqz]
      norm_num
    rw [hfloor]
    exact ⟨.inr, fun h => h.resolve_left hpz⟩

theorem percentile_monotone_two :
    [CountCall.insertOrUpdate 1, .insertOrUpdate 2].foldl since ([] : List ℕ) ≠ []
      ∧ ∃ (s : ATreeState ℕ ℤ ℤ) (kp kq : ℕ),
        run countStep ATreeState.init [.insertOrUpdate 1, .insertOrUpdate 2] = some s
          ∧ s.findNthPercentile 50 = some kp ∧ s.findNthPercentile 100 = some kq
          ∧ (kp ≤ kq ↔ (50 : ℚ) = 0 ∨ 1 ≤ (50 : ℚ) / 100
              * ([CountCall.insertOrUpdate 1, .insertOrUpdate 2].foldl since ([] : List ℕ)).length
            ∨ (100 : ℚ) / 100
              * ([CountCall.insertOrUpdate 1, .insertOrUpdate 2].foldl since ([] : List ℕ)).length
                < 1
            ∨ ∀ x ∈ ([CountCall.insertOrUpdate 1, .insertOrUpdate 2].foldl counted .nil).firstLeaf,
              ((([CountCall.insertOrUpdate 1, .insertOrUpdate 2].foldl since
                ([] : List ℕ)).countP (· < x) : ℕ) : ℤ)
                < ⌊(100 : ℚ) / 100 * ([CountCall.insertOrUpdate 1, .insertOrUpdate 2].foldl since
                  ([] : List ℕ)).length⌋) :=
  ⟨by decide, percentile_monotone _ (by decide) 50 100 (by norm_num) (by norm_num) (by norm_num)⟩

/-- Of the samples 1 and 2 the percentile 10 has key 2 and the percentile 50 key 1. -/
theorem percentile_not_monotone :
    ∃ s : ATreeState ℕ ℤ ℤ,
      run countStep ATreeState.init [.insertOrUpdate 1, .insertOrUpdate 2] = some s
        ∧ s.findNthPercentile 10 = some 2 ∧ s.findNthPercentile 50 = some 1
        ∧ ¬ ∀ p q : ℚ, 0 ≤ p → p ≤ q → q ≤ 100 →
          ∀ kp ∈ s.findNthPercentile p, ∀ kq ∈ s.findNthPercentile q, kp ≤ kq := by
  have h : ((run countStep ATreeState.init [.insertOrUpdate 1, .insertOrUpdate 2]).map
      fun s : ATreeState ℕ ℤ ℤ => (s.findNthPercentile 10, s.findNthPercentile 50))
        = some (some 2, some 1) := by
    decide +kernel
  obtain ⟨s, hs, hk⟩ := Option.map_eq_some_iff.1 h
  obtain ⟨h10, h50⟩ := Prod.mk.injEq .. ▸ hk
  refine ⟨s, hs, h10, h50, fun hall => ?_⟩
  exact absurd (hall 10 50 (by norm_num) (by norm_num) (by norm_num) 2 h10 1 h50) (by decide)

end Rome
