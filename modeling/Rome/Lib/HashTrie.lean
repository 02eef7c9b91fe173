import Mathlib

/-!
# Hash tries with shared nodes

A hash trie is a forest of nodes whose buckets are empty, hold a leaf of key/value pairs, or lead
to a further node; a key goes, from the root on, into the bucket its hash names at each depth.
Buckets only ever go from empty to a leaf to a node (`Slot.Le`), so a path once there stays.

`Represents` says which finite map a trie stores. It is kept, with the map changed accordingly, by
putting a leaf in an empty bucket (`Represents.fill`), by rewriting a leaf (`Represents.store`)
and by replacing a leaf by a node over which its pairs are spread (`Represents.split`).
-/

namespace HashTrie

variable {P K V : Type*}

section Pairs

variable [DecidableEq K]

/-- In pairs of distinct keys a key is looked up to the value it is paired with. -/
theorem lookup_eq_some {k : K} {v : V} : ∀ {l : List (K × V)}, (l.map Prod.fst).Nodup →
    (l.lookup k = some v ↔ (k, v) ∈ l)
  | [], _ => by simp
  | x :: l, hn => by
    simp only [List.map_cons, List.nodup_cons] at hn
    rw [List.lookup_cons]
    rcases eq_or_ne k x.1 with rfl | hk
    · have hx : (x.1, v) ∉ l := fun hm =>
        hn.1 (List.mem_map.2 ⟨_, hm, rfl⟩)
      simp [hx, Prod.ext_iff, eq_comm]
    · simp [beq_eq_false_iff_ne.2 hk, lookup_eq_some hn.2, Prod.ext_iff, hk]

theorem lookup_perm {l l' : List (K × V)} (hn : (l.map Prod.fst).Nodup) (hp : l.Perm l') (k : K) :
    l.lookup k = l'.lookup k := by
  have hn' : (l'.map Prod.fst).Nodup := (hp.map _).nodup_iff.1 hn
  ext v
  rw [lookup_eq_some hn, lookup_eq_some hn', hp.mem_iff]

theorem lookup_filter {k : K} {f : K → Bool} (hk : f k = true) :
    ∀ l : List (K × V), (l.filter fun x => f x.1).lookup k = l.lookup k
  | [] => rfl
  | x :: l => by
    rw [List.filter_cons, List.lookup_cons]
    rcases eq_or_ne k x.1 with rfl | hx
    · rw [if_pos hk, List.lookup_cons]
      simp
    · rw [beq_eq_false_iff_ne.2 hx]
      split_ifs
      · rw [List.lookup_cons, beq_eq_false_iff_ne.2 hx, lookup_filter hk l]
      · rw [lookup_filter hk l]

/-- Appending a pair of a new key. -/
theorem lookup_append_pair {l : List (K × V)} {k : K} (v : V) (hn : (l.map Prod.fst).Nodup)
    (hk : l.lookup k = none) :
    ((l ++ [(k, v)]).map Prod.fst).Nodup ∧ (l ++ [(k, v)]).lookup k = some v
      ∧ ∀ k', k' ≠ k → (l ++ [(k, v)]).lookup k' = l.lookup k' := by
  have hmem : k ∉ l.map Prod.fst := by
    rintro hm
    obtain ⟨x, hx, rfl⟩ := List.mem_map.1 hm
    simpa using List.lookup_eq_none_iff.1 hk x hx
  refine ⟨?_, by simp [List.lookup_append, hk], fun k' hk' => ?_⟩
  · simp only [List.map_append, List.map_cons, List.map_nil]
    exact List.nodup_append.2 ⟨hn, by simp, by simpa using fun a b hab hc => hmem (by
      rw [← hc]; exact List.mem_map.2 ⟨_, hab, rfl⟩)⟩
  · rw [List.lookup_append, List.lookup_cons, beq_eq_false_iff_ne.2 hk']
    simp

/-- Taking out the pair of a key. -/
theorem lookup_of_perm_cons {l l' : List (K × V)} {k : K} {v : V} (hn : (l.map Prod.fst).Nodup)
    (hp : l.Perm ((k, v) :: l')) :
    (l'.map Prod.fst).Nodup ∧ l'.lookup k = none ∧ ∀ k', k' ≠ k → l'.lookup k' = l.lookup k' := by
  have hn' : (((k, v) :: l').map Prod.fst).Nodup := (hp.map _).nodup_iff.1 hn
  simp only [List.map_cons, List.nodup_cons] at hn'
  refine ⟨hn'.2, List.lookup_eq_none_iff.2 fun x hx => ?_, fun k' hk' => ?_⟩
  · refine bne_iff_ne.2 ?_
    rintro rfl
    exact hn'.1 (List.mem_map_of_mem hx)
  · rw [lookup_perm hn hp, List.lookup_cons, beq_eq_false_iff_ne.2 hk']

end Pairs

/-- What a bucket holds. -/
inductive Slot (P : Type*)
  | empty
  | leaf (e : P)
  | node (q : P)
  deriving DecidableEq

/-- A bucket can come to hold `t` after it held `s`. -/
def Slot.Le : Slot P → Slot P → Prop
  | .empty, _ => True
  | .leaf e, t => t = .leaf e ∨ ∃ q, t = .node q
  | .node q, t => t = .node q

theorem Slot.Le.refl (s : Slot P) : s.Le s := by
  cases s <;> simp [Slot.Le]

/-- The buckets of each node and the pairs of each leaf. -/
structure Trie (P K V : Type*) where
  slot : P → ℕ → Slot P
  elems : P → List (K × V)

/-- Every bucket of `T'` can come after that of `T`. -/
def Trie.Le (T T' : Trie P K V) : Prop := ∀ p b, (T.slot p b).Le (T'.slot p b)

theorem Trie.Le.refl (T : Trie P K V) : T.Le T := fun _ _ => Slot.Le.refl _

variable (h : K → ℕ → ℕ) (root : P)

/-- The node `p` is the one at depth `d` on the way of `k` from the root. -/
inductive OnPath (T : Trie P K V) (k : K) : P → ℕ → Prop
  | root : OnPath T k root 1
  | child {p q : P} {d : ℕ} : OnPath T k p d → T.slot p (h k d) = .node q → OnPath T k q (d + 1)

/-- Each node and each leaf is in one bucket at most, and the root in none. -/
structure Shape (T : Trie P K V) : Prop where
  root_ne : ∀ p b, T.slot p b ≠ .node root
  node_inj : ∀ p b p' b' q, T.slot p b = .node q → T.slot p' b' = .node q → p = p' ∧ b = b'
  leaf_inj : ∀ p b p' b' e, T.slot p b = .leaf e → T.slot p' b' = .leaf e → p = p' ∧ b = b'

/-- The trie stores the map `m`, each pair of a leaf on the way of its key. -/
structure Represents [DecidableEq K] (T : Trie P K V) (m : K → Option V) : Prop
    extends Shape root T where
  nodup : ∀ p b e, T.slot p b = .leaf e → ((T.elems e).map Prod.fst).Nodup
  empty : ∀ k p d, OnPath h root T k p d → T.slot p (h k d) = .empty → m k = none
  leaf : ∀ k p d e, OnPath h root T k p d → T.slot p (h k d) = .leaf e →
    m k = (T.elems e).lookup k
  placed : ∀ p b e, T.slot p b = .leaf e → ∀ x ∈ T.elems e,
    ∃ d, OnPath h root T x.1 p d ∧ h x.1 d = b

variable {h root} {T T' : Trie P K V} {m : K → Option V}

theorem OnPath.mono {k : K} {p : P} {d : ℕ} (hp : OnPath h root T k p d) (hT : T.Le T') :
    OnPath h root T' k p d := by
  induction hp with
  | root => exact .root
  | @child p q d _ hs ih =>
    have := hT p (h k d)
    rw [hs] at this
    exact .child ih this

theorem OnPath.one_le {k : K} {p : P} {d : ℕ} (hp : OnPath h root T k p d) : 1 ≤ d := by
  cases hp <;> omega

/-- A node is on every way at the same depth. -/
theorem OnPath.depth_eq (hS : Shape root T) {k k' : K} {p : P} {d d' : ℕ}
    (hp : OnPath h root T k p d) (hp' : OnPath h root T k' p d') : d = d' := by
  induction hp generalizing d' with
  | root =>
    cases hp' with
    | root => rfl
    | child _ hs => exact absurd hs (hS.root_ne _ _)
  | child _ hs ih =>
    cases hp' with
    | root => exact absurd hs (hS.root_ne _ _)
    | child hp₁ hs₁ =>
      obtain ⟨rfl, -⟩ := hS.node_inj _ _ _ _ _ hs hs₁
      rw [ih hp₁]

/-- A node on a way is the root or in a bucket. -/
theorem OnPath.ref {k : K} {p : P} {d : ℕ} (hp : OnPath h root T k p d) :
    p = root ∨ ∃ p' b, T.slot p' b = .node p := by
  cases hp with
  | root => exact .inl rfl
  | child _ hs => exact .inr ⟨_, _, hs⟩

/-- The ways of a trie that differs from `T` in no bucket that leads to a node. -/
theorem OnPath.congr (hT : ∀ p b q, T.slot p b = .node q ↔ T'.slot p b = .node q) {k : K} {p : P}
    {d : ℕ} : OnPath h root T k p d ↔ OnPath h root T' k p d := by
  constructor
  · intro hp
    induction hp with
    | root => exact .root
    | child _ hs ih => exact .child ih ((hT _ _ _).1 hs)
  · intro hp
    induction hp with
    | root => exact .root
    | child _ hs ih => exact .child ih ((hT _ _ _).2 hs)

/-- The way of a key is one node at each depth. -/
theorem OnPath.eq_of_depth {k : K} {p p' : P} {d : ℕ} (hp : OnPath h root T k p d)
    (hp' : OnPath h root T k p' d) : p = p' := by
  induction hp generalizing p' with
  | root =>
    cases hp' with
    | root => rfl
    | child hp₁ _ => exact absurd hp₁.one_le (by omega)
  | child hp₁ hs ih =>
    cases hp' with
    | root => exact absurd hp₁.one_le (by omega)
    | child hp₂ hs₂ =>
      rw [ih hp₂, hs₂] at hs
      exact (Slot.node.inj hs).symm

/-- The way of a key goes no deeper than a bucket that leads to no node. -/
theorem OnPath.le_of_stop {k : K} {p p' : P} {d d' : ℕ} (hp : OnPath h root T k p d)
    (hs : ∀ q, T.slot p (h k d) ≠ .node q) (hp' : OnPath h root T k p' d') : d' ≤ d := by
  induction hp' with
  | root => exact hp.one_le
  | @child p₁ q d₁ hp₁ hs₁ ih =>
    rcases Nat.lt_or_ge d₁ d with hlt | hge
    · exact hlt
    · obtain rfl : d₁ = d := by omega
      rw [hp₁.eq_of_depth hp] at hs₁
      exact absurd hs₁ (hs q)

/-- The way of a key ends in one bucket. -/
theorem OnPath.stop_eq {k : K} {p p' : P} {d d' : ℕ} (hp : OnPath h root T k p d)
    (hs : ∀ q, T.slot p (h k d) ≠ .node q) (hp' : OnPath h root T k p' d')
    (hs' : ∀ q, T.slot p' (h k d') ≠ .node q) : p' = p ∧ d' = d := by
  obtain rfl : d' = d := Nat.le_antisymm (hp.le_of_stop hs hp') (hp'.le_of_stop hs' hp)
  exact ⟨hp'.eq_of_depth hp, rfl⟩

/-- The trie of an empty root. -/
def Trie.init : Trie P K V := ⟨fun _ _ => .empty, fun _ => []⟩

section Updates

variable [DecidableEq P]

/-- The bucket `b` of `p` holds `s`. -/
def Trie.setSlot (T : Trie P K V) (p : P) (b : ℕ) (s : Slot P) : Trie P K V :=
  { T with slot := fun p' b' => if p' = p ∧ b' = b then s else T.slot p' b' }

/-- The leaf `e` holds `l`. -/
def Trie.setElems (T : Trie P K V) (e : P) (l : List (K × V)) : Trie P K V :=
  { T with elems := Function.update T.elems e l }

/-- The node `q` takes the place of the leaf in bucket `b` of `p`, its buckets being `s` and the
leaves holding `c`. -/
def Trie.split (T : Trie P K V) (p : P) (b : ℕ) (q : P) (s : ℕ → Slot P) (c : P → List (K × V)) :
    Trie P K V where
  slot p' b' := if p' = p ∧ b' = b then .node q else if p' = q then s b' else T.slot p' b'
  elems := c

@[simp] theorem Trie.setSlot_slot_self (p : P) (b : ℕ) (s : Slot P) :
    (T.setSlot p b s).slot p b = s := by
  simp [Trie.setSlot]

theorem Trie.setSlot_slot_ne {p p' : P} {b b' : ℕ} {s : Slot P} (hne : ¬ (p' = p ∧ b' = b)) :
    (T.setSlot p b s).slot p' b' = T.slot p' b' := by
  simp [Trie.setSlot, hne]

@[simp] theorem Trie.setSlot_elems (p : P) (b : ℕ) (s : Slot P) :
    (T.setSlot p b s).elems = T.elems := rfl

@[simp] theorem Trie.setElems_slot (e : P) (l : List (K × V)) :
    (T.setElems e l).slot = T.slot := rfl

@[simp] theorem Trie.setElems_elems (e : P) (l : List (K × V)) :
    (T.setElems e l).elems = Function.update T.elems e l := rfl

theorem Trie.le_setElems (e : P) (l : List (K × V)) : T.Le (T.setElems e l) :=
  fun _ _ => Slot.Le.refl _

theorem Trie.le_setSlot_leaf {p e : P} {b : ℕ} (hs : T.slot p b = .empty) :
    T.Le (T.setSlot p b (.leaf e)) := by
  intro p' b'
  by_cases hpb : p' = p ∧ b' = b
  · obtain ⟨rfl, rfl⟩ := hpb
    rw [hs]
    trivial
  · rw [Trie.setSlot_slot_ne hpb]
    exact Slot.Le.refl _

theorem Trie.le_split {p e q : P} {b : ℕ} {s : ℕ → Slot P} {c : P → List (K × V)}
    (hs : T.slot p b = .leaf e) (hq : ∀ b', T.slot q b' = .empty) : T.Le (T.split p b q s c) := by
  intro p' b'
  simp only [Trie.split]
  split_ifs with h1 h2
  · obtain ⟨rfl, rfl⟩ := h1
    rw [hs]
    exact .inr ⟨q, rfl⟩
  · subst h2
    rw [hq]
    trivial
  · exact Slot.Le.refl _

theorem onPath_setElems {k : K} {p e : P} {d : ℕ} {l : List (K × V)} :
    OnPath h root (T.setElems e l) k p d ↔ OnPath h root T k p d := by
  refine OnPath.congr fun _ _ _ => ?_
  rw [Trie.setElems_slot]

theorem onPath_setSlot_leaf {k : K} {p p' e : P} {b d : ℕ} (hs : T.slot p b = .empty) :
    OnPath h root (T.setSlot p b (.leaf e)) k p' d ↔ OnPath h root T k p' d := by
  refine OnPath.congr fun p₁ b₁ q => ?_
  by_cases hpb : p₁ = p ∧ b₁ = b
  · obtain ⟨rfl, rfl⟩ := hpb
    simp [hs]
  · rw [Trie.setSlot_slot_ne hpb]

end Updates

section Represents

variable [DecidableEq K]

theorem represents_init : Represents h root (Trie.init : Trie P K V) (fun _ => none) where
  root_ne _ _ := by simp [Trie.init]
  node_inj _ _ _ _ _ hs := by simp [Trie.init] at hs
  leaf_inj _ _ _ _ _ hs := by simp [Trie.init] at hs
  nodup _ _ _ hs := by simp [Trie.init] at hs
  empty _ _ _ _ _ := rfl
  leaf _ _ _ _ _ hs := by simp [Trie.init] at hs
  placed _ _ _ hs := by simp [Trie.init] at hs

variable [DecidableEq P]

/-- Rewriting the leaf `k` is led to, so that no other key is looked up otherwise. -/
theorem Represents.store (hR : Represents h root T m) {k : K} {p e : P} {d : ℕ}
    {l : List (K × V)} (hp : OnPath h root T k p d) (hs : T.slot p (h k d) = .leaf e)
    (hn : (l.map Prod.fst).Nodup) (hl : ∀ k', k' ≠ k → l.lookup k' = (T.elems e).lookup k') :
    Represents h root (T.setElems e l) (Function.update m k (l.lookup k)) where
  toShape := ⟨hR.root_ne, hR.node_inj, hR.leaf_inj⟩
  nodup p' b' e' hs' := by
    by_cases he : e' = e
    · subst he
      simpa using hn
    · simpa [Function.update_of_ne he] using hR.nodup p' b' e' hs'
  empty k' p' d' hp' hs' := by
    rw [onPath_setElems] at hp'
    rw [Trie.setElems_slot] at hs'
    have hk : k' ≠ k := by
      rintro rfl
      obtain ⟨rfl, rfl⟩ := hp.stop_eq (by simp [hs]) hp' (by simp [hs'])
      rw [hs] at hs'
      cases hs'
    rw [Function.update_of_ne hk]
    exact hR.empty k' p' d' hp' hs'
  leaf k' p' d' e' hp' hs' := by
    rw [onPath_setElems] at hp'
    rw [Trie.setElems_slot] at hs'
    rw [Trie.setElems_elems]
    by_cases hk : k' = k
    · subst hk
      obtain ⟨rfl, rfl⟩ := hp.stop_eq (by simp [hs]) hp' (by simp [hs'])
      rw [hs] at hs'
      cases hs'
      simp
    · rw [Function.update_of_ne hk]
      by_cases he : e' = e
      · subst he
        rw [Function.update_self, hl k' hk]
        exact hR.leaf k' p' d' e' hp' hs'
      · rw [Function.update_of_ne he]
        exact hR.leaf k' p' d' e' hp' hs'
  placed p' b' e' hs' x hx := by
    rw [Trie.setElems_slot] at hs'
    rw [Trie.setElems_elems] at hx
    by_cases he : e' = e
    · subst he
      obtain ⟨rfl, rfl⟩ := hR.leaf_inj _ _ _ _ _ hs hs'
      rw [Function.update_self] at hx
      by_cases hk : x.1 = k
      · exact ⟨d, onPath_setElems.2 (by rw [hk]; exact hp), by rw [hk]⟩
      · have hx' : x ∈ T.elems e' := by
          rw [← lookup_eq_some (hR.nodup _ _ _ hs), ← hl x.1 hk, lookup_eq_some hn]
          exact hx
        obtain ⟨d', h1, h2⟩ := hR.placed _ _ _ hs x hx'
        exact ⟨d', onPath_setElems.2 h1, h2⟩
    · rw [Function.update_of_ne he] at hx
      obtain ⟨d', h1, h2⟩ := hR.placed _ _ _ hs' x hx
      exact ⟨d', onPath_setElems.2 h1, h2⟩

/-- Putting a leaf that is in no bucket, with the one pair `(k, v)`, in the empty bucket `k` is led
to. -/
theorem Represents.fill (hR : Represents h root T m) {k : K} {v : V} {p e : P} {d : ℕ}
    (hp : OnPath h root T k p d) (hs : T.slot p (h k d) = .empty)
    (he : ∀ p' b', T.slot p' b' ≠ .leaf e) :
    Represents h root ((T.setElems e [(k, v)]).setSlot p (h k d) (.leaf e))
      (Function.update m k (some v)) where
  root_ne p' b' := by
    by_cases hpb : p' = p ∧ b' = h k d
    · obtain ⟨rfl, rfl⟩ := hpb
      simp
    · rw [Trie.setSlot_slot_ne hpb]
      exact hR.root_ne p' b'
  node_inj p₁ b₁ p₂ b₂ q h₁ h₂ := by
    by_cases hpb : p₁ = p ∧ b₁ = h k d
    · obtain ⟨rfl, rfl⟩ := hpb
      simp at h₁
    · by_cases hpb' : p₂ = p ∧ b₂ = h k d
      · obtain ⟨rfl, rfl⟩ := hpb'
        simp at h₂
      · rw [Trie.setSlot_slot_ne hpb] at h₁
        rw [Trie.setSlot_slot_ne hpb'] at h₂
        exact hR.node_inj _ _ _ _ _ h₁ h₂
  leaf_inj p₁ b₁ p₂ b₂ e' h₁ h₂ := by
    by_cases hpb : p₁ = p ∧ b₁ = h k d
    · by_cases hpb' : p₂ = p ∧ b₂ = h k d
      · exact ⟨hpb.1.trans hpb'.1.symm, hpb.2.trans hpb'.2.symm⟩
      · obtain ⟨rfl, rfl⟩ := hpb
        rw [Trie.setSlot_slot_self] at h₁
        rw [Trie.setSlot_slot_ne hpb'] at h₂
        cases h₁
        exact absurd h₂ (he _ _)
    · rw [Trie.setSlot_slot_ne hpb] at h₁
      by_cases hpb' : p₂ = p ∧ b₂ = h k d
      · obtain ⟨rfl, rfl⟩ := hpb'
        rw [Trie.setSlot_slot_self] at h₂
        cases h₂
        exact absurd h₁ (he _ _)
      · rw [Trie.setSlot_slot_ne hpb'] at h₂
        exact hR.leaf_inj _ _ _ _ _ h₁ h₂
  nodup p' b' e' hs' := by
    by_cases hpb : p' = p ∧ b' = h k d
    · obtain ⟨rfl, rfl⟩ := hpb
      rw [Trie.setSlot_slot_self] at hs'
      cases hs'
      simp
    · rw [Trie.setSlot_slot_ne hpb] at hs'
      have hne : e' ≠ e := by rintro rfl; exact he _ _ hs'
      simpa [Function.update_of_ne hne] using hR.nodup p' b' e' hs'
  empty k' p' d' hp' hs' := by
    rw [onPath_setSlot_leaf (by exact hs), onPath_setElems] at hp'
    by_cases hpb : p' = p ∧ h k' d' = h k d
    · rw [hpb.1, hpb.2, Trie.setSlot_slot_self] at hs'
      cases hs'
    · rw [Trie.setSlot_slot_ne hpb] at hs'
      have hk : k' ≠ k := by
        rintro rfl
        obtain ⟨rfl, rfl⟩ := hp.stop_eq (by simp [hs]) hp' (by simp [show T.slot p' _ = _ from hs'])
        exact hpb ⟨rfl, rfl⟩
      rw [Function.update_of_ne hk]
      exact hR.empty k' p' d' hp' hs'
  leaf k' p' d' e' hp' hs' := by
    rw [onPath_setSlot_leaf (by exact hs), onPath_setElems] at hp'
    by_cases hpb : p' = p ∧ h k' d' = h k d
    · rw [hpb.1, hpb.2, Trie.setSlot_slot_self] at hs'
      cases hs'
      by_cases hk : k' = k
      · subst hk
        simp
      · rw [Function.update_of_ne hk]
        obtain ⟨rfl, hb⟩ := hpb
        rw [hR.empty k' p' d' hp' (by rw [hb]; exact hs)]
        simp [List.lookup, beq_eq_false_iff_ne.2 hk]
    · rw [Trie.setSlot_slot_ne hpb] at hs'
      have hne : e' ≠ e := by rintro rfl; exact he _ _ hs'
      have hk : k' ≠ k := by
        rintro rfl
        obtain ⟨rfl, rfl⟩ := hp.stop_eq (by simp [hs]) hp' (by simp [show T.slot p' _ = _ from hs'])
        exact hpb ⟨rfl, rfl⟩
      rw [Function.update_of_ne hk, Trie.setSlot_elems, Trie.setElems_elems,
        Function.update_of_ne hne]
      exact hR.leaf k' p' d' e' hp' hs'
  placed p' b' e' hs' x hx := by
    have hpath : ∀ {k' p₁ d₁}, OnPath h root T k' p₁ d₁ →
        OnPath h root ((T.setElems e [(k, v)]).setSlot p (h k d) (.leaf e)) k' p₁ d₁ := by
      intro k' p₁ d₁ h1
      rw [onPath_setSlot_leaf (by exact hs), onPath_setElems]
      exact h1
    rw [Trie.setSlot_elems, Trie.setElems_elems] at hx
    by_cases hpb : p' = p ∧ b' = h k d
    · obtain ⟨rfl, rfl⟩ := hpb
      rw [Trie.setSlot_slot_self] at hs'
      cases hs'
      rw [Function.update_self, List.mem_singleton] at hx
      subst hx
      exact ⟨d, hpath hp, rfl⟩
    · rw [Trie.setSlot_slot_ne hpb, Trie.setElems_slot] at hs'
      have hne : e' ≠ e := by rintro rfl; exact he _ _ hs'
      rw [Function.update_of_ne hne] at hx
      obtain ⟨d', h1, h2⟩ := hR.placed _ _ _ hs' x hx
      exact ⟨d', hpath h1, h2⟩

/-- What the buckets `s` of a node put in the place of the leaf `e` at depth `d` hold. -/
structure Spread (h : K → ℕ → ℕ) (T : Trie P K V) (e : P) (d : ℕ) (s : ℕ → Slot P)
    (c : P → List (K × V)) : Prop where
  node : ∀ b q, s b ≠ .node q
  new : ∀ b e' p' b', s b = .leaf e' → T.slot p' b' ≠ .leaf e'
  inj : ∀ b b' e', s b = .leaf e' → s b' = .leaf e' → b = b'
  nodup : ∀ b e', s b = .leaf e' → ((c e').map Prod.fst).Nodup
  leaf : ∀ b e' k, s b = .leaf e' → h k (d + 1) = b → (c e').lookup k = (T.elems e).lookup k
  empty : ∀ b k, s b = .empty → h k (d + 1) = b → (T.elems e).lookup k = none
  frame : ∀ p' b' e', T.slot p' b' = .leaf e' → e' ≠ e → c e' = T.elems e'
  only : ∀ b e', s b = .leaf e' → ∀ x ∈ c e', h x.1 (d + 1) = b ∧ x ∈ T.elems e

omit [DecidableEq K] in
/-- A way stays one when a leaf makes room for a new node. -/
theorem OnPath.split {k : K} {p p' q e : P} {b d' : ℕ} {s : ℕ → Slot P} {c : P → List (K × V)}
    (hq : q ≠ root ∧ ∀ p' b', T.slot p' b' ≠ .node q) (hpe : T.slot p b = .leaf e)
    (hp' : OnPath h root T k p' d') : OnPath h root (T.split p b q s c) k p' d' := by
  induction hp' with
  | root => exact .root
  | @child p₁ q₁ d₁ hp₁ hs₁ ih =>
    have h1 : ¬ (p₁ = p ∧ h k d₁ = b) := by
      rintro ⟨rfl, rfl⟩
      rw [hpe] at hs₁
      cases hs₁
    have h2 : p₁ ≠ q := by
      rintro rfl
      rcases hp₁.ref with h3 | ⟨p₂, b₂, h3⟩
      · exact hq.1 h3
      · exact hq.2 _ _ h3
    refine .child ih ?_
    simp only [Trie.split, if_neg h1, if_neg h2]
    exact hs₁

omit [DecidableEq K] in
/-- A way after a split is one before it, or leads from the split bucket to the new node. -/
theorem onPath_split (hS : Shape root T) {k₀ : K} {p q e : P} {d : ℕ} {s : ℕ → Slot P}
    {c : P → List (K × V)} (hp : OnPath h root T k₀ p d) (hs : ∀ b q', s b ≠ .node q')
    (hq : q ≠ root ∧ ∀ p' b', T.slot p' b' ≠ .node q)
    (hpe : T.slot p (h k₀ d) = .leaf e) {k : K} {p' : P} {d' : ℕ}
    (hp' : OnPath h root (T.split p (h k₀ d) q s c) k p' d') :
    OnPath h root T k p' d' ∧ p' ≠ q
      ∨ p' = q ∧ d' = d + 1 ∧ OnPath h root T k p d ∧ h k d = h k₀ d := by
  have hne : ∀ {k p₁ d₁}, OnPath h root T k p₁ d₁ → p₁ ≠ q := by
    rintro k p₁ d₁ hp₁ rfl
    rcases hp₁.ref with h1 | ⟨p₂, b₂, h1⟩
    · exact hq.1 h1
    · exact hq.2 _ _ h1
  induction hp' with
  | root => exact .inl ⟨.root, hne (OnPath.root (k := k))⟩
  | @child p₁ q₁ d₁ _ hs₁ ih =>
    rcases ih with ⟨hp₁, hp₁q⟩ | ⟨rfl, -, -, -⟩
    · by_cases hpb : p₁ = p ∧ h k d₁ = h k₀ d
      · obtain ⟨rfl, hb⟩ := hpb
        obtain rfl := hp.depth_eq hS hp₁
        simp only [Trie.split, hb, and_self, ↓reduceIte, Slot.node.injEq] at hs₁
        exact .inr ⟨hs₁.symm, rfl, hp₁, hb⟩
      · simp only [Trie.split, hpb, ↓reduceIte, hp₁q] at hs₁
        have := OnPath.child hp₁ hs₁
        exact .inl ⟨this, hne this⟩
    · have hpq : p₁ ≠ p := fun he => hne hp he.symm
      simp only [Trie.split, hpq, false_and, ↓reduceIte] at hs₁
      exact absurd hs₁ (hs _ _)

/-- Putting a new node, over whose buckets the leaf's pairs are spread by the next depth's hash, in
the place of the leaf `k₀` is led to. -/
theorem Represents.split (hR : Represents h root T m) {k₀ : K} {p q e : P} {d : ℕ}
    {s : ℕ → Slot P} {c : P → List (K × V)} (hp : OnPath h root T k₀ p d)
    (hpe : T.slot p (h k₀ d) = .leaf e) (hs : Spread h T e d s c)
    (hq : q ≠ root ∧ ∀ p' b', T.slot p' b' ≠ .node q) :
    Represents h root (T.split p (h k₀ d) q s c) m := by
  have hcase : ∀ p' b', (T.split p (h k₀ d) q s c).slot p' b' =
      if p' = p ∧ b' = h k₀ d then .node q else if p' = q then s b' else T.slot p' b' :=
    fun _ _ => rfl
  have hpq : p ≠ q := by
    rintro rfl
    rcases hp.ref with h1 | ⟨p₁, b₁, h1⟩
    · exact hq.1 h1
    · exact hq.2 _ _ h1
  refine ⟨⟨?_, ?_, ?_⟩, ?_, ?_, ?_, ?_⟩
  · intro p' b'
    rw [hcase]
    split_ifs
    · simpa using hq.1
    · exact hs.node _ _
    · exact hR.root_ne _ _
  · intro p₁ b₁ p₂ b₂ q' h₁ h₂
    rw [hcase] at h₁ h₂
    split_ifs at h₁ h₂ with h1 h2 h3 h4 h5 h6 h7 h8
    · exact ⟨h1.1.trans h2.1.symm, h1.2.trans h2.2.symm⟩
    · exact absurd h₂ (hs.node _ _)
    · cases h₁
      exact absurd h₂ (hq.2 _ _)
    · exact absurd h₁ (hs.node _ _)
    · exact absurd h₁ (hs.node _ _)
    · exact absurd h₁ (hs.node _ _)
    · cases h₂
      exact absurd h₁ (hq.2 _ _)
    · exact absurd h₂ (hs.node _ _)
    · exact hR.node_inj _ _ _ _ _ h₁ h₂
  · intro p₁ b₁ p₂ b₂ e' h₁ h₂
    rw [hcase] at h₁ h₂
    split_ifs at h₁ h₂ with h1 h2 h3 h4 h5 h6
    · obtain rfl := h2.trans h4.symm
      exact ⟨rfl, hs.inj _ _ _ h₁ h₂⟩
    · exact absurd h₂ (hs.new _ _ _ _ h₁)
    · exact absurd h₁ (hs.new _ _ _ _ h₂)
    · exact hR.leaf_inj _ _ _ _ _ h₁ h₂
  · intro p' b' e' h'
    rw [hcase] at h'
    split_ifs at h' with h1 h2
    · exact hs.nodup _ _ h'
    · have hne : e' ≠ e := by
        rintro rfl
        exact h1 (hR.leaf_inj _ _ _ _ _ h' hpe)
      change ((c e').map Prod.fst).Nodup
      rw [hs.frame _ _ _ h' hne]
      exact hR.nodup _ _ _ h'
  · intro k p' d' hp' h'
    rw [hcase] at h'
    rcases onPath_split hR.toShape hp hs.node hq hpe hp' with ⟨hp', hne⟩ | ⟨rfl, rfl, hpk, hb⟩
    · rw [if_neg hne] at h'
      split_ifs at h'
      exact hR.empty _ _ _ hp' h'
    · rw [if_neg (fun hc => hpq hc.1.symm), if_pos rfl] at h'
      rw [hR.leaf k p d e hpk (by rw [hb, hpe]), hs.empty _ k h' rfl]
  · intro k p' d' e' hp' h'
    rw [hcase] at h'
    change m k = (c e').lookup k
    rcases onPath_split hR.toShape hp hs.node hq hpe hp' with ⟨hp', hne⟩ | ⟨rfl, rfl, hpk, hb⟩
    · rw [if_neg hne] at h'
      split_ifs at h' with h1
      have hee : e' ≠ e := by
        rintro rfl
        exact h1 (hR.leaf_inj _ _ _ _ _ h' hpe)
      rw [hs.frame _ _ _ h' hee]
      exact hR.leaf _ _ _ _ hp' h'
    · rw [if_neg (fun hc => hpq hc.1.symm), if_pos rfl] at h'
      rw [hR.leaf k p d e hpk (by rw [hb, hpe]), hs.leaf _ _ k h' rfl]
  · intro p' b' e' h' x hx
    change x ∈ c e' at hx
    rw [hcase] at h'
    split_ifs at h' with h1 h2
    · obtain ⟨h3, h4⟩ := hs.only _ _ h' x hx
      obtain ⟨d', h5, h6⟩ := hR.placed _ _ _ hpe x h4
      obtain rfl := h5.depth_eq hR.toShape hp
      refine ⟨d' + 1, ?_, h3⟩
      rw [h2]
      refine .child (h5.split hq hpe) ?_
      rw [hcase, h6, if_pos ⟨rfl, rfl⟩]
    · have hne : e' ≠ e := by
        rintro rfl
        exact h1 (hR.leaf_inj _ _ _ _ _ h' hpe)
      rw [hs.frame _ _ _ h' hne] at hx
      obtain ⟨d', h3, h4⟩ := hR.placed _ _ _ h' x hx
      exact ⟨d', h3.split hq hpe, h4⟩

end Represents

/-! ## Where the way of a key ends -/

section Ends

/-- The way of `k` ends in the bucket of `p` that it is led to at depth `d`, which is at most `L`;
that bucket is empty or has pairs of `l`, fewer than `l` has or, above `L`, all of them. -/
structure Ends (h : K → ℕ → ℕ) (root : P) (T : Trie P K V) (k : K) (l : List (K × V)) (L : ℕ)
    (p : P) (d : ℕ) : Prop where
  path : OnPath h root T k p d
  le : d ≤ L
  slot : T.slot p (h k d) = .empty ∨ ∃ e, T.slot p (h k d) = .leaf e ∧ T.elems e ⊆ l
    ∧ ((T.elems e).length < l.length ∨ d < L ∧ l ⊆ T.elems e)

variable {k : K} {l : List (K × V)} {L d : ℕ} {p : P}

theorem Ends.ne_node (H : Ends h root T k l L p d) (q : P) : T.slot p (h k d) ≠ .node q := by
  rcases H.slot with h1 | ⟨e, h1, -⟩ <;> simp [h1]

/-- What the leaf has that the way ends at. -/
theorem Ends.leaf (H : Ends h root T k l L p d) {p' e : P} {b : ℕ} (hp : OnPath h root T k p' d)
    (hb : b = h k d) (hs : T.slot p' b = .leaf e) :
    T.elems e ⊆ l ∧ ((T.elems e).length < l.length ∨ d < L ∧ l ⊆ T.elems e) := by
  rw [hp.eq_of_depth H.path, hb] at hs
  rcases H.slot with h1 | ⟨e', h1, h2⟩
  · rw [hs] at h1
    cases h1
  · rw [hs, Slot.leaf.injEq] at h1
    rw [h1]
    exact h2

/-- Fewer pairs than `l` has are left of it where one is missing. -/
theorem length_lt_of_not_mem {l' : List (K × V)} (hn : (l'.map Prod.fst).Nodup) (hl : l' ⊆ l)
    {x : K × V} (hx : x ∈ l) (hx' : x ∉ l') : l'.length < l.length := by
  have hsub : x :: l' ⊆ l := List.cons_subset.2 ⟨hx, hl⟩
  exact (List.subperm_of_subset (List.nodup_cons.2 ⟨hx', hn.of_map _⟩) hsub).length_le

variable [DecidableEq P] [DecidableEq K]

/-- Once the pairs of a leaf that has all of `l` are spread over a new node, the way ends at the
node unless again all of them come together; at a depth where one of them parts from `k` they do
not. -/
theorem Ends.split {p' q e : P} {b : ℕ} {s : ℕ → Slot P} {c : P → List (K × V)}
    (H : Ends h root T k l L p d) (hp : OnPath h root T k p' d) (hb : b = h k d)
    (hpe : T.slot p' b = .leaf e) (hd : d < L) (hs : Spread h T e d s c)
    (hq : q ≠ root ∧ ∀ p' b', T.slot p' b' ≠ .node q) {x : K × V} (hx : x ∈ l)
    (hsep : h x.1 L ≠ h k L) : Ends h root (T.split p' b q s c) k l L q (d + 1) := by
  have hsub := (H.leaf hp hb hpe).1
  subst hb
  have hpq : ¬ (q = p' ∧ h k (d + 1) = h k d) := by
    rintro ⟨rfl, -⟩
    rcases hp.ref with h1 | ⟨p₁, b₁, h1⟩
    · exact hq.1 h1
    · exact hq.2 _ _ h1
  have hslot : (T.split p' (h k d) q s c).slot q (h k (d + 1)) = s (h k (d + 1)) := by
    simp only [Trie.split, if_neg hpq, if_true]
  refine ⟨.child (hp.split hq hpe) (by simp [Trie.split]), hd, ?_⟩
  rw [hslot]
  rcases hb : s (h k (d + 1)) with _ | e' | q'
  · exact .inl rfl
  · have hc : c e' ⊆ l := fun y hy => hsub (hs.only _ _ hb y hy).2
    refine .inr ⟨e', rfl, hc, ?_⟩
    change (c e').length < l.length ∨ d + 1 < L ∧ l ⊆ c e'
    by_cases hall : l ⊆ c e'
    · refine .inr ⟨Nat.lt_of_le_of_ne hd fun hL => ?_, hall⟩
      exact hsep (by rw [← hL]; exact (hs.only _ _ hb x (hall hx)).1)
    · obtain ⟨y, hy, hy'⟩ : ∃ y ∈ l, y ∉ c e' := by simpa [List.subset_def] using hall
      exact .inl (length_lt_of_not_mem (hs.nodup _ _ hb) hc hy hy')
  · exact absurd hb (hs.node _ _)

end Ends

/-! ## Spreading the pairs of a leaf -/

section Spreading

variable [DecidableEq P]

/-- The bucket that has the pointer `p`, and holds nothing where that is `nil`. -/
def slotOf (nil p : P) : Slot P := if p = nil then .empty else .leaf p

theorem slotOf_leaf {nil p e : P} (hs : slotOf nil p = .leaf e) : p = e ∧ p ≠ nil := by
  simp only [slotOf] at hs
  split_ifs at hs with hp
  exact ⟨Slot.leaf.inj hs, hp⟩

theorem slotOf_empty {nil p : P} (hs : slotOf nil p = .empty) : p = nil := by
  simp only [slotOf] at hs
  split_ifs at hs with hp
  exact hp

theorem slotOf_ne_node (nil p q : P) : slotOf nil p ≠ .node q := by
  simp only [slotOf]
  split_ifs <;> simp

variable (g : K → ℕ) (n : ℕ) (nil : P) (leaf₀ : P → Option (List (K × V))) (blocks : List P)

/-- The pairs `src` are spread over `n` buckets by `g`, in leaves made at `blocks` of which `rest`
are not used yet; the leaves were `leaf₀` before. -/
structure Spreading (rest : List P) (src : List (K × V)) (leaf : P → Option (List (K × V)))
    (base : ℕ → P) : Prop where
  null : ∀ b < n, base b = nil → ∀ x ∈ src, g x.1 ≠ b
  elem : ∀ b < n, base b ≠ nil → base b ∈ blocks ∧ base b ∉ rest
    ∧ leaf (base b) = some (src.filter fun x => g x.1 = b)
  inj : ∀ b < n, ∀ b' < n, base b = base b' → base b ≠ nil → b = b'
  frame : ∀ p, p ∉ blocks → leaf p = leaf₀ p

variable {g n nil leaf₀ blocks} {rest : List P} {src : List (K × V)}
  {leaf : P → Option (List (K × V))} {base base' : ℕ → P} {x : K × V}

omit [DecidableEq P] in
theorem spreading_init (hbase : ∀ b < n, base b = nil) :
    Spreading g n nil leaf₀ blocks blocks [] leaf₀ base :=
  ⟨by simp, fun b hb hne => absurd (hbase b hb) hne, fun b hb _ _ _ hne => absurd (hbase b hb) hne,
    fun _ _ => rfl⟩

/-- A pair whose bucket has no leaf yet. -/
theorem Spreading.alloc {e : P} (H : Spreading g n nil leaf₀ blocks (e :: rest) src leaf base)
    (hlt : g x.1 < n) (he : e ≠ nil) (heb : e ∈ blocks) (her : e ∉ rest) (hb : base (g x.1) = nil)
    (hself : base' (g x.1) = e) (hother : ∀ b, g x.1 ≠ b → base' b = base b) :
    Spreading g n nil leaf₀ blocks rest (src ++ [x]) (Function.update leaf e (some [x])) base' := by
  have hold : ∀ b < n, base b ≠ nil → base b ≠ e := by
    intro b hb' hne heq
    exact (H.elem b hb' hne).2.1 (by rw [heq]; exact List.mem_cons_self)
  refine ⟨?_, ?_, ?_, ?_⟩
  · intro b hb' hnull y hy
    by_cases hbb : g x.1 = b
    · subst hbb
      rw [hself] at hnull
      exact absurd hnull he
    · rw [hother b hbb] at hnull
      rcases List.mem_append.1 hy with hy | hy
      · exact H.null b hb' hnull y hy
      · rw [List.mem_singleton.1 hy]
        exact hbb
  · intro b hb' hne
    by_cases hbb : g x.1 = b
    · subst hbb
      rw [hself]
      refine ⟨heb, her, ?_⟩
      have hnil : src.filter (fun y => g y.1 = g x.1) = [] := by
        refine List.filter_eq_nil_iff.2 fun y hy => ?_
        simpa using H.null _ hlt hb y hy
      simp [List.filter_append, hnil]
    · rw [hother b hbb] at hne ⊢
      obtain ⟨h1, h2, h3⟩ := H.elem b hb' hne
      refine ⟨h1, fun hm => h2 (List.mem_cons_of_mem _ hm), ?_⟩
      rw [Function.update_of_ne (hold b hb' hne), h3, List.filter_append]
      simp [hbb]
  · intro b hb' b' hb'' heq hne
    by_cases hbb : g x.1 = b
    · by_cases hbb' : g x.1 = b'
      · exact hbb.symm.trans hbb'
      · subst hbb
        rw [hself, hother b' hbb'] at heq
        exact absurd heq.symm (hold b' hb'' (by rw [← heq]; exact he))
    · rw [hother b hbb] at heq hne
      by_cases hbb' : g x.1 = b'
      · subst hbb'
        rw [hself] at heq
        exact absurd heq (hold b hb' hne)
      · rw [hother b' hbb'] at heq
        exact H.inj b hb' b' hb'' heq hne
  · intro p hp
    have hpe : p ≠ e := by rintro rfl; exact hp heb
    rw [Function.update_of_ne hpe]
    exact H.frame p hp

/-- A pair whose bucket has a leaf. -/
theorem Spreading.append (H : Spreading g n nil leaf₀ blocks rest src leaf base) (hlt : g x.1 < n)
    (hb : base (g x.1) ≠ nil) :
    Spreading g n nil leaf₀ blocks rest (src ++ [x])
      (Function.update leaf (base (g x.1)) (some ((leaf (base (g x.1))).getD [] ++ [x]))) base := by
  refine ⟨?_, ?_, H.inj, ?_⟩
  · intro b hb' hnull y hy
    rcases List.mem_append.1 hy with hy | hy
    · exact H.null b hb' hnull y hy
    · rw [List.mem_singleton.1 hy]
      rintro rfl
      exact hb hnull
  · intro b hb' hne
    obtain ⟨h1, h2, h3⟩ := H.elem b hb' hne
    refine ⟨h1, h2, ?_⟩
    by_cases hbb : g x.1 = b
    · subst hbb
      rw [Function.update_self, h3, List.filter_append]
      simp
    · rw [Function.update_of_ne fun heq => hbb (H.inj _ hlt _ hb' heq.symm hb), h3,
        List.filter_append]
      simp [hbb]
  · intro p hp
    have hpe : p ≠ base (g x.1) := by
      rintro rfl
      exact hp (H.elem _ hlt hb).1
    rw [Function.update_of_ne hpe]
    exact H.frame p hp

/-- Pairs spread by the hash of the next depth can take the place of the leaf they were in. -/
theorem Spreading.spread [DecidableEq K] {e : P} {d : ℕ}
    (H : Spreading g n nil leaf₀ blocks rest (T.elems e) leaf base)
    (hn : ((T.elems e).map Prod.fst).Nodup) (hnew : ∀ p ∈ blocks, leaf₀ p = none)
    (hleaf : ∀ p b e, T.slot p b = .leaf e → leaf₀ e = some (T.elems e))
    (hlt : ∀ k, h k (d + 1) < n) (hend : ∀ b, n ≤ b → base b = nil)
    (hg : ∀ k ∈ (T.elems e).map Prod.fst, g k = h k (d + 1)) :
    Spread h T e d (fun b => slotOf nil (base b)) fun p => (leaf p).getD [] := by
  have hmem : ∀ b e', slotOf nil (base b) = .leaf e' → b < n ∧ e' ∈ blocks ∧ base b = e'
      ∧ base b ≠ nil ∧ leaf e' = some ((T.elems e).filter fun x => g x.1 = b) := by
    intro b e' hs
    obtain ⟨rfl, hne⟩ := slotOf_leaf hs
    have hb : b < n := by
      by_contra hge
      exact hne (hend b (Nat.not_lt.1 hge))
    obtain ⟨h1, -, h3⟩ := H.elem b hb hne
    exact ⟨hb, h1, rfl, hne, h3⟩
  have hfree : ∀ p ∈ blocks, ∀ p' b', T.slot p' b' ≠ .leaf p := by
    intro p hp p' b' hs
    have := hleaf p' b' p hs
    rw [hnew p hp] at this
    cases this
  refine ⟨fun b q => slotOf_ne_node nil _ q, fun b e' p' b' hs => ?_, fun b b' e' hs hs' => ?_,
    fun b e' hs => ?_, fun b e' k hs hk => ?_, fun b k hs hk => ?_, fun p' b' e' hs _ => ?_,
    fun b e' hs x hx => ?_⟩
  · exact hfree e' (hmem b e' hs).2.1 p' b'
  · obtain ⟨hb, -, h1, h2, -⟩ := hmem b e' hs
    obtain ⟨hb', -, h3, -, -⟩ := hmem b' e' hs'
    exact H.inj b hb b' hb' (h1.trans h3.symm) h2
  · simp only [(hmem b e' hs).2.2.2.2, Option.getD_some]
    exact hn.sublist (List.filter_sublist.map _)
  · simp only [(hmem b e' hs).2.2.2.2, Option.getD_some]
    have hfilter : (T.elems e).filter (fun x => g x.1 = b)
        = (T.elems e).filter fun x => (h x.1 (d + 1) = b : Bool) := by
      refine List.filter_congr fun x hx => ?_
      rw [hg x.1 (List.mem_map_of_mem hx)]
    rw [hfilter]
    exact lookup_filter (f := fun k => h k (d + 1) = b) (by simpa using hk) _
  · have hb : b < n := hk ▸ hlt k
    rw [List.lookup_eq_none_iff]
    intro x hx
    have hxb := H.null b hb (slotOf_empty hs) x hx
    refine bne_iff_ne.2 ?_
    rintro rfl
    rw [hg x.1 (List.mem_map_of_mem hx)] at hxb
    exact hxb hk
  · have hno : e' ∉ blocks := fun hm => hfree e' hm p' b' hs
    simp only [H.frame e' hno, hleaf p' b' e' hs, Option.getD_some]
  · simp only [(hmem b e' hs).2.2.2.2, Option.getD_some, List.mem_filter,
      decide_eq_true_eq] at hx
    rw [← hg x.1 (List.mem_map_of_mem hx.1)]
    exact ⟨hx.2, hx.1⟩

end Spreading

end HashTrie
