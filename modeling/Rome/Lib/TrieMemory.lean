import Rome.Lib.HashTrie

/-!
# Hash tries in memory

The nodes of a hash trie are arrays of buckets and its leaves lists of pairs, both at addresses; a
bucket, of whatever type, holds an address (`Pointing`). Writing a bucket changes no other and no
array's length. `InMemory` says that the arrays and lists are those of a trie: it is kept by writing
a bucket (`InMemory.setBucket`), and by `spreadLoop`, which spreads the pairs of a leaf over the
buckets of a new array (`spreadLoop_spec`), once that array stands for the leaf (`InMemory.split`).
-/

namespace HashTrie

variable {P B K V : Type*}

/-! ## Arrays of buckets -/

/-- The arrays of buckets, by their addresses. -/
abbrev Nodes (P B : Type*) := P → Option (List B)

/-- The lists of pairs, by their addresses. -/
abbrev Leaves (P K V : Type*) := P → Option (List (K × V))

section Nodes

theorem getD_set_self {bs : List B} {b : ℕ} (hb : b < bs.length) (x junk : B) :
    (bs.set b x).getD b junk = x := by
  simp [hb]

theorem getD_set_ne {bs : List B} {b b' : ℕ} (hb : b ≠ b') (x junk : B) :
    (bs.set b x).getD b' junk = bs.getD b' junk := by
  simp [List.getElem?_set_ne hb]

/-- The bucket `b` of the array at `p` exists. -/
def Nodes.Has (N : Nodes P B) (p : P) (b : ℕ) : Prop := ∃ bs, N p = some bs ∧ b < bs.length

/-- The bucket `b` of the array at `p`. -/
def Nodes.get (N : Nodes P B) (junk : B) (p : P) (b : ℕ) : B := ((N p).getD []).getD b junk

variable [DecidableEq P]

/-- The bucket `b` of the array at `p` becomes `x`. -/
def Nodes.set (N : Nodes P B) (p : P) (b : ℕ) (x : B) : Nodes P B :=
  Function.update N p (some (((N p).getD []).set b x))

variable {N : Nodes P B} {p p' : P} {b b' : ℕ} {x y junk : B} {bs : List B}

theorem Nodes.get_set_self (hb : N.Has p b) : (N.set p b x).get junk p b = x := by
  obtain ⟨bs, h1, h2⟩ := hb
  unfold Nodes.get Nodes.set
  rw [Function.update_self, h1]
  exact getD_set_self h2 x junk

theorem Nodes.get_set_ne (hne : ¬ (p' = p ∧ b' = b)) :
    (N.set p b x).get junk p' b' = N.get junk p' b' := by
  unfold Nodes.get Nodes.set
  by_cases hp : p' = p
  · subst hp
    rw [Function.update_self]
    exact getD_set_ne (fun hb => hne ⟨rfl, hb.symm⟩) x junk
  · rw [Function.update_of_ne hp]

/-- Writing a bucket keeps the lengths of the arrays. -/
theorem Nodes.set_some (hp : N p' = some bs) :
    ∃ bs', N.set p b x p' = some bs' ∧ bs'.length = bs.length := by
  unfold Nodes.set
  by_cases hpp : p' = p
  · subst hpp
    rw [Function.update_self, hp]
    exact ⟨_, rfl, List.length_set⟩
  · rw [Function.update_of_ne hpp]
    exact ⟨bs, hp, rfl⟩

theorem Nodes.of_set_some (hb : N.Has p b) (hp : N.set p b x p' = some bs) :
    ∃ bs', N p' = some bs' ∧ bs'.length = bs.length := by
  unfold Nodes.set at hp
  by_cases hpp : p' = p
  · subst hpp
    obtain ⟨bs₀, h1, -⟩ := hb
    rw [Function.update_self, h1, Option.some.injEq] at hp
    exact ⟨bs₀, h1, by rw [← hp]; exact List.length_set.symm⟩
  · rw [Function.update_of_ne hpp] at hp
    exact ⟨bs, hp, rfl⟩

theorem Nodes.has_set (hb : N.Has p b) : (N.set p b x).Has p' b' ↔ N.Has p' b' := by
  constructor
  · rintro ⟨bs, h1, h2⟩
    obtain ⟨bs', h3, h4⟩ := Nodes.of_set_some hb h1
    exact ⟨bs', h3, by omega⟩
  · rintro ⟨bs, h1, h2⟩
    obtain ⟨bs', h3, h4⟩ := Nodes.set_some (p := p) (b := b) (x := x) h1
    exact ⟨bs', h3, by omega⟩

theorem Nodes.set_eq_none (hb : N.Has p b) : N.set p b x p' = none ↔ N p' = none := by
  constructor
  · intro h1
    by_contra h2
    obtain ⟨bs, h3⟩ := Option.ne_none_iff_exists'.1 h2
    obtain ⟨bs', h4, -⟩ := Nodes.set_some (p := p) (b := b) (x := x) h3
    rw [h1] at h4
    cases h4
  · intro h1
    by_contra h2
    obtain ⟨bs, h3⟩ := Option.ne_none_iff_exists'.1 h2
    obtain ⟨bs', h4, -⟩ := Nodes.of_set_some hb h3
    rw [h1] at h4
    cases h4

theorem Nodes.set_set : (N.set p b x).set p b y = N.set p b y := by
  unfold Nodes.set
  simp

end Nodes

/-- Addresses at which new arrays and lists can be made, one after the other. -/
structure Unused (nil : P) (L : Leaves P K V) (N : Nodes P B) (ps : List P) : Prop where
  nodup : ps.Nodup
  free : ∀ p ∈ ps, p ≠ nil ∧ L p = none ∧ N p = none

section Unused

variable {nil : P} {L : Leaves P K V} {N : Nodes P B} {p : P} {ps : List P}

theorem Unused.tail (H : Unused nil L N (p :: ps)) : Unused nil L N ps :=
  ⟨(List.nodup_cons.1 H.nodup).2, fun q hq => H.free q (List.mem_cons_of_mem _ hq)⟩

theorem Unused.set_iff [DecidableEq P] {a : P} {b : ℕ} {x : B} (hb : N.Has a b) :
    Unused nil L (N.set a b x) ps ↔ Unused nil L N ps := by
  constructor
  · exact fun H => ⟨H.nodup, fun p hp => by
      obtain ⟨h1, h2, h3⟩ := H.free p hp
      exact ⟨h1, h2, (Nodes.set_eq_none hb).1 h3⟩⟩
  · exact fun H => ⟨H.nodup, fun p hp => by
      obtain ⟨h1, h2, h3⟩ := H.free p hp
      exact ⟨h1, h2, (Nodes.set_eq_none hb).2 h3⟩⟩

theorem Unused.nil_notMem (H : Unused nil L N ps) : nil ∉ ps :=
  fun hm => (H.free nil hm).1 rfl

end Unused

/-! ## The loop that spreads pairs over an array -/

/-- How a bucket holds the address of a leaf, `nil` for none, and is made to hold another. A bucket
behind the end of an array reads as `junk`. -/
structure Pointing (P B : Type*) where
  nil : P
  junk : B
  base : B → P
  point : B → P → B
  /-- The state of a bucket that leads to no node and that nobody has locked. -/
  Free : B → Prop
  base_junk : base junk = nil
  base_point : ∀ x e, base (point x e) = e
  free_point : ∀ x e, Free x → Free (point x e)

section Loop

variable [DecidableEq P] (π : Pointing P B)

/-- Each pair goes into the leaf of the bucket that `g` names, which is made at the next address of
`fresh` when the first comes. -/
def spreadLoop (g : K → ℕ) :
    List (K × V) → List P → Leaves P K V → List B → Option (Leaves P K V × List B)
  | [], _, L, bs => some (L, bs)
  | x :: src, fresh, L, bs =>
    let y := bs.getD (g x.1) π.junk
    if π.base y = π.nil then
      match fresh with
      | [] => none
      | e :: fresh =>
        spreadLoop g src fresh (Function.update L e (some [x])) (bs.set (g x.1) (π.point y e))
    else
      spreadLoop g src fresh
        (Function.update L (π.base y) (some ((L (π.base y)).getD [] ++ [x]))) bs

variable {π} {g : K → ℕ}

/-- An address for each pair is enough. -/
theorem spreadLoop_isSome : ∀ (src : List (K × V)) (fresh : List P) (L : Leaves P K V)
    (bs : List B), src.length ≤ fresh.length → (spreadLoop π g src fresh L bs).isSome
  | [], _, _, _, _ => rfl
  | x :: src, fresh, L, bs, hlen => by
    rw [List.length_cons] at hlen
    unfold spreadLoop
    simp only []
    split_ifs
    · rcases fresh with _ | ⟨e, fresh⟩
      · cases hlen
      · exact spreadLoop_isSome src fresh _ _ (Nat.le_of_succ_le_succ hlen)
    · exact spreadLoop_isSome src fresh _ _ (by omega)

variable {n : ℕ} {L₀ L' : Leaves P K V} {blocks rest : List P} {bs' : List B}

/-- What each turn of the loop keeps, of the pairs and addresses still to come, the leaves and the
array, holds after it. -/
theorem spreadLoop_rule {I : List (K × V) → List P → Leaves P K V → List B → Prop}
    (halloc : ∀ x src e fresh L bs, I (x :: src) (e :: fresh) L bs →
      π.base (bs.getD (g x.1) π.junk) = π.nil → I src fresh (Function.update L e (some [x]))
        (bs.set (g x.1) (π.point (bs.getD (g x.1) π.junk) e)))
    (happend : ∀ x src fresh L bs, I (x :: src) fresh L bs →
      π.base (bs.getD (g x.1) π.junk) ≠ π.nil → I src fresh
        (Function.update L (π.base (bs.getD (g x.1) π.junk))
          (some ((L (π.base (bs.getD (g x.1) π.junk))).getD [] ++ [x]))) bs) :
    ∀ (src : List (K × V)) (fresh : List P) (L : Leaves P K V) (bs : List B),
      spreadLoop π g src fresh L bs = some (L', bs') → I src fresh L bs →
      ∃ rest, I [] rest L' bs'
  | [], fresh, L, bs, hl, H => by
    simp only [spreadLoop, Option.some.injEq, Prod.mk.injEq] at hl
    obtain ⟨rfl, rfl⟩ := hl
    exact ⟨fresh, H⟩
  | x :: src, fresh, L, bs, hl, H => by
    unfold spreadLoop at hl
    simp only [] at hl
    split_ifs at hl with hb
    · rcases fresh with _ | ⟨e, fresh⟩
      · cases hl
      · exact spreadLoop_rule halloc happend src fresh _ _ hl (halloc x src e fresh L bs H hb)
    · exact spreadLoop_rule halloc happend src fresh _ _ hl (happend x src fresh L bs H hb)

/-- The pairs `src` are spread over the buckets `bs` by `g`. -/
structure Filled (π : Pointing P B) (g : K → ℕ) (n : ℕ) (L₀ : Leaves P K V) (blocks rest : List P)
    (src : List (K × V)) (L : Leaves P K V) (bs : List B) : Prop extends
    Spreading g n π.nil L₀ blocks rest src L (fun b => π.base (bs.getD b π.junk)) where
  length : bs.length = n
  free : ∀ b < n, π.Free (bs.getD b π.junk)

variable {L : Leaves P K V} {src : List (K × V)} {bs : List B} {x : K × V}

omit [DecidableEq P] in
/-- An array of free buckets that hold no leaf. -/
theorem filled_init (hlen : bs.length = n)
    (hbs : ∀ b < n, π.base (bs.getD b π.junk) = π.nil ∧ π.Free (bs.getD b π.junk)) :
    Filled π g n L₀ blocks blocks [] L₀ bs :=
  ⟨spreading_init fun b hb => (hbs b hb).1, hlen, fun b hb => (hbs b hb).2⟩

omit [DecidableEq P] in
/-- Behind the end of the array no bucket holds a leaf. -/
theorem Filled.base_of_le (H : Filled π g n L₀ blocks rest src L bs) {b : ℕ} (hb : n ≤ b) :
    π.base (bs.getD b π.junk) = π.nil := by
  rw [List.getD_eq_default _ _ (by rw [H.length]; exact hb), π.base_junk]

/-- A pair whose bucket holds no leaf. -/
theorem Filled.alloc {e : P} (H : Filled π g n L₀ blocks (e :: rest) src L bs) (hlt : g x.1 < n)
    (hnil : π.nil ∉ blocks) (hsub : e :: rest ⊆ blocks) (her : e ∉ rest)
    (hb : π.base (bs.getD (g x.1) π.junk) = π.nil) :
    Filled π g n L₀ blocks rest (src ++ [x]) (Function.update L e (some [x]))
      (bs.set (g x.1) (π.point (bs.getD (g x.1) π.junk) e)) := by
  have heb : e ∈ blocks := hsub List.mem_cons_self
  have he : e ≠ π.nil := by
    rintro rfl
    exact hnil heb
  have hself := getD_set_self (by rw [H.length]; exact hlt) (π.point (bs.getD (g x.1) π.junk) e)
    π.junk
  refine ⟨H.toSpreading.alloc hlt he heb her hb (by rw [hself, π.base_point]) fun b hbb => by
    rw [getD_set_ne hbb], by rw [List.length_set, H.length], fun b hb' => ?_⟩
  by_cases hbb : g x.1 = b
  · subst hbb
    rw [hself]
    exact π.free_point _ _ (H.free _ hlt)
  · rw [getD_set_ne hbb]
    exact H.free b hb'

/-- A pair whose bucket holds a leaf. -/
theorem Filled.append (H : Filled π g n L₀ blocks rest src L bs) (hlt : g x.1 < n)
    (hb : π.base (bs.getD (g x.1) π.junk) ≠ π.nil) :
    Filled π g n L₀ blocks rest (src ++ [x]) (Function.update L (π.base (bs.getD (g x.1) π.junk))
      (some ((L (π.base (bs.getD (g x.1) π.junk))).getD [] ++ [x]))) bs :=
  ⟨H.toSpreading.append hlt hb, H.length, H.free⟩

/-- The loop puts each pair of the source in the leaf of its bucket. -/
theorem spreadLoop_spec {fresh : List P} (hg : ∀ k, g k < n) (hnil : π.nil ∉ fresh)
    (hn : fresh.Nodup) (H : Filled π g n L₀ fresh fresh [] L bs)
    (hl : spreadLoop π g src fresh L bs = some (L', bs')) :
    ∃ rest, Filled π g n L₀ fresh rest src L' bs' := by
  refine (spreadLoop_rule (I := fun todo rest L bs => rest.Nodup ∧ rest ⊆ fresh
    ∧ ∃ moved, src = moved ++ todo ∧ Filled π g n L₀ fresh rest moved L bs) ?_ ?_ src fresh L bs hl
    ⟨hn, fun _ hx => hx, [], rfl, H⟩).imp ?_
  · rintro x todo e rest L bs ⟨hn, hsub, moved, rfl, H⟩ hb
    rw [List.nodup_cons] at hn
    exact ⟨hn.2, fun y hy => hsub (List.mem_cons_of_mem _ hy), moved ++ [x], by simp,
      H.alloc (hg _) hnil hsub hn.1 hb⟩
  · rintro x todo rest L bs ⟨hn, hsub, moved, rfl, H⟩ hb
    exact ⟨hn, hsub, moved ++ [x], by simp, H.append (hg _) hb⟩
  · rintro rest ⟨-, -, moved, rfl, hF⟩
    rwa [List.append_nil]

end Loop

/-! ## The trie in memory -/

/-- The arrays `N` are the nodes of the trie, `size d` buckets at depth `d`, and the lists `L` its
leaves. -/
structure InMemory (h : K → ℕ → ℕ) (root nil : P) (size : ℕ → ℕ) (L : Leaves P K V) (N : Nodes P B)
    (T : Trie P K V) : Prop where
  len : ∀ k p d, OnPath h root T k p d → ∃ bs, N p = some bs ∧ bs.length = size d
  has : ∀ p b, T.slot p b ≠ .empty → N.Has p b
  leaf : ∀ p b e, T.slot p b = .leaf e → e ≠ nil ∧ L e = some (T.elems e)
  node : ∀ p b q, T.slot p b = .node q → q ≠ nil ∧ N q ≠ none

section InMemory

variable {h : K → ℕ → ℕ} {root nil : P} {size : ℕ → ℕ} {L L' : Leaves P K V} {N N' : Nodes P B}
  {T U : Trie P K V} {p q : P} {b d : ℕ} {k : K}

/-- An array of the root's size shows the trie of an empty root. -/
theorem inMemory_init (hroot : ∃ bs, N root = some bs ∧ bs.length = size 1) :
    InMemory h root nil size L N (Trie.init : Trie P K V) := by
  refine ⟨fun k p d hp => ?_, by simp [Trie.init], by simp [Trie.init], by simp [Trie.init]⟩
  cases hp with
  | root => exact hroot
  | child _ hs => simp [Trie.init] at hs

theorem InMemory.has_of_path (H : InMemory h root nil size L N T) (hlt : h k d < size d)
    (hp : OnPath h root T k p d) : N.Has p (h k d) := by
  obtain ⟨bs, h1, h2⟩ := H.len k p d hp
  exact ⟨bs, h1, by omega⟩

/-- No bucket has a leaf at an address where there is none. -/
theorem InMemory.ne_leaf (H : InMemory h root nil size L N T) {e : P} (he : L e = none) (p : P)
    (b : ℕ) :
    T.slot p b ≠ .leaf e := by
  intro hs
  rw [(H.leaf p b e hs).2] at he
  cases he

theorem InMemory.ne_node (H : InMemory h root nil size L N T) (hq : N q = none) (p : P) (b : ℕ) :
    T.slot p b ≠ .node q :=
  fun hs => (H.node p b q hs).2 hq

theorem InMemory.ne_root (H : InMemory h root nil size L N T) (k : K) (hq : N q = none) :
    q ≠ root := by
  rintro rfl
  obtain ⟨bs, h1, -⟩ := H.len k q 1 .root
  rw [hq] at h1
  cases h1

variable [DecidableEq P]

/-- Pairs of the leaf `e` spread over an array by the hash of the next depth. -/
theorem InMemory.spread [DecidableEq K] {π : Pointing P B} {g : K → ℕ} {n : ℕ} {e : P}
    {blocks rest : List P} {bs : List B} {L₁ : Leaves P K V} (H : InMemory h root nil size L N T)
    (hF : Filled π g n L blocks rest (T.elems e) L₁ bs) (hn : ((T.elems e).map Prod.fst).Nodup)
    (hnew : Unused nil L N blocks) (hlt : ∀ k, h k (d + 1) < n)
    (hg : ∀ k ∈ (T.elems e).map Prod.fst, g k = h k (d + 1)) :
    Spread h T e d (fun b => slotOf π.nil (π.base (bs.getD b π.junk))) fun a => (L₁ a).getD [] :=
  hF.toSpreading.spread hn (fun a ha => (hnew.free a ha).2.1) (fun p b e hs => (H.leaf p b e hs).2)
    hlt (fun _ hb => hF.base_of_le hb) hg

/-- One bucket is written, and the trie changes there and in its leaves only. -/
theorem InMemory.setBucket {x : B} (H : InMemory h root nil size L N T) (hb : N.Has p b)
    (hpath : ∀ k p d, OnPath h root U k p d → OnPath h root T k p d)
    (hslot : ∀ p' b', ¬ (p' = p ∧ b' = b) → U.slot p' b' = T.slot p' b')
    (hleaf : ∀ p b e, U.slot p b = .leaf e → e ≠ nil ∧ L' e = some (U.elems e))
    (hnode : ∀ q, U.slot p b = .node q → T.slot p b = .node q) :
    InMemory h root nil size L' (N.set p b x) U where
  len k p' d hp' := by
    obtain ⟨bs, h1, h2⟩ := H.len k p' d (hpath k p' d hp')
    obtain ⟨bs', h3, h4⟩ := Nodes.set_some (p := p) (b := b) (x := x) h1
    exact ⟨bs', h3, h4.trans h2⟩
  has p' b' hs := by
    rw [Nodes.has_set hb]
    by_cases hpb : p' = p ∧ b' = b
    · rw [hpb.1, hpb.2]
      exact hb
    · rw [hslot p' b' hpb] at hs
      exact H.has p' b' hs
  leaf := hleaf
  node p' b' q hs := by
    have hs' : T.slot p' b' = .node q := by
      by_cases hpb : p' = p ∧ b' = b
      · obtain ⟨rfl, rfl⟩ := hpb
        exact hnode q hs
      · rwa [hslot p' b' hpb] at hs
    obtain ⟨h1, h2⟩ := H.node p' b' q hs'
    obtain ⟨bs, hbs⟩ := Option.ne_none_iff_exists'.1 h2
    obtain ⟨bs', hbs', -⟩ := Nodes.set_some (p := p) (b := b) (x := x) hbs
    exact ⟨h1, by rw [hbs']; simp⟩

/-- A bucket is written and the trie stays. -/
theorem InMemory.same {x : B} (H : InMemory h root nil size L N T) (hb : N.Has p b) :
    InMemory h root nil size L (N.set p b x) T :=
  H.setBucket hb (fun _ _ _ => id) (fun _ _ _ => rfl) H.leaf fun _ => id

/-- The array `bs`, over which the pairs of the leaf `e` are spread, stands for that leaf. -/
theorem InMemory.split {π : Pointing P B} {g : K → ℕ} {e : P} {blocks rest : List P} {bs : List B}
    {L₁ : Leaves P K V} (H : InMemory h root π.nil size L N T) (hS : Shape root T)
    (hp : OnPath h root T k p d) (hs : T.slot p (h k d) = .leaf e) (hlt : h k d < size d)
    (hF : Filled π g (size (d + 1)) L blocks rest (T.elems e) L₁ bs)
    (hnew : Unused π.nil L N (q :: blocks)) (hL : ∀ a, a ≠ e → L' a = L₁ a) :
    InMemory h root π.nil size L' (Function.update N q (some bs))
      (T.split p (h k d) q (fun b => slotOf π.nil (π.base (bs.getD b π.junk)))
        fun a => (L₁ a).getD []) := by
  obtain ⟨hqnil, -, hqnone⟩ := hnew.free q List.mem_cons_self
  have hfree : ∀ a ∈ blocks, ∀ p' b', T.slot p' b' ≠ .leaf a := fun a ha =>
    H.ne_leaf (hnew.tail.free a ha).2.1
  have hhas : ∀ {p' b'}, N.Has p' b' → p' ≠ q
      ∧ Nodes.Has (Function.update N q (some bs)) p' b' := by
    rintro p' b' ⟨bs', h1, h2⟩
    have hne : p' ≠ q := by
      rintro rfl
      rw [hqnone] at h1
      cases h1
    exact ⟨hne, bs', by rw [Function.update_of_ne hne, h1], h2⟩
  have hself : Function.update N q (some bs) q = some bs := Function.update_self ..
  have hcase : ∀ p' b', (T.split p (h k d) q (fun b => slotOf π.nil (π.base (bs.getD b π.junk)))
      fun a => (L₁ a).getD []).slot p' b' = if p' = p ∧ b' = h k d then .node q
        else if p' = q then slotOf π.nil (π.base (bs.getD b' π.junk)) else T.slot p' b' :=
    fun _ _ => rfl
  have hin : ∀ {b' e'}, slotOf π.nil (π.base (bs.getD b' π.junk)) = .leaf e' →
      b' < size (d + 1) ∧ π.base (bs.getD b' π.junk) = e'
        ∧ π.base (bs.getD b' π.junk) ≠ π.nil := by
    intro b' e' hb'
    obtain ⟨h1, h2⟩ := slotOf_leaf hb'
    refine ⟨?_, h1, h2⟩
    by_contra hge
    exact h2 (hF.base_of_le (not_lt.1 hge))
  refine ⟨fun k' p' d' hp' => ?_, fun p' b' hs' => ?_, fun p' b' e' hs' => ?_,
    fun p' b' q' hs' => ?_⟩
  · rcases onPath_split hS hp (fun b q' => slotOf_ne_node _ _ q')
      ⟨H.ne_root k hqnone, H.ne_node hqnone⟩ hs hp' with ⟨hp', h1⟩ | ⟨rfl, rfl, -, -⟩
    · rw [Function.update_of_ne h1]
      exact H.len k' p' d' hp'
    · exact ⟨bs, hself, hF.length⟩
  · rw [hcase] at hs'
    split_ifs at hs' with h1 h2
    · rw [h1.1, h1.2]
      exact (hhas (H.has_of_path hlt hp)).2
    · subst h2
      rcases hb : slotOf π.nil (π.base (bs.getD b' π.junk)) with _ | e' | q'
      · exact absurd hb hs'
      · exact ⟨bs, hself, by rw [hF.length]; exact (hin hb).1⟩
      · exact absurd hb (slotOf_ne_node _ _ q')
    · exact (hhas (H.has p' b' hs')).2
  · rw [hcase] at hs'
    change e' ≠ π.nil ∧ L' e' = some ((L₁ e').getD [])
    split_ifs at hs' with h1 h2
    · obtain ⟨h3, rfl, h4⟩ := hin hs'
      obtain ⟨h5, -, h6⟩ := hF.elem b' h3 h4
      have hee : π.base (bs.getD b' π.junk) ≠ e := by
        rintro h7
        exact hfree _ h5 _ _ (h7 ▸ hs)
      rw [hL _ hee, h6]
      exact ⟨h4, rfl⟩
    · have hee : e' ≠ e := by
        rintro rfl
        exact h1 (hS.leaf_inj _ _ _ _ _ hs' hs)
      obtain ⟨h3, h4⟩ := H.leaf p' b' e' hs'
      rw [hL e' hee, hF.frame e' fun hm => hfree e' hm p' b' hs', h4]
      exact ⟨h3, rfl⟩
  · rw [hcase] at hs'
    split_ifs at hs' with h1 h2
    · obtain rfl := Slot.node.inj hs'
      exact ⟨hqnil, by rw [hself]; simp⟩
    · exact absurd hs' (slotOf_ne_node _ _ q')
    · obtain ⟨h3, h4⟩ := H.node p' b' q' hs'
      have hne : q' ≠ q := by
        rintro rfl
        exact H.ne_node hqnone p' b' hs'
      exact ⟨h3, by rw [Function.update_of_ne hne]; exact h4⟩

end InMemory

end HashTrie
