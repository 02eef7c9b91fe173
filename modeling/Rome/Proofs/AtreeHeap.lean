import Rome.AtreeHeap
import Rome.Lib.SearchTree

/-!
# The tree that lies in memory

While only nodes without children are removed, the nodes in memory are those of a search tree
(`Shows`). An operation goes down to the place of its key, changes what lies there, and visits the
nodes of the way from the last on; the rest of the tree stays as it is.
-/

namespace Rome

open SearchTree BinaryTree ATreeState

/-- What a node of the tree has besides its children, and where it lies. -/
structure Entry (K V M : Type*) where
  addr : ℕ
  key : K
  value : V
  metadata : M

variable {K V M : Type*}

def Entry.node (e : Entry K V M) (left right : Option ℕ) : ATreeNode K V M :=
  ⟨e.key, e.value, e.metadata, left, right⟩

/-- The address, the key and the value; a visit keeps them. -/
def Entry.cell (e : Entry K V M) : ℕ × K × V := (e.addr, e.key, e.value)

def cells (t : BinaryTree (Entry K V M)) : List (ℕ × K × V) := (toList t).map Entry.cell

/-- The keys with their values, in order. -/
def contents (t : BinaryTree (Entry K V M)) : List (K × V) := (cells t).map Prod.snd

def ptr : BinaryTree (Entry K V M) → Option ℕ
  | nil => none
  | node e _ _ => some e.addr

/-- The nodes of the tree lie in memory. -/
def Holds (nodes : ℕ → Option (ATreeNode K V M)) : BinaryTree (Entry K V M) → Prop
  | nil => True
  | node e l r => nodes e.addr = some (e.node (ptr l) (ptr r)) ∧ Holds nodes l ∧ Holds nodes r

/-- The nodes beside the way lie in memory, and it leads from the root to `p`. -/
def HoldsWay (nodes : ℕ → Option (ATreeNode K V M)) :
    List (Step (Entry K V M)) → Option ℕ → Prop
  | [], p => ∃ n, nodes kRoot = some n ∧ n.left = p
  | .left e r :: c, p =>
    nodes e.addr = some (e.node p (ptr r)) ∧ Holds nodes r ∧ HoldsWay nodes c (some e.addr)
  | .right e l :: c, p =>
    nodes e.addr = some (e.node (ptr l) p) ∧ Holds nodes l ∧ HoldsWay nodes c (some e.addr)

/-- The keys increase, no two nodes lie at one address, and all addresses were given. -/
structure Arranged [LT K] (next : ℕ) (L : List (ℕ × K × V)) : Prop where
  root : kRoot < next
  sorted : L.Pairwise fun x y => x.2.1 < y.2.1
  apart : L.Pairwise fun x y => x.1 ≠ y.1
  given : ∀ x ∈ L, kRoot < x.1 ∧ x.1 < next

/-- The state is the search tree `t`. -/
structure Shows [LT K] (s : ATreeState K V M) (t : BinaryTree (Entry K V M)) : Prop where
  way : HoldsWay s.nodes [] (ptr t)
  holds : Holds s.nodes t
  arranged : Arranged s.next (cells t)

/-! ## Ways in memory -/

section Ways

variable {nodes nodes' : ℕ → Option (ATreeNode K V M)} {t t' : BinaryTree (Entry K V M)}
  {c : List (Step (Entry K V M))} {p : Option ℕ}

theorem Holds.congr (h : Holds nodes t) (hn : ∀ e ∈ toList t, nodes' e.addr = nodes e.addr) :
    Holds nodes' t := by
  induction t with
  | nil => trivial
  | node e l r ihl ihr =>
    obtain ⟨h1, h2, h3⟩ := h
    simp only [toList, List.mem_append, List.mem_cons] at hn
    refine ⟨?_, ihl h2 fun e he => hn e (Or.inl he), ihr h3 fun e he => hn e (Or.inr (Or.inr he))⟩
    rw [hn e (Or.inr (Or.inl rfl)), h1]

theorem HoldsWay.congr (h : HoldsWay nodes c p) (h0 : nodes' kRoot = nodes kRoot)
    (hn : ∀ e ∈ aside c, nodes' e.addr = nodes e.addr) : HoldsWay nodes' c p := by
  induction c generalizing p with
  | nil =>
    unfold HoldsWay at h ⊢
    rwa [h0]
  | cons s c ih =>
    simp only [aside, List.mem_cons, List.mem_append] at hn
    have h1 := hn s.value (Or.inl rfl)
    have h2 : ∀ e ∈ toList s.side, nodes' e.addr = nodes e.addr :=
      fun e he => hn e (Or.inr (Or.inl he))
    have h3 : ∀ e ∈ aside c, nodes' e.addr = nodes e.addr := fun e he => hn e (Or.inr (Or.inr he))
    cases s with
    | left e r => exact ⟨h1.trans h.1, h.2.1.congr h2, ih h.2.2 h3⟩
    | right e l => exact ⟨h1.trans h.1, h.2.1.congr h2, ih h.2.2 h3⟩

theorem Holds.unique (h : Holds nodes t) (h' : Holds nodes t') (hp : ptr t = ptr t') : t = t' := by
  induction t generalizing t' with
  | nil =>
    cases t' with
    | nil => rfl
    | node e' l' r' => simp [ptr] at hp
  | node e l r ihl ihr =>
    cases t' with
    | nil => simp [ptr] at hp
    | node e' l' r' =>
      simp only [ptr, Option.some.injEq] at hp
      obtain ⟨h1, h2, h3⟩ := h
      obtain ⟨h1', h2', h3'⟩ := h'
      rw [hp, h1', Option.some.injEq, Entry.node, Entry.node, ATreeNode.mk.injEq] at h1
      obtain ⟨hk, hv, hm, hl, hr⟩ := h1
      rw [ihl h2 h2' hl.symm, ihr h3 h3' hr.symm]
      have he : e = e' := by
        cases e
        cases e'
        simp_all
      rw [he]

theorem Holds.get (h : Holds nodes t) {e : Entry K V M} (he : e ∈ toList t) :
    ∃ l r, nodes e.addr = some (e.node l r) := by
  induction t with
  | nil => simp [toList] at he
  | node e' l r ihl ihr =>
    rw [toList, List.mem_append, List.mem_cons] at he
    rcases he with he | rfl | he
    · exact ihl h.2.1 he
    · exact ⟨_, _, h.1⟩
    · exact ihr h.2.2 he

theorem holds_fill {x : Step (Entry K V M)} :
    HoldsWay nodes c (ptr (x.fill t)) ∧ Holds nodes (x.fill t)
      ↔ HoldsWay nodes (x :: c) (ptr t) ∧ Holds nodes t := by
  cases x with
  | left e r =>
    simp only [Step.fill, Holds, HoldsWay, ptr]
    tauto
  | right e l =>
    simp only [Step.fill, Holds, HoldsWay, ptr]
    tauto

/-- A way and what it leads to, put together. -/
theorem holds_plug : HoldsWay nodes [] (ptr (plug c t)) ∧ Holds nodes (plug c t)
    ↔ HoldsWay nodes c (ptr t) ∧ Holds nodes t := by
  induction c generalizing t with
  | nil => rfl
  | cons s c ih =>
    rw [plug, ih, holds_fill]

end Ways

/-! ## The search -/

/-- The last node of the way. -/
def parentOf : List (Step (Entry K V M)) → ℕ
  | [] => kRoot
  | s :: _ => s.value.addr

/-- The nodes of the way, the last first. -/
def stackOf (c : List (Step (Entry K V M))) : List ℕ := c.map fun s => s.value.addr

theorem Arranged.length_lt [LT K] {next : ℕ} {L : List (ℕ × K × V)} (h : Arranged next L) :
    L.length < next := by
  have hnd : (L.map Prod.fst).Nodup := List.pairwise_map.2 h.apart
  have hsub : (L.map Prod.fst).toFinset ⊆ Finset.Ioo kRoot next := by
    intro a ha
    obtain ⟨x, hx, rfl⟩ := List.mem_map.1 (List.mem_toFinset.1 ha)
    exact Finset.mem_Ioo.2 (h.given x hx)
  have hcard := Finset.card_le_card hsub
  rw [List.toFinset_card_of_nodup hnd, List.length_map, Nat.card_Ioo] at hcard
  have h0 := h.root
  unfold kRoot at h0 hcard
  omega

theorem length_cells (t : BinaryTree (Entry K V M)) : (cells t).length = t.numNodes := by
  rw [cells, List.length_map, length_toList]

section Search

variable [LinearOrder K] {k : K} {s : ATreeState K V M} {t : BinaryTree (Entry K V M)}

/-- The loop of `FindInternal` goes the way of the search in the tree. -/
theorem findLoop_spec {nodes : ℕ → Option (ATreeNode K V M)} {fuel : ℕ} (h : Holds nodes t)
    (hf : t.numNodes < fuel) (c : List (Step (Entry K V M))) :
    findLoop k nodes fuel (parentOf c) (ptr t) (stackOf c)
      = some (parentOf (descend Entry.key k t c).1, ptr (descend Entry.key k t c).2,
        stackOf (descend Entry.key k t c).1) := by
  induction t generalizing fuel c with
  | nil =>
    unfold ptr findLoop
    rfl
  | node e l r ihl ihr =>
    obtain ⟨h1, h2, h3⟩ := h
    unfold numNodes at hf
    obtain ⟨fuel, rfl⟩ : ∃ n, fuel = n + 1 := ⟨fuel - 1, by omega⟩
    have hr := ihr h3 (show r.numNodes < fuel by omega) (.right e l :: c)
    have hl := ihl h2 (show l.numNodes < fuel by omega) (.left e r :: c)
    unfold ptr findLoop descend
    simp only [h1, Entry.node]
    split_ifs
    · rfl
    · exact hr
    · exact hl

theorem Shows.findInternal (h : Shows s t) :
    s.findInternal k = some (parentOf (descend Entry.key k t []).1,
      ptr (descend Entry.key k t []).2, stackOf (descend Entry.key k t []).1) := by
  obtain ⟨n, hn, hl⟩ := h.way
  have hf := h.arranged.length_lt
  rw [length_cells] at hf
  unfold ATreeState.findInternal
  rw [hn]
  simp only [hl]
  exact findLoop_spec h.holds hf []

theorem Shows.sorted (h : Shows s t) : Sorted Entry.key t := by
  have hs := h.arranged.sorted
  rwa [cells, List.pairwise_map] at hs

/-- The way to the place of a key. -/
theorem Shows.way_descend (h : Shows s t) {c : List (Step (Entry K V M))}
    {t' : BinaryTree (Entry K V M)} (hd : descend Entry.key k t [] = (c, t')) :
    plug c t' = t ∧ HoldsWay s.nodes c (ptr t') ∧ Holds s.nodes t'
      ∧ (∀ e ∈ before c, e.key < k) ∧ ∀ e ∈ after c, k < e.key := by
  have hp : plug c t' = t := by
    have hpd := @plug_descend _ _ _ Entry.key k t []
    rwa [hd] at hpd
  obtain ⟨hw, ht⟩ := holds_plug.1 (show HoldsWay s.nodes [] (ptr (plug c t')) ∧ _ by
    rw [hp]
    exact ⟨h.way, h.holds⟩)
  have hb := @descend_between _ _ _ Entry.key k t [] c t' h.sorted (by simp [before])
    (by simp [after]) hd
  exact ⟨hp, hw, ht, hb⟩

end Search

/-! ## Writes -/

/-- Nothing but nodes at the addresses of `A` differs. -/
structure SameBut (A : Set ℕ) (s s' : ATreeState K V M) : Prop where
  nodes : ∀ a ∉ A, s'.nodes a = s.nodes a
  next : s'.next = s.next
  size : s'.size = s.size

section Writes

variable {s : ATreeState K V M} {c : List (Step (Entry K V M))}

theorem modify_spec {a : ℕ} {n : ATreeNode K V M} (hn : s.nodes a = some n)
    (f : ATreeNode K V M → ATreeNode K V M) :
    ∃ s', s.modify a f = some s' ∧ s'.nodes a = some (f n) ∧ SameBut {a} s s' := by
  refine ⟨{ s with nodes := Function.update s.nodes a (some (f n)) }, ?_, ?_, ?_⟩
  · simp [ATreeState.modify, hn]
  · exact Function.update_self ..
  · exact ⟨fun b hb => Function.update_of_ne hb .., rfl, rfl⟩

/-- The pointer that the way follows last is set. -/
def setHole (s : ATreeState K V M) (c : List (Step (Entry K V M))) (p : Option ℕ) :
    Option (ATreeState K V M) :=
  match c with
  | .right _ _ :: _ => s.setRight (parentOf c) p
  | _ => s.setLeft (parentOf c) p

/-- No two nodes of the list lie at one address, and none at the root's. -/
def Distinct (L : List (Entry K V M)) : Prop :=
  (∀ e ∈ L, e.addr ≠ kRoot) ∧ L.Pairwise fun e e' => e.addr ≠ e'.addr

theorem distinct_iff {L : List (Entry K V M)} : Distinct L ↔ (kRoot :: L.map Entry.addr).Nodup := by
  unfold Distinct
  rw [List.nodup_cons, List.Nodup, List.pairwise_map]
  simp only [List.mem_map, not_exists, not_and, ne_eq]

theorem Distinct.of_perm {L L' : List (Entry K V M)} (h : Distinct L)
    (hp : (L.map Entry.addr).Perm (L'.map Entry.addr)) : Distinct L' := by
  rw [distinct_iff] at h ⊢
  exact (hp.cons kRoot).nodup_iff.1 h

theorem Distinct.left {L L' : List (Entry K V M)} (h : Distinct (L ++ L')) : Distinct L :=
  ⟨fun e he => h.1 e (List.mem_append_left _ he), (List.pairwise_append.1 h.2).1⟩

theorem Distinct.right {L L' : List (Entry K V M)} (h : Distinct (L ++ L')) : Distinct L' :=
  ⟨fun e he => h.1 e (List.mem_append_right _ he), (List.pairwise_append.1 h.2).2.1⟩

theorem Distinct.ne {L L' : List (Entry K V M)} (h : Distinct (L ++ L')) {e e' : Entry K V M}
    (he : e ∈ L) (he' : e' ∈ L') : e.addr ≠ e'.addr :=
  (List.pairwise_append.1 h.2).2.2 e he e' he'

theorem Distinct.node {e : Entry K V M} {l r : BinaryTree (Entry K V M)}
    (h : Distinct (toList (.node e l r))) :
    (∀ e' ∈ toList l, e'.addr ≠ e.addr) ∧ ∀ e' ∈ toList r, e'.addr ≠ e.addr := by
  unfold toList at h
  refine ⟨fun e' he => h.ne he List.mem_cons_self, fun e' he => ?_⟩
  exact ((List.pairwise_cons.1 h.right.2).1 e' he).symm

theorem HoldsWay.setHole {q : Option ℕ} (h : HoldsWay s.nodes c q) (ha : Distinct (aside c))
    (p : Option ℕ) : ∃ s', setHole s c p = some s' ∧ HoldsWay s'.nodes c p
      ∧ SameBut {parentOf c} s s' := by
  obtain ⟨h0, ha⟩ := ha
  match c, h with
  | [], h =>
    obtain ⟨n, hn, -⟩ := h
    obtain ⟨s', hs, hn', hb⟩ := modify_spec hn fun node => { node with left := p }
    exact ⟨s', hs, ⟨_, hn', rfl⟩, hb⟩
  | .left e r :: c, h =>
    simp only [aside, Step.value, Step.side, List.pairwise_cons, List.mem_append, List.mem_cons]
      at h0 ha
    obtain ⟨s', hs, hn', hb⟩ := modify_spec h.1 fun node => { node with left := p }
    refine ⟨s', hs, ⟨hn', h.2.1.congr fun e' he => ?_, h.2.2.congr ?_ fun e' he => ?_⟩, hb⟩
    · exact hb.nodes _ (ha.1 e' (Or.inl he)).symm
    · exact hb.nodes _ (h0 e (Or.inl rfl)).symm
    · exact hb.nodes _ (ha.1 e' (Or.inr he)).symm
  | .right e l :: c, h =>
    simp only [aside, Step.value, Step.side, List.pairwise_cons, List.mem_append, List.mem_cons]
      at h0 ha
    obtain ⟨s', hs, hn', hb⟩ := modify_spec h.1 fun node => { node with right := p }
    refine ⟨s', hs, ⟨hn', h.2.1.congr fun e' he => ?_, h.2.2.congr ?_ fun e' he => ?_⟩, hb⟩
    · exact hb.nodes _ (ha.1 e' (Or.inl he)).symm
    · exact hb.nodes _ (h0 e (Or.inl rfl)).symm
    · exact hb.nodes _ (ha.1 e' (Or.inr he)).symm

theorem parentOf_ne {a : ℕ} (h0 : kRoot ≠ a) (hc : ∀ e ∈ aside c, e.addr ≠ a) :
    parentOf c ≠ a := by
  cases c with
  | nil => exact h0
  | cons x c => exact hc x.value (by simp [aside])

/-- `found` is replaced where the way points to it. -/
theorem replaceChild_eq {e : Entry K V M} {l r : BinaryTree (Entry K V M)}
    (hw : HoldsWay s.nodes c (some e.addr)) (hd : Distinct (toList (.node e l r) ++ aside c))
    (p : Option ℕ) : s.replaceChild (parentOf c) e.addr p = setHole s c p := by
  unfold replaceChild setHole
  match c, hw with
  | [], hw =>
    obtain ⟨n, hn, hl⟩ := hw
    simp [parentOf, hn, hl]
  | .left x r' :: c, hw => simp [parentOf, Step.value, hw.1, Entry.node]
  | .right x l' :: c, hw =>
    have hl : ptr l' ≠ some e.addr := by
      cases l' with
      | nil => simp [ptr]
      | node y a b =>
        have he : e ∈ toList (.node e l r) := by simp [toList]
        have hy : y ∈ aside (.right x (.node y a b) :: c) := by simp [aside, Step.side, toList]
        simpa [ptr] using (hd.ne he hy).symm
    simp [parentOf, Step.value, hw.1, Entry.node, hl]

end Writes

/-! ## Visits -/

section Visits

def topMetadata : BinaryTree (Entry K V M) → Option M
  | nil => none
  | node e _ _ => some e.metadata

/-- What a write to the top node that looks at its children makes of the tree. -/
def setTop (g : Option M → Option M → ATreeNode K V M → V × M) :
    BinaryTree (Entry K V M) → BinaryTree (Entry K V M)
  | nil => nil
  | node e l r =>
    let vm := g (topMetadata l) (topMetadata r) (e.node (ptr l) (ptr r))
    node { e with value := vm.1, metadata := vm.2 } l r

/-- A visit sets the metadata only. -/
def visited (f : ATreeNode K V M → Option M → Option M → M) (left right : Option M)
    (n : ATreeNode K V M) : V × M := (n.value, f n left right)

/-- The tree after the visits of the way's nodes. -/
def revisit (f : ATreeNode K V M → Option M → Option M → M) :
    List (Step (Entry K V M)) → BinaryTree (Entry K V M) → BinaryTree (Entry K V M)
  | [], t => t
  | s :: c, t => revisit f c (setTop (visited f) (s.fill t))

variable {s : ATreeState K V M} {c : List (Step (Entry K V M))} {t : BinaryTree (Entry K V M)}

theorem childMetadata_ptr (h : Holds s.nodes t) :
    s.childMetadata (ptr t) = some (topMetadata t) := by
  cases t with
  | nil => rfl
  | node e l r => simp [ptr, childMetadata, h.1, topMetadata, Entry.node]

theorem ptr_setTop (g : Option M → Option M → ATreeNode K V M → V × M) :
    ptr (setTop g t) = ptr t := by
  cases t <;> rfl

/-- The write of a visit, or of an update. -/
theorem holds_setTop {e : Entry K V M} {l r : BinaryTree (Entry K V M)}
    (h : Holds s.nodes (.node e l r)) (ha : Distinct (toList (.node e l r)))
    (g : Option M → Option M → ATreeNode K V M → V × M) :
    ∃ s', ((s.nodes e.addr).bind fun n => (s.childMetadata n.left).bind fun left =>
        (s.childMetadata n.right).bind fun right => s.modify e.addr fun n =>
          { n with value := (g left right n).1, metadata := (g left right n).2 }) = some s'
      ∧ Holds s'.nodes (setTop g (.node e l r)) ∧ SameBut {e.addr} s s' := by
  obtain ⟨h1, h2, h3⟩ := h
  obtain ⟨hl, hr⟩ := ha.node
  obtain ⟨s', hs, hn, hb⟩ := modify_spec h1 fun n => { n with
    value := (g (topMetadata l) (topMetadata r) n).1
    metadata := (g (topMetadata l) (topMetadata r) n).2 }
  refine ⟨s', ?_, ⟨hn, h2.congr fun e' he => ?_, h3.congr fun e' he => ?_⟩, hb⟩
  · rw [h1, Option.bind_some, Entry.node]
    simp only
    rw [childMetadata_ptr h2, Option.bind_some, childMetadata_ptr h3, Option.bind_some, hs]
  · exact hb.nodes _ (hl e' he)
  · exact hb.nodes _ (hr e' he)

theorem toList_fill_perm (x : Step (Entry K V M)) (t : BinaryTree (Entry K V M)) :
    (toList (x.fill t)).Perm (x.value :: (toList t ++ toList x.side)) := by
  cases x with
  | left e r => exact List.perm_middle
  | right e l => exact List.perm_middle.trans (List.perm_append_comm.cons e)

/-- The addresses of the tree and beside the way, when the last step of the way is undone. -/
theorem fill_perm (x : Step (Entry K V M)) :
    (toList t ++ aside (x :: c)).Perm (toList (x.fill t) ++ aside c) := by
  refine List.Perm.trans ?_ ((toList_fill_perm x t).symm.append_right _)
  rw [aside, List.cons_append, List.append_assoc]
  exact List.perm_middle

theorem map_cell_setTop {g : Option M → Option M → ATreeNode K V M → V × M}
    (hg : ∀ l r n, (g l r n).1 = n.value) : cells (setTop g t) = cells t := by
  cases t with
  | nil => rfl
  | node e l r => simp [setTop, cells, toList, Entry.cell, hg, Entry.node]

theorem map_addr_setTop (g : Option M → Option M → ATreeNode K V M → V × M) :
    (toList (setTop g t)).map Entry.addr = (toList t).map Entry.addr := by
  cases t with
  | nil => rfl
  | node e l r => simp [setTop, toList]

/-- The visits of the way's nodes, from the last on. -/
theorem visitAll_spec (f : ATreeNode K V M → Option M → Option M → M)
    (hw : HoldsWay s.nodes c (ptr t)) (h : Holds s.nodes t) (ha : Distinct (toList t ++ aside c)) :
    ∃ s', s.visitAll f (stackOf c) = some s' ∧ HoldsWay s'.nodes [] (ptr (revisit f c t))
      ∧ Holds s'.nodes (revisit f c t) ∧ SameBut {a | ∃ e ∈ aside c, e.addr = a} s s' := by
  induction c generalizing s t with
  | nil => exact ⟨s, rfl, hw, h, fun a _ => rfl, rfl, rfl⟩
  | cons x c ih =>
    obtain ⟨hw', h'⟩ := holds_fill.2 ⟨hw, h⟩
    have ha' : Distinct (toList (x.fill t) ++ aside c) := ha.of_perm ((fill_perm x).map _)
    obtain ⟨l, r, hx⟩ : ∃ l r, x.fill t = .node x.value l r := by
      cases x with
      | left e r => exact ⟨t, r, rfl⟩
      | right e l => exact ⟨l, t, rfl⟩
    rw [hx] at h' ha' hw'
    obtain ⟨s₁, hs, h₁, hb⟩ := holds_setTop h' ha'.left (visited f)
    have hx' : x.value ∈ toList (.node x.value l r) := by simp [toList]
    have hw₁ : HoldsWay s₁.nodes c (ptr (setTop (visited f) (.node x.value l r))) := by
      rw [ptr_setTop]
      refine hw'.congr (hb.nodes _ (ha'.left.1 _ hx').symm) fun e he => hb.nodes _ ?_
      exact (ha'.ne hx' he).symm
    have ha₁ : Distinct (toList (setTop (visited f) (.node x.value l r)) ++ aside c) := by
      refine ha'.of_perm ?_
      rw [List.map_append, List.map_append, map_addr_setTop]
    obtain ⟨s₂, hs₂, hw₂, h₂, hb₂⟩ := ih hw₁ h₁ ha₁
    refine ⟨s₂, ?_, ?_, ?_, fun a ha => ?_, hb₂.next.trans hb.next, hb₂.size.trans hb.size⟩
    · unfold stackOf List.map visitAll
      rw [show s.visit f x.value.addr = some s₁ from hs, Option.bind_some]
      exact hs₂
    · unfold revisit
      rwa [hx]
    · unfold revisit
      rwa [hx]
    · have hne : ∀ e ∈ aside (x :: c), e.addr ≠ a := fun e he hea => ha ⟨e, he, hea⟩
      simp only [aside, List.mem_cons, List.mem_append] at hne
      have hout : a ∉ {a | ∃ e ∈ aside c, e.addr = a} := by
        rintro ⟨e, he, hea⟩
        exact hne e (Or.inr (Or.inr he)) hea
      rw [hb₂.nodes a hout]
      exact hb.nodes a fun hax => hne x.value (Or.inl rfl) hax.symm

theorem cells_plug (c : List (Step (Entry K V M))) (t : BinaryTree (Entry K V M)) :
    cells (plug c t) = (before c).map Entry.cell ++ cells t ++ (after c).map Entry.cell := by
  unfold cells
  rw [toList_plug, List.map_append, List.map_append]

/-- The visits keep the cells. -/
theorem cells_revisit (f : ATreeNode K V M → Option M → Option M → M) :
    cells (revisit f c t) = cells (plug c t) := by
  induction c generalizing t with
  | nil => rfl
  | cons x c ih =>
    unfold revisit plug
    rw [ih, cells_plug, cells_plug, map_cell_setTop fun _ _ _ => rfl]

/-! ## What a visitor sees to -/

/-- At every node, the value, the metadata and the children's metadata fit together. -/
def Fits (Q : V → M → Option M → Option M → Prop) : BinaryTree (Entry K V M) → Prop
  | nil => True
  | node e l r => Q e.value e.metadata (topMetadata l) (topMetadata r) ∧ Fits Q l ∧ Fits Q r

/-- Every call of the visitor makes them fit. -/
structure Visitor.Sets (vis : Visitor K V M) (Q : V → M → Option M → Option M → Prop) : Prop where
  onInsert : ∀ n l r, Q n.value (vis.onInsert n l r) l r
  onRemove : ∀ n l r, Q n.value (vis.onRemove n l r) l r
  onUpdate : ∀ n l r, Q n.value (vis.onUpdate n l r) l r
  update : ∀ n v m l r, Q (vis.update n v m l r).1 (vis.update n v m l r).2 l r

variable {Q : V → M → Option M → Option M → Prop}

theorem fits_setTop {g : Option M → Option M → ATreeNode K V M → V × M}
    (hg : ∀ l r n, Q (g l r n).1 (g l r n).2 l r) {e : Entry K V M}
    {l r : BinaryTree (Entry K V M)} (hl : Fits Q l) (hr : Fits Q r) :
    Fits Q (setTop g (.node e l r)) :=
  ⟨hg _ _ _, hl, hr⟩

theorem fits_plug (h : Fits Q (plug c t)) : Fits Q t ∧ ∀ x ∈ c, Fits Q x.side := by
  induction c generalizing t with
  | nil => exact ⟨h, by simp⟩
  | cons x c ih =>
    obtain ⟨h1, h2⟩ := ih h
    simp only [List.mem_cons, forall_eq_or_imp]
    cases x with
    | left e r => exact ⟨h1.2.1, h1.2.2, h2⟩
    | right e l => exact ⟨h1.2.2, h1.2.1, h2⟩

theorem fits_revisit {f : ATreeNode K V M → Option M → Option M → M}
    (hf : ∀ n l r, Q n.value (f n l r) l r) (h : Fits Q t) (hc : ∀ x ∈ c, Fits Q x.side) :
    Fits Q (revisit f c t) := by
  induction c generalizing t with
  | nil => exact h
  | cons x c ih =>
    simp only [List.mem_cons, forall_eq_or_imp] at hc
    refine ih ?_ hc.2
    have hg : ∀ l r n, Q (visited (V := V) f l r n).1 (visited f l r n).2 l r :=
      fun l r n => hf n l r
    cases x with
    | left e r => exact fits_setTop hg h hc.1
    | right e l => exact fits_setTop hg hc.1 h

end Visits

/-! ## Arrangements -/

section Arrangements

variable [LinearOrder K] {next : ℕ} {L L' : List (ℕ × K × V)}

theorem Arranged.sublist (h : Arranged next L) (hs : L'.Sublist L) : Arranged next L' :=
  ⟨h.root, h.sorted.sublist hs, h.apart.sublist hs, fun x hx => h.given x (hs.subset hx)⟩

theorem Arranged.congr (h : Arranged next L)
    (hL : L.map (fun x => (x.1, x.2.1)) = L'.map fun x => (x.1, x.2.1)) : Arranged next L' := by
  obtain ⟨h0, h1, h2, h3⟩ := h
  have hs : (L.map fun x => (x.1, x.2.1)).Pairwise fun x y => x.2 < y.2 := List.pairwise_map.2 h1
  have ha : (L.map fun x => (x.1, x.2.1)).Pairwise fun x y => x.1 ≠ y.1 := List.pairwise_map.2 h2
  have hg : ∀ x ∈ L.map fun x => (x.1, x.2.1), kRoot < x.1 ∧ x.1 < next :=
    List.forall_mem_map.2 h3
  rw [hL] at hs ha hg
  rw [List.pairwise_map] at hs ha
  exact ⟨h0, hs, ha, List.forall_mem_map.1 hg⟩

theorem Arranged.insert {B A : List (ℕ × K × V)} {k : K} {v : V} (h : Arranged next (B ++ A))
    (hB : ∀ x ∈ B, x.2.1 < k) (hA : ∀ x ∈ A, k < x.2.1) :
    Arranged (next + 1) (B ++ [(next, k, v)] ++ A) := by
  obtain ⟨h0, h1, h2, h3⟩ := h
  have hlt : ∀ x ∈ B ++ A, x.1 < next := fun x hx => (h3 x hx).2
  simp only [List.mem_append] at hlt h3
  rw [List.pairwise_append] at h1 h2
  refine ⟨by omega, ?_, ?_, fun x hx => ?_⟩
  · rw [List.append_assoc, List.pairwise_append, List.singleton_append, List.pairwise_cons]
    refine ⟨h1.1, ⟨hA, h1.2.1⟩, fun x hx y hy => ?_⟩
    rcases List.mem_cons.1 hy with rfl | hy
    · exact hB x hx
    · exact h1.2.2 x hx y hy
  · rw [List.append_assoc, List.pairwise_append, List.singleton_append, List.pairwise_cons]
    refine ⟨h2.1, ⟨fun x hx => (hlt x (Or.inr hx)).ne', h2.2.1⟩, fun x hx y hy => ?_⟩
    rcases List.mem_cons.1 hy with rfl | hy
    · exact (hlt x (Or.inl hx)).ne
    · exact h2.2.2 x hx y hy
  · simp only [List.mem_append, List.mem_singleton] at hx
    rcases hx with (hx | rfl) | hx
    · have := h3 x (Or.inl hx)
      omega
    · exact ⟨h0, Nat.lt_succ_self next⟩
    · have := h3 x (Or.inr hx)
      omega

end Arrangements

end Rome
