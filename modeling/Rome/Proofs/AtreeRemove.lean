import Rome.Proofs.AtreeHeap
import Rome.Lib.Machine

/-!
# Removal from the augmented tree

`FindSuccessors` returns the node it was given as the parent of the successor, however deep the
successor lies. So `Remove` gives the successor the children of the removed node as they are: where
there is a right child, the successor stays below itself. Where there is none, the left subtree is
dropped. What is right is the removal of a node without children, and no other.
-/

namespace Rome

open SearchTree BinaryTree ATreeState Machine

variable {K V M : Type*} [LinearOrder K] {k : K} {s : ATreeState K V M}
  {t t' : BinaryTree (Entry K V M)} {c : List (Step (Entry K V M))} {vis : Visitor K V M}
  {Q : V → M → Option M → Option M → Prop}

/-! ## What the operations that do not remove do -/

theorem Arranged.distinct {next : ℕ} (h : Arranged next (cells (plug c t))) :
    Distinct (toList t ++ aside c) := by
  have hd : Distinct (toList (plug c t)) := by
    have ha := h.apart
    rw [cells, List.pairwise_map] at ha
    refine ⟨fun e he => ?_, ha⟩
    have hlt := (h.given e.cell (List.mem_map_of_mem he)).1
    exact hlt.ne'
  exact hd.of_perm ((toList_plug_perm c t).map _)

/-- The visits of the way's nodes, when what the way leads to has been changed. -/
theorem shows_revisit (f : ATreeNode K V M → Option M → Option M → M)
    (hw : HoldsWay s.nodes c (ptr t)) (ht : Holds s.nodes t)
    (ha : Arranged s.next (cells (plug c t))) :
    ∃ s', s.visitAll f (stackOf c) = some s' ∧ Shows s' (revisit f c t)
      ∧ SameBut {a | ∃ e ∈ aside c, e.addr = a} s s' := by
  obtain ⟨s', hs, hw', ht', hb⟩ := visitAll_spec f hw ht ha.distinct
  refine ⟨s', hs, ⟨hw', ht', ?_⟩, hb⟩
  rwa [hb.next, cells_revisit]

/-- The new node is hung where the search ended. -/
theorem insertInternal_spec (h : Shows s t) (hd : descend Entry.key k t [] = (c, nil)) (v : V)
    (m : M) :
    ∃ s', s.insertInternal k v m (parentOf c) = some (s', s.next)
      ∧ s'.nodes s.next = some ⟨k, v, m, none, none⟩ ∧ HoldsWay s'.nodes c (some s.next)
      ∧ s'.next = s.next + 1 ∧ s'.size = s.size + 1 := by
  obtain ⟨hp, hw, -, hbefore, hafter⟩ := h.way_descend hd
  have ha := h.arranged
  rw [← hp] at ha
  have hd := ha.distinct
  rw [toList, List.nil_append] at hd
  have hnext : ∀ e ∈ aside c, e.addr ≠ s.next := by
    intro e he
    have hmem : e ∈ toList (plug c nil) := (toList_plug_perm c nil).mem_iff.2 he
    have hlt := (ha.given e.cell (List.mem_map_of_mem hmem)).2
    exact hlt.ne
  set s₁ : ATreeState K V M := { s with
    nodes := Function.update s.nodes s.next (some ⟨k, v, m, none, none⟩)
    next := s.next + 1 } with hs₁
  have hw₁ : HoldsWay s₁.nodes c none :=
    hw.congr (Function.update_of_ne ha.root.ne _ _) fun e he =>
      Function.update_of_ne (hnext e he) _ _
  obtain ⟨s₂, hs₂, hw₂, hb₂⟩ := hw₁.setHole hd (some s.next)
  have hparent : parentOf c ≠ s.next := parentOf_ne ha.root.ne hnext
  refine ⟨{ s₂ with size := s₂.size + 1 }, ?_, ?_, hw₂, hb₂.next, ?_⟩
  · unfold insertInternal
    rw [← hs₁]
    rcases c with _ | ⟨⟨e, r⟩ | ⟨e, l⟩, c⟩
    · obtain ⟨n, hn, -⟩ := hw₁
      have hs₂' : s₁.setLeft kRoot (some s.next) = some s₂ := hs₂
      simp [parentOf, hn, hs₂']
    · have hk : k < e.key := hafter e (by simp [after])
      have h0 : e.addr ≠ kRoot := hd.1 e (by simp [aside, Step.value])
      have hs₂' : s₁.setLeft e.addr (some s.next) = some s₂ := hs₂
      simp [parentOf, Step.value, hw₁.1, Entry.node, h0, hk, hs₂']
    · have hk : ¬ k < e.key := (hbefore e (by simp [before])).not_gt
      have h0 : e.addr ≠ kRoot := hd.1 e (by simp [aside, Step.value])
      have hs₂' : s₁.setRight e.addr (some s.next) = some s₂ := hs₂
      simp [parentOf, Step.value, hw₁.1, Entry.node, h0, hk, hs₂']
  · rw [hb₂.nodes _ hparent.symm]
    exact Function.update_self ..
  · rw [hb₂.size]

theorem insertNew_spec (h : Shows s t) (hd : descend Entry.key k t [] = (c, nil)) (v : V) (m : M)
    (hQ : vis.Sets Q) (hf : Fits Q t) :
    ∃ s' t', s.insertNew k vis v m (parentOf c) (stackOf c) = some s' ∧ Shows s' t'
      ∧ t' = revisit vis.onInsert c
        (setTop (visited vis.onInsert) (.node ⟨s.next, k, v, m⟩ nil nil))
      ∧ s'.size = s.size + 1 ∧ t'.numNodes = t.numNodes + 1 ∧ Fits Q t' := by
  obtain ⟨hp, -, -, hbefore, hafter⟩ := h.way_descend hd
  obtain ⟨s₁, hs₁, hnew, hw₁, hnext, hsize⟩ := insertInternal_spec h hd v m
  have ha := h.arranged
  rw [← hp, cells_plug] at ha
  have hcells : cells (plug c (.node ⟨s.next, k, v, m⟩ nil nil))
      = (before c).map Entry.cell ++ [(s.next, k, v)] ++ (after c).map Entry.cell := cells_plug c _
  have ha₁ : Arranged s₁.next (cells (plug c (.node ⟨s.next, k, v, m⟩ nil nil))) := by
    rw [hcells, hnext]
    have ha' : Arranged s.next ((before c).map Entry.cell ++ (after c).map Entry.cell) := by
      simpa [cells, toList] using ha
    exact ha'.insert (List.forall_mem_map.2 hbefore) (List.forall_mem_map.2 hafter)
  have hh₁ : Holds s₁.nodes (.node ⟨s.next, k, v, m⟩ nil nil) := ⟨hnew, trivial, trivial⟩
  obtain ⟨s₂, hs₂, hh₂, hb₂⟩ := holds_setTop hh₁ ha₁.distinct.left (visited vis.onInsert)
  have hw₂ : HoldsWay s₂.nodes c
      (ptr (setTop (visited vis.onInsert) (.node ⟨s.next, k, v, m⟩ nil nil))) := by
    refine hw₁.congr (hb₂.nodes _ ?_) fun e he => hb₂.nodes _ ?_
    · exact (ha₁.distinct.1 _ (by simp [toList])).symm
    · exact (ha₁.distinct.ne (by simp [toList]) he).symm
  have hcells₂ : cells (plug c (setTop (visited vis.onInsert) (.node ⟨s.next, k, v, m⟩ nil nil)))
      = cells (plug c (.node ⟨s.next, k, v, m⟩ nil nil)) := by
    rw [cells_plug, cells_plug, map_cell_setTop fun _ _ _ => rfl]
  have ha₂ := ha₁
  rw [← hb₂.next, ← hcells₂] at ha₂
  obtain ⟨s₃, hs₃, hsh, hb₃⟩ := shows_revisit vis.onInsert hw₂ hh₂ ha₂
  refine ⟨s₃, _, ?_, hsh, rfl, by rw [hb₃.size, hb₂.size, hsize], ?_, ?_⟩
  · unfold insertNew
    rw [hs₁]
    simp only [Option.bind_eq_bind, Option.bind_some]
    rw [show s₁.visit vis.onInsert s.next = some s₂ from hs₂, Option.bind_some]
    exact hs₃
  · rw [← length_cells, ← length_cells, cells_revisit, hcells₂, hcells, ← hp, cells_plug]
    simp [cells, toList]
    omega
  · have hc := (fits_plug (c := c) (by rwa [hp])).2
    exact fits_revisit hQ.onInsert (fits_setTop (fun l r n => hQ.onInsert n l r) trivial trivial) hc

theorem visitUpdate_spec (h : Shows s t) {e : Entry K V M} {l r : BinaryTree (Entry K V M)}
    (hd : descend Entry.key k t [] = (c, .node e l r)) (v : V) (m : M) (hQ : vis.Sets Q)
    (hf : Fits Q t) :
    ∃ s' t', (s.visitUpdate vis e.addr v m).bind (fun s => s.visitAll vis.onUpdate (stackOf c))
        = some s' ∧ Shows s' t'
      ∧ t' = revisit vis.onUpdate c
        (setTop (fun left right n => vis.update n v m left right) (.node e l r))
      ∧ s'.size = s.size ∧ t'.numNodes = t.numNodes ∧ Fits Q t' := by
  obtain ⟨hp, hw, hh, -, -⟩ := h.way_descend hd
  set g : Option M → Option M → ATreeNode K V M → V × M :=
    fun left right n => vis.update n v m left right with hg
  have ha := h.arranged
  rw [← hp] at ha
  obtain ⟨s₁, hs₁, hh₁, hb₁⟩ := holds_setTop hh ha.distinct.left g
  have hw₁ : HoldsWay s₁.nodes c (ptr (setTop g (.node e l r))) := by
    refine hw.congr (hb₁.nodes _ ?_) fun e' he => hb₁.nodes _ ?_
    · exact (ha.distinct.1 e (by simp [toList])).symm
    · exact (ha.distinct.ne (by simp [toList]) he).symm
  have ha₁ : Arranged s₁.next (cells (plug c (setTop g (.node e l r)))) := by
    rw [hb₁.next]
    refine ha.congr ?_
    rw [cells_plug, cells_plug]
    simp [cells, setTop, toList, Entry.cell]
  obtain ⟨s₂, hs₂, hsh, hb₂⟩ := shows_revisit vis.onUpdate hw₁ hh₁ ha₁
  refine ⟨s₂, _, ?_, hsh, rfl, by rw [hb₂.size, hb₁.size], ?_, ?_⟩
  · rw [show s.visitUpdate vis e.addr v m = some s₁ from hs₁, Option.bind_some]
    exact hs₂
  · rw [← length_cells, ← length_cells, cells_revisit, ← hp, cells_plug, cells_plug]
    simp [cells, setTop, toList]
  · rw [← hp] at hf
    obtain ⟨h1, h2⟩ := fits_plug hf
    exact fits_revisit hQ.onUpdate (fits_setTop (fun l r n => hQ.update n v m l r) h1.2.1 h1.2.2) h2

/-! ## Removal of a node without children -/

/-- What is proved of a state that a run without other removals leads to. -/
structure Built (Q : V → M → Option M → Option M → Prop) (s : ATreeState K V M)
    (t : BinaryTree (Entry K V M)) : Prop where
  shows : Shows s t
  size : s.size = t.numNodes
  fits : Fits Q t

/-- The key is absent, or its node has no children. -/
def LeafOrAbsent (s : ATreeState K V M) (k : K) : Prop :=
  ∀ r ∈ s.findInternal k, ∀ found ∈ r.2.1, ∀ n ∈ s.nodes found, n.left = none ∧ n.right = none

instance (s : ATreeState K V M) (k : K) : Decidable (LeafOrAbsent s k) :=
  inferInstanceAs (Decidable (∀ r ∈ s.findInternal k, ∀ found ∈ r.2.1, ∀ n ∈ s.nodes found,
    n.left = none ∧ n.right = none))

/-- What `Remove(k)` has to do in a state that is `t`: the tree after it is `t` without `k`. -/
def RemoveCorrect (vis : Visitor K V M) (Fit : BinaryTree (Entry K V M) → Prop)
    (s : ATreeState K V M) (t : BinaryTree (Entry K V M)) (k : K) : Prop :=
  ∃ s' t', s.remove k vis = some (s', decide (k ∈ (contents t).map Prod.fst)) ∧ Shows s' t'
    ∧ contents t' = (contents t).filter (fun x => x.1 ≠ k)
    ∧ s'.size = s.size - (if k ∈ (contents t).map Prod.fst then 1 else 0)
    ∧ (∀ j ≠ k, s'.find j = s.find j) ∧ Fit t'

omit [LinearOrder K] in
theorem contents_eq (t : BinaryTree (Entry K V M)) :
    contents t = (toList t).map fun e => (e.key, e.value) := by
  rw [contents, cells, List.map_map]
  rfl

theorem Shows.absent (h : Shows s t) (hd : descend Entry.key k t [] = (c, nil)) :
    ∀ x ∈ contents t, x.1 ≠ k := by
  obtain ⟨hp, -, -, hbefore, hafter⟩ := h.way_descend hd
  rw [contents_eq, ← hp, toList_plug, toList, List.append_nil]
  simp only [List.forall_mem_map, List.mem_append]
  rintro e (he | he)
  · exact (hbefore e he).ne
  · exact (hafter e he).ne'

/-- The way to a key that is there, and the two sides of it. -/
theorem Shows.present (h : Shows s t) {e : Entry K V M} {l r : BinaryTree (Entry K V M)}
    (hd : descend Entry.key k t [] = (c, .node e l r)) :
    e.key = k ∧ (k, e.value) ∈ contents t := by
  obtain ⟨hp, -, -, -, -⟩ := h.way_descend hd
  have hk := descend_key hd
  refine ⟨hk, ?_⟩
  rw [contents_eq, ← hp, ← hk, List.mem_map]
  refine ⟨e, ?_, rfl⟩
  rw [toList_plug]
  simp [toList]

theorem Shows.functional (h : Shows s t) {x y : K × V} (hx : x ∈ contents t) (hy : y ∈ contents t)
    (hxy : x.1 = y.1) : x = y := by
  have hnd : ((contents t).map Prod.fst).Nodup := by
    have hs := h.sorted
    rw [contents_eq, List.map_map]
    exact List.pairwise_map.2 (hs.imp fun h => h.ne)
  exact List.inj_on_of_nodup_map hnd hx hy hxy

/-- `Find` finds what the tree has. -/
theorem Shows.find (h : Shows s t) (j : K) :
    ∃ o, s.find j = some o ∧ ∀ v, o = some v ↔ (j, v) ∈ contents t := by
  rcases hd : descend Entry.key j t [] with ⟨c, t'⟩
  obtain ⟨-, -, hh, -, -⟩ := h.way_descend hd
  unfold ATreeState.find
  rw [h.findInternal, hd]
  cases t' with
  | nil =>
    refine ⟨none, rfl, fun v => ?_⟩
    simp only [reduceCtorEq, false_iff]
    exact fun hv => h.absent hd _ hv rfl
  | node e l r =>
    obtain ⟨-, hmem⟩ := h.present hd
    refine ⟨some e.value, by simp [ptr, hh.1, Entry.node], fun v => ?_⟩
    rw [Option.some.injEq]
    refine ⟨fun hv => hv ▸ hmem, fun hv => ?_⟩
    exact congrArg Prod.snd (h.functional hmem hv rfl)

/-- Two trees with the same contents but for `k` give the same answers but for `k`. -/
theorem find_congr {s' : ATreeState K V M} (h : Shows s t) (h' : Shows s' t')
    (hc : contents t' = (contents t).filter (fun x => x.1 ≠ k)) {j : K} (hj : j ≠ k) :
    s'.find j = s.find j := by
  obtain ⟨o, ho, hv⟩ := h.find j
  obtain ⟨o', ho', hv'⟩ := h'.find j
  rw [ho, ho', Option.some.injEq]
  refine Option.ext fun v => ?_
  rw [hv, hv', hc, List.mem_filter]
  simp [hj]

omit [LinearOrder K] in
theorem Shows.unique [LT K] (h : Shows s t) (h' : Shows s t') : t = t' := by
  obtain ⟨n, hn, hl⟩ := h.way
  obtain ⟨n', hn', hl'⟩ := h'.way
  rw [hn, Option.some.injEq] at hn'
  exact h.holds.unique h'.holds (by rw [← hl, ← hl', hn'])

/-- What is left when the left subtree takes the place of the node. -/
theorem Shows.contents_filter (h : Shows s t) {e : Entry K V M} {l : BinaryTree (Entry K V M)}
    (hd : descend Entry.key k t [] = (c, .node e l nil)) :
    contents (plug c l) = (contents t).filter (fun x => x.1 ≠ k) := by
  obtain ⟨hp, -, -, hbefore, hafter⟩ := h.way_descend hd
  have hk := descend_key hd
  have hl : ∀ x ∈ toList l, x.key < k := by
    intro x hx
    have hs := h.sorted
    rw [← hp, Sorted, toList_plug, toList] at hs
    obtain ⟨hmid, -, -⟩ := List.pairwise_append.1 hs
    obtain ⟨-, hmid, -⟩ := List.pairwise_append.1 hmid
    rw [← hk]
    exact (List.pairwise_append.1 hmid).2.2 x hx e List.mem_cons_self
  have hside : ∀ L : List (Entry K V M), (∀ x ∈ L, x.key ≠ k) →
      (L.map fun e => (e.key, e.value)).filter (fun x => x.1 ≠ k)
        = L.map fun e => (e.key, e.value) := by
    intro L hL
    rw [List.filter_eq_self, List.forall_mem_map]
    exact fun x hx => by simpa using hL x hx
  rw [contents_eq, contents_eq, ← hp, toList_plug, toList_plug, toList]
  simp only [List.map_append, List.filter_append, hside _ fun x hx => (hbefore x hx).ne,
    hside _ fun x hx => (hafter x hx).ne', hside _ fun x hx => (hl x hx).ne, List.map_cons]
  simp [hk, toList]

/-- Removal of a node without a right child: the subtree at its left goes with it. -/
theorem remove_no_right (h : Built Q s t) (hQ : vis.Sets Q) {e : Entry K V M}
    {l : BinaryTree (Entry K V M)} (hd : descend Entry.key k t [] = (c, .node e l nil)) :
    ∃ s' t', s.remove k vis = some (s', true) ∧ Shows s' t' ∧ Fits Q t'
      ∧ cells t' = cells (plug c nil) ∧ s'.size = s.size - 1 := by
  obtain ⟨hp, hw, hh, -, -⟩ := h.shows.way_descend hd
  have ha := h.shows.arranged
  rw [← hp] at ha
  have hdist := ha.distinct
  have hmem : e ∈ toList (.node e l nil) := by simp [toList]
  obtain ⟨s₁, hs₁, hw₁, hb₁⟩ := hw.setHole hdist.right none
  have ha₁ : Arranged s₁.next (cells (plug c nil)) := by
    rw [hb₁.next]
    refine ha.sublist ?_
    rw [cells_plug, cells_plug]
    refine List.Sublist.append_right (List.Sublist.append_left ?_ _) _
    exact List.nil_sublist _
  obtain ⟨s₂, hs₂, hsh, hb₂⟩ := shows_revisit vis.onRemove hw₁
    (show Holds s₁.nodes nil from trivial) ha₁
  have hunlink : s.unlink (parentOf c) e.addr = some s₁ := by
    unfold unlink findSuccessors
    rw [hh.1]
    simp only [Entry.node, ptr]
    rw [replaceChild_eq hw hdist, hs₁]
  have hcells : cells (revisit vis.onRemove c nil) = cells (plug c nil) := cells_revisit _
  have hne : ∀ e' ∈ toList (revisit vis.onRemove c nil), e'.addr ≠ e.addr := by
    intro e' he
    have hcell : e'.cell ∈ cells (plug c nil) := hcells ▸ List.mem_map_of_mem he
    obtain ⟨e'', he'', heq⟩ := List.mem_map.1 hcell
    have hin : e'' ∈ aside c := (toList_plug_perm c nil).mem_iff.1 he''
    have haddr : e''.addr = e'.addr := congrArg Prod.fst heq
    rw [← haddr]
    exact (hdist.ne hmem hin).symm
  set s₃ : ATreeState K V M := { s₂ with
    nodes := Function.update s₂.nodes e.addr none
    size := s₂.size - 1 } with hs₃
  have hsh₃ : Shows s₃ (revisit vis.onRemove c nil) := by
    refine ⟨hsh.way.congr ?_ (by simp [aside]), hsh.holds.congr fun e' he => ?_, hsh.arranged⟩
    · exact Function.update_of_ne (hdist.1 e (List.mem_append_left _ hmem)).symm _ _
    · exact Function.update_of_ne (hne e' he) _ _
  refine ⟨s₃, _, ?_, hsh₃, ?_, hcells, ?_⟩
  · unfold remove
    rw [h.shows.findInternal, hd]
    simp only [ptr, hunlink, hs₂, Option.bind_eq_bind, Option.bind_some]
    rfl
  · have hf := h.fits
    rw [← hp] at hf
    exact fits_revisit hQ.onRemove trivial (fits_plug hf).2
  · rw [hs₃]
    simp only [hb₂.size, hb₁.size]

/-- Removal of a node without children. -/
theorem remove_leaf (h : Built Q s t) (hQ : vis.Sets Q) {e : Entry K V M}
    (hd : descend Entry.key k t [] = (c, .node e nil nil)) :
    ∃ s' t', s.remove k vis = some (s', true) ∧ Built Q s' t'
      ∧ contents t' = (contents t).filter (fun x => x.1 ≠ k) ∧ s'.size = s.size - 1 := by
  obtain ⟨hp, -, -, -, -⟩ := h.shows.way_descend hd
  obtain ⟨s', t', hr, hsh, hf, hcells, hsize⟩ := remove_no_right h hQ hd
  refine ⟨s', t', hr, ⟨hsh, ?_, hf⟩, ?_, hsize⟩
  · rw [hsize, h.size, ← hp, ← length_cells, ← length_cells, hcells, cells_plug, cells_plug]
    simp [cells, toList]
    omega
  · rw [← h.shows.contents_filter hd, contents, contents, hcells]

/-! ## Removal of a node with children -/

/-- A child pointer. -/
def ChildLink (nodes : ℕ → Option (ATreeNode K V M)) (a b : ℕ) : Prop :=
  ∃ n, nodes a = some n ∧ (n.left = some b ∨ n.right = some b)

section Links

open Relation

omit [LinearOrder K]

variable {nodes : ℕ → Option (ATreeNode K V M)}

theorem Holds.link (h : Holds nodes t) {a b : ℕ} (ha : ptr t = some a) (hl : ChildLink nodes a b) :
    ∃ t', Holds nodes t' ∧ ptr t' = some b ∧ t'.numNodes < t.numNodes := by
  cases t with
  | nil => simp [ptr] at ha
  | node e l r =>
    simp only [ptr, Option.some.injEq] at ha
    obtain ⟨n, hn, hb⟩ := hl
    rw [← ha, h.1, Option.some.injEq] at hn
    rw [← hn] at hb
    have hnum : (BinaryTree.node e l r).numNodes = l.numNodes + r.numNodes + 1 := rfl
    rcases hb with hb | hb
    · exact ⟨l, h.2.1, hb, by omega⟩
    · exact ⟨r, h.2.2, hb, by omega⟩

theorem Holds.reaches (h : Holds nodes t) {a b : ℕ} (ha : ptr t = some a)
    (hl : ReflTransGen (ChildLink nodes) a b) :
    ∃ t', Holds nodes t' ∧ ptr t' = some b ∧ t'.numNodes ≤ t.numNodes := by
  induction hl with
  | refl => exact ⟨t, h, ha, le_rfl⟩
  | tail _ hbc ih =>
    obtain ⟨t₁, h₁, hp₁, hn₁⟩ := ih
    obtain ⟨t₂, h₂, hp₂, hn₂⟩ := h₁.link hp₁ hbc
    exact ⟨t₂, h₂, hp₂, by omega⟩

/-- A tree has no knot. -/
theorem Holds.acyclic (h : Holds nodes t) {a b : ℕ} (ha : ptr t = some a)
    (hab : ChildLink nodes a b) : ¬ ReflTransGen (ChildLink nodes) b a := by
  intro hba
  obtain ⟨t₁, h₁, hp₁, hn₁⟩ := h.link ha hab
  obtain ⟨t₂, h₂, hp₂, hn₂⟩ := h₁.reaches hp₁ hba
  have heq : t = t₂ := h.unique h₂ (ha.trans hp₂.symm)
  rw [← heq] at hn₂
  omega

/-- The way leads from the root to where it points. -/
theorem HoldsWay.reaches {b : ℕ} (h : HoldsWay nodes c (some b)) {R : ℕ → ℕ → Prop}
    (hR : ∀ x ∈ aside c, ∀ b, ChildLink nodes x.addr b → R x.addr b) :
    ∃ n a, nodes kRoot = some n ∧ n.left = some a ∧ ReflTransGen R a b := by
  induction c generalizing b with
  | nil =>
    obtain ⟨n, hn, hl⟩ := h
    exact ⟨n, b, hn, hl, .refl⟩
  | cons x c ih =>
    simp only [aside, List.mem_cons, List.mem_append] at hR
    have hc := fun y hy => hR y (Or.inr (Or.inr hy))
    have hx := hR x.value (Or.inl rfl)
    cases x with
    | left e r =>
      obtain ⟨n, a, hn, hl, hab⟩ := ih h.2.2 hc
      exact ⟨n, a, hn, hl, hab.tail (hx b ⟨_, h.1, Or.inl rfl⟩)⟩
    | right e l =>
      obtain ⟨n, a, hn, hl, hab⟩ := ih h.2.2 hc
      exact ⟨n, a, hn, hl, hab.tail (hx b ⟨_, h.1, Or.inr rfl⟩)⟩

/-- The loop of `FindSuccessors` goes down the left side. -/
theorem leftmost_spec {e : Entry K V M} {l r : BinaryTree (Entry K V M)} {fuel : ℕ}
    (h : Holds nodes (.node e l r)) (hd : Distinct (toList (.node e l r)))
    (hf : (BinaryTree.node e l r).numNodes ≤ fuel) :
    ∃ y ∈ toList (.node e l r), leftmost nodes fuel e.addr = some y.addr
      ∧ ∀ R : ℕ → ℕ → Prop, (∀ x ∈ toList (.node e l r), x.addr ≠ y.addr →
        ∀ b, ChildLink nodes x.addr b → R x.addr b) → ReflTransGen R e.addr y.addr := by
  induction l generalizing e r fuel with
  | nil =>
    simp only [numNodes] at hf
    obtain ⟨fuel, rfl⟩ : ∃ n, fuel = n + 1 := ⟨fuel - 1, by omega⟩
    refine ⟨e, by simp [toList], ?_, fun R _ => .refl⟩
    unfold leftmost
    simp [h.1, Entry.node, ptr]
  | node e' l' r' ihl _ =>
    simp only [numNodes] at hf
    obtain ⟨fuel, rfl⟩ : ∃ n, fuel = n + 1 := ⟨fuel - 1, by omega⟩
    have hd' : Distinct (toList (.node e' l' r')) := by
      unfold toList at hd
      exact hd.left
    have hf' : (BinaryTree.node e' l' r').numNodes ≤ fuel := by
      simp only [numNodes]
      omega
    obtain ⟨y, hy, hs, hreach⟩ := ihl h.2.1 hd' hf'
    have hmem : y ∈ toList (.node e (.node e' l' r') r) := by
      rw [toList]
      exact List.mem_append_left _ hy
    refine ⟨y, hmem, ?_, fun R hR => ?_⟩
    · unfold leftmost
      simp only [h.1, Entry.node, ptr]
      exact hs
    · have hne : e.addr ≠ y.addr := (hd.node.1 y hy).symm
      have hstep : R e.addr e'.addr :=
        hR e (by simp [toList]) hne e'.addr ⟨_, h.1, Or.inl rfl⟩
      refine ReflTransGen.head hstep (hreach R fun x hx => hR x ?_)
      rw [toList]
      exact List.mem_append_left _ hx

/-- A visit keeps the pointers. -/
theorem visit_links {f : ATreeNode K V M → Option M → Option M → M} {s' : ATreeState K V M} {a : ℕ}
    (h : s.visit f a = some s') (b : ℕ) {n : ATreeNode K V M} (hn : s.nodes b = some n) :
    ∃ n', s'.nodes b = some n' ∧ n'.left = n.left ∧ n'.right = n.right := by
  simp only [visit, Option.bind_eq_some_iff, ATreeState.modify, Option.map_eq_some_iff] at h
  obtain ⟨-, -, left, -, right, -, m, hm, rfl⟩ := h
  by_cases hb : b = a
  · subst hb
    rw [hn, Option.some.injEq] at hm
    subst hm
    exact ⟨_, Function.update_self .., rfl, rfl⟩
  · exact ⟨n, (Function.update_of_ne hb _ _).trans hn, rfl, rfl⟩

theorem visitAll_links {f : ATreeNode K V M → Option M → Option M → M} {s' : ATreeState K V M}
    {stack : List ℕ} (h : s.visitAll f stack = some s') (b : ℕ) {n : ATreeNode K V M}
    (hn : s.nodes b = some n) :
    ∃ n', s'.nodes b = some n' ∧ n'.left = n.left ∧ n'.right = n.right := by
  induction stack generalizing s n with
  | nil =>
    simp only [visitAll, Option.some.injEq] at h
    exact ⟨n, h ▸ hn, rfl, rfl⟩
  | cons a stack ih =>
    simp only [visitAll, Option.bind_eq_some_iff] at h
    obtain ⟨s₁, h₁, h₂⟩ := h
    obtain ⟨n₁, hn₁, hl₁, hr₁⟩ := visit_links h₁ b hn
    obtain ⟨n₂, hn₂, hl₂, hr₂⟩ := ih h₂ hn₁
    exact ⟨n₂, hn₂, hl₂.trans hl₁, hr₂.trans hr₁⟩

end Links

/-- The successor takes the place of the node found, and points back to the subtree it lies in. -/
theorem unlink_knot (h : Shows s t) {e e₁ : Entry K V M} {l l₁ r₁ : BinaryTree (Entry K V M)}
    (hd : descend Entry.key k t [] = (c, .node e l (.node e₁ l₁ r₁))) :
    ∃ s₁ y, s.unlink (parentOf c) e.addr = some s₁ ∧ y ≠ e.addr
      ∧ HoldsWay s₁.nodes c (some y) ∧ ChildLink s₁.nodes y e₁.addr
      ∧ ∀ R : ℕ → ℕ → Prop, (∀ a ≠ e.addr, ∀ b, ChildLink s₁.nodes a b → R a b) →
        Relation.ReflTransGen R e₁.addr y := by
  obtain ⟨hp, hw, hh, -, -⟩ := h.way_descend hd
  have ha := h.arranged
  rw [← hp] at ha
  have hdist := ha.distinct
  have hr : Distinct (toList (.node e₁ l₁ r₁)) := by
    have hl := hdist.left
    rw [toList] at hl
    exact ⟨fun x hx => hl.1 x (List.mem_append_right _ (List.mem_cons_of_mem _ hx)),
      (List.pairwise_cons.1 hl.right.2).2⟩
  have hf : (BinaryTree.node e₁ l₁ r₁).numNodes ≤ s.next := by
    have hlen := ha.length_lt
    rw [cells_plug] at hlen
    simp only [List.length_append, length_cells] at hlen
    have hnum : (BinaryTree.node e l (.node e₁ l₁ r₁)).numNodes
      = l.numNodes + (BinaryTree.node e₁ l₁ r₁).numNodes + 1 := rfl
    omega
  obtain ⟨y, hy, hsucc, hreach⟩ := leftmost_spec hh.2.2 hr hf
  have hye : y.addr ≠ e.addr := hdist.left.node.2 y hy
  have hyt : y ∈ toList (.node e l (.node e₁ l₁ r₁)) := by
    rw [toList]
    exact List.mem_append_right _ (List.mem_cons_of_mem _ hy)
  have hyc : ∀ x ∈ aside c, x.addr ≠ y.addr := fun x hx => (hdist.ne hyt hx).symm
  have hy0 : kRoot ≠ y.addr := (hdist.left.1 y hyt).symm
  obtain ⟨ly, ry, hny⟩ := hh.get hyt
  obtain ⟨s₁, hs₁, hn₁, hb₁⟩ := modify_spec hny fun n => { n with left := ptr l }
  obtain ⟨s₂, hs₂, hn₂, hb₂⟩ := modify_spec hn₁ fun n => { n with right := some e₁.addr }
  have hsame : ∀ a ≠ y.addr, s₂.nodes a = s.nodes a := fun a ha =>
    (hb₂.nodes a ha).trans (hb₁.nodes a ha)
  have hw₂ : HoldsWay s₂.nodes c (some e.addr) :=
    hw.congr (hsame _ hy0) fun x hx => hsame _ (hyc x hx)
  obtain ⟨s₃, hs₃, hw₃, hb₃⟩ := hw₂.setHole hdist.right (some y.addr)
  have hparent : ∀ a, kRoot ≠ a → (∀ x ∈ aside c, x.addr ≠ a) → s₃.nodes a = s₂.nodes a :=
    fun a h0 hc => hb₃.nodes a (parentOf_ne h0 hc).symm
  refine ⟨s₃, y.addr, ?_, hye, hw₃, ⟨_, (hparent _ hy0 hyc).trans hn₂, Or.inr rfl⟩,
    fun R hR => hreach R fun x hx hxy b hlink => ?_⟩
  · have hsetl : s.setLeft y.addr (ptr l) = some s₁ := hs₁
    have hsetr : s₁.setRight y.addr (some e₁.addr) = some s₂ := hs₂
    have hfound : s₁.nodes e.addr = some (e.node (ptr l) (some e₁.addr)) :=
      (hb₁.nodes _ hye.symm).trans hh.1
    have hfs : s.findSuccessors e.addr = some (e.addr, some y.addr) := by
      unfold findSuccessors
      simp [hh.1, Entry.node, ptr, hsucc]
    unfold unlink
    simp only [hfs, if_true]
    unfold replaceBy
    rw [hh.1]
    simp only [Option.bind_eq_bind, Option.bind_some, Entry.node, hsetl]
    rw [hfound]
    simp only [Option.bind_some, Entry.node, hsetr]
    rw [replaceChild_eq hw₂ hdist, hs₃]
  · have hxt : x ∈ toList (.node e l (.node e₁ l₁ r₁)) := by
      rw [toList]
      exact List.mem_append_right _ (List.mem_cons_of_mem _ hx)
    obtain ⟨n, hn, hb⟩ := hlink
    refine hR _ (hdist.left.node.2 x hx) b ⟨n, ?_, hb⟩
    rw [hparent _ (hdist.left.1 x hxt).symm fun z hz => (hdist.ne hxt hz).symm, hsame _ hxy, hn]

/-- No tree is left when the node has a right child. -/
theorem remove_right {s' : ATreeState K V M} {b : Bool} (h : Shows s t) {e e₁ : Entry K V M}
    {l l₁ r₁ : BinaryTree (Entry K V M)}
    (hd : descend Entry.key k t [] = (c, .node e l (.node e₁ l₁ r₁)))
    (hr : s.remove k vis = some (s', b)) : ¬ ∃ t', Shows s' t' := by
  rintro ⟨t', h'⟩
  obtain ⟨s₁, y, hunlink, hye, hw₁, hknot, hreach⟩ := unlink_knot h hd
  obtain ⟨hp, -, -, -, -⟩ := h.way_descend hd
  have ha := h.arranged
  rw [← hp] at ha
  have hmem : e ∈ toList (.node e l (.node e₁ l₁ r₁)) := by simp [toList]
  unfold remove at hr
  rw [h.findInternal, hd] at hr
  simp only [ptr, hunlink, Option.bind_eq_bind, Option.bind_some, Option.bind_eq_some_iff,
    Option.some.injEq, Prod.mk.injEq] at hr
  obtain ⟨s₂, hs₂, rfl, -⟩ := hr
  have hlinks : ∀ a ≠ e.addr, ∀ b, ChildLink s₁.nodes a b →
      ChildLink (Function.update s₂.nodes e.addr none) a b := by
    rintro a hae b ⟨n, hn, hb⟩
    obtain ⟨n', hn', hl, hr⟩ := visitAll_links hs₂ a hn
    refine ⟨n', (Function.update_of_ne hae _ _).trans hn', ?_⟩
    rwa [hl, hr]
  obtain ⟨n, a, hn, hl, hay⟩ := hw₁.reaches fun x hx =>
    hlinks x.addr (ha.distinct.ne hmem hx).symm
  obtain ⟨n', hn', hl', -⟩ := visitAll_links hs₂ kRoot hn
  obtain ⟨root, hroot, hleft⟩ := h'.way
  have h0 : kRoot ≠ e.addr := (ha.distinct.1 e (List.mem_append_left _ hmem)).symm
  replace hroot := (Function.update_of_ne h0 none s₂.nodes).symm.trans hroot
  rw [hn', Option.some.injEq] at hroot
  have hptr : ptr t' = some a := by rw [← hleft, ← hroot, hl', hl]
  obtain ⟨t₂, ht₂, hp₂, -⟩ := h'.holds.reaches hptr hay
  exact ht₂.acyclic hp₂ (hlinks y hye _ hknot) (hreach _ hlinks)

theorem leafOrAbsent_iff (h : Shows s t) (hd : descend Entry.key k t [] = (c, t')) :
    LeafOrAbsent s k ↔ t' = nil ∨ ∃ e, t' = .node e nil nil := by
  obtain ⟨-, -, hh, -, -⟩ := h.way_descend hd
  unfold LeafOrAbsent
  rw [h.findInternal, hd]
  cases t' with
  | nil => simp [ptr]
  | node e l r =>
    simp only [Option.mem_def, Option.some.injEq, forall_eq', ptr, hh.1, Entry.node, reduceCtorEq,
      false_or, node.injEq]
    cases l <;> cases r <;> simp

/-- `Remove(k)` is correct just when the node of the key has no children. -/
theorem removeCorrect_iff (h : Built Q s t) (hQ : vis.Sets Q)
    {Fit : BinaryTree (Entry K V M) → Prop} (hF : ∀ t, Fits Q t → Fit t) :
    RemoveCorrect vis Fit s t k ↔ LeafOrAbsent s k := by
  rcases hd : descend Entry.key k t [] with ⟨c, t'⟩
  obtain ⟨hp, -, -, -, -⟩ := h.shows.way_descend hd
  rw [leafOrAbsent_iff h.shows hd]
  match t' with
  | nil =>
    have habs := h.shows.absent hd
    have hnot : k ∉ (contents t).map Prod.fst := by
      intro hk
      obtain ⟨x, hx, hxk⟩ := List.mem_map.1 hk
      exact habs x hx hxk
    refine iff_of_true ⟨s, t, ?_, h.shows, ?_, ?_, fun _ _ => rfl, hF t h.fits⟩ (Or.inl rfl)
    · unfold remove
      rw [h.shows.findInternal, hd]
      simp only [ptr, hnot, decide_false]
    · rw [eq_comm, List.filter_eq_self]
      exact fun x hx => by simpa using habs x hx
    · rw [if_neg hnot, sub_zero]
  | .node e l nil =>
    have hmem : k ∈ (contents t).map Prod.fst := List.mem_map_of_mem (h.shows.present hd).2
    by_cases hl : l = nil
    · subst hl
      obtain ⟨s', t', hr, hb, hc, hsize⟩ := remove_leaf h hQ hd
      refine iff_of_true ⟨s', t', ?_, hb.shows, hc, ?_,
        fun j hj => find_congr h.shows hb.shows hc hj, hF t' hb.fits⟩ (Or.inr ⟨e, rfl⟩)
      · rw [hr, decide_eq_true hmem]
      · rw [hsize, if_pos hmem]
    · refine iff_of_false ?_ (by simp [hl])
      rintro ⟨s', t', hr, hsh, hc, -, -, -⟩
      obtain ⟨s'', t'', hr', hsh', -, hcells, -⟩ := remove_no_right h hQ hd
      rw [hr, Option.some.injEq, Prod.mk.injEq] at hr'
      obtain ⟨rfl, -⟩ := hr'
      rw [hsh.unique hsh', ← h.shows.contents_filter hd] at hc
      have hlen := congrArg List.length hc
      rw [contents, contents, hcells, cells_plug, cells_plug] at hlen
      simp only [List.length_map, List.length_append, length_cells, numNodes] at hlen
      cases l with
      | nil => exact hl rfl
      | node e₁ l₁ r₁ =>
        simp only [numNodes] at hlen
        omega
  | .node e l (.node e₁ l₁ r₁) =>
    refine iff_of_false ?_ (by simp)
    rintro ⟨s', t', hr, hsh, -⟩
    exact remove_right h.shows hd hr ⟨t', hsh⟩

/-! ## Runs -/

theorem built_init [Inhabited K] [Inhabited V] [Inhabited M] :
    Built Q (ATreeState.init : ATreeState K V M) nil where
  shows := ⟨⟨_, rfl, rfl⟩, trivial, ⟨Nat.one_pos, .nil, .nil, by simp [cells, toList]⟩⟩
  size := rfl
  fits := trivial

/-- The calls that remove no node with children. -/
def RemovesLeaf (s : ATreeState K V M) : ATreeCall K V M → Prop
  | .remove key => LeafOrAbsent s key
  | _ => True

instance (s : ATreeState K V M) : (e : ATreeCall K V M) → Decidable (RemovesLeaf s e)
  | .remove key => inferInstanceAs (Decidable (LeafOrAbsent s key))
  | .insert _ _ _ => .isTrue trivial
  | .insertOrUpdate _ _ _ => .isTrue trivial

theorem insertNew_built (h : Built Q s t) (hQ : vis.Sets Q)
    (hd : descend Entry.key k t [] = (c, nil)) {v : V} {m : M} {s' : ATreeState K V M}
    (hs : s.insertNew k vis v m (parentOf c) (stackOf c) = some s') : ∃ t', Built Q s' t' := by
  obtain ⟨s₁, t₁, hs₁, hsh, -, hsize, hnum, hf⟩ := insertNew_spec h.shows hd v m hQ h.fits
  rw [hs, Option.some.injEq] at hs₁
  subst hs₁
  exact ⟨t₁, hsh, by rw [hsize, h.size, hnum, Nat.cast_succ], hf⟩

theorem Built.step (h : Built Q s t) (hQ : vis.Sets Q) {e : ATreeCall K V M}
    {s' : ATreeState K V M} (he : RemovesLeaf s e) (hs : atreeStep vis s e = some s') :
    ∃ t', Built Q s' t' := by
  cases e with
  | insert k v m =>
    rcases hd : descend Entry.key k t [] with ⟨c, t'⟩
    simp only [atreeStep, ATreeState.insert, h.shows.findInternal, hd] at hs
    cases t' with
    | nil =>
      simp only [ptr, Option.map_map, Option.map_eq_some_iff] at hs
      obtain ⟨s₁, hs₁, rfl⟩ := hs
      exact insertNew_built h hQ hd hs₁
    | node e l r =>
      simp only [ptr, Option.map_some, Option.some.injEq] at hs
      exact ⟨t, hs ▸ h⟩
  | insertOrUpdate k v m =>
    rcases hd : descend Entry.key k t [] with ⟨c, t'⟩
    simp only [atreeStep, ATreeState.insertOrUpdate, h.shows.findInternal, hd] at hs
    cases t' with
    | nil => exact insertNew_built h hQ hd hs
    | node e l r =>
      obtain ⟨s₁, t₁, hs₁, hsh, -, hsize, hnum, hf⟩ := visitUpdate_spec h.shows hd v m hQ h.fits
      simp only [ptr] at hs
      rw [hs, Option.some.injEq] at hs₁
      subst hs₁
      exact ⟨t₁, hsh, by rw [hsize, h.size, hnum], hf⟩
  | remove k =>
    obtain ⟨⟨s₁, b⟩, hs₁, rfl⟩ := Option.map_eq_some_iff.1 hs
    rcases hd : descend Entry.key k t [] with ⟨c, t'⟩
    rcases (leafOrAbsent_iff h.shows hd).1 he with rfl | ⟨e, rfl⟩
    · simp only [remove, h.shows.findInternal, hd, ptr, Option.some.injEq, Prod.mk.injEq] at hs₁
      exact ⟨t, hs₁.1 ▸ h⟩
    · obtain ⟨s₂, t₂, hs₂, hb, -, -⟩ := remove_leaf h hQ hd
      rw [hs₂, Option.some.injEq, Prod.mk.injEq] at hs₁
      exact ⟨t₂, hs₁.1 ▸ hb⟩

/-- A run that removes no node with children leads to a search tree. -/
theorem run_built [Inhabited K] [Inhabited V] [Inhabited M] (hQ : vis.Sets Q)
    {es : List (ATreeCall K V M)} (hr : run (atreeStep vis) ATreeState.init es = some s)
    (hm : Meets (atreeStep vis) RemovesLeaf ATreeState.init es) : ∃ t, Built Q s t :=
  run_inv (I := fun s => ∃ t, Built Q s t)
    (fun _ _ _ ⟨_, h⟩ he hs => h.step hQ he hs) hr hm ⟨nil, built_init⟩

section Counted

variable {W : Type*} [AddCommMonoid W]

/-- The metadata of each node is the sum of the values in its subtree. -/
def Counted : BinaryTree (Entry K W W) → Prop
  | nil => True
  | node e l r =>
    e.metadata = ((toList (.node e l r)).map Entry.value).sum ∧ Counted l ∧ Counted r

/-- The metadata of a node is computed from its children's. -/
def SubtreeCount (value metadata : W) (left right : Option W) : Prop :=
  metadata = left.getD 0 + right.getD 0 + value

omit [LinearOrder K] in
theorem subtreeCountVisitor_sets [One W] :
    (subtreeCountVisitor : Visitor K W W).Sets SubtreeCount where
  onInsert _ _ _ := rfl
  onRemove _ _ _ := rfl
  onUpdate _ _ _ := rfl
  update _ _ _ _ _ := rfl

omit [LinearOrder K] in
theorem counted_of_fits {t : BinaryTree (Entry K W W)} (h : Fits SubtreeCount t) :
    Counted t ∧ (topMetadata t).getD 0 = ((toList t).map Entry.value).sum := by
  induction t with
  | nil => exact ⟨trivial, rfl⟩
  | node e l r ihl ihr =>
    obtain ⟨h1, h2, h3⟩ := h
    obtain ⟨hl, hl'⟩ := ihl h2
    obtain ⟨hr, hr'⟩ := ihr h3
    have hsum : e.metadata = ((toList (.node e l r)).map Entry.value).sum := by
      rw [h1, hl', hr']
      simp only [toList, List.map_append, List.map_cons, List.sum_append, List.sum_cons]
      rw [add_assoc, add_comm _ e.value]
    exact ⟨⟨hsum, hl, hr⟩, hsum⟩

end Counted

/-- `Remove` does what it should just where the node of the key has no children, or the key is
absent. -/
theorem atree_remove_correct [Inhabited K] [Inhabited V] [Inhabited M] {W : Type*} [AddCommMonoid W]
    [One W] [Inhabited W] :
    (∀ (vis : Visitor K V M) (es : List (ATreeCall K V M)) (s : ATreeState K V M),
      run (atreeStep vis) ATreeState.init es = some s →
      Meets (atreeStep vis) RemovesLeaf ATreeState.init es →
      ∃ t, Shows s t ∧ s.size = t.numNodes
        ∧ ∀ k, RemoveCorrect vis (fun _ => True) s t k ↔ LeafOrAbsent s k)
    ∧ ∀ (es : List (ATreeCall K W W)) (s : ATreeState K W W),
      run (atreeStep subtreeCountVisitor) ATreeState.init es = some s →
      Meets (atreeStep subtreeCountVisitor) RemovesLeaf ATreeState.init es →
      ∃ t, Shows s t ∧ s.size = t.numNodes ∧ Counted t
        ∧ ∀ k, RemoveCorrect subtreeCountVisitor Counted s t k ↔ LeafOrAbsent s k := by
  refine ⟨fun vis es s hr hm => ?_, fun es s hr hm => ?_⟩
  · have hQ : vis.Sets fun _ _ _ _ => True :=
      ⟨fun _ _ _ => trivial, fun _ _ _ => trivial, fun _ _ _ => trivial, fun _ _ _ _ _ => trivial⟩
    obtain ⟨t, h⟩ := run_built hQ hr hm
    exact ⟨t, h.shows, h.size, fun k => removeCorrect_iff h hQ fun _ _ => trivial⟩
  · obtain ⟨t, h⟩ := run_built subtreeCountVisitor_sets hr hm
    exact ⟨t, h.shows, h.size, (counted_of_fits h.fits).1, fun k =>
      removeCorrect_iff h subtreeCountVisitor_sets fun _ ht => (counted_of_fits ht).1⟩

/-- A key that has come and gone, below one that stays. -/
def leafRun : List (ATreeCall ℕ ℤ ℤ) :=
  [.insert 2 1 1, .insertOrUpdate 1 1 1, .insertOrUpdate 1 1 1, .remove 1, .insert 3 1 1]

theorem atree_remove_correct_leafRun :
    ∃ s, run (atreeStep subtreeCountVisitor) ATreeState.init leafRun = some s
      ∧ ∃ t, Shows s t ∧ s.size = t.numNodes ∧ Counted t
        ∧ (RemoveCorrect subtreeCountVisitor Counted s t 3 ↔ LeafOrAbsent s 3) := by
  obtain ⟨s, hs⟩ := Option.isSome_iff_exists.1
    (show (run (atreeStep subtreeCountVisitor) ATreeState.init leafRun).isSome from rfl)
  obtain ⟨t, ht, hsize, hc, hk⟩ := (atree_remove_correct (K := ℕ) (V := ℤ) (M := ℤ) (W := ℤ)).2
    leafRun s hs (by decide +kernel)
  exact ⟨s, hs, t, ht, hsize, hc, hk 3⟩

/-- Removing `1` from the tree of `1` and `2` makes `2` its own child, and a search for `3` does not
end; removing `2` from the tree of `2` and `1` loses `1`. -/
theorem remove_parent :
    ((run (atreeStep subtreeCountVisitor) ATreeState.init
        [.insert (1 : ℕ) (1 : ℤ) (1 : ℤ), .insert 2 1 1]).bind fun s =>
      (s.remove 1 subtreeCountVisitor).map fun r => (r.2, r.1.find 3)) = some (true, none)
    ∧ ((run (atreeStep subtreeCountVisitor) ATreeState.init
        [.insert (2 : ℕ) (1 : ℤ) (1 : ℤ), .insert 1 1 1]).bind fun s =>
      (s.remove 2 subtreeCountVisitor).map fun r => (s.find 1, r.1.find 1))
        = some (some (some 1), some none)
    ∧ ¬ ∀ (es : List (ATreeCall ℕ ℤ ℤ)) (s : ATreeState ℕ ℤ ℤ),
        run (atreeStep subtreeCountVisitor) ATreeState.init es = some s →
        ∃ t, Shows s t ∧ ∀ k, RemoveCorrect subtreeCountVisitor Counted s t k := by
  have hlost : ((run (atreeStep subtreeCountVisitor) ATreeState.init
        [.insert (2 : ℕ) (1 : ℤ) (1 : ℤ), .insert 1 1 1]).bind fun s =>
      (s.remove 2 subtreeCountVisitor).map fun r => (s.find 1, r.1.find 1))
        = some (some (some 1), some none) := by decide +kernel
  refine ⟨by decide +kernel, hlost, fun h => ?_⟩
  obtain ⟨s, hs, hr⟩ := Option.bind_eq_some_iff.1 hlost
  obtain ⟨⟨s', b⟩, hs', hfinds⟩ := Option.map_eq_some_iff.1 hr
  obtain ⟨t, -, ht⟩ := h _ s hs
  obtain ⟨s₁, t', hr₁, -, -, -, hfind, -⟩ := ht 2
  rw [hs', Option.some.injEq, Prod.mk.injEq] at hr₁
  have hfound := hfind 1 (by decide)
  simp only [Prod.mk.injEq] at hfinds
  rw [← hr₁.1, hfinds.1, hfinds.2] at hfound
  simp at hfound

end Rome
