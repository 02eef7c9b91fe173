import Mathlib

/-!
# Search trees and ways down into them

A way down into a binary tree is the list of its steps, from the place it leads to up to the root. A
search for a key goes down to the node that has it, or to the empty place where it belongs; what
lies before that place in the order of the tree has smaller keys, and what lies behind it greater
ones.
-/

namespace SearchTree

open BinaryTree

variable {α : Type*}

/-- The values in order. -/
def toList : BinaryTree α → List α
  | nil => []
  | node x l r => toList l ++ x :: toList r

theorem length_toList (t : BinaryTree α) : (toList t).length = t.numNodes := by
  induction t with
  | nil => rfl
  | node x l r ihl ihr =>
    simp only [toList, List.length_append, List.length_cons, numNodes, ihl, ihr]
    omega

/-- A step down: the value passed, the side taken, and the subtree on the other side. -/
inductive Step (α : Type*)
  | left (x : α) (r : BinaryTree α)
  | right (x : α) (l : BinaryTree α)

def Step.value : Step α → α
  | left x _ => x
  | right x _ => x

/-- The subtree that the step leaves aside. -/
def Step.side : Step α → BinaryTree α
  | left _ r => r
  | right _ l => l

/-- The step undone: `t` with what was passed above it. -/
def Step.fill : Step α → BinaryTree α → BinaryTree α
  | left x r, t => .node x t r
  | right x l, t => .node x l t

/-- The tree with `t` where the way leads to. -/
def plug : List (Step α) → BinaryTree α → BinaryTree α
  | [], t => t
  | s :: c, t => plug c (s.fill t)

/-- The values before the place the way leads to. -/
def before : List (Step α) → List α
  | [] => []
  | .left _ _ :: c => before c
  | .right x l :: c => before c ++ (toList l ++ [x])

/-- The values behind it. -/
def after : List (Step α) → List α
  | [] => []
  | .left x r :: c => (x :: toList r) ++ after c
  | .right _ _ :: c => after c

/-- The values on both sides of the way, step by step. -/
def aside : List (Step α) → List α
  | [] => []
  | s :: c => s.value :: (toList s.side ++ aside c)

theorem toList_plug (c : List (Step α)) (t : BinaryTree α) :
    toList (plug c t) = before c ++ toList t ++ after c := by
  induction c generalizing t with
  | nil => simp [plug, before, after]
  | cons s c ih => cases s <;> simp [plug, Step.fill, before, after, ih, toList]

theorem before_after_perm (c : List (Step α)) : (before c ++ after c).Perm (aside c) := by
  induction c with
  | nil => exact List.Perm.refl _
  | cons s c ih =>
    have hs : (toList s.side ++ (before c ++ after c)).Perm (toList s.side ++ aside c) :=
      ih.append_left _
    cases s with
    | left x r =>
      refine List.Perm.trans ?_ (hs.cons x)
      simp only [before, after, Step.side, List.cons_append]
      refine List.perm_middle.trans (List.Perm.cons x ?_)
      rw [← List.append_assoc, ← List.append_assoc]
      exact List.perm_append_comm.append_right _
    | right x l =>
      refine List.Perm.trans ?_ (hs.cons x)
      simp only [before, after, Step.side]
      rw [← List.append_assoc, List.append_assoc _ [x], List.singleton_append]
      refine List.perm_middle.trans (List.Perm.cons x ?_)
      rw [← List.append_assoc]
      exact List.perm_append_comm.append_right _

theorem toList_plug_perm (c : List (Step α)) (t : BinaryTree α) :
    (toList (plug c t)).Perm (toList t ++ aside c) := by
  rw [toList_plug]
  refine (List.perm_append_comm.append_right _).trans ?_
  rw [List.append_assoc]
  exact (before_after_perm c).append_left _

section Search

variable {K : Type*} [LinearOrder K] (key : α → K)

/-- The keys increase. -/
def Sorted (t : BinaryTree α) : Prop := (toList t).Pairwise fun x y => key x < key y

/-- The search for `k` in `t`, which the way `c` leads to. -/
def descend (k : K) : BinaryTree α → List (Step α) → List (Step α) × BinaryTree α
  | nil, c => (c, nil)
  | node x l r, c =>
    if key x = k then (c, node x l r)
    else if key x < k then descend k r (.right x l :: c)
    else descend k l (.left x r :: c)

variable {key} {k : K}

theorem plug_descend (t : BinaryTree α) (c : List (Step α)) :
    plug (descend key k t c).1 (descend key k t c).2 = plug c t := by
  induction t generalizing c with
  | nil => rfl
  | node x l r ihl ihr =>
    unfold descend
    split_ifs
    · rfl
    · rw [ihr]
      rfl
    · rw [ihl]
      rfl

/-- A search ends in an empty place or at the key. -/
theorem descend_key {t : BinaryTree α} {c c' : List (Step α)} {x : α} {l r : BinaryTree α}
    (h : descend key k t c = (c', node x l r)) : key x = k := by
  induction t generalizing c with
  | nil => simp [descend] at h
  | node y l' r' ihl ihr =>
    unfold descend at h
    split_ifs at h with h1
    · simp only [Prod.mk.injEq, node.injEq] at h
      rw [← h.2.1]
      exact h1
    · exact ihr h
    · exact ihl h

/-- Before the place a search ends in the keys are smaller, and behind it they are greater. -/
theorem descend_between {t : BinaryTree α} {c c' : List (Step α)} {t' : BinaryTree α}
    (hs : Sorted key (plug c t)) (hb : ∀ x ∈ before c, key x < k) (ha : ∀ x ∈ after c, k < key x)
    (h : descend key k t c = (c', t')) :
    (∀ x ∈ before c', key x < k) ∧ ∀ x ∈ after c', k < key x := by
  induction t generalizing c with
  | nil =>
    simp only [descend, Prod.mk.injEq] at h
    rw [← h.1]
    exact ⟨hb, ha⟩
  | node y l r ihl ihr =>
    have hsplit := hs
    rw [Sorted, toList_plug, toList] at hsplit
    obtain ⟨hmid, -, -⟩ := List.pairwise_append.1 hsplit
    obtain ⟨-, hmid, -⟩ := List.pairwise_append.1 hmid
    obtain ⟨-, hr, hl⟩ := List.pairwise_append.1 hmid
    unfold descend at h
    split_ifs at h with h1 h2
    · simp only [Prod.mk.injEq] at h
      rw [← h.1]
      exact ⟨hb, ha⟩
    · refine ihr (c := .right y l :: c) hs (fun x hx => ?_) ha h
      rw [before, List.mem_append, List.mem_append, List.mem_singleton] at hx
      rcases hx with hx | hx | rfl
      · exact hb x hx
      · exact (hl x hx y List.mem_cons_self).trans h2
      · exact h2
    · have h3 : k < key y := lt_of_le_of_ne (not_lt.1 h2) (Ne.symm h1)
      refine ihl (c := .left y r :: c) hs hb (fun x hx => ?_) h
      rw [after, List.cons_append, List.mem_cons, List.mem_append] at hx
      rcases hx with rfl | hx | hx
      · exact h3
      · exact h3.trans (List.rel_of_pairwise_cons hr hx)
      · exact ha x hx

end Search

end SearchTree
