import Rome.Lib.Machine
import Mathlib

/-!
# The augmented tree in memory

The nodes of an `ATree` lie in memory and point to each other; the sentinel `root_` lies at address
`0`, and the tree hangs at its left. `new` gives the next address. Reading or writing a node that is
not there, a failed assertion, and a search that does not end are `none`.
-/

namespace Rome

/-- A node; a null child is `none`. -/
structure ATreeNode (K V M : Type*) where
  key : K
  value : V
  metadata : M
  left : Option ℕ
  right : Option ℕ
  deriving DecidableEq

/-- What a visitor sets at a node, from the node and the metadata of its children. -/
structure Visitor (K V M : Type*) where
  onInsert : ATreeNode K V M → Option M → Option M → M
  onRemove : ATreeNode K V M → Option M → Option M → M
  onUpdate : ATreeNode K V M → Option M → Option M → M
  update : ATreeNode K V M → V → M → Option M → Option M → V × M

section SubtreeCount

variable {K V : Type*} [AddCommMonoid V]

/-- `SubtreeCountVisitor::Visit`. -/
def subtreeCountVisit (curr : ATreeNode K V V) (left right : Option V) : V :=
  left.getD 0 + right.getD 0 + curr.value

def subtreeCountVisitor [One V] : Visitor K V V where
  onInsert := subtreeCountVisit
  onRemove := subtreeCountVisit
  onUpdate := subtreeCountVisit
  update curr _ _ left right :=
    (curr.value + 1, subtreeCountVisit { curr with value := curr.value + 1 } left right)

end SubtreeCount

structure ATreeState (K V M : Type*) where
  nodes : ℕ → Option (ATreeNode K V M)
  next : ℕ
  size : ℤ

variable {K V M : Type*}

/-- The address of `root_`. -/
def kRoot : ℕ := 0

namespace ATreeState

/-- `ATree()`. -/
def init [Inhabited K] [Inhabited V] [Inhabited M] : ATreeState K V M where
  nodes a := if a = kRoot then some ⟨default, default, default, none, none⟩ else none
  next := 1
  size := 0

/-- A write to the node at `a`. -/
def modify (s : ATreeState K V M) (a : ℕ) (f : ATreeNode K V M → ATreeNode K V M) :
    Option (ATreeState K V M) :=
  (s.nodes a).map fun n => { s with nodes := Function.update s.nodes a (some (f n)) }

def setLeft (s : ATreeState K V M) (a : ℕ) (n : Option ℕ) : Option (ATreeState K V M) :=
  s.modify a fun node => { node with left := n }

def setRight (s : ATreeState K V M) (a : ℕ) (n : Option ℕ) : Option (ATreeState K V M) :=
  s.modify a fun node => { node with right := n }

/-- The metadata of a child, if there is one. -/
def childMetadata (s : ATreeState K V M) : Option ℕ → Option (Option M)
  | none => some none
  | some a => (s.nodes a).map fun n => some n.metadata

/-- A visit of the node at `a`. -/
def visit (f : ATreeNode K V M → Option M → Option M → M) (s : ATreeState K V M) (a : ℕ) :
    Option (ATreeState K V M) :=
  (s.nodes a).bind fun n => (s.childMetadata n.left).bind fun left =>
    (s.childMetadata n.right).bind fun right =>
      s.modify a fun n => { n with metadata := f n left right }

/-- The visits of the stack, from its back on. -/
def visitAll (f : ATreeNode K V M → Option M → Option M → M) :
    ATreeState K V M → List ℕ → Option (ATreeState K V M)
  | s, [] => some s
  | s, a :: stack => (s.visit f a).bind fun s => visitAll f s stack

section Search

variable [LinearOrder K] (key : K)

/-- The loop of `FindInternal`: the parent, the node, and the stack, its back first. -/
def findLoop (nodes : ℕ → Option (ATreeNode K V M)) :
    ℕ → ℕ → Option ℕ → List ℕ → Option (ℕ × Option ℕ × List ℕ)
  | _, parent, none, stack => some (parent, none, stack)
  | 0, _, some _, _ => none
  | fuel + 1, parent, some curr, stack =>
    match nodes curr with
    | none => none
    | some n =>
      if n.key = key then some (parent, some curr, stack)
      else findLoop nodes fuel curr (if n.key < key then n.right else n.left) (curr :: stack)

/-- `FindInternal`. There are fewer nodes than addresses given, so a search that takes as many steps
does not end. -/
def findInternal (s : ATreeState K V M) : Option (ℕ × Option ℕ × List ℕ) :=
  match s.nodes kRoot with
  | none => none
  | some root => findLoop key s.nodes s.next kRoot root.left []

/-- `Find`, with the value of the node found. -/
def find (s : ATreeState K V M) : Option (Option V) :=
  match s.findInternal key with
  | none => none
  | some (_, none, _) => some none
  | some (_, some curr, _) => (s.nodes curr).map fun n => some n.value

/-! ## Insertion -/

/-- `InsertInternal`: the address of the new node. -/
def insertInternal (s : ATreeState K V M) (value : V) (metadata : M) (parent : ℕ) :
    Option (ATreeState K V M × ℕ) := do
  let s₁ : ATreeState K V M := { s with
    nodes := Function.update s.nodes s.next (some ⟨key, value, metadata, none, none⟩)
    next := s.next + 1 }
  let p ← s₁.nodes parent
  let s₂ ←
    if parent = kRoot then s₁.setLeft parent (some s.next)
    else if key < p.key then s₁.setLeft parent (some s.next)
    else s₁.setRight parent (some s.next)
  some ({ s₂ with size := s₂.size + 1 }, s.next)

/-- The part that `Insert` and `InsertOrUpdate` share: the key is not there. -/
def insertNew (vis : Visitor K V M) (s : ATreeState K V M) (value : V) (metadata : M) (parent : ℕ)
    (stack : List ℕ) : Option (ATreeState K V M) := do
  let (s₁, newNode) ← s.insertInternal key value metadata parent
  let s₂ ← s₁.visit vis.onInsert newNode
  s₂.visitAll vis.onInsert stack

/-- `Insert`. -/
def insert (vis : Visitor K V M) (s : ATreeState K V M) (value : V) (metadata : M) :
    Option (ATreeState K V M × Bool) :=
  match s.findInternal key with
  | none => none
  | some (_, some _, _) => some (s, false)
  | some (parent, none, stack) =>
    (s.insertNew key vis value metadata parent stack).map fun s => (s, true)

/-- `Visitor::Update` of the node at `a`. -/
def visitUpdate (vis : Visitor K V M) (s : ATreeState K V M) (a : ℕ) (value : V) (metadata : M) :
    Option (ATreeState K V M) :=
  (s.nodes a).bind fun n => (s.childMetadata n.left).bind fun left =>
    (s.childMetadata n.right).bind fun right =>
      s.modify a fun n =>
        let vm := vis.update n value metadata left right
        { n with value := vm.1, metadata := vm.2 }

/-- `InsertOrUpdate`. -/
def insertOrUpdate (vis : Visitor K V M) (s : ATreeState K V M) (value : V) (metadata : M) :
    Option (ATreeState K V M) :=
  match s.findInternal key with
  | none => none
  | some (_, some found, stack) =>
    (s.visitUpdate vis found value metadata).bind fun s => s.visitAll vis.onUpdate stack
  | some (parent, none, stack) => s.insertNew key vis value metadata parent stack

end Search

/-! ## Removal -/

/-- `ReplaceChild`. -/
def replaceChild (s : ATreeState K V M) (parent child : ℕ) (newNode : Option ℕ) :
    Option (ATreeState K V M) :=
  match s.nodes parent with
  | none => none
  | some p =>
    if p.left = some child then s.setLeft parent newNode
    else if p.right = some child then s.setRight parent newNode
    else none

/-- The loop of `FindSuccessors`. -/
def leftmost (nodes : ℕ → Option (ATreeNode K V M)) : ℕ → ℕ → Option ℕ
  | 0, _ => none
  | fuel + 1, curr =>
    match nodes curr with
    | none => none
    | some n =>
      match n.left with
      | none => some curr
      | some left => leftmost nodes fuel left

/-- `FindSuccessors`: its first result is the node it was given. -/
def findSuccessors (s : ATreeState K V M) (curr : ℕ) : Option (ℕ × Option ℕ) :=
  match s.nodes curr with
  | none => none
  | some n =>
    match n.right with
    | none => some (curr, none)
    | some right => (leftmost s.nodes s.next right).map fun succ => (curr, some succ)

/-- The successor takes the children of the node found, and its place. -/
def replaceBy (s : ATreeState K V M) (parent found succ : ℕ) : Option (ATreeState K V M) := do
  let f ← s.nodes found
  let s₁ ← s.setLeft succ f.left
  let f ← s₁.nodes found
  let s₂ ← s₁.setRight succ f.right
  s₂.replaceChild parent found (some succ)

/-- The three cases of `Remove` for the node found. -/
def unlink (s : ATreeState K V M) (parent found : ℕ) : Option (ATreeState K V M) :=
  match s.findSuccessors found with
  | none => none
  | some (_, none) => s.replaceChild parent found none
  | some (first, some succ) =>
    if first = found then s.replaceBy parent found succ
    else do
      let n ← s.nodes succ
      let s₁ ← s.setLeft first n.right
      s₁.replaceBy parent found succ

/-- `Remove`. -/
def remove [LinearOrder K] (key : K) (vis : Visitor K V M) (s : ATreeState K V M) :
    Option (ATreeState K V M × Bool) :=
  match s.findInternal key with
  | none => none
  | some (_, none, _) => some (s, false)
  | some (parent, some found, stack) => do
    let s₁ ← s.unlink parent found
    let s₂ ← s₁.visitAll vis.onRemove stack
    some ({ s₂ with nodes := Function.update s₂.nodes found none, size := s₂.size - 1 }, true)

/-- `Clear`. The nodes stay where they lie. -/
def clear (s : ATreeState K V M) : Option (ATreeState K V M) :=
  (s.setLeft kRoot none).map fun s => { s with size := 0 }

/-! ## Ranks -/

/-- `GetSize`. -/
def getSize [Zero M] (s : ATreeState K V M) : Option M :=
  (s.nodes kRoot).bind fun root => (s.childMetadata root.left).map fun m => m.getD 0

/-- The loop of `FindNthPercentile`: the address of the node returned. -/
def findRankLoop (s : ATreeState K V ℤ) : ℕ → ℕ → ℤ → Option ℕ
  | 0, _, _ => none
  | fuel + 1, curr, rank =>
    match s.nodes curr with
    | none => none
    | some n =>
      (s.childMetadata n.left).bind fun left => (s.childMetadata n.right).bind fun right =>
        if n.left = none ∧ n.right = none then if rank ≤ n.metadata then some curr else none
        else if rank ≤ n.metadata - right.getD 0 ∧ left.getD 0 < rank then some curr
        else if n.left ≠ none ∧ rank ≤ left.getD 0 then
          n.left.bind fun curr => findRankLoop s fuel curr rank
        else n.right.bind fun curr => findRankLoop s fuel curr (rank - (n.metadata - right.getD 0))

/-- The rank that `FindNthPercentile` converts a percentile into. -/
def percentileRank (percentile : ℚ) (size : ℤ) : ℤ :=
  if percentile = 0 then 1 else ⌊percentile / 100 * size⌋

/-- `FindNthPercentile`, with the key of the node returned. -/
def findNthPercentile (s : ATreeState K V ℤ) (percentile : ℚ) : Option K :=
  if 100 < percentile ∨ percentile < 0 then none
  else
    (s.nodes kRoot).bind fun root => root.left.bind fun curr => s.getSize.bind fun size =>
      (s.findRankLoop s.next curr (percentileRank percentile size)).bind fun found =>
        (s.nodes found).map fun n => n.key

end ATreeState

/-- A call of the tree. -/
inductive ATreeCall (K V M : Type*)
  | insert (key : K) (value : V) (metadata : M)
  | insertOrUpdate (key : K) (value : V) (metadata : M)
  | remove (key : K)
  deriving DecidableEq

def atreeStep [LinearOrder K] (vis : Visitor K V M) (s : ATreeState K V M) :
    ATreeCall K V M → Option (ATreeState K V M)
  | .insert key value metadata => (s.insert key vis value metadata).map Prod.fst
  | .insertOrUpdate key value metadata => s.insertOrUpdate key vis value metadata
  | .remove key => (s.remove key vis).map Prod.fst

/-- `InsertOrUpdate(key, 1, 1)` or `Clear`. -/
inductive CountCall (K : Type*)
  | insertOrUpdate (key : K)
  | clear
  deriving DecidableEq

def countStep {W : Type*} [LinearOrder K] [AddCommMonoidWithOne W] (s : ATreeState K W W) :
    CountCall K → Option (ATreeState K W W)
  | .insertOrUpdate key => s.insertOrUpdate key subtreeCountVisitor 1 1
  | .clear => s.clear

end Rome
