import Rome.IhtLocal

/-!
# The arrays of the local table

An iteration with the elements it reads and writes: buckets of allocated P-Lists and of the one that
`rehash` makes, pairs of E-Lists, and what it takes the base of a bucket for.
-/

namespace Rome.Carumap

variable {K V : Type*}

/-- `PList::make(size)` allocates whole `PList`s. -/
def allocatedBuckets (P : Params K) (size : ℕ) : ℕ := P.plistSize * (size / P.plistSize)

inductive Access
  | bucket (plist i : ℕ)
  | newBucket (size i : ℕ)
  | pair (i : ℕ)
  | asElist (plist i : ℕ)
  | asPlist (plist i : ℕ)
  /-- A base of the P-List that `rehash` makes is taken for an E-List, and whether it is one. -/
  | newElist (found : Bool)
  deriving DecidableEq

/-- The element is in its array, or the base is what it is taken for. -/
def Access.Ok (P : Params K) (h : Heap K V) : Access → Prop
  | .bucket p i => ∃ bs, h.plist p = some bs ∧ i < allocatedBuckets P bs.length
  | .newBucket size i => i < allocatedBuckets P size
  | .pair i => i < P.elistSize
  | .asElist p i => (h.bucket p i).lock ≠ .pUnlocked ∧ ∃ e, h.elist (h.bucket p i).base = some e
  | .asPlist p i => (h.bucket p i).lock = .pUnlocked ∧ ∃ bs, h.plist (h.bucket p i).base = some bs
  | .newElist found => found = true

/-- The loop of `rehash`. -/
def rehashAccess (P : Params K) (level count : ℕ) :
    List (K × V) → List ℕ → Heap K V → List Bucket → List Access
  | [], _, _, _ => []
  | kv :: src, fresh, h, bs =>
    let b := levelHash P kv.1 level count
    .newBucket (count * 2) b ::
      if (bucketAt bs b).base = 0 then
        match fresh with
        | [] => []
        | e :: fresh =>
          .newElist ((h.setElist e (some [])).elist e).isSome :: .pair 0 ::
            rehashAccess P level count src fresh (h.setElist e (some ([] ++ [kv])))
              (bs.set b { bucketAt bs b with base := e })
      else
        let dest := (bucketAt bs b).base
        .newElist (h.elist dest).isSome :: .pair ((h.elist dest).getD []).length ::
          rehashAccess P level count src fresh
            (h.setElist dest (some ((h.elist dest).getD [] ++ [kv]))) bs

variable [DecidableEq K] (P : Params K)

/-- The linear search of an E-List, from index `i` on. -/
def searchAccess (key : K) : ℕ → List (K × V) → List Access
  | _, [] => []
  | i, kv :: e => .pair i :: if kv.1 = key then [] else searchAccess key (i + 1) e

/-- What a call does with the E-List `e` after the search. -/
def foundAccess (h : Heap K V) (c : Call K V) (curr depth count bucket : ℕ) (fresh : List ℕ)
    (e : List (K × V)) : List Access :=
  match c, search c.key e with
  | .remove _, some _ => if 1 < e.length then [.pair (e.length - 1)] else []
  | .insert _ _, none =>
    if e.length < P.elistSize then [.pair e.length]
    else .asElist curr bucket :: (List.range e.length).map .pair ++
      rehashAccess P (depth + 1) count e fresh.tail h (makePList (count * 2))
  | _, _ => []

/-- One iteration of the loop. -/
def iterAccess (s : State K V) (f : Frame K V) (fresh : List ℕ) : List Access :=
  let b := levelHash P f.call.key (f.depth + 1) f.count
  let base := (s.heap.bucket f.curr b).base
  .bucket f.curr b ::
    match (s.heap.bucket f.curr b).lock with
    | .pUnlocked => [.asPlist f.curr b]
    | .eLocked => []
    | .eUnlocked =>
      if base = 0 then
        match f.call with
        | .insert _ _ => [.pair 0]
        | _ => []
      else
        .asElist f.curr b ::
          match s.heap.elist base with
          | none => []
          | some e =>
            searchAccess f.call.key 0 e
              ++ foundAccess P s.heap f.call f.curr f.depth f.count b fresh e

/-- The P-List `p` is reached from the root, at depth `d`. -/
inductive Reached (P : Params K) (h : Heap K V) : ℕ → ℕ → Prop
  | root : Reached P h P.root 1
  | child {p d b : ℕ} (hp : Reached P h p d) (hb : b < ((h.plist p).getD []).length)
      (hl : (h.bucket p b).lock = .pUnlocked) : Reached P h (h.bucket p b).base (d + 1)

end Rome.Carumap
