import Rome.Lib.Undefined
import Rome.Status

/-!
# Summary statistics

A `Summary` keeps the samples of the current window in a search tree whose nodes count the samples
of their subtrees, and finds the sample of a rank by the counts. When the window is full, or when a
statistic is read, the percentiles of the window are folded into the ones kept: the least and the
greatest of all windows, and a running average of each of the others. Doubles are rational numbers.

A copy of a `Summary` has the nodes of the original, and its destructor frees them: the objects of a
program are modelled with what has become of their nodes.
-/

namespace Rome

/-! ## The tree -/

/-- `ATree<T, int, int>` with a `SubtreeCountVisitor`: a node has its key, the number of samples
with that key, and the number of samples of its subtree. -/
inductive ATree (K : Type*)
  | nil
  | node (left : ATree K) (key : K) (value metadata : ℕ) (right : ATree K)
  deriving DecidableEq

namespace ATree

variable {K : Type*}

def metadata : ATree K → ℕ
  | nil => 0
  | node _ _ _ metadata _ => metadata

def isNil : ATree K → Bool
  | nil => true
  | node _ _ _ _ _ => false

/-- `Visit`: the metadata of a node is computed from its children. -/
def visit (left : ATree K) (key : K) (value : ℕ) (right : ATree K) : ATree K :=
  node left key value (left.metadata + right.metadata + value) right

/-- `InsertOrUpdate(key, 1, 1)`: the node of the key or its new node, then every node of the stack
from the last on, is visited. -/
def insertOrUpdate [LinearOrder K] (key : K) : ATree K → ATree K
  | nil => visit nil key 1 nil
  | node left k value _ right =>
    if k = key then visit left k (value + 1) right
    else if k < key then visit left k value (insertOrUpdate key right)
    else visit (insertOrUpdate key left) k value right

/-- `GetSize`. -/
def getSize (t : ATree K) : ℕ := t.metadata

/-- The loop of `FindNthPercentile`; `none` when an assertion fails. -/
def findRank : ATree K → ℤ → Option K
  | nil, _ => none
  | node nil key _ metadata nil, rank => if rank ≤ metadata then some key else none
  | node left key _ metadata right, rank =>
    if rank ≤ metadata - right.metadata ∧ left.metadata < rank then some key
    else if left.isNil = false ∧ rank ≤ left.metadata then findRank left rank
    else findRank right (rank - (metadata - right.metadata))

/-- The rank of a percentile among `size` samples. -/
def rank (percentile : ℚ) (size : ℕ) : ℤ :=
  if percentile = 0 then 1 else ⌊percentile / 100 * size⌋

/-- `FindNthPercentile`. -/
def findNthPercentile (t : ATree K) (percentile : ℚ) : Option K :=
  if 100 < percentile ∨ percentile < 0 then none else findRank t (rank percentile t.getSize)

/-- The key that `FindNthPercentile` finds, converted to a `double`. -/
def percentileValue (double : K → ℚ) (t : ATree K) (percentile : ℚ) : Option ℚ :=
  (t.findNthPercentile percentile).map double

end ATree

/-! ## The summary -/

/-- The percentiles that are kept: `min_`, `p50_`, `p90_`, `p95_`, `p99_`, `p999_` and `max_`. -/
inductive Percentile
  | min
  | p50
  | p90
  | p95
  | p99
  | p999
  | max
  deriving DecidableEq, Repr

instance : Fintype Percentile where
  elems := {.min, .p50, .p90, .p95, .p99, .p999, .max}
  complete p := by cases p <;> decide

def Percentile.value : Percentile → ℚ
  | .min => 0
  | .p50 => 50
  | .p90 => 90
  | .p95 => 95
  | .p99 => 99
  | .p999 => 999 / 10
  | .max => 100

/-- A `Summary<double>`. `cleared` has the trees of the windows that have ended: `Clear` keeps their
nodes. -/
structure Summary where
  name : String
  windowSize : ℤ
  samples : ATree ℚ
  cleared : List (ATree ℚ)
  initialized : Bool
  stats : Percentile → ℚ
  totalSamples : ℕ
  mean : ℚ
  squaredTotal : ℚ
  variance : ℚ

namespace Summary

def init (name : String) (windowSize : ℤ) : Summary where
  name := name
  windowSize := windowSize
  samples := .nil
  cleared := []
  initialized := false
  stats := fun _ => 0
  totalSamples := 0
  mean := 0
  squaredTotal := 0
  variance := 0

/-- `UpdatePercentile`, with the percentile of the window. -/
def updatePercentile (s : Summary) (p : Percentile) (value : ℚ) : ℚ :=
  match p with
  | .min => Min.min (s.stats .min) value
  | .max => Max.max (s.stats .max) value
  | p => s.stats p + (value - s.stats p) / s.totalSamples

/-- `UpdatePercentilesAndClearSamples`; `none` when it exits. The samples become `double`s, which is
exact unless a conversion is given. -/
def updatePercentilesAndClearSamples (s : Summary) (double : ℚ → ℚ := id) : Option Summary :=
  if s.samples.getSize = 0 then some s
  else
    let value := fun p : Percentile => s.samples.percentileValue double p.value
    if ∃ p, value p = none then none
    else
      let value := fun p => (value p).getD 0
      some { s with
        samples := .nil
        cleared := s.cleared ++ [s.samples]
        initialized := true
        stats := if s.initialized then fun p => s.updatePercentile p (value p) else value }

/-- `operator<<`. -/
def feed (s : Summary) (value : ℚ) : Option Summary :=
  (if (s.samples.getSize : ℤ) = s.windowSize then s.updatePercentilesAndClearSamples
    else some s).map fun s =>
      let totalSamples : ℕ := s.totalSamples + 1
      let mean := s.mean + (value - s.mean) / totalSamples
      let squaredTotal := s.squaredTotal + value * value
      { s with
        samples := s.samples.insertOrUpdate value
        totalSamples := totalSamples
        mean := mean
        squaredTotal := squaredTotal
        variance := squaredTotal / totalSamples - mean * mean }

/-- `GetPercentileInternal`: the value returned, and the summary then. -/
def getPercentileInternal (s : Summary) (p : Percentile) (double : ℚ → ℚ := id) :
    Option (ℚ × Summary) :=
  (s.updatePercentilesAndClearSamples double).map fun s => (s.stats p, s)

/-- `GetStddev`. -/
noncomputable def getStddev (s : Summary) : ℝ := Real.sqrt s.variance

/-- The weighted average `Accumulate` computes of a statistic and the other's. -/
def weigh (n m : ℕ) (x y : ℚ) : ℚ := x + (y * m - x * n) / ((n : ℚ) + m)

/-- `Accumulate`: the status returned, and the summary then. The argument's nodes, which the copy
`d` shares and frees at the end, are in `summariesStep`. -/
def accumulate (s : Summary) (other : StatusVal Summary) : Option (Status × Summary) :=
  if other.status.t ≠ .ok then some (other.status, s)
  else
    match other.val with
    | none => none
    | some d =>
      if d.name ≠ s.name then some (⟨.failedPrecondition, some "Unexpected metric ID"⟩, s)
      else
        s.updatePercentilesAndClearSamples.map fun s =>
          (.ok,
            { s with
              stats := fun p => weigh s.totalSamples d.totalSamples (s.stats p) (d.stats p)
              mean := weigh s.totalSamples d.totalSamples s.mean d.mean
              variance := weigh s.totalSamples d.totalSamples s.variance d.variance })

/-- The samples of a stream are fed one after the other. -/
def feedAll (s : Summary) : List ℚ → Option Summary
  | [] => some s
  | x :: xs => (s.feed x).bind fun s => s.feedAll xs

/-- What the getter of a percentile returns. -/
def get (s : Summary) (p : Percentile) (double : ℚ → ℚ := id) : Option ℚ :=
  (s.getPercentileInternal p double).map Prod.fst

/-- What `GetMean`, `GetNumSamples`, `GetMin` and `GetMax` return. -/
def reported (s : Summary) : ℚ × ℕ × Option ℚ × Option ℚ :=
  (s.mean, s.totalSamples, s.get .min, s.get .max)

end Summary

/-- A sample is fed, or statistics are read by a getter, `ToString` or `ToMetrics`. -/
inductive SummaryCall
  | feed (value : ℚ)
  | read
  deriving DecidableEq

def SummaryCall.sample : SummaryCall → Option ℚ
  | .feed value => some value
  | .read => none

def summaryStep (s : Summary) : SummaryCall → Option Summary
  | .feed value => s.feed value
  | .read => s.updatePercentilesAndClearSamples

/-- The `double` that a `size_t` becomes: the nearest with 53 bits, of two the even one. -/
def doubleOfNat (n : ℕ) : ℚ :=
  let unit := 2 ^ (n.log2 - 52)
  let quot := n / unit
  let rest := n % unit
  ((if unit < 2 * rest ∨ unit = 2 * rest ∧ quot % 2 = 1 then quot + 1 else quot) * unit : ℕ)

/-! ## The summaries of a program -/

/-- A `Summary`, and whether the nodes it points to have been freed: those of its tree, and those
of the trees it has cleared. -/
structure SummaryObject where
  summary : Summary
  dangling : Bool
  clearedDangling : Bool

/-- The objects made so far, by number, as long as they live. -/
abbrev Summaries := List (Option SummaryObject)

/-- Calls on the object `i`. The argument of `Accumulate` is a `StatusVal` whose value, if it has
one, is an object. -/
inductive SummaryEvent
  | make (name : String) (windowSize : ℤ)
  | feed (i : ℕ) (value : ℚ)
  | read (i : ℕ)
  | accumulate (i : ℕ) (other : StatusVal ℕ)
  | destroy (i : ℕ)

namespace Summaries

def live (s : Summaries) (i : ℕ) : Option SummaryObject := s[i]?.join

def update (s : Summaries) (i : ℕ) (f : Summary → Option Summary) : Option Summaries :=
  (s.live i).bind fun o => (f o.summary).map fun x => s.set i (some { o with summary := x })

/-- The call uses or frees nodes that have been freed. -/
def undefined (s : Summaries) : SummaryEvent → Bool
  | .make _ _ => false
  | .feed i _ | .read i => (s.live i).any (·.dangling)
  | .accumulate i other =>
    decide (other.status.t = .ok) && (other.val.bind s.live).any fun d =>
      -- the end of the receiver's window reads its tree; the destructor of `d` frees the argument's
      (s.live i).any (fun o => o.dangling && d.summary.name == o.summary.name)
        || d.dangling || d.clearedDangling
  | .destroy i => (s.live i).any fun o => o.dangling || o.clearedDangling

end Summaries

/-- The destructor of a copy of the object has run. -/
def SummaryObject.free (o : SummaryObject) : SummaryObject where
  summary := o.summary
  dangling := !o.summary.samples.isNil
  clearedDangling := !o.summary.cleared.isEmpty

/-- A call on objects that live and whose nodes it may use. -/
def summariesStep (s : Summaries) (e : SummaryEvent) : Option Summaries :=
  if s.undefined e then none
  else
    match e with
    | .make name windowSize => some (s ++ [some ⟨.init name windowSize, false, false⟩])
    | .feed i value => s.update i (·.feed value)
    | .read i => s.update i (·.updatePercentilesAndClearSamples)
    | .accumulate i other =>
      (s.update i fun x =>
        (x.accumulate ⟨other.status, (other.val.bind s.live).map (·.summary)⟩).map Prod.snd).map
          fun s' =>
            if other.status.t ≠ .ok then s'
            else
              match other.val with
              | none => s'
              | some j => s'.modify j (Option.map SummaryObject.free)
    | .destroy i => (s.live i).map fun _ => s.set i none

/-- The calls, and any outcome of a call that uses freed nodes. -/
def summariesMachine : Summaries → SummaryEvent ⊕ SummaryEvent × Summaries → Option Summaries :=
  Machine.orUndefined summariesStep fun s x => if s.undefined x.1 then some x.2 else none

end Rome
