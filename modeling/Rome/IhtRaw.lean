import Rome.IhtDs

/-!
# The rehash of an E-List, on memory as it is

`Allocate<EList>` runs no constructor. A block from a freelist has been zeroed; a block carved from
the region has what the memory held before, also in the place of the E-List's count. An access
outside an E-List or a P-List is `none`.
-/

namespace Rome

/-- An `EList` of `n` places in memory. -/
structure RawEList (n : ℕ) (K V : Type*) where
  count : ℕ
  pairs : Fin n → K × V

variable {n : ℕ} {K V : Type*}

/-- The live pairs. -/
def RawEList.live (e : RawEList n K V) : List (K × V) := (List.ofFn e.pairs).take e.count

/-- `elist_insert`. -/
def RawEList.elistInsert (e : RawEList n K V) (pair : K × V) : Option (RawEList n K V) :=
  if h : e.count < n then some ⟨e.count + 1, Function.update e.pairs ⟨e.count, h⟩ pair⟩ else none

/-- A block that `Allocate<EList>` returns: whether `do_allocate` takes it from a freelist, and what
the memory there held before. -/
structure RawBlock (n : ℕ) (K V : Type*) where
  ptr : RemotePtr
  recycled : Bool
  prior : RawEList n K V

/-- What the block holds when it is returned; `zero` is the pair whose bytes are zero. -/
def RawBlock.content (b : RawBlock n K V) (zero : K × V) : RawEList n K V :=
  if b.recycled then ⟨0, fun _ => zero⟩ else b.prior

/-- The number of E-Lists allocated, the E-Lists in memory, and the buckets of the new P-List. -/
structure RawState (n : ℕ) (K V : Type*) where
  used : ℕ
  elist : RemotePtr → Option (RawEList n K V)
  buckets : List PlistPair

variable (P : IhtParams K) (zero : K × V) (fresh : ℕ → RawBlock P.elistSize K V)

/-- A bucket's first pair has its E-List allocated. -/
def rawAllocate (s : RawState P.elistSize K V) (b : ℕ) : RawState P.elistSize K V :=
  if (bucketAt s.buckets b).base = .null then
    let e := fresh s.used
    { used := s.used + 1
      elist := Function.update s.elist e.ptr (some (e.content zero))
      buckets := s.buckets.set b ⟨e.ptr, eUnlocked⟩ }
  else s

/-- A round of the loop of `rehash`. -/
def rawRound (level count : ℕ) (s : RawState P.elistSize K V) (pair : K × V) :
    Option (RawState P.elistSize K V) :=
  let b := levelHash P pair.1 level count
  if s.buckets.length ≤ b then none
  else
    let s := rawAllocate P zero fresh s b
    let dest := (bucketAt s.buckets b).base
    (s.elist dest).bind fun e => (e.elistInsert pair).map fun e =>
      { s with elist := Function.update s.elist dest (some e) }

/-- `rehash` of `source`, whose E-Lists are the blocks `fresh 0`, `fresh 1` and so on. The `int`
`plist_size_factor` and the `size_t` `pcount` do not wrap: `pcount` is the size of a P-List that was
allocated, and long before twice that many buckets are too many for either, they are for
`Allocate`, which aborts. -/
def rehashRaw (source : RawEList P.elistSize K V)
    (elist : RemotePtr → Option (RawEList P.elistSize K V)) (pcount pdepth : ℕ) :
    Option (RawState P.elistSize K V) :=
  let pcount := pcount * 2
  let plistSizeFactor := pcount / P.plistSize
  if P.elistSize < source.count then none
  else source.live.foldlM (rawRound P zero fresh (pdepth + 1) pcount)
    ⟨0, elist, initPList P plistSizeFactor⟩

end Rome
