import Rome.IhtDs

/-!
# The arrays of the cache

`fetch_cache` and `try_cache` with the elements they read and write: those of the members
`is_cached_pointers` and `layer_pointers`, of the array `sizes` and of the bucket path, of the layer
that is selected, and of the P-List that may be cached.
-/

namespace Rome

inductive CacheArray
  | isCachedPointers
  | layerPointers
  | sizes
  | bucketPath
  | isCachedList (layer : ℕ)
  | cachesList (layer : ℕ)
  | buckets
  deriving DecidableEq

/-- An element of an array. -/
abbrev Access := CacheArray × ℕ

namespace Cache

/-- `place`, with the elements the loop reads. -/
def placeAccess (plistSize cacheDepth : ℕ) (path : List ℤ) :
    (fuel i bucketOfCache count : ℕ) → List Access × Option (ℕ × ℕ × ℕ)
  | 0, i, bucketOfCache, count => ([], some (i - 1, bucketOfCache, count))
  | fuel + 1, i, bucketOfCache, count =>
    let pointers : List Access := [(.isCachedPointers, i), (.layerPointers, i)]
    if i = cacheDepth then (pointers, none)
    else if path.getD i (-1) = -1 then
      (pointers ++ [(.bucketPath, i)], some (i, bucketOfCache, count))
    else
      let (l, r) := placeAccess plistSize cacheDepth path fuel (i + 1)
        (bucketOfCache * (sizes plistSize).getD i 0 + (path.getD i (-1)).toNat) (count * 2)
      (pointers ++ (.bucketPath, i) :: (.sizes, i) :: l, r)

/-- What `fetch_cache` reads. -/
def fetchAccess (plistSize : ℕ) (depth : CacheDepth) (c : Cache) (path : List ℤ) : List Access :=
  match placeAccess plistSize depth.toNat path 8 0 0 plistSize with
  | (l, none) => l
  | (l, some (layer, i, _)) =>
    l ++ (.isCachedList layer, i) ::
      if (c.isCached.getD layer []).getD i false then [(.cachesList layer, i)] else []

/-- The buckets whose locks are read: up to the first that does not lead to a P-List. -/
def scanned (bs : List PlistPair) (count : ℕ) : List ℕ :=
  (List.range (count - 1)).take
    (((List.range (count - 1)).takeWhile fun i => (bucketAt bs i).lock == pUnlocked).length + 1)

/-- What `try_cache` reads and writes. -/
def tryCacheAccess (plistSize : ℕ) (depth : CacheDepth) (c : Cache) (bs : List PlistPair)
    (path : List ℤ) : List Access :=
  match placeAccess plistSize depth.toNat path 8 0 0 plistSize with
  | (l, none) => l
  | (l, some (layer, i, count)) =>
    l ++ (.isCachedList layer, i) ::
      if (c.isCached.getD layer []).getD i false then []
      else (scanned bs count).map (.buckets, ·) ++
        if calcified bs count then
          (List.range count).map (.buckets, ·) ++ [(.cachesList layer, i), (.isCachedList layer, i)]
        else []

end Cache

/-- The number of elements of an array; the P-List is one of depth `depth`. -/
def CacheArray.length (plistSize depth : ℕ) : CacheArray → ℕ
  | .isCachedPointers => 3
  | .layerPointers => 3
  | .sizes => 3
  | .bucketPath => 8
  | .isCachedList layer => [1, plistSize, plistSize * plistSize * 2].getD layer 0
  | .cachesList layer => [1, plistSize, plistSize * plistSize * 2].getD layer 0
  | .buckets => plistSize * 2 ^ (depth - 1)

/-- The elements are in their arrays. -/
def InBounds (plistSize depth : ℕ) (l : List Access) : Prop :=
  ∀ a ∈ l, a.2 < a.1.length plistSize depth

instance (plistSize depth : ℕ) (l : List Access) : Decidable (InBounds plistSize depth l) :=
  inferInstanceAs (Decidable (∀ a ∈ l, _))

end Rome
