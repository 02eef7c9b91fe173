import Rome.IhtCacheAccess
import Rome.Proofs.IhtCacheSlots

/-!
# The arrays of the cache are not left, but for one read

The loop of `fetch_cache` and `try_cache` reads the pointers of a layer before it compares the layer
with the cache depth. Of three layers the last is 2, so with all of them cached a path of three
buckets has it read the element 3 of arrays of three.
-/

namespace Rome

namespace Cache

variable {K : Type*} {P : IhtParams K} {depth : CacheDepth} {c : Cache} {ns : List ℕ}

/-- The elements are read on the way to what `place` finds. -/
theorem placeAccess_snd (plistSize cacheDepth : ℕ) (path : List ℤ) (fuel : ℕ) :
    ∀ i bucketOfCache count, (placeAccess plistSize cacheDepth path fuel i bucketOfCache count).2
      = place plistSize cacheDepth path fuel i bucketOfCache count := by
  induction fuel with
  | zero => intros; rfl
  | succ fuel ih =>
    intro i bucketOfCache count
    unfold placeAccess place
    split_ifs
    · rfl
    · rfl
    · exact ih _ _ _

/-- The loop reads element after element, up to the cache depth or the end of the path. -/
theorem placeAccess_fst (plistSize : ℕ) (depth : CacheDepth) (ns : List ℕ) :
    ∀ a ∈ (placeAccess plistSize depth.toNat (bucketPath ns) 8 0 0 plistSize).1,
      a.2 ≤ min ns.length depth.toNat
        ∧ (a.1 = .isCachedPointers ∨ a.1 = .layerPointers ∨ a.1 = .bucketPath
          ∨ a.1 = .sizes ∧ a.2 < depth.toNat) := by
  match ns with
  | [] => cases depth <;> simp [placeAccess, bucketPath, CacheDepth.toNat, List.replicate]
  | [n] => cases depth <;> simp [placeAccess, bucketPath, CacheDepth.toNat, List.replicate]
  | [n₁, n₂] => cases depth <;> simp [placeAccess, bucketPath, CacheDepth.toNat, List.replicate]
  | n₁ :: n₂ :: n₃ :: ns =>
    cases depth <;> simp [placeAccess, bucketPath, CacheDepth.toNat]

/-- With three layers cached, the loop comes to the element 3 on a path of three buckets. -/
theorem placeAccess_three (plistSize : ℕ) (h : 3 ≤ ns.length) :
    (.isCachedPointers, 3)
      ∈ (placeAccess plistSize CacheDepth.upToLayer2.toNat (bucketPath ns) 8 0 0 plistSize).1 := by
  match ns, h with
  | n₁ :: n₂ :: n₃ :: ns, _ => simp [placeAccess, bucketPath, CacheDepth.toNat]

theorem placeAccess_inBounds (d : ℕ) (h : ¬ (depth = .upToLayer2 ∧ 3 ≤ ns.length)) :
    InBounds P.plistSize d
      (placeAccess P.plistSize depth.toNat (bucketPath ns) 8 0 0 P.plistSize).1 := by
  have hlt : min ns.length depth.toNat < 3 := by
    cases depth with
    | none => simp [CacheDepth.toNat]
    | rootOnly => simp [CacheDepth.toNat]
    | upToLayer1 => simp [CacheDepth.toNat]
    | upToLayer2 =>
      simp only [true_and] at h
      simp only [CacheDepth.toNat]
      omega
  have hdepth : depth.toNat ≤ 3 := by cases depth <;> simp [CacheDepth.toNat]
  rintro ⟨arr, i⟩ ha
  obtain ⟨h1, h2⟩ := placeAccess_fst P.plistSize depth ns _ ha
  rcases h2 with rfl | rfl | rfl | ⟨rfl, h2⟩ <;> simp only [CacheArray.length] at h1 ⊢ <;> omega

/-- The slot of a path is in the arrays of its layer. -/
theorem flat_inBounds (d : ℕ) (hv : Valid P.plistSize ns) (h : ns.length < depth.toNat) :
    InBounds P.plistSize d [(.isCachedList ns.length, flat P.plistSize ns),
      (.cachesList ns.length, flat P.plistSize ns)] := by
  have hflat := flat_lt hv (length_lt_three h)
  intro a ha
  simp only [List.mem_cons, List.not_mem_nil, or_false] at ha
  rcases ha with rfl | rfl
  · exact hflat
  · exact hflat

theorem buckets_inBounds (l : List ℕ) (h : ∀ i ∈ l, i < P.plistSize * 2 ^ ns.length) :
    InBounds P.plistSize (ns.length + 1) (l.map (.buckets, ·)) := by
  intro a ha
  obtain ⟨i, hi, rfl⟩ := List.mem_map.1 ha
  exact h i hi

end Cache

theorem inBounds_append {plistSize d : ℕ} {l l' : List Access} :
    InBounds plistSize d (l ++ l') ↔ InBounds plistSize d l ∧ InBounds plistSize d l' := by
  unfold InBounds
  exact List.forall_mem_append

section Main

open Cache

variable {K : Type*}

/-- The elements that `fetch_cache` and `try_cache` read and write are in their arrays, but when
three layers are cached and the path has three buckets or more. -/
theorem cache_in_bounds (P : IhtParams K) (depth : CacheDepth) (c : Cache) (bs : List PlistPair)
    (ns : List ℕ) (hlen : ns.length ≤ 8) (hv : Valid P.plistSize ns) :
    InBounds P.plistSize (ns.length + 1) (fetchAccess P.plistSize depth c (bucketPath ns))
        ∧ InBounds P.plistSize (ns.length + 1)
          (tryCacheAccess P.plistSize depth c bs (bucketPath ns))
      ↔ ¬ (depth = .upToLayer2 ∧ 3 ≤ ns.length) := by
  have hplace := (placeAccess_snd P.plistSize depth.toNat (bucketPath ns) 8 0 0 P.plistSize).trans
    (place_bucketPath P.plistSize depth ns)
  constructor
  · rintro ⟨hfetch, -⟩ ⟨rfl, h3⟩
    have hmem := placeAccess_three P.plistSize h3
    have hnot : ¬ ns.length < CacheDepth.upToLayer2.toNat := by
      simp only [CacheDepth.toNat]
      omega
    rw [if_neg hnot] at hplace
    have hread := hfetch (.isCachedPointers, 3) (by
      unfold fetchAccess
      rcases hl : placeAccess P.plistSize CacheDepth.upToLayer2.toNat (bucketPath ns) 8 0 0
        P.plistSize with ⟨l, r⟩
      rw [hl] at hplace hmem
      simp only [] at hplace
      rw [hplace]
      exact hmem)
    exact absurd hread (by simp [CacheArray.length])
  · intro h
    have hway := placeAccess_inBounds (P := P) (ns.length + 1) h
    unfold fetchAccess tryCacheAccess
    rcases hl : placeAccess P.plistSize depth.toNat (bucketPath ns) 8 0 0 P.plistSize with ⟨l, r⟩
    rw [hl] at hplace hway
    simp only [] at hplace hway
    rw [hplace]
    by_cases hd : ns.length < depth.toNat
    swap
    · rw [if_neg hd]
      exact ⟨hway, hway⟩
    rw [if_pos hd]
    have hslot := flat_inBounds (P := P) (ns.length + 1) hv hd
    have hfirst := hslot _ List.mem_cons_self
    have hsecond := hslot _ (List.mem_cons_of_mem _ List.mem_cons_self)
    have hscan : InBounds P.plistSize (ns.length + 1)
        ((scanned bs (P.plistSize * 2 ^ ns.length)).map (.buckets, ·)) :=
      buckets_inBounds _ fun i hi => by
        have := List.mem_range.1 (List.mem_of_mem_take hi)
        omega
    have hcopy : InBounds P.plistSize (ns.length + 1)
        ((List.range (P.plistSize * 2 ^ ns.length)).map (.buckets, ·)) :=
      buckets_inBounds _ fun i hi => List.mem_range.1 hi
    have hnil : InBounds P.plistSize (ns.length + 1) [] := by
      intro a ha
      cases ha
    constructor
    · refine inBounds_append.2 ⟨hway, List.forall_mem_cons.2 ⟨hfirst, ?_⟩⟩
      split_ifs
      · exact List.forall_mem_cons.2 ⟨hsecond, hnil⟩
      · exact hnil
    · refine inBounds_append.2 ⟨hway, List.forall_mem_cons.2 ⟨hfirst, ?_⟩⟩
      split_ifs
      · exact hnil
      · exact inBounds_append.2 ⟨hscan, inBounds_append.2 ⟨hcopy,
          List.forall_mem_cons.2 ⟨hsecond, List.forall_mem_cons.2 ⟨hfirst, hnil⟩⟩⟩⟩
      · exact inBounds_append.2 ⟨hscan, hnil⟩

end Main

/-- A table that caches two layers, on a path of three buckets. -/
theorem cache_in_bounds_twoLayers :
    InBounds 4 4 (Cache.fetchAccess 4 .upToLayer1 (Cache.init 4) (Cache.bucketPath [0, 4, 14]))
      ∧ InBounds 4 4
        (Cache.tryCacheAccess 4 .upToLayer1 (Cache.init 4) [] (Cache.bucketPath [0, 4, 14])) :=
  (cache_in_bounds (⟨1, 4, fun k : ℕ => .ofNat k, by decide, by decide, by decide⟩ : IhtParams ℕ)
    .upToLayer1 (Cache.init 4) [] [0, 4, 14] (by decide) (by decide)).2 (by decide)

/-- With three layers cached, the element 3 of `is_cached_pointers` is read on a path of three
buckets. -/
theorem fetchAccess_left : Cache.Valid 4 [0, 0, 0] ∧ (.isCachedPointers, 3)
      ∈ Cache.fetchAccess 4 .upToLayer2 (Cache.init 4) (Cache.bucketPath [0, 0, 0])
    ∧ ¬ InBounds 4 4
      (Cache.fetchAccess 4 .upToLayer2 (Cache.init 4) (Cache.bucketPath [0, 0, 0])) := by
  decide

end Rome
