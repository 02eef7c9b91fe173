import Rome.RdmaMemory

/-!
# What is registered

The constructor registers as many bytes as the low 32 bits of the capacity say, as a signed number,
and aborts where that is negative. A sum of an offset and a length from `2 ^ 31` on wraps around to
a negative number, which as an unsigned one is greater than all but the greatest capacities.
-/

namespace Rome

namespace RdmaMemory

variable {sys : RdmaSystem} {m m' : RdmaMemory} {offset length : Int32}

/-! ## Conversions -/

theorem uint64OfInt_toNat (x : Int32) : ((uint64OfInt x).toNat : ℤ) = x.toInt % 2 ^ 64 := by
  unfold uint64OfInt UInt64.ofInt
  rw [UInt64.toNat_ofNat']
  omega

theorem intOfUint64_toInt (x : UInt64) :
    (intOfUint64 x).toInt
      = if x.toNat % 2 ^ 32 < 2 ^ 31 then (x.toNat % 2 ^ 32 : ℤ)
        else x.toNat % 2 ^ 32 - 2 ^ 32 := by
  unfold intOfUint64
  rw [Int32.toInt_ofNat', Int.bmod_def]
  simp only [Int32.size]
  split_ifs <;> omega

/-- The region is valid when its end is at most the capacity, after the sum was wrapped around. -/
theorem validateRegion_iff :
    m.validateRegion offset length = true ↔ 0 ≤ offset.toInt ∧ 0 ≤ length.toInt
      ∧ (if offset.toInt + length.toInt < 2 ^ 31 then offset.toInt + length.toInt
        else offset.toInt + length.toInt + (2 ^ 64 - 2 ^ 32)) ≤ m.capacity.toNat := by
  have h1 := offset.toInt_lt
  have h2 := length.toInt_lt
  have hsum := uint64OfInt_toNat (offset + length)
  rw [Int32.toInt_add, Int.bmod_def] at hsum
  unfold validateRegion
  simp only [Int32.lt_iff_toInt_lt, Int32.toInt_zero, UInt64.lt_iff_toNat_lt]
  split_ifs at hsum ⊢ <;> simp only [false_iff, true_iff] <;> omega

/-! ## Regions -/

/-- A region is registered when it is valid, its name is new and the device does so; otherwise
nothing changes. -/
theorem registerMemoryRegion_ok_iff {id : String} {pd : ℕ} :
    ((registerMemoryRegion sys m id pd offset length).1.t = .ok
      ∧ (registerMemoryRegion sys m id pd offset length).2 = m')
    ↔ m.validateRegion offset length = true ∧ m.memoryRegions.lookup id = none
      ∧ ∃ mr, sys.ibvRegMr pd (m.raw + uint64OfInt offset) (uint64OfInt length) = some mr
        ∧ { m with memoryRegions := (id, mr) :: m.memoryRegions } = m' := by
  unfold registerMemoryRegion
  cases hv : m.validateRegion offset length with
  | false => simp
  | true =>
    cases hl : m.memoryRegions.lookup id with
    | some mr => simp
    | none =>
      cases hr : sys.ibvRegMr pd (m.raw + uint64OfInt offset) (uint64OfInt length) with
      | none => simp
      | some mr => simp [Status.ok]

/-! ## The constructor -/

variable {capacity : UInt64} {path : Option String} {pd : ℕ}

/-- The low 32 bits of a capacity. -/
def lowBits (capacity : UInt64) : UInt64 := .ofNat (capacity.toNat % 2 ^ 32)

theorem lowBits_toNat : (lowBits capacity).toNat = capacity.toNat % 2 ^ 32 := by
  unfold lowBits
  rw [UInt64.toNat_ofNat']
  omega

/-- The constructor registers the low 32 bits of its capacity, if they are not those of a negative
number. -/
theorem create_eq_some_iff :
    create sys capacity path pd = some m ↔ capacity.toNat % 2 ^ 32 < 2 ^ 31
      ∧ ∃ raw, sys.allocate capacity path = some raw
        ∧ sys.ibvRegMr pd raw (lowBits capacity) = some ⟨pd, raw, lowBits capacity⟩
        ∧ m = ⟨capacity, raw, [(kDefaultId, ⟨pd, raw, lowBits capacity⟩)]⟩ := by
  have hcap := intOfUint64_toInt capacity
  have hzero : uint64OfInt 0 = 0 := rfl
  have hvalid : ∀ raw l,
      (RdmaMemory.mk capacity raw l).validateRegion 0 (intOfUint64 capacity) = true
      ↔ capacity.toNat % 2 ^ 32 < 2 ^ 31 := by
    intro raw l
    rw [validateRegion_iff, Int32.toInt_zero]
    show _ ∧ _ ∧ _ ≤ (capacity.toNat : ℤ) ↔ _
    split_ifs at hcap ⊢ <;> omega
  have hlow : capacity.toNat % 2 ^ 32 < 2 ^ 31 →
      uint64OfInt (intOfUint64 capacity) = lowBits capacity := by
    intro h
    apply UInt64.toNat_inj.1
    have hnat := uint64OfInt_toNat (intOfUint64 capacity)
    rw [hcap, if_pos h] at hnat
    rw [lowBits_toNat]
    omega
  unfold create
  rw [Option.bind_eq_some_iff]
  constructor
  · rintro ⟨raw, hraw, h⟩
    obtain ⟨hok, hm⟩ := Option.ite_none_right_eq_some.1 h
    obtain ⟨hv, -, mr, hmr, hm⟩ := registerMemoryRegion_ok_iff.1 ⟨hok, Option.some.inj hm⟩
    have hlt := (hvalid raw []).1 hv
    rw [hlow hlt, hzero, UInt64.add_zero] at hmr
    obtain rfl := sys.ibvRegMr_eq _ _ _ _ hmr
    exact ⟨hlt, raw, hraw, hmr, hm.symm⟩
  · rintro ⟨hlt, raw, hraw, hmr, rfl⟩
    refine ⟨raw, hraw, Option.ite_none_right_eq_some.2 ?_⟩
    rw [Option.some.injEq]
    refine registerMemoryRegion_ok_iff.2 ⟨(hvalid raw []).2 hlt, rfl, _, ?_, rfl⟩
    rw [hlow hlt, hzero, UInt64.add_zero]
    exact hmr

end RdmaMemory

open RdmaMemory

/-- The whole memory is registered just when the capacity is less than `2 ^ 32`, or the constructor
aborts; a region is taken to be valid just when it is, but where the sum wraps around. -/
theorem memory_registered (sys : RdmaSystem) (capacity : UInt64) (path : Option String) (pd : ℕ)
    (m : RdmaMemory) (offset length : Int32) :
    ((∀ m', create sys capacity path pd = some m' → ∃ mr, m'.getDefaultMemoryRegion = some mr
        ∧ mr.addr = m'.raw ∧ mr.length = capacity)
      ↔ capacity.toNat < 2 ^ 32 ∨ 2 ^ 31 ≤ capacity.toNat % 2 ^ 32
        ∨ ∀ raw, sys.allocate capacity path = some raw →
          sys.ibvRegMr pd raw (lowBits capacity) = none)
    ∧ ((m.validateRegion offset length = true ↔ 0 ≤ offset.toInt ∧ 0 ≤ length.toInt
        ∧ offset.toInt + length.toInt ≤ m.capacity.toNat)
      ↔ ¬ (0 ≤ offset.toInt ∧ 0 ≤ length.toInt ∧ 2 ^ 31 ≤ offset.toInt + length.toInt
        ∧ offset.toInt + length.toInt ≤ m.capacity.toNat
        ∧ (m.capacity.toNat : ℤ) < 2 ^ 64 - 2 ^ 32 + (offset.toInt + length.toInt))) := by
  constructor
  · constructor
    · intro h
      by_contra hn
      push Not at hn
      obtain ⟨h1, h2, raw, hraw, hmr⟩ := hn
      obtain ⟨mr, hmr⟩ := Option.ne_none_iff_exists'.1 hmr
      have heq := sys.ibvRegMr_eq _ _ _ _ hmr
      obtain ⟨mr', hd, -, hlen⟩ := h _ (create_eq_some_iff.2 ⟨h2, raw, hraw, heq ▸ hmr, rfl⟩)
      obtain rfl := Option.some.inj hd
      have hcap : capacity.toNat % 2 ^ 32 = capacity.toNat :=
        lowBits_toNat.symm.trans (congrArg UInt64.toNat hlen)
      omega
    · intro h m' hm'
      obtain ⟨h2, raw, hraw, hmr, rfl⟩ := create_eq_some_iff.1 hm'
      refine ⟨_, rfl, rfl, ?_⟩
      rcases h with h | h | h
      · exact UInt64.toNat_inj.1 (lowBits_toNat.trans (Nat.mod_eq_of_lt h))
      · omega
      · exact absurd ((h raw hraw).symm.trans hmr) (Option.some_ne_none _).symm
  · rw [validateRegion_iff]
    split_ifs <;> omega

/-- A system that hands out the memory at `2 ^ 20` and registers everything. -/
def generous : RdmaSystem where
  file _ := none
  alignedAlloc _ _ := some (2 ^ 20)
  mmap _ := none
  ibvRegMr pd base length := some ⟨pd, base, length⟩
  ibvRegMr_eq _ _ _ _ h := (Option.some.inj h).symm

/-- Of `2 ^ 32 + 64` bytes 64 are registered, and a region that ends at `2 ^ 31` is refused. -/
theorem memory_not_registered :
    (∃ m mr, create generous (2 ^ 32 + 64) (some "/proc/sys/vm/nr_hugepages") 0 = some m
      ∧ m.getDefaultMemoryRegion = some mr ∧ mr.length = 64
      ∧ m.validateRegion (2 ^ 30) (2 ^ 30) = false)
    ∧ ¬ ((∀ sys capacity path pd m, create sys capacity path pd = some m →
        ∃ mr, m.getDefaultMemoryRegion = some mr ∧ mr.addr = m.raw ∧ mr.length = capacity)
      ∧ ∀ (m : RdmaMemory) (offset length : Int32), m.validateRegion offset length = true ↔
        0 ≤ offset.toInt ∧ 0 ≤ length.toInt ∧ offset.toInt + length.toInt ≤ m.capacity.toNat) := by
  have hcreate : create generous (2 ^ 32 + 64) (some "/proc/sys/vm/nr_hugepages") 0
      = some ⟨2 ^ 32 + 64, 2 ^ 20, [(kDefaultId, ⟨0, 2 ^ 20, 64⟩)]⟩ := by
    rw [create_eq_some_iff]
    exact ⟨by decide, 2 ^ 20, rfl, rfl, rfl⟩
  refine ⟨⟨_, _, hcreate, rfl, rfl, by decide⟩, fun h => ?_⟩
  obtain ⟨mr, hd, -, hlen⟩ := h.1 generous _ _ _ _ hcreate
  obtain rfl := Option.some.inj hd
  exact absurd hlen (by decide)

end Rome
