import Rome.Lib.Machine
import Rome.Proofs.MemoryReuse

/-!
# The bitmap of the freelists

A bit of `alignments_` is set by a block that is freed with the alignment, and cleared by a request
of it that takes the last block of the list. It stays in step with the lists exactly as long as no
block of alignment 256 is freed, which a byte has no bit for, and no request takes the only block of
a list while the bit of another alignment is set.
-/

namespace Rome

open Machine

/-- The bit of an alignment in a slab class. -/
def FreeLists.Bit (t : FreeLists) (c alignment : ℕ) : Prop :=
  (t.alignments.getD c 0).toNat &&& alignment ≠ 0

instance (t : FreeLists) (c alignment : ℕ) : Decidable (t.Bit c alignment) :=
  inferInstanceAs (Decidable (_ ≠ _))

/-- A bit is set only where there is a block, and wherever there is a block of its alignment. -/
def FreeLists.InStep (t : FreeLists) : Prop :=
  ∀ c < kNumSlabClasses, ∀ a, a ∣ kMaxAlignment →
    (t.Bit c a → t.freelists.getD c [] ≠ [])
      ∧ ((∃ ptr, (a, ptr) ∈ t.freelists.getD c []) → t.Bit c a)

/-- A call that keeps the bitmap in step. -/
def StaysInStep (s : CallState) : MemoryCall → Prop
  | .allocate _ bytes alignment =>
    ∀ c f, c = slabClass (atLeast bytes alignment) - kMinSlabClass → s.lists.Bit c alignment →
      s.lists.freelists.getD c [] = [f] → alignment ≤ f.1 →
      ∀ a, a ∣ kMaxAlignment → s.lists.Bit c a → a = alignment
  | .deallocate _ _ alignment => alignment ≠ kMaxAlignment

/-! ## One byte -/

section Byte

variable {x : UInt8} {a b : ℕ}

theorem and_two_pow_ne_zero (n j : ℕ) : n &&& 2 ^ j ≠ 0 ↔ n.testBit j = true := by
  rw [Nat.and_two_pow]
  cases n.testBit j <;> simp

theorem toUInt8_testBit (i j : ℕ) :
    (2 ^ i).toUInt8.toNat.testBit j = (decide (i = j) && decide (j < 8)) := by
  show ((2 ^ i) % 2 ^ 8).testBit j = _
  rw [Nat.testBit_mod_two_pow, Nat.testBit_two_pow]
  exact Bool.and_comm _ _

theorem testBit_and_not (x y : UInt8) (j : ℕ) :
    (x &&& ~~~ y).toNat.testBit j
      = (x.toNat.testBit j && (decide (j < 8) && !y.toNat.testBit j)) := by
  show (x &&& ~~~ y).toBitVec.getLsbD j = _
  rw [UInt8.toBitVec_and, UInt8.toBitVec_not, BitVec.getLsbD_and, BitVec.getLsbD_not]
  rfl

theorem exists_two_pow (ha : a ∣ kMaxAlignment) : ∃ i ≤ 8, a = 2 ^ i :=
  (Nat.dvd_prime_pow Nat.prime_two).1 ha

theorem or_bit (ha : a ∣ kMaxAlignment) (hb : b ∣ kMaxAlignment) :
    (x ||| a.toUInt8).toNat &&& b ≠ 0 ↔ x.toNat &&& b ≠ 0 ∨ a = b ∧ b ≠ kMaxAlignment := by
  obtain ⟨i, hi, rfl⟩ := exists_two_pow ha
  obtain ⟨j, hj, rfl⟩ := exists_two_pow hb
  have hij : 2 ^ i = 2 ^ j ↔ i = j := Nat.pow_right_inj one_lt_two
  have h8 : 2 ^ j ≠ kMaxAlignment ↔ j < 8 := by
    rw [show kMaxAlignment = 2 ^ 8 from rfl, Ne, Nat.pow_right_inj one_lt_two]
    omega
  rw [and_two_pow_ne_zero, and_two_pow_ne_zero, UInt8.toNat_or, Nat.testBit_or, toUInt8_testBit,
    hij, h8]
  simp

theorem and_not_bit (ha : a ∣ kMaxAlignment) (hb : b ∣ kMaxAlignment) :
    (x &&& ~~~ a.toUInt8).toNat &&& b ≠ 0 ↔ x.toNat &&& b ≠ 0 ∧ a ≠ b := by
  obtain ⟨i, hi, rfl⟩ := exists_two_pow ha
  obtain ⟨j, hj, rfl⟩ := exists_two_pow hb
  have hij : 2 ^ i = 2 ^ j ↔ i = j := Nat.pow_right_inj one_lt_two
  have hx : x.toNat.testBit j = true → j < 8 := by
    intro h
    by_contra hj
    rw [Nat.testBit_lt_two_pow (x.toNat_lt.trans_le
      (Nat.pow_le_pow_right two_pos (not_lt.1 hj)))] at h
    exact Bool.false_ne_true h
  rw [and_two_pow_ne_zero, and_two_pow_ne_zero, Ne, hij, testBit_and_not, toUInt8_testBit]
  simp only [Bool.and_eq_true, decide_eq_true_eq, Bool.not_eq_true', Bool.and_eq_false_iff,
    decide_eq_false_iff_not]
  constructor
  · rintro ⟨h, h8, h' | h'⟩
    · exact ⟨h, h'⟩
    · exact absurd h8 h'
  · exact fun ⟨h, h'⟩ => ⟨h, hx h, .inl h'⟩

end Byte

/-! ## The lists -/

/-- There is a byte and a list for every slab class. -/
def Sized (t : FreeLists) : Prop :=
  t.alignments.length = kNumSlabClasses ∧ t.freelists.length = kNumSlabClasses

section Lists

variable {t t' : FreeLists} {c i ptr alignment : ℕ}

theorem sized_init : Sized .init := ⟨List.length_replicate, List.length_replicate⟩

theorem inStep_init : FreeLists.init.InStep := by
  intro c hc a ha
  have h1 : FreeLists.init.alignments.getD c 0 = 0 := by
    simp [FreeLists.init, hc]
  have h2 : FreeLists.init.freelists.getD c [] = [] := by
    simp [FreeLists.init, hc]
  refine ⟨fun h => ?_, fun h => ?_⟩
  · rw [FreeLists.Bit, h1] at h
    exact absurd (Nat.zero_and a) h
  · obtain ⟨ptr, hp⟩ := h
    rw [h2] at hp
    exact absurd hp List.not_mem_nil

theorem getD_modify {α : Type*} {l : List α} {f : α → α} {d : α} (hc : c < l.length) :
    (l.modify i f).getD c d = if i = c then f (l.getD c d) else l.getD c d := by
  rw [List.getD_eq_getElem _ _ (by rwa [List.length_modify]), List.getElem_modify,
    List.getD_eq_getElem _ _ hc]

theorem getD_set {α : Type*} {l : List α} {x d : α} (hc : c < l.length) :
    (l.set i x).getD c d = if i = c then x else l.getD c d := by
  rw [List.getD_eq_getElem _ _ (by rwa [List.length_set]), List.getElem_set,
    List.getD_eq_getElem _ _ hc]

/-- A freed block keeps the lists in step unless its alignment is the greatest. -/
theorem inStep_doDeallocate (hs : Sized t) (H : t.InStep) {bytes : ℕ} (h1 : 1 ≤ bytes)
    (h2 : bytes ≤ 2 ^ 20) (ha : alignment ∣ kMaxAlignment) :
    (doDeallocate t ptr bytes alignment).InStep ↔ alignment ≠ kMaxAlignment := by
  have hidx := (slabClass_spec h1 h2).1
  set idx := slabClass bytes - kMinSlabClass with hi
  have hbit : ∀ c < kNumSlabClasses, ∀ a, a ∣ kMaxAlignment →
      ((doDeallocate t ptr bytes alignment).Bit c a
        ↔ t.Bit c a ∨ idx = c ∧ alignment = a ∧ a ≠ kMaxAlignment) := by
    intro c hc a hd
    show ((t.alignments.modify idx fun x => x ||| alignment.toUInt8).getD c 0).toNat &&& a ≠ 0 ↔ _
    rw [getD_modify (hs.1.symm ▸ hc)]
    split_ifs with h
    · rw [or_bit ha hd]
      simp only [h, true_and, FreeLists.Bit]
    · simp only [h, false_and, or_false, FreeLists.Bit]
  have hlist : ∀ c < kNumSlabClasses, (doDeallocate t ptr bytes alignment).freelists.getD c []
      = if idx = c then t.freelists.getD c [] ++ [(alignment, ptr)] else t.freelists.getD c [] := by
    intro c hc
    exact getD_modify (hs.2.symm ▸ hc)
  constructor
  · intro h hmax
    obtain ⟨-, h3⟩ := h idx hidx alignment ha
    rw [hlist idx hidx, if_pos rfl, hbit idx hidx alignment ha] at h3
    rcases h3 ⟨ptr, List.mem_append_right _ List.mem_cons_self⟩ with h4 | ⟨-, -, h4⟩
    · -- a byte has no bit for the greatest alignment
      refine h4 ?_
      rw [hmax, show kMaxAlignment = 2 ^ 8 from rfl, Nat.and_two_pow,
        Nat.testBit_lt_two_pow (UInt8.toNat_lt _)]
      rfl
    · exact h4 hmax
  · intro hmax c hc a hd
    obtain ⟨h3, h4⟩ := H c hc a hd
    rw [hlist c hc, hbit c hc a hd]
    split_ifs with h
    · refine ⟨fun _ => by simp, fun ⟨p, hp⟩ => ?_⟩
      rcases List.mem_append.1 hp with hp | hp
      · exact .inl (h4 ⟨p, hp⟩)
      · obtain ⟨rfl, -⟩ := Prod.mk.injEq .. ▸ List.mem_singleton.1 hp
        exact .inr ⟨h, rfl, hmax⟩
    · simp only [h, false_and, or_false]
      exact ⟨h3, h4⟩

/-- A block that is reused keeps the lists in step unless it is the only one of its list and there
is the bit of another alignment. -/
theorem inStep_reuse (hs : Sized t) (H : t.InStep) (hi : i < kNumSlabClasses)
    (ha : alignment ∣ kMaxAlignment) (h : reuse t i alignment = some (ptr, t')) :
    t'.InStep ↔ ∀ f, t.freelists.getD i [] = [f] → alignment ≤ f.1 →
      ∀ a, a ∣ kMaxAlignment → t.Bit i a → a = alignment := by
  unfold reuse at h
  split_ifs at h
  obtain ⟨⟨p, l, last⟩, h1, h2⟩ := Option.map_eq_some_iff.1 h
  obtain ⟨pre, a₀, post, hl, rfl, rfl, hle, hpre⟩ := takeFirst_split h1
  obtain ⟨rfl, rfl⟩ := Prod.mk.injEq .. ▸ h2
  have hlist : ∀ c < kNumSlabClasses, (t.freelists.set i (pre ++ post)).getD c []
      = if i = c then pre ++ post else t.freelists.getD c [] :=
    fun c hc => getD_set (hs.2.symm ▸ hc)
  have hbit : ∀ c < kNumSlabClasses, ∀ a, a ∣ kMaxAlignment →
      (((if post.isEmpty then t.alignments.modify i fun x => x &&& ~~~ alignment.toUInt8
        else t.alignments).getD c 0).toNat &&& a ≠ 0
        ↔ t.Bit c a ∧ ¬ (i = c ∧ post = [] ∧ alignment = a)) := by
    intro c hc a hd
    unfold FreeLists.Bit
    split_ifs with hp
    · rw [getD_modify (hs.1.symm ▸ hc)]
      split_ifs with hic
      · rw [and_not_bit ha hd]
        simp only [hic, List.isEmpty_iff.1 hp, true_and, Ne]
      · simp only [hic, false_and, not_false_eq_true, and_true]
    · simp only [mt List.isEmpty_iff.2 hp, false_and, and_false, not_false_eq_true, and_true]
  constructor
  · intro h3 f hf hfa a hd hb
    rw [hl] at hf
    obtain ⟨rfl, hpost⟩ : pre = [] ∧ post = [] := by
      have hlen := congrArg List.length hf
      rw [List.length_append, List.length_cons, List.length_singleton] at hlen
      exact ⟨List.eq_nil_of_length_eq_zero (by omega), List.eq_nil_of_length_eq_zero (by omega)⟩
    by_contra hne
    refine (h3 i hi a hd).1 ((hbit i hi a hd).2 ⟨hb, fun h4 => hne h4.2.2.symm⟩) ?_
    show (t.freelists.set i ([] ++ post)).getD i [] = []
    rw [hlist i hi, if_pos rfl, hpost, List.nil_append]
  · intro h3 c hc a hd
    obtain ⟨h4, h5⟩ := H c hc a hd
    show (_ &&& a ≠ 0 → (t.freelists.set i (pre ++ post)).getD c [] ≠ [])
      ∧ ((∃ ptr, (a, ptr) ∈ (t.freelists.set i (pre ++ post)).getD c []) → _ &&& a ≠ 0)
    rw [hbit c hc a hd, hlist c hc]
    split_ifs with hic
    · subst hic
      rw [hl] at h5
      refine ⟨fun ⟨hb, hn⟩ hnil => ?_, fun ⟨q, hq⟩ => ?_⟩
      · obtain ⟨rfl, rfl⟩ := List.append_eq_nil_iff.1 hnil
        exact hn ⟨rfl, rfl, (h3 _ hl hle a hd hb).symm⟩
      · rcases List.mem_append.1 hq with hq | hq
        · refine ⟨h5 ⟨q, List.mem_append_left _ hq⟩, fun ⟨_, _, h6⟩ => ?_⟩
          exact absurd (hpre _ hq) (by simp [h6])
        · refine ⟨h5 ⟨q, List.mem_append_right _ (List.mem_cons_of_mem _ hq)⟩, fun ⟨_, h6, _⟩ => ?_⟩
          rw [h6] at hq
          exact absurd hq List.not_mem_nil
    · exact ⟨fun hb => h4 hb.1, fun hq => ⟨h5 hq, fun h6 => hic h6.1⟩⟩

theorem bit_of_reuse (h : reuse t i alignment = some (ptr, t')) : t.Bit i alignment := by
  unfold reuse at h
  split_ifs at h with hb
  exact hb

theorem sized_reuse (hs : Sized t) (h : reuse t i alignment = some (ptr, t')) : Sized t' := by
  obtain ⟨h1, h2, -⟩ := reuse_spec h
  exact ⟨h1.trans hs.1, h2.trans hs.2⟩

end Lists

/-! ## Runs -/

section Runs

variable {s s' : CallState}

/-- What a call does to the lists. -/
theorem memoryStep_lists {e : MemoryCall} (h : memoryStep s e = some s') :
    (∃ i bytes alignment, e = .allocate i bytes alignment ∧ alignment ∣ kMaxAlignment
      ∧ slabClass (atLeast bytes alignment) - kMinSlabClass < kNumSlabClasses
      ∧ ((∃ ptr, reuse s.lists (slabClass (atLeast bytes alignment) - kMinSlabClass) alignment
          = some (ptr, s'.lists))
        ∨ s'.lists = s.lists
          ∧ reuse s.lists (slabClass (atLeast bytes alignment) - kMinSlabClass) alignment = none))
    ∨ ∃ ptr bytes alignment, e = .deallocate ptr bytes alignment ∧ 1 ≤ bytes ∧ bytes ≤ 2 ^ 20
      ∧ alignment ∣ kMaxAlignment ∧ s'.lists = doDeallocate s.lists ptr bytes alignment := by
  cases e with
  | allocate i bytes alignment =>
    obtain ⟨r, -, h⟩ := Option.bind_eq_some_iff.1 h
    split_ifs at h with hd
    obtain ⟨⟨ptr, r', t, mem⟩, h1, rfl⟩ := Option.map_eq_some_iff.1 h
    have hclass : slabClass (atLeast bytes alignment) - kMinSlabClass < kNumSlabClasses := by
      unfold doAllocate at h1
      simp only [] at h1
      split_ifs at h1 with hc
      exact hc.1
    refine .inl ⟨i, bytes, alignment, rfl, hd, hclass, ?_⟩
    rcases doAllocate_spec h1 with ⟨p, -, h2⟩ | ⟨h2, h3, -⟩
    · exact .inl ⟨p, h2⟩
    · exact .inr ⟨h2, h3⟩
  | deallocate ptr bytes alignment =>
    unfold memoryStep at h
    simp only [] at h
    split_ifs at h with hd
    obtain rfl := Option.some.inj h
    exact .inr ⟨ptr, bytes, alignment, rfl, hd.1, hd.2.1, hd.2.2, rfl⟩

/-- A list of one block that the request may have is not passed over. -/
theorem reuse_of_single {t : FreeLists} {i alignment : ℕ} {f : ℕ × ℕ}
    (hb : t.Bit i alignment) (hl : t.freelists.getD i [] = [f]) (hf : alignment ≤ f.1) :
    reuse t i alignment ≠ none := by
  unfold FreeLists.Bit at hb
  rw [reuse, if_pos hb, hl, takeFirst, if_pos hf]
  exact Option.some_ne_none _

theorem sized_step (e : MemoryCall) (hs : Sized s.lists) (h : memoryStep s e = some s') :
    Sized s'.lists := by
  obtain ⟨i, bytes, alignment, rfl, -, -, ⟨ptr, hr⟩ | ⟨h1, -⟩⟩ |
    ⟨ptr, bytes, alignment, rfl, -, -, -, h1⟩ := memoryStep_lists h
  · exact sized_reuse hs hr
  · rwa [h1]
  · rw [h1]
    exact ⟨(List.length_modify _ _ _).trans hs.1, (List.length_modify _ _ _).trans hs.2⟩

/-- One call. -/
theorem inStep_step (e : MemoryCall) (hs : Sized s.lists) (H : s.lists.InStep)
    (h : memoryStep s e = some s') : s'.lists.InStep ↔ StaysInStep s e := by
  obtain ⟨i, bytes, alignment, rfl, hd, hi, ⟨ptr, hr⟩ | ⟨h1, hr⟩⟩ |
    ⟨ptr, bytes, alignment, rfl, h1, h2, hd, h3⟩ := memoryStep_lists h
  · rw [inStep_reuse hs H hi hd hr]
    refine ⟨fun h1 c f hc _ hl hf => ?_, fun h1 f hl hf => h1 _ f rfl (bit_of_reuse hr) hl hf⟩
    subst hc
    exact h1 f hl hf
  · rw [h1]
    refine iff_of_true H fun c f hc hb hl hf => ?_
    subst hc
    exact absurd hr (reuse_of_single hb hl hf)
  · rw [h3]
    exact inStep_doDeallocate hs H h1 h2 hd

end Runs

/-- The bitmap is in step with the lists after each call of a run just when no call of the run puts
it out of step. -/
theorem bitmap_in_step (resources : List Resource) (mem : Memory) (calls : List MemoryCall)
    (s : CallState) (hrun : run memoryStep (memoryInit resources mem) calls = some s) :
    (∀ calls', calls' <+: calls → ∀ s', run memoryStep (memoryInit resources mem) calls' = some s' →
      s'.lists.InStep) ↔ Meets memoryStep StaysInStep (memoryInit resources mem) calls :=
  meets_iff (I := fun s : CallState => s.lists.InStep) (J := fun s => Sized s.lists)
    (fun _ e _ => sized_step e) (fun _ e _ => inStep_step e) hrun sized_init inStep_init

/-- Two blocks of 64 bytes of a page, the alignments that are asked for and freed with. -/
def pairRun (first second : ℕ) : List MemoryCall :=
  [.allocate 0 64 first, .allocate 0 64 second, .deallocate 8128 64 first,
    .deallocate 8064 64 second, .allocate 0 64 first, .allocate 0 64 second]

theorem bitmap_in_step_pairRun : ∃ s,
    run memoryStep (memoryInit [.init 4096 4096] fun _ => 0) (pairRun 64 64) = some s
      ∧ ((∀ calls', calls' <+: pairRun 64 64 → ∀ s',
          run memoryStep (memoryInit [.init 4096 4096] fun _ => 0) calls' = some s' →
          s'.lists.InStep)
        ↔ Meets memoryStep StaysInStep (memoryInit [.init 4096 4096] fun _ => 0)
          (pairRun 64 64)) := by
  obtain ⟨s, hs⟩ := Option.isSome_iff_exists.1
    (show (run memoryStep (memoryInit [.init 4096 4096] fun _ => 0) (pairRun 64 64)).isSome = true
      by decide +kernel)
  exact ⟨s, hs, bitmap_in_step _ _ _ s hs⟩

/-- The request of alignment 64 takes the last block and leaves the bit of alignment 8 set. -/
theorem pairRun_out_of_step : ∃ s,
    run memoryStep (memoryInit [.init 4096 4096] fun _ => 0) (pairRun 8 64) = some s
      ∧ s.lists.Bit 3 8 ∧ s.lists.freelists.getD 3 [] = [] ∧ ¬ s.lists.InStep := by
  have h : (run memoryStep (memoryInit [.init 4096 4096] fun _ => 0) (pairRun 8 64)).map
      (fun s => (decide (s.lists.Bit 3 8), s.lists.freelists.getD 3 [])) = some (true, []) := by
    decide +kernel
  obtain ⟨s, hs, hv⟩ := Option.map_eq_some_iff.1 h
  obtain ⟨hb, hl⟩ := Prod.mk.injEq .. ▸ hv
  have hb := of_decide_eq_true hb
  exact ⟨s, hs, hb, hl, fun H => (H 3 (by decide) 8 (by decide)).1 hb hl⟩

end Rome
