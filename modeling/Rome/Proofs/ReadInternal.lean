import Rome.ReadInternal
import Rome.Proofs.RdmaMemory
import Rome.Proofs.MemoryPoolInv
import Rome.Lib.Machine
import Rome.Lib.Tiling

/-!
# Reads in chunks

The chunks of a read tile its range, all but the last of the same length, when a chunk has less than
`2 ^ 32` bytes, which is what the length of an `ibv_sge` can hold. The counter is set to the number
of chunks while the last one alone is signaled, so a thread that reads more than one chunk waits
forever.
-/

namespace Rome

open Tiling Machine

/-! ## The number of chunks -/

section Chunks

variable {b k : ℕ}

/-- The length of the last chunk. -/
def lastChunk (b k : ℕ) : ℕ := if b % k = 0 then k else b % k

theorem numChunks_pos (hb : 1 ≤ b) (hk : 1 ≤ k) : 1 ≤ numChunks b k := by
  unfold numChunks
  split_ifs with h
  · exact Nat.succ_pos _
  · exact Nat.div_pos (Nat.le_of_dvd hb (Nat.dvd_of_mod_eq_zero (not_not.1 h))) hk

theorem lastChunk_pos (hk : 1 ≤ k) : 1 ≤ lastChunk b k := by
  unfold lastChunk
  split_ifs with h <;> omega

theorem lastChunk_le (hk : 1 ≤ k) : lastChunk b k ≤ k := by
  unfold lastChunk
  split_ifs with h
  · exact le_rfl
  · exact (Nat.mod_lt b hk).le

/-- All chunks but the last, and the last. -/
theorem chunks_add_last (hb : 1 ≤ b) (hk : 1 ≤ k) :
    (numChunks b k - 1) * k + lastChunk b k = b := by
  have hpos := numChunks_pos hb hk
  have hdiv := Nat.div_add_mod' b k
  unfold numChunks lastChunk at *
  by_cases h : b % k = 0
  · rw [if_neg (not_not.2 h)] at hpos ⊢
    rw [if_pos h, ← Nat.succ_mul, Nat.succ_eq_add_one, Nat.sub_add_cancel hpos]
    omega
  · rw [if_pos h, if_neg h, Nat.add_sub_cancel, hdiv]

theorem numChunks_eq_one_iff (hb : 1 ≤ b) (hk : 1 ≤ k) : numChunks b k = 1 ↔ b ≤ k := by
  have hsum := chunks_add_last hb hk
  have hlast := lastChunk_le (b := b) hk
  have hpos := lastChunk_pos (b := b) hk
  constructor
  · intro h
    rw [h] at hsum
    omega
  · intro h
    by_contra hne
    have h2 : 1 ≤ numChunks b k - 1 := by
      have := numChunks_pos hb hk
      omega
    have h3 : 1 * k ≤ (numChunks b k - 1) * k := Nat.mul_le_mul_right k h2
    omega

end Chunks

namespace ReadCall

variable {c : ReadCall}

theorem chunkSize_ne_zero (h : 1 ≤ c.chunkSize.toNat) : c.chunkSize ≠ 0 := by
  intro h0
  rw [h0] at h
  cases h

theorem remainder_eq_zero_iff :
    c.bytes % c.chunkSize = 0 ↔ c.bytes.toNat % c.chunkSize.toNat = 0 := by
  rw [← UInt64.toNat_inj, UInt64.toNat_mod]
  rfl

theorem count_toNat (h : 1 ≤ c.chunkSize.toNat) :
    (if c.bytes % c.chunkSize ≠ 0 then c.bytes / c.chunkSize + 1
      else c.bytes / c.chunkSize).toNat = Rome.numChunks c.bytes.toNat c.chunkSize.toNat := by
  have hlt : c.bytes.toNat % c.chunkSize.toNat ≠ 0 →
      c.bytes.toNat / c.chunkSize.toNat + 1 < 2 ^ 64 := by
    intro hne
    have h1 := c.bytes.toNat_lt
    have h2 : 2 ≤ c.chunkSize.toNat := by
      by_contra hlt
      rw [show c.chunkSize.toNat = 1 by omega, Nat.mod_one] at hne
      exact hne rfl
    have h3 : c.bytes.toNat / c.chunkSize.toNat ≤ c.bytes.toNat / 2 :=
      Nat.div_le_div_left h2 (by decide)
    omega
  unfold Rome.numChunks
  by_cases hr : c.bytes.toNat % c.chunkSize.toNat = 0
  · rw [if_neg (not_not.2 (remainder_eq_zero_iff.2 hr)), if_neg (not_not.2 hr), UInt64.toNat_div]
  · rw [if_pos (mt remainder_eq_zero_iff.1 hr), if_pos hr, UInt64.toNat_add, UInt64.toNat_div]
    exact Nat.mod_eq_of_lt (hlt hr)

theorem numChunks_toInt (h : 1 ≤ c.chunkSize.toNat) :
    c.numChunks.toInt = (Rome.numChunks c.bytes.toNat c.chunkSize.toNat : ℤ).bmod (2 ^ 32) := by
  unfold ReadCall.numChunks intOfUint64
  rw [count_toNat h, Int32.toInt_ofNat']
  rfl

theorem numChunks_toInt_of_lt (h : 1 ≤ c.chunkSize.toNat)
    (hint : Rome.numChunks c.bytes.toNat c.chunkSize.toNat < 2 ^ 31) :
    c.numChunks.toInt = Rome.numChunks c.bytes.toNat c.chunkSize.toNat := by
  rw [numChunks_toInt h]
  exact Int.bmod_eq_of_le (by omega) (by omega)

/-- The length of chunk `i`, of `n`. -/
theorem wr_length_toNat (n i : ℕ) :
    (c.wr n i).length.toNat
      = (if i = n - 1 then lastChunk c.bytes.toNat c.chunkSize.toNat else c.chunkSize.toNat)
        % 2 ^ 32 := by
  simp only [wr, UInt64.toNat_toUInt32, beq_iff_eq, remainder_eq_zero_iff, lastChunk]
  by_cases hr : c.bytes.toNat % c.chunkSize.toNat = 0
  · simp only [hr, if_true, ite_self]
  · simp only [hr, if_false]
    split_ifs
    · rw [UInt64.toNat_mod]
    · rfl

theorem wr_addr (n i : ℕ) :
    (c.wr n i).addr - c.prealloc.address = c.offset + .ofNat i * c.chunkSize := by
  rw [wr, add_sub_cancel_left]

theorem wr_remoteAddr (n i : ℕ) :
    (c.wr n i).remoteAddr - c.ptr.address = c.offset + .ofNat i * c.chunkSize := by
  rw [wr, add_sub_cancel_left]

/-- In the array the next request is the one behind. -/
theorem wr_next {n i : ℕ} (hi : i < n) :
    (c.wr n i).next = if i + 1 < n then some (i + 1) else none := by
  rw [wr]
  dsimp only
  by_cases h : i = n - 1
  · rw [if_neg (not_not.2 h), if_neg (by omega)]
  · rw [if_pos h, if_pos (by omega)]

end ReadCall

theorem readInternal_eq {c : ReadCall} {n : ℕ} (hk : c.chunkSize ≠ 0) (hn : c.numChunks.toInt = n)
    (hpos : 1 ≤ n) : readInternal c = some ((List.range n).map (c.wr n), (n : ℤ)) := by
  unfold readInternal
  dsimp only
  rw [hn, if_neg (not_or.2 ⟨hk, by omega⟩), Int.toNat_natCast]

/-! ## The chain -/

theorem chainFrom_eq {wrs : List SendWr}
    (h : ∀ i w, wrs[i]? = some w → w.next = if i + 1 < wrs.length then some (i + 1) else none) :
    ∀ fuel i, wrs.length - i ≤ fuel → chainFrom wrs fuel i = wrs.drop i
  | 0, i, hf => by
    rw [chainFrom, List.drop_of_length_le (by omega)]
  | fuel + 1, i, hf => by
    rw [chainFrom]
    cases hw : wrs[i]? with
    | none => rw [List.drop_of_length_le (List.getElem?_eq_none_iff.1 hw)]
    | some w =>
      obtain ⟨hi, rfl⟩ := List.getElem?_eq_some_iff.1 hw
      rw [List.drop_eq_getElem_cons hi]
      dsimp only
      rw [h i _ hw]
      split_ifs with hlast
      · dsimp only
        rw [chainFrom_eq h fuel (i + 1) (by omega)]
      · dsimp only
        rw [List.drop_of_length_le (by omega)]

/-- The chain has all requests, in the order of the array. -/
theorem chain_wrs (c : ReadCall) (n : ℕ) :
    chain ((List.range n).map (c.wr n)) = (List.range n).map (c.wr n) := by
  refine (chainFrom_eq (fun i w hw => ?_) _ 0 (Nat.sub_le _ _)).trans List.drop_zero
  rw [List.getElem?_map, Option.map_eq_some_iff] at hw
  obtain ⟨j, hj, rfl⟩ := hw
  obtain ⟨hi, rfl⟩ := List.getElem?_eq_some_iff.1 hj
  rw [List.length_range] at hi
  rw [List.getElem_range, List.length_map, List.length_range]
  exact ReadCall.wr_next hi

/-! ## The range -/

/-- The range of a chunk, from where it lies in local memory. -/
def ReadCall.range (c : ReadCall) (w : SendWr) : ℕ × ℕ :=
  ((w.addr - c.prealloc.address).toNat, w.length.toNat)

/-- The chunks are the range that is to be read. -/
structure TilesRange (c : ReadCall) (wrs : List SendWr) : Prop where
  tiles : Tiles c.offset.toNat (c.offset.toNat + c.bytes.toNat) (wrs.map c.range)
  le : ∀ w ∈ wrs, w.length.toNat ≤ c.chunkSize.toNat
  apart : (wrs.map c.range).Pairwise NonOverlapping
  covers : ∀ x, (∃ r ∈ wrs.map c.range, InRange x r)
    ↔ c.offset.toNat ≤ x ∧ x < c.offset.toNat + c.bytes.toNat
  displaced : ∀ w ∈ wrs, w.addr - c.prealloc.address = w.remoteAddr - c.ptr.address
  chained : chain wrs = wrs

/-- Chunk `i` starts `i` chunks behind the offset. -/
theorem ReadCall.chunkOffset_toNat {c : ReadCall} {n i : ℕ} (hb : 1 ≤ c.bytes.toNat)
    (hk : 1 ≤ c.chunkSize.toNat) (hn : n = Rome.numChunks c.bytes.toNat c.chunkSize.toNat)
    (hsize : c.offset.toNat + c.bytes.toNat ≤ 2 ^ 64) (hi : i < n) :
    ((c.wr n i).addr - c.prealloc.address).toNat
      = c.offset.toNat + i * c.chunkSize.toNat := by
  have hsum := chunks_add_last hb hk
  have hlast := lastChunk_pos (b := c.bytes.toNat) hk
  have hile : i * c.chunkSize.toNat ≤ (n - 1) * c.chunkSize.toNat :=
    Nat.mul_le_mul_right _ (by omega)
  have hi1 : i * 1 ≤ i * c.chunkSize.toNat := Nat.mul_le_mul_left _ hk
  rw [← hn] at hsum
  rw [ReadCall.wr_addr, UInt64.toNat_add, UInt64.toNat_mul, UInt64.toNat_ofNat',
    Nat.mod_eq_of_lt (show i < 2 ^ 64 by omega), Nat.mod_eq_of_lt (a := i * _) (by omega)]
  exact Nat.mod_eq_of_lt (by omega)

/-- Where the longest chunk has less than `2 ^ 32` bytes, no length is cut. -/
theorem ReadCall.wr_length_of_lt {c : ReadCall} {n i : ℕ} (hb : 1 ≤ c.bytes.toNat)
    (hk : 1 ≤ c.chunkSize.toNat) (hn : n = Rome.numChunks c.bytes.toNat c.chunkSize.toNat)
    (hmin : min c.bytes.toNat c.chunkSize.toNat < 2 ^ 32) (hi : i < n) :
    (c.wr n i).length.toNat
      = if i = n - 1 then lastChunk c.bytes.toNat c.chunkSize.toNat else c.chunkSize.toNat := by
  have hsum := chunks_add_last hb hk
  have hlastle := lastChunk_le (b := c.bytes.toNat) hk
  rw [← hn] at hsum
  rw [ReadCall.wr_length_toNat]
  refine Nat.mod_eq_of_lt ?_
  split_ifs with h
  · omega
  · -- there is a chunk behind this one
    have h1 : 1 * c.chunkSize.toNat ≤ (n - 1) * c.chunkSize.toNat :=
      Nat.mul_le_mul_right _ (by omega)
    omega

/-- The ranges start one chunk after the other, and the last ends with the range. -/
theorem ReadCall.tiles {c : ReadCall} {n : ℕ} (hb : 1 ≤ c.bytes.toNat)
    (hk : 1 ≤ c.chunkSize.toNat) (hn : n = Rome.numChunks c.bytes.toNat c.chunkSize.toNat)
    (hsize : c.offset.toNat + c.bytes.toNat ≤ 2 ^ 64)
    (hmin : min c.bytes.toNat c.chunkSize.toNat < 2 ^ 32) :
    Tiles c.offset.toNat (c.offset.toNat + c.bytes.toNat)
      (((List.range n).map (c.wr n)).map c.range) := by
  have hpos := numChunks_pos hb hk
  have hsum := chunks_add_last hb hk
  have hlast := lastChunk_pos (b := c.bytes.toNat) hk
  have hlen := fun i hi => ReadCall.wr_length_of_lt (i := i) hb hk hn hmin hi
  rw [← hn] at hpos hsum
  -- where chunk `i` starts, and where the last one ends
  have hf : ∀ i < n, (if i + 1 < n then c.offset.toNat + (i + 1) * c.chunkSize.toNat
      else c.offset.toNat + c.bytes.toNat)
      = (if i < n then c.offset.toNat + i * c.chunkSize.toNat
        else c.offset.toNat + c.bytes.toNat) + (c.wr n i).length.toNat := by
    intro i hi
    rw [hlen i hi, if_pos hi]
    by_cases h : i = n - 1
    · rw [if_neg (by omega), if_pos h, h, Nat.add_assoc, hsum]
    · rw [if_pos (by omega), if_neg h, Nat.succ_mul, Nat.add_assoc]
  have hl : ∀ i < n, 0 < (c.wr n i).length.toNat := by
    intro i hi
    rw [hlen i hi]
    split_ifs <;> omega
  have h := tiles_range (f := fun i => if i < n then c.offset.toNat + i * c.chunkSize.toNat
    else c.offset.toNat + c.bytes.toNat) hf hl
  simp only [if_pos (show 0 < n by omega), Nat.zero_mul, Nat.add_zero, if_neg (lt_irrefl n)] at h
  rw [List.map_map]
  refine (congrArg (Tiles _ _) (List.map_congr_left fun i hi => ?_)).mp h
  have hi' : i < n := List.mem_range.1 hi
  rw [if_pos hi', Function.comp_apply, ReadCall.range,
    ReadCall.chunkOffset_toNat hb hk hn hsize hi']

theorem tilesRange_of_lt {c : ReadCall} {n : ℕ} (hb : 1 ≤ c.bytes.toNat)
    (hk : 1 ≤ c.chunkSize.toNat) (hn : n = Rome.numChunks c.bytes.toNat c.chunkSize.toNat)
    (hsize : c.offset.toNat + c.bytes.toNat ≤ 2 ^ 64)
    (hmin : min c.bytes.toNat c.chunkSize.toNat < 2 ^ 32) :
    TilesRange c ((List.range n).map (c.wr n)) := by
  have htiles := ReadCall.tiles hb hk hn hsize hmin
  refine ⟨htiles, fun w hw => ?_, htiles.apart, htiles.mem_iff, fun w hw => ?_, chain_wrs c n⟩
  · obtain ⟨i, hi, rfl⟩ := List.mem_map.1 hw
    rw [ReadCall.wr_length_of_lt hb hk hn hmin (List.mem_range.1 hi)]
    split_ifs
    · exact lastChunk_le hk
    · exact le_rfl
  · obtain ⟨i, -, rfl⟩ := List.mem_map.1 hw
    rw [ReadCall.wr_addr, ReadCall.wr_remoteAddr]

/-- The first chunk is as long as its request says. -/
theorem TilesRange.first {c : ReadCall} {n : ℕ} (hb : 1 ≤ c.bytes.toNat)
    (hk : 1 ≤ c.chunkSize.toNat) (hn : n = Rome.numChunks c.bytes.toNat c.chunkSize.toNat)
    (hsize : c.offset.toNat + c.bytes.toNat ≤ 2 ^ 64)
    (H : TilesRange c ((List.range n).map (c.wr n))) :
    (c.wr n 0).length.toNat = min c.bytes.toNat c.chunkSize.toNat := by
  have hpos := numChunks_pos hb hk
  rw [← hn] at hpos
  obtain ⟨m, rfl⟩ : ∃ m, n = m + 1 := ⟨n - 1, (Nat.sub_add_cancel hpos).symm⟩
  have hoff := fun i hi => ReadCall.chunkOffset_toNat (i := i) hb hk hn hsize hi
  have hend := H.tiles
  rw [List.range_succ_eq_map, List.map_cons, List.map_cons] at hend
  have hfirst := hend.head_end
  simp only [ReadCall.range, hoff 0 (Nat.succ_pos m), Nat.zero_mul, Nat.add_zero] at hfirst
  rcases Nat.eq_zero_or_pos m with rfl | hm
  · have hle := (numChunks_eq_one_iff hb hk).1 hn.symm
    simp only [List.range_zero, List.map_nil, List.head?_nil, Option.map_none,
      Option.getD_none] at hfirst
    omega
  · have hlt : ¬ c.bytes.toNat ≤ c.chunkSize.toNat := by
      rw [← numChunks_eq_one_iff hb hk, ← hn]
      omega
    obtain ⟨j, rfl⟩ : ∃ j, m = j + 1 := ⟨m - 1, (Nat.sub_add_cancel hm).symm⟩
    simp only [List.range_succ_eq_map, List.map_cons, List.head?_cons, Option.map_some,
      Option.getD_some, ReadCall.range, hoff (Nat.succ 0) (by omega)] at hfirst
    omega

/-- A read without overflow of its number of chunks or its offsets has chunks that tile the range,
in local and in remote memory, exactly when a chunk has less than `2 ^ 32` bytes. -/
theorem read_chunks_tile (c : ReadCall) (hb : 1 ≤ c.bytes.toNat) (hk : 1 ≤ c.chunkSize.toNat)
    (hint : Rome.numChunks c.bytes.toNat c.chunkSize.toNat < 2 ^ 31)
    (hsize : c.offset.toNat + c.bytes.toNat ≤ 2 ^ 64) :
    (∃ wrs counter, readInternal c = some (wrs, counter) ∧ TilesRange c wrs)
      ↔ min c.bytes.toNat c.chunkSize.toNat < 2 ^ 32 := by
  rw [readInternal_eq (ReadCall.chunkSize_ne_zero hk)
    (ReadCall.numChunks_toInt_of_lt hk hint) (numChunks_pos hb hk)]
  constructor
  · rintro ⟨wrs, counter, heq, H⟩
    simp only [Option.some.injEq, Prod.mk.injEq] at heq
    obtain ⟨rfl, -⟩ := heq
    rw [← H.first hb hk rfl hsize]
    exact UInt32.toNat_lt _
  · intro hmin
    exact ⟨_, _, rfl, tilesRange_of_lt hb hk rfl hsize hmin⟩

/-- A read of 20 bytes from 4 on, in chunks of 8. -/
def threeChunks : ReadCall where
  ptr := .of 1 4096
  offset := 4
  bytes := 20
  chunkSize := 8
  prealloc := .of 0 64
  indexAsId := 0
  lkey := 0
  rkey := 0

theorem read_chunks_tile_three : ∃ wrs counter, readInternal threeChunks = some (wrs, counter)
    ∧ wrs.map threeChunks.range = [(4, 8), (12, 8), (20, 4)] ∧ TilesRange threeChunks wrs := by
  obtain ⟨wrs, counter, h, H⟩ := (read_chunks_tile threeChunks (by decide) (by decide) (by decide)
    (by decide)).2 (by decide)
  refine ⟨wrs, counter, h, ?_, H⟩
  have hval : (readInternal threeChunks).map (fun x => x.1.map threeChunks.range)
      = some [(4, 8), (12, 8), (20, 4)] := by decide +kernel
  rw [h] at hval
  exact Option.some.inj hval

/-- A read of `2 ^ 32` bytes in one chunk. -/
def hugeChunk : ReadCall := { threeChunks with offset := 0, bytes := 2 ^ 32, chunkSize := 2 ^ 32 }

/-- Its request is for no bytes. -/
theorem hugeChunk_not_tiled : 1 ≤ hugeChunk.bytes.toNat ∧ 1 ≤ hugeChunk.chunkSize.toNat
    ∧ Rome.numChunks hugeChunk.bytes.toNat hugeChunk.chunkSize.toNat < 2 ^ 31
    ∧ hugeChunk.offset.toNat + hugeChunk.bytes.toNat ≤ 2 ^ 64
    ∧ ¬ ∃ wrs counter, readInternal hugeChunk = some (wrs, counter)
      ∧ TilesRange hugeChunk wrs := by
  refine ⟨by decide, by decide, by decide, by decide, ?_⟩
  rintro ⟨wrs, counter, h, H⟩
  have hval : (readInternal hugeChunk).map (fun x => x.1.map fun w => w.length.toNat)
      = some [0] := by decide +kernel
  rw [h, Option.map_some, Option.some.injEq] at hval
  obtain ⟨w, hw, hlen⟩ := List.exists_of_mem_map (f := fun w : SendWr => w.length.toNat)
    (show 0 ∈ wrs.map fun w => w.length.toNat by rw [hval]; exact List.mem_cons_self)
  have hpos := H.tiles.pos (hugeChunk.range w) (List.mem_map_of_mem hw)
  rw [ReadCall.range] at hpos
  omega

/-! ## The wait loop -/

/-- The counter is the number of completions to come, and while the loop goes round it is 0 exactly
when these are polled and all bytes of the range are read. -/
structure WaitsExactly (c : ReadCall) (wrs : List SendWr) (counter : ℤ) : Prop where
  counter_eq : counter = (chain wrs).countP SendWr.signaled
  ends : ∀ es s, run readStep (readPosted wrs counter) es = some s →
    (s.counter = 0 ↔ s.sendCq = 0 ∧ s.bytesRead = c.bytes.toNat)

theorem countP_signaled (c : ReadCall) {n : ℕ} (h : 1 ≤ n) :
    ((List.range n).map (c.wr n)).countP SendWr.signaled = 1 := by
  obtain ⟨m, rfl⟩ : ∃ m, n = m + 1 := ⟨n - 1, (Nat.sub_add_cancel h).symm⟩
  rw [List.range_succ, List.map_append, List.countP_append]
  have hzero : ((List.range m).map (c.wr (m + 1))).countP SendWr.signaled = 0 := by
    rw [List.countP_eq_zero]
    intro w hw
    obtain ⟨i, hi, rfl⟩ := List.mem_map.1 hw
    have := List.mem_range.1 hi
    simp only [ReadCall.wr, Nat.add_sub_cancel, beq_iff_eq]
    omega
  rw [hzero, Nat.zero_add]
  simp [ReadCall.wr]

/-- A read of one chunk is posted, complete, or complete and polled. -/
inductive OneChunk (w : SendWr) : ReadState → Prop
  | posted : OneChunk w ⟨1, [w], 0, []⟩
  | complete : OneChunk w ⟨1, [], 1, [w]⟩
  | polled : OneChunk w ⟨0, [], 0, [w]⟩

theorem OneChunk.step {w : SendWr} {s s' : ReadState} {e : ReadEvent} (hw : w.signaled = true)
    (H : OneChunk w s) (hs : readStep s e = some s') : OneChunk w s' := by
  cases H with
  | posted =>
    cases e with
    | complete =>
      simp only [readStep, hw, if_true, List.nil_append, Option.some.injEq] at hs
      exact hs ▸ .complete
    | poll =>
      simp only [readStep, one_ne_zero, if_false, Option.some.injEq] at hs
      exact hs ▸ .posted
  | complete =>
    cases e with
    | complete => cases hs
    | poll =>
      simp only [readStep, one_ne_zero, if_false, le_refl, if_true, sub_self,
        Option.some.injEq] at hs
      exact hs ▸ .polled
  | polled =>
    cases e with
    | complete => cases hs
    | poll => cases hs

theorem OneChunk.ends {w : SendWr} {s : ReadState} (hw : 1 ≤ w.length.toNat)
    (H : OneChunk w s) : s.counter = 0 ↔ s.sendCq = 0 ∧ s.bytesRead = w.length.toNat := by
  cases H with
  | posted =>
    simp only [one_ne_zero, false_iff, ReadState.bytesRead, List.map_nil, List.sum_nil]
    omega
  | complete => simp
  | polled => simp [ReadState.bytesRead]

/-- The wait loop ends exactly when the read is complete, where the read has one chunk, of less than
`2 ^ 32` bytes; of more chunks one alone is signaled. -/
theorem read_waits_exactly (c : ReadCall) (hb : 1 ≤ c.bytes.toNat) (hk : 1 ≤ c.chunkSize.toNat) :
    (∃ wrs counter, readInternal c = some (wrs, counter) ∧ WaitsExactly c wrs counter)
      ↔ c.bytes.toNat ≤ c.chunkSize.toNat ∧ c.bytes.toNat < 2 ^ 32 := by
  constructor
  · rintro ⟨wrs, counter, heq, H⟩
    -- the counter is the number of chunks and one request is signaled
    unfold readInternal at heq
    dsimp only at heq
    split_ifs at heq with h
    obtain ⟨rfl, rfl⟩ := Prod.mk.inj (Option.some.inj heq)
    obtain ⟨n, hn⟩ := Int.eq_ofNat_of_zero_le (show 0 ≤ c.numChunks.toInt by omega)
    rw [hn, Int.toNat_natCast] at H
    have hone := H.counter_eq
    rw [chain_wrs, countP_signaled c (by omega)] at hone
    obtain rfl : n = 1 := by omega
    have hrun := (H.ends [.complete, .poll] ⟨0, [], 0, [c.wr 1 0]⟩ rfl).1 rfl
    have hlen : (c.wr 1 0).length.toNat = c.bytes.toNat := by
      simpa [ReadState.bytesRead] using hrun.2
    have hle : (c.wr 1 0).length.toNat ≤ c.chunkSize.toNat := by
      rw [ReadCall.wr_length_toNat]
      refine (Nat.mod_le _ _).trans ?_
      rw [if_pos rfl]
      exact lastChunk_le hk
    exact ⟨hlen ▸ hle, hlen ▸ UInt32.toNat_lt _⟩
  · rintro ⟨hle, hlt⟩
    have hone := (numChunks_eq_one_iff hb hk).2 hle
    have hint : c.numChunks.toInt = (1 : ℕ) := by
      rw [ReadCall.numChunks_toInt_of_lt hk (by omega), hone]
    have hlen : (c.wr 1 0).length.toNat = c.bytes.toNat := by
      have hsum := chunks_add_last hb hk
      rw [hone, Nat.sub_self, Nat.zero_mul, Nat.zero_add] at hsum
      rw [ReadCall.wr_length_toNat, if_pos rfl, hsum, Nat.mod_eq_of_lt hlt]
    refine ⟨_, _, readInternal_eq (ReadCall.chunkSize_ne_zero hk) hint le_rfl, ?_,
      fun es s hr => ?_⟩
    · rw [chain_wrs, countP_signaled c le_rfl]
    · have H := run_inv' (I := OneChunk (c.wr 1 0)) (fun _ _ _ H hs => H.step rfl hs) hr
        (by rw [readPosted, chain_wrs]; exact .posted)
      rw [← hlen]
      exact H.ends (by omega)

theorem read_waits_exactly_one : ∃ wrs counter,
    readInternal { threeChunks with chunkSize := 20 } = some (wrs, counter)
      ∧ WaitsExactly { threeChunks with chunkSize := 20 } wrs counter :=
  (read_waits_exactly { threeChunks with chunkSize := 20 } (by decide) (by decide)).2
    ⟨by decide, by decide⟩

/-- A `PartialRead` of 16 bytes of a type of 8. -/
def twoChunks : ReadCall := { threeChunks with offset := 0, bytes := 16, chunkSize := 8 }

/-- Its thread waits for two completions. All bytes are read and the only completion is polled, and
it still waits for one. -/
theorem twoChunks_waits : 1 ≤ twoChunks.bytes.toNat ∧ 1 ≤ twoChunks.chunkSize.toNat
    ∧ (∃ wrs s, readInternal twoChunks = some (wrs, 2)
      ∧ (chain wrs).countP SendWr.signaled = 1
      ∧ run readStep (readPosted wrs 2) [.complete, .complete, .poll] = some s
      ∧ s.counter = 1 ∧ s.wire = [] ∧ s.sendCq = 0 ∧ s.bytesRead = 16)
    ∧ ¬ ∃ wrs counter, readInternal twoChunks = some (wrs, counter)
      ∧ WaitsExactly twoChunks wrs counter := by
  have hread : readInternal twoChunks = some ((List.range 2).map (twoChunks.wr 2), 2) :=
    readInternal_eq (n := 2) (by decide) (by decide) (by decide)
  refine ⟨by decide, by decide,
    ⟨_, ⟨1, [], 0, [twoChunks.wr 2 0, twoChunks.wr 2 1]⟩, hread, ?_, rfl, rfl, rfl, rfl,
      by decide +kernel⟩, ?_⟩
  · rw [chain_wrs, countP_signaled twoChunks (by decide)]
  · rintro ⟨wrs, counter, heq, H⟩
    obtain ⟨rfl, rfl⟩ := Prod.mk.inj (Option.some.inj (hread.symm.trans heq))
    have hone := H.counter_eq
    rw [chain_wrs, countP_signaled twoChunks (by decide)] at hone
    cases hone

end Rome
