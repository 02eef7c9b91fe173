import Rome.KeyRouting
import Rome.Lib.Blocks

/-!
# The partition of the keys

Over exact integers `to_id` is the quotient of the scaled place of a key, but for the last key,
whose quotient is the number of nodes. So each node has a block of the places, and the last node the
last key besides. With `int`s of 32 bits the length of the range may be 0 or not be an `int`, and
the scaled place may not be one.
-/

namespace Rome

open Blocks

/-- The numbers that an `int` has. -/
def IsInt32 (x : ℤ) : Prop := -2 ^ 31 ≤ x ∧ x < 2 ^ 31

instance (x : ℤ) : Decidable (IsInt32 x) := inferInstanceAs (Decidable (_ ∧ _))

theorem isInt32_toInt (x : Int32) : IsInt32 x.toInt := ⟨x.le_toInt, x.toInt_lt⟩

theorem int32_ok {x y : ℤ} : int32 x = .ok y ↔ IsInt32 x ∧ x = y := by
  unfold int32
  split_ifs with h
  · rw [Except.ok.injEq]
    exact ⟨fun he => ⟨h, he⟩, And.right⟩
  · constructor
    · intro he
      cases he
    · intro he
      exact absurd he.1 h

theorem wrap32_of_isInt32 {x : ℤ} (h : IsInt32 x) : wrap32 x = x := by
  obtain ⟨h1, h2⟩ := h
  unfold wrap32
  rw [Int.bmod_eq_of_le] <;> omega

namespace Keyspace

variable {s : Keyspace} {key : ℤ}

/-- What `to_id` returns, when each operation has a result. -/
theorem toId_ok {arith : ℤ → Except IntFault ℤ} {id : ℤ} : s.toId arith key = .ok id ↔
    s.keyspaceLb ≤ key ∧ ∃ offset, arith (key - s.keyspaceLb) = .ok offset
      ∧ offset ≤ s.keyspaceLen ∧ s.keyspaceLen ≠ 0 ∧ ∃ scaled, arith (s.count * offset) = .ok scaled
      ∧ ∃ q, arith (scaled.tdiv s.keyspaceLen) = .ok q
        ∧ (if q = s.count then arith (q - 1) else .ok q) = .ok id := by
  unfold toId inRange
  by_cases h : s.keyspaceLb ≤ key
  swap
  · simp [h, bind, Except.bind]
  rcases arith (key - s.keyspaceLb) with _ | offset
  · simp [h, bind, Except.bind]
  by_cases h2 : offset ≤ s.keyspaceLen
  swap
  · simp [h, h2, bind, Except.bind]
  rcases h3 : arith (s.count * offset) with _ | scaled
  · simp [h, h2, h3, bind, Except.bind]
  by_cases h4 : s.keyspaceLen = 0
  · rw [h4] at h2
    simp [h, h2, h3, h4, bind, Except.bind]
  rcases h5 : arith (scaled.tdiv s.keyspaceLen) with _ | q <;>
    simp [h, h2, h3, h4, h5, bind, Except.bind]

/-- The node whose block the place of a key is in; the last key goes to the last node. -/
def owner (s : Keyspace) (key : ℤ) : ℤ :=
  if key - s.keyspaceLb = s.keyspaceLen then s.count - 1
  else s.count * (key - s.keyspaceLb) / s.keyspaceLen

/-- What `to_id` returns for a key of the range, when the product that it divides is an `int`. -/
theorem toId_eq_owner {arith : ℤ → Except IntFault ℤ} (hc : 1 ≤ s.count) (h1 : s.keyspaceLb ≤ key)
    (h2 : key - s.keyspaceLb ≤ s.keyspaceLen) (hl : 1 ≤ s.keyspaceLen)
    (ha : ∀ x, 0 ≤ x → x ≤ s.count * (key - s.keyspaceLb) ∨ x ≤ s.count → arith x = .ok x)
    {id : ℤ} : s.toId arith key = .ok id ↔ id = s.owner key := by
  have hk : 0 ≤ key - s.keyspaceLb := by omega
  have hp : 0 ≤ s.count * (key - s.keyspaceLb) := mul_nonneg (by omega) hk
  have hle : key - s.keyspaceLb ≤ s.count * (key - s.keyspaceLb) :=
    le_mul_of_one_le_left hk hc
  have hq : (s.count * (key - s.keyspaceLb)).tdiv s.keyspaceLen
      = s.count * (key - s.keyspaceLb) / s.keyspaceLen := Int.tdiv_eq_ediv_of_nonneg hp
  have hqle : s.count * (key - s.keyspaceLb) / s.keyspaceLen ≤ s.count * (key - s.keyspaceLb) :=
    Int.ediv_le_self _ hp
  have hq0 : 0 ≤ s.count * (key - s.keyspaceLb) / s.keyspaceLen := Int.ediv_nonneg hp (by omega)
  have hne : (s.keyspaceLen ≠ 0) = True := eq_true (by omega)
  rw [toId_ok, ha _ hk (.inl hle)]
  simp only [h1, hne, true_and, Except.ok.injEq, exists_eq_left', h2, ha _ hp (.inl le_rfl), hq,
    ha _ hq0 (.inl hqle)]
  unfold owner
  by_cases hlast : key - s.keyspaceLb = s.keyspaceLen
  · rw [if_pos hlast, hlast, Int.mul_ediv_cancel _ (by omega), if_pos rfl,
      ha _ (by omega) (.inr (by omega)), Except.ok.injEq, eq_comm]
  · have hlt := (quotient_bounds (c := s.count) (l := s.keyspaceLen) (by omega) hk (by omega)).2
    rw [if_neg hlast, if_neg hlt.ne, Except.ok.injEq, eq_comm]

theorem owner_bounds (hc : 1 ≤ s.count) (h1 : s.keyspaceLb ≤ key)
    (h2 : key - s.keyspaceLb ≤ s.keyspaceLen) : 0 ≤ s.owner key ∧ s.owner key < s.count := by
  unfold owner
  split_ifs with h
  · omega
  · exact quotient_bounds (by omega) (by omega) (by omega)

/-- The keys of the range that a node owns are `n` consecutive ones, from `a` on. -/
def OwnsFrom (s : Keyspace) (id a n : ℤ) : Prop :=
  s.keyspaceLb ≤ a ∧ a + n ≤ s.keyspaceLb + s.keyspaceLen + 1
    ∧ ∀ key, s.keyspaceLb ≤ key → key ≤ s.keyspaceLb + s.keyspaceLen →
      (s.toId .ok key = .ok id ↔ a ≤ key ∧ key < a + n)

theorem toId_exact (hc : 1 ≤ s.count) (hl : 1 ≤ s.keyspaceLen) (h1 : s.keyspaceLb ≤ key)
    (h2 : key ≤ s.keyspaceLb + s.keyspaceLen) {id : ℤ} :
    s.toId .ok key = .ok id ↔ id = s.owner key :=
  toId_eq_owner hc h1 (by omega) hl fun _ _ _ => rfl

/-- A later key has no earlier owner. -/
theorem owner_mono (hc : 1 ≤ s.count) {key' : ℤ} (h1 : s.keyspaceLb ≤ key) (hk : key ≤ key')
    (h2 : key' - s.keyspaceLb ≤ s.keyspaceLen) : s.owner key ≤ s.owner key' := by
  by_cases hlast : key' - s.keyspaceLb = s.keyspaceLen
  · have hown : s.owner key' = s.count - 1 := if_pos hlast
    have := (owner_bounds hc h1 (by omega)).2
    omega
  · unfold owner
    rw [if_neg hlast, if_neg (by omega)]
    exact Int.ediv_le_ediv (by omega) (mul_le_mul_of_nonneg_left (by omega) (by omega))

/-- A node but the last owns the keys whose places are its block. -/
theorem ownsFrom_block (hc : 1 ≤ s.count) (hl : 1 ≤ s.keyspaceLen) {id : ℤ} (h0 : 0 ≤ id)
    (hid : id < s.count - 1) :
    s.OwnsFrom id (s.keyspaceLb + start s.count s.keyspaceLen id)
      (start s.count s.keyspaceLen (id + 1) - start s.count s.keyspaceLen id) := by
  have hfirst := start_nonneg (c := s.count) (l := s.keyspaceLen) (by omega) (by omega) h0
  have hend := start_le (c := s.count) (l := s.keyspaceLen) (i := id + 1) (by omega) (by omega)
    (by omega)
  refine ⟨by omega, by omega, fun key h1 h2 => ?_⟩
  rw [toId_exact hc hl h1 h2]
  unfold owner
  split_ifs with hlast
  · omega
  · rw [eq_comm, quotient_eq_iff (by omega) (by omega)]
    omega

/-- The last node owns the keys whose places are its block, and the last key. -/
theorem ownsFrom_last (hc : 1 ≤ s.count) (hl : 1 ≤ s.keyspaceLen) :
    s.OwnsFrom (s.count - 1) (s.keyspaceLb + start s.count s.keyspaceLen (s.count - 1))
      (s.keyspaceLen / s.count + 1) := by
  have hfirst := start_nonneg (c := s.count) (l := s.keyspaceLen) (i := s.count - 1) (by omega)
    (by omega) (by omega)
  have hstart := start_last (c := s.count) (l := s.keyspaceLen) (by omega)
  have hend := start_self (c := s.count) (l := s.keyspaceLen) (by omega)
  refine ⟨by omega, by omega, fun key h1 h2 => ?_⟩
  rw [toId_exact hc hl h1 h2]
  unfold owner
  split_ifs with hlast
  · have : 0 ≤ s.keyspaceLen / s.count := Int.ediv_nonneg (by omega) (by omega)
    omega
  · rw [eq_comm, quotient_eq_iff (by omega) (by omega), sub_add_cancel, hend]
    omega

end Keyspace

section Main

open Keyspace

/-- Over exact integers the keys are split among the nodes in order, in blocks of equal sizes, but
for rounding and the last key, which the last node has besides. -/
theorem key_routing_balanced (selfId count lb ub : ℤ) (s : Keyspace)
    (hs : construct id selfId count lb ub = .ok s) (hlen : 1 ≤ ub - lb) :
    (∀ key, lb ≤ key → key ≤ ub → ∃! i, s.toId .ok key = .ok i ∧ 0 ≤ i ∧ i < count)
    ∧ (∀ key key' i i', lb ≤ key → key ≤ key' → key' ≤ ub → s.toId .ok key = .ok i →
      s.toId .ok key' = .ok i' → i ≤ i')
    ∧ (∀ i, 0 ≤ i → i < count - 1 → ∃ a n, s.OwnsFrom i a n
      ∧ (n = (ub - lb) / count ∨ n = ceilDiv (ub - lb) count))
    ∧ (∃ a, s.OwnsFrom (count - 1) a ((ub - lb) / count + 1))
    ∧ (count ≤ ub - lb → ∀ i, 0 ≤ i → i < count →
      ∃ key, lb ≤ key ∧ key ≤ ub ∧ s.toId .ok key = .ok i) := by
  unfold construct at hs
  split_ifs at hs with hid
  obtain rfl := Except.ok.inj hs
  have hc : 1 ≤ count := by omega
  have hblock : ∀ i, 0 ≤ i → i < count - 1 → _ := fun i h0 hi =>
    ownsFrom_block (s := ⟨count, lb, ub - lb⟩) hc hlen h0 hi
  have hlast := ownsFrom_last (s := ⟨count, lb, ub - lb⟩) hc hlen
  have hexact : ∀ {key i}, lb ≤ key → key ≤ ub →
      ((⟨count, lb, ub - lb⟩ : Keyspace).toId .ok key = .ok i ↔
        i = (⟨count, lb, ub - lb⟩ : Keyspace).owner key) := fun {key i} h1 h2 =>
    Keyspace.toId_exact (s := ⟨count, lb, ub - lb⟩) hc hlen h1 (by dsimp only; omega)
  refine ⟨fun key h1 h2 => ?_, fun key key' i i' h1 h2 h3 hi hi' => ?_, fun i h0 hi => ?_,
    ⟨_, hlast⟩, fun hle i h0 hi => ?_⟩
  · have hb := owner_bounds (s := ⟨count, lb, ub - lb⟩) hc h1 (by dsimp only; omega)
    exact ⟨_, ⟨(hexact h1 h2).2 rfl, hb.1, hb.2⟩, fun j hj => (hexact h1 h2).1 hj.1⟩
  · rw [(hexact h1 (by omega)).1 hi, (hexact (by omega) h3).1 hi']
    exact owner_mono hc h1 h2 (by dsimp only; omega)
  · refine ⟨_, _, hblock i h0 hi, ?_⟩
    dsimp only
    rcases start_succ (c := count) (l := ub - lb) (by omega) i with h | h <;> omega
  · have hone : 1 ≤ (ub - lb) / count := by
      rw [Int.le_ediv_iff_mul_le (by omega)]
      omega
    obtain ⟨a, n, ⟨h1, h2, h3⟩, hn⟩ : ∃ a n,
        (⟨count, lb, ub - lb⟩ : Keyspace).OwnsFrom i a n ∧ 1 ≤ n := by
      rcases lt_or_eq_of_le (Int.le_sub_one_of_lt hi) with hi' | rfl
      · refine ⟨_, _, hblock i h0 hi', ?_⟩
        have hup := (ceilDiv_le_iff (c := count) (a := ub - lb) (by omega)).1 le_rfl
        have hpos : 0 < ceilDiv (ub - lb) count := by
          by_contra hle0
          have := mul_nonpos_of_nonneg_of_nonpos (by omega : 0 ≤ count) (not_lt.1 hle0)
          omega
        dsimp only
        rcases start_succ (c := count) (l := ub - lb) (by omega) i with h | h <;> omega
      · exact ⟨_, _, hlast, by dsimp only; omega⟩
    dsimp only at h1 h2 h3
    exact ⟨a, h1, by omega, (h3 a h1 (by omega)).2 ⟨le_rfl, by omega⟩⟩

theorem key_routing_balanced_three : ∃ a, (⟨3, 0, 10⟩ : Keyspace).OwnsFrom 2 a 4 :=
  (key_routing_balanced 0 3 0 10 _ rfl (by decide)).2.2.2.1

/-- With 32-bit `int`s, `to_id` returns a node for each key of a range of at least two keys, whose
length is an `int`, and whose place times the number of nodes is one. -/
theorem to_id_total (selfId count lb ub key : Int32) (s : Keyspace)
    (hs : construct wrap32 selfId.toInt count.toInt lb.toInt ub.toInt = .ok s)
    (h1 : lb.toInt ≤ key.toInt) (h2 : key.toInt ≤ ub.toInt) :
    (∃ i, s.toId int32 key.toInt = .ok i ∧ 0 ≤ i ∧ i < count.toInt) ↔
      lb.toInt < ub.toInt ∧ ub.toInt - lb.toInt < 2 ^ 31
        ∧ count.toInt * (key.toInt - lb.toInt) < 2 ^ 31 := by
  unfold construct at hs
  split_ifs at hs with hid
  obtain rfl := Except.ok.inj hs
  obtain ⟨hk1, hk2⟩ := isInt32_toInt key
  obtain ⟨hl1, hl2⟩ := isInt32_toInt lb
  obtain ⟨hu1, hu2⟩ := isInt32_toInt ub
  obtain ⟨hc1, hc2⟩ := isInt32_toInt count
  constructor
  · rintro ⟨i, hi, -⟩
    obtain ⟨-, offset, h3, h4, h5, scaled, h6, -⟩ := toId_ok.1 hi
    obtain ⟨-, rfl⟩ := int32_ok.1 h3
    obtain ⟨h7, rfl⟩ := int32_ok.1 h6
    dsimp only at h4 h5 h7
    -- a difference that wraps is negative, and no key's place is at most that
    have hlt : ub.toInt - lb.toInt < 2 ^ 31 := by
      by_contra hge
      unfold wrap32 at h4
      rw [← Int.sub_bmod_right, Int.bmod_eq_of_le] at h4 <;> omega
    rw [wrap32_of_isInt32 ⟨by omega, hlt⟩] at h5
    exact ⟨by omega, hlt, h7.2⟩
  · rintro ⟨h3, h4, h5⟩
    rw [wrap32_of_isInt32 ⟨by omega, h4⟩]
    have hint : ∀ x, 0 ≤ x → x ≤ count.toInt * (key.toInt - lb.toInt) ∨ x ≤ count.toInt →
        int32 x = .ok x := fun x h6 h7 => int32_ok.2 ⟨⟨by omega, by omega⟩, rfl⟩
    refine ⟨_, (toId_eq_owner (s := ⟨count.toInt, lb.toInt, ub.toInt - lb.toInt⟩)
      (by dsimp only; omega) h1 (by dsimp only; omega) (by dsimp only; omega) hint).2 rfl, ?_⟩
    exact owner_bounds (s := ⟨count.toInt, lb.toInt, ub.toInt - lb.toInt⟩) (by dsimp only; omega) h1
      (by dsimp only; omega)

theorem to_id_total_hundred :
    ∃ i, (⟨3, 0, 100⟩ : Keyspace).toId int32 (57 : Int32).toInt = .ok i ∧ 0 ≤ i ∧ i < 3 :=
  (to_id_total 0 3 0 100 57 _ rfl (by decide) (by decide)).2 (by decide)

/-- The last key of a thousand million, on three nodes, and the key of a range of one key. -/
theorem to_id_undefined :
    (∃ s, construct wrap32 0 3 0 1000000000 = .ok s
      ∧ s.toId int32 1000000000 = .error .overflow)
    ∧ ∃ s, construct wrap32 0 3 5 5 = .ok s ∧ s.toId int32 5 = .error .divByZero :=
  ⟨⟨_, rfl, by decide⟩, _, rfl, by decide⟩

end Main

end Rome
