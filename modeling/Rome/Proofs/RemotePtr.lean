import Rome.RemotePtr

/-!
# The fields of a remote pointer

The id and the address are the quotient and the remainder of the word by `2 ^ 48`. A step adds to
the whole word, whose carry out of the address the mask drops; an order of words is the order of
ids, and of addresses where the ids are equal.
-/

namespace Rome.RemotePtr

theorem kAddressBitmask_toNat : kAddressBitmask.toNat = 2 ^ 48 - 1 := rfl

theorem kIdBitmask_toNat : kIdBitmask.toNat = (2 ^ 16 - 1) <<< 48 := rfl

/-- The bits of the id. -/
theorem and_high (x : ℕ) (hx : x < 2 ^ 64) : x &&& (2 ^ 16 - 1) <<< 48 = (x / 2 ^ 48) <<< 48 := by
  have hmod : x / 2 ^ 48 % 2 ^ 16 = x / 2 ^ 48 := Nat.mod_eq_of_lt (by omega)
  rw [← hmod, ← Nat.and_two_pow_sub_one_eq_mod, ← Nat.shiftRight_eq_div_pow]
  refine Nat.eq_of_testBit_eq fun i => ?_
  simp only [Nat.testBit_and, Nat.testBit_shiftLeft, Nat.testBit_shiftRight]
  by_cases hi : 48 ≤ i
  · simp [hi]
  · simp [hi]

theorem address_toNat (p : RemotePtr) : p.address.toNat = p.raw.toNat % 2 ^ 48 := by
  rw [address, UInt64.toNat_and, kAddressBitmask_toNat, Nat.and_two_pow_sub_one_eq_mod]

theorem id_toNat (p : RemotePtr) : p.id.toNat = p.raw.toNat / 2 ^ 48 := by
  rw [id, UInt64.toNat_shiftRight, UInt64.toNat_and, kIdBitmask_toNat, and_high _ p.raw.toNat_lt]
  exact Nat.shiftLeft_shiftRight _ _

theorem raw_toNat (p : RemotePtr) : p.raw.toNat = p.id.toNat * 2 ^ 48 + p.address.toNat := by
  rw [id_toNat, address_toNat, Nat.div_add_mod']

theorem ext_iff_fields {p q : RemotePtr} : p = q ↔ p.id = q.id ∧ p.address = q.address := by
  refine ⟨fun h => ⟨congrArg id h, congrArg address h⟩, fun ⟨h1, h2⟩ => ?_⟩
  have h : p.raw.toNat = q.raw.toNat := by
    rw [raw_toNat p, raw_toNat q, h1, h2]
  exact congrArg mk (UInt64.toNat_inj.1 h)

/-- The word of an id and an address, made of the two by an or. -/
theorem or_toNat {x a : ℕ} (ha : a < 2 ^ 48) : x <<< 48 ||| a = x * 2 ^ 48 + a := by
  rw [← Nat.shiftLeft_add_eq_or_of_lt ha, Nat.shiftLeft_eq]

theorem of_raw_toNat (id : UInt16) (address : UInt64) :
    (of id address).raw.toNat = id.toNat * 2 ^ 48 + address.toNat % 2 ^ 48 := by
  have hid : (id.toUInt64 <<< kAddressBits).toNat = id.toNat <<< 48 := by
    have := id.toNat_lt
    rw [UInt64.toNat_shiftLeft, UInt16.toNat_toUInt64]
    refine Nat.mod_eq_of_lt ?_
    rw [Nat.shiftLeft_eq, show kAddressBits.toNat % 64 = 48 from rfl]
    omega
  rw [of, UInt64.toNat_or, hid, UInt64.toNat_and, kAddressBitmask_toNat,
    Nat.and_two_pow_sub_one_eq_mod, or_toNat (Nat.mod_lt _ (by decide))]

theorem addAssign_raw_toNat (p : RemotePtr) (sizeofT s : UInt64) :
    (p.addAssign sizeofT s).raw.toNat
      = p.id.toNat * 2 ^ 48 + (p.address.toNat + sizeofT.toNat * s.toNat) % 2 ^ 48 := by
  rw [addAssign, UInt64.toNat_or, UInt64.toNat_and, UInt64.toNat_and, kIdBitmask_toNat,
    kAddressBitmask_toNat, Nat.and_two_pow_sub_one_eq_mod, and_high _ p.raw.toNat_lt,
    or_toNat (Nat.mod_lt _ (by decide)), UInt64.toNat_add, UInt64.toNat_mul, id_toNat,
    address_toNat]
  -- the carry out of the word is a multiple of `2 ^ 48`
  omega

theorem id_addAssign (p : RemotePtr) (sizeofT s : UInt64) : (p.addAssign sizeofT s).id = p.id := by
  apply UInt64.toNat_inj.1
  rw [id_toNat, addAssign_raw_toNat]
  omega

theorem address_addAssign (p : RemotePtr) (sizeofT s : UInt64) :
    (p.addAssign sizeofT s).address.toNat
      = (p.address.toNat + sizeofT.toNat * s.toNat) % 2 ^ 48 := by
  rw [address_toNat, addAssign_raw_toNat]
  omega

/-- Two steps are one of their sum, which may wrap around. -/
theorem addAssign_addAssign (p : RemotePtr) (sizeofT a b : UInt64) :
    (p.addAssign sizeofT a).addAssign sizeofT b = p.addAssign sizeofT (a + b) := by
  refine ext_iff_fields.2 ⟨by simp only [id_addAssign], UInt64.toNat_inj.1 ?_⟩
  simp only [address_addAssign, UInt64.toNat_add]
  have hsum : sizeofT.toNat * ((a.toNat + b.toNat) % 2 ^ 64)
      ≡ sizeofT.toNat * (a.toNat + b.toNat) [MOD 2 ^ 48] :=
    ((Nat.mod_modEq _ _).of_dvd (pow_dvd_pow 2 (by decide))).mul_left _
  calc ((p.address.toNat + sizeofT.toNat * a.toNat) % 2 ^ 48 + sizeofT.toNat * b.toNat) % 2 ^ 48
      = (p.address.toNat + sizeofT.toNat * (a.toNat + b.toNat)) % 2 ^ 48 := by
        rw [Nat.mod_add_mod, Nat.mul_add, Nat.add_assoc]
    _ = (p.address.toNat + sizeofT.toNat * ((a.toNat + b.toNat) % 2 ^ 64)) % 2 ^ 48 :=
        (hsum.add_left _).symm

/-- The order of the words is that of the ids, then of the addresses. -/
theorem lessThan_iff (p q : RemotePtr) :
    p.lessThan q = true ↔ p.id < q.id ∨ p.id = q.id ∧ p.address < q.address := by
  have hp := p.address_toNat
  have hq := q.address_toNat
  rw [lessThan, decide_eq_true_iff, UInt64.lt_iff_toNat_lt, UInt64.lt_iff_toNat_lt,
    UInt64.lt_iff_toNat_lt, ← UInt64.toNat_inj, raw_toNat p, raw_toNat q]
  omega

/-- A pointer made of an id and a 48-bit address has these; a step leaves the id and adds to the
address modulo `2 ^ 48`, two steps make one, and pointers are in the lexicographic order. -/
theorem remote_ptr_arith (id : UInt16) (address : UInt64) (h : address.toNat < 2 ^ 48)
    (p q : RemotePtr) (sizeofT a b : UInt64) :
    ((of id address).id = id.toUInt64 ∧ (of id address).address = address)
      ∧ (p.addAssign sizeofT a).id = p.id
      ∧ (p.addAssign sizeofT a).address.toNat
        = (p.address.toNat + sizeofT.toNat * a.toNat) % 2 ^ 48
      ∧ (p.addAssign sizeofT a).addAssign sizeofT b = p.addAssign sizeofT (a + b)
      ∧ (p.lessThan q = true ↔ p.id < q.id ∨ p.id = q.id ∧ p.address < q.address) := by
  refine ⟨⟨UInt64.toNat_inj.1 ?_, UInt64.toNat_inj.1 ?_⟩, id_addAssign p sizeofT a,
    address_addAssign p sizeofT a, addAssign_addAssign p sizeofT a b, lessThan_iff p q⟩
  · rw [id_toNat, of_raw_toNat, UInt16.toNat_toUInt64]
    omega
  · rw [address_toNat, of_raw_toNat]
    omega

/-- A step past the last address of node 1 stays on node 1. -/
theorem remote_ptr_arith_last :
    (of 1 0xffffffffffc0).address = 0xffffffffffc0
      ∧ ((of 1 0xffffffffffc0).addAssign 64 1).id = 1
      ∧ ((of 1 0xffffffffffc0).addAssign 64 1).address.toNat = 0 := by
  obtain ⟨⟨-, h1⟩, h2, h3, -⟩ := remote_ptr_arith 1 0xffffffffffc0 (by decide)
    (of 1 0xffffffffffc0) .null 64 1 0
  exact ⟨h1, h2.trans (by decide), h3.trans (by decide)⟩

end Rome.RemotePtr
