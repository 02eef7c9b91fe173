import Mathlib

/-!
# Varints and delimited bytes

A varint has seven bits of a number in each byte, the lowest first, and the high bit set in each
byte but the last. A decoder takes what it needs from the front of a list of bytes; `none` is a list
that ends too soon, or a varint that is too long.
-/

namespace Wire

/-- The varint of `n`, of at most `k` bytes. -/
def encode : ℕ → ℕ → List UInt8
  | 0, _ => []
  | k + 1, n => if n < 128 then [.ofNat n] else .ofNat (n % 128 + 128) :: encode k (n / 128)

/-- The number of a varint of at most `k` bytes, and what follows it. -/
def decode : ℕ → List UInt8 → Option (ℕ × List UInt8)
  | 0, _ => none
  | _ + 1, [] => none
  | k + 1, b :: bs =>
    if b.toNat < 128 then some (b.toNat, bs)
    else (decode k bs).map fun x => (b.toNat - 128 + 128 * x.1, x.2)

/-- The first `n` bytes. -/
def bytes (n : ℕ) (bs : List UInt8) : Option (List UInt8 × List UInt8) :=
  if n ≤ bs.length then some (bs.take n, bs.drop n) else none

/-- Bytes after their number. -/
def encodeDelimited (k : ℕ) (s : List UInt8) : List UInt8 := encode k s.length ++ s

def decodeDelimited (k : ℕ) (bs : List UInt8) : Option (List UInt8 × List UInt8) :=
  (decode k bs).bind fun x => bytes x.1 x.2

/-- The varints that the bytes are, one after the other. -/
def decodeAll (k : ℕ) : ℕ → List UInt8 → Option (List ℕ)
  | _, [] => some []
  | 0, _ :: _ => none
  | fuel + 1, b :: bs =>
    (decode k (b :: bs)).bind fun x => (decodeAll k fuel x.2).map (x.1 :: ·)

theorem toNat_ofNat {n : ℕ} (h : n < 256) : (UInt8.ofNat n).toNat = n := by
  rw [UInt8.toNat_ofNat', Nat.mod_eq_of_lt h]

theorem decode_encode : ∀ {k n : ℕ}, n < 128 ^ (k + 1) → ∀ bs : List UInt8,
    decode (k + 1) (encode (k + 1) n ++ bs) = some (n, bs)
  | k, n, hn, bs => by
    rw [encode]
    split_ifs with h
    · simp [decode, toNat_ofNat (by omega : n < 256), h]
    · have hb := toNat_ofNat (by omega : n % 128 + 128 < 256)
      cases k with
      | zero => omega
      | succ k =>
        rw [List.cons_append, decode, hb, if_neg (by omega),
          decode_encode (by rw [pow_succ] at hn; omega), Option.map_some]
        congr 2
        omega

theorem decode_length : ∀ {k n : ℕ} {bs rest : List UInt8}, decode k bs = some (n, rest) →
    rest.length < bs.length
  | 0, _, _, _, h => by cases h
  | _ + 1, _, [], _, h => by cases h
  | k + 1, n, b :: bs, rest, h => by
    rw [decode] at h
    split_ifs at h
    · obtain ⟨-, rfl⟩ := Prod.mk.inj (Option.some.inj h)
      exact Nat.lt_succ_self _
    · obtain ⟨x, hx, h⟩ := Option.map_eq_some_iff.1 h
      obtain ⟨-, rfl⟩ := Prod.mk.inj h
      exact (decode_length hx).trans (Nat.lt_succ_self _)

theorem decode_lt : ∀ {k n : ℕ} {bs rest : List UInt8}, decode k bs = some (n, rest) →
    n < 128 ^ k
  | 0, _, _, _, h => by cases h
  | _ + 1, _, [], _, h => by cases h
  | k + 1, n, b :: bs, rest, h => by
    rw [decode] at h
    have hb := b.toNat_lt
    split_ifs at h
    · obtain ⟨rfl, -⟩ := Prod.mk.inj (Option.some.inj h)
      have := Nat.one_le_pow k 128 (by omega)
      rw [pow_succ]
      omega
    · obtain ⟨x, hx, h⟩ := Option.map_eq_some_iff.1 h
      obtain ⟨rfl, -⟩ := Prod.mk.inj h
      have := decode_lt hx
      rw [pow_succ]
      omega

theorem encode_length_pos {k n : ℕ} : 0 < (encode (k + 1) n).length := by
  rw [encode]
  split_ifs <;> simp

theorem bytes_append (s bs : List UInt8) : bytes s.length (s ++ bs) = some (s, bs) := by
  simp [bytes]

theorem bytes_length {n : ℕ} {bs s rest : List UInt8} (h : bytes n bs = some (s, rest)) :
    rest.length ≤ bs.length := by
  unfold bytes at h
  split_ifs at h
  obtain ⟨-, rfl⟩ := Prod.mk.inj (Option.some.inj h)
  simp

theorem bytes_length_le {n : ℕ} {bs s rest : List UInt8} (h : bytes n bs = some (s, rest)) :
    s.length = n := by
  unfold bytes at h
  split_ifs at h with hn
  obtain ⟨rfl, -⟩ := Prod.mk.inj (Option.some.inj h)
  simp [hn]

theorem decodeDelimited_encodeDelimited {k : ℕ} {s : List UInt8} (h : s.length < 128 ^ (k + 1))
    (bs : List UInt8) :
    decodeDelimited (k + 1) (encodeDelimited (k + 1) s ++ bs) = some (s, bs) := by
  rw [decodeDelimited, encodeDelimited, List.append_assoc, decode_encode h, Option.bind_some,
    bytes_append]

theorem decodeDelimited_length {k : ℕ} {bs s rest : List UInt8}
    (h : decodeDelimited k bs = some (s, rest)) : rest.length < bs.length := by
  obtain ⟨x, h1, h2⟩ := Option.bind_eq_some_iff.1 h
  exact (bytes_length h2).trans_lt (decode_length h1)

theorem decodeAll_encode {k : ℕ} : ∀ {ns : List ℕ} {fuel : ℕ}, (∀ n ∈ ns, n < 128 ^ (k + 1)) →
    ns.length ≤ fuel → decodeAll (k + 1) fuel (ns.flatMap (encode (k + 1))) = some ns
  | [], fuel, _, _ => by cases fuel <;> rfl
  | n :: ns, 0, _, h => by cases h
  | n :: ns, fuel + 1, hn, h => by
    have ih := decodeAll_encode (fun m hm => hn m (List.mem_cons_of_mem _ hm))
      (Nat.le_of_succ_le_succ h)
    have hpos := encode_length_pos (k := k) (n := n)
    have hdec := decode_encode (hn n List.mem_cons_self) (ns.flatMap (encode (k + 1)))
    rw [List.flatMap_cons]
    rcases he : encode (k + 1) n ++ ns.flatMap (encode (k + 1)) with _ | ⟨b, bs⟩
    · rw [List.append_eq_nil_iff] at he
      simp [he.1] at hpos
    · rw [he] at hdec
      rw [decodeAll, hdec, Option.bind_some, ih, Option.map_some]

end Wire
