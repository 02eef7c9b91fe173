import Rome.Message

/-!
# The loops of the generated parsers

Each time through its loop a parser reads a field and goes on with the bytes after it, so it has
bytes enough to count its turns with (`parseLoop_eq`). A repeated string is read in a loop of its
own while its tag comes again and the chunk of the input is not at its end; that has the same
outcome as one string each time through the outer loop (`parse_string`).
-/

namespace Rome.Message

variable {U M : Type*} {R : Runtime U}

/-- What holds of the `switch` of every parser: a field takes bytes, and whether a tag is a field's
depends on the tag alone. -/
structure Switch (field : UInt32 → Bytes → M → Field M) : Prop where
  shrinks : ∀ {t p m m' p'}, field t p m = .done m' p' → p'.length ≤ p.length
  unusual : ∀ {t p m}, field t p m = .unusual → ∀ p' m', field t p' m' = .unusual

/-- The unknown field has a tag that no field of the message has, and is read as it is written. -/
def Keeps (R : Runtime U) (field : UInt32 → Bytes → M → Field M) (u : U) : Prop :=
  ∃ t, (∀ p m, field t p m = .unusual) ∧ ¬ (t &&& 7 = 4 ∨ t = 0) ∧ ∀ r, ∃ p,
    R.readTag (R.writeUnknown u ++ r) = some (t, p) ∧ R.unknownFieldParse t p = some (u, r)

section Strings

variable {tag : UInt8} {add : Bytes → M → M} {m m' : M} {p q : Bytes}

theorem stringsLoop_congr (hL : R.Lawful) : ∀ (fuel fuel' : ℕ) (m : M) (p : Bytes),
    p.length ≤ fuel → p.length ≤ fuel' →
    stringsLoop R tag add fuel m p = stringsLoop R tag add fuel' m p
  | 0, 0, _, _, _, _ => rfl
  | 0, fuel' + 1, m, p, h, _ => by
    obtain rfl := List.eq_nil_of_length_eq_zero (Nat.le_zero.1 h)
    rcases hr : R.readString [] with _ | ⟨s, q⟩
    · simp [stringsLoop, hr]
    · exact absurd (hL.readString_lt _ _ _ hr) (Nat.not_lt_zero _)
  | fuel + 1, 0, m, p, _, h => by
    obtain rfl := List.eq_nil_of_length_eq_zero (Nat.le_zero.1 h)
    rcases hr : R.readString [] with _ | ⟨s, q⟩
    · simp [stringsLoop, hr]
    · exact absurd (hL.readString_lt _ _ _ hr) (Nat.not_lt_zero _)
  | fuel + 1, fuel' + 1, m, p, h, h' => by
    simp only [stringsLoop]
    rcases hr : R.readString p with _ | ⟨s, q⟩
    · rfl
    have hlt := hL.readString_lt _ _ _ hr
    cases q with
    | nil => rfl
    | cons b q =>
      simp only [List.length_cons] at hlt
      have := stringsLoop_congr hL fuel fuel' (add s m) q (by omega) (by omega)
      simp only [this]

theorem stringsLoop_shrinks (hL : R.Lawful) : ∀ {fuel : ℕ} {m m' : M} {p q : Bytes},
    stringsLoop R tag add fuel m p = some (m', q) → q.length < p.length
  | 0, _, _, _, _, h => by cases h
  | fuel + 1, m, m', p, q, h => by
    simp only [stringsLoop] at h
    split at h
    · cases h
    rename_i s q' hr
    have hlt := hL.readString_lt _ _ _ hr
    split_ifs at h
    · split at h
      · obtain ⟨-, rfl⟩ := Prod.mk.inj (Option.some.inj h)
        exact hlt
      · split_ifs at h
        · have := stringsLoop_shrinks hL h
          simp only [List.length_cons] at hlt
          omega
        · obtain ⟨-, rfl⟩ := Prod.mk.inj (Option.some.inj h)
          exact hlt
    · obtain ⟨-, rfl⟩ := Prod.mk.inj (Option.some.inj h)
      exact hlt

/-- What adding a string that is UTF-8 keeps, the loop keeps. -/
theorem stringsLoop_inv {I : M → Prop} : ∀ {fuel : ℕ} {m m' : M} {p q : Bytes},
    stringsLoop R tag add fuel m p = some (m', q) → I m →
      (∀ s m, R.verifyUTF8 s = true → I m → I (add s m)) → I m'
  | 0, _, _, _, _, h, _, _ => by cases h
  | fuel + 1, m, m', p, q, h, hI, hadd => by
    simp only [stringsLoop] at h
    split at h
    · cases h
    split_ifs at h with hs
    · have hnext := hadd _ m hs hI
      split at h
      · obtain ⟨rfl, -⟩ := Prod.mk.inj (Option.some.inj h)
        exact hnext
      · split_ifs at h
        · exact stringsLoop_inv h hnext hadd
        · obtain ⟨rfl, -⟩ := Prod.mk.inj (Option.some.inj h)
          exact hnext
    · obtain ⟨rfl, -⟩ := Prod.mk.inj (Option.some.inj h)
      exact hadd _ m hs hI

end Strings

theorem Field.read_done {α : Type*} {r : Option (α × Bytes)} {f : α → M} {m : M} {q : Bytes} :
    Field.read r f = .done m q ↔ ∃ x, r = some (x, q) ∧ m = f x := by
  rcases r with _ | ⟨x, p⟩
  · simp [Field.read]
  · simp only [Field.read, Field.done.injEq, Option.some.injEq, Prod.mk.injEq]
    constructor
    · rintro ⟨rfl, rfl⟩
      exact ⟨x, ⟨rfl, rfl⟩, rfl⟩
    · rintro ⟨y, ⟨rfl, rfl⟩, rfl⟩
      exact ⟨rfl, rfl⟩

@[simp] theorem Field.read_ne_unusual {α : Type*} {r : Option (α × Bytes)} {f : α → M} :
    Field.read r f ≠ .unusual := by
  rcases r with _ | ⟨x, p⟩ <;> simp [Field.read]

section Loop

variable {field : UInt32 → Bytes → M → Field M} {addUnknown : U → M → M} {m m' : M}
  {b p q : Bytes} {t : UInt32} {u : U}

theorem parseLoop_congr (hL : R.Lawful) (hS : Switch field) :
    ∀ (fuel fuel' : ℕ) (m : M) (b : Bytes), b.length ≤ fuel → b.length ≤ fuel' →
    parseLoop R field addUnknown fuel m b = parseLoop R field addUnknown fuel' m b
  | fuel, fuel', m, [], _, _ => by cases fuel <;> cases fuel' <;> rfl
  | 0, _, _, _ :: _, h, _ => by cases h
  | _, 0, _, _ :: _, _, h => by cases h
  | fuel + 1, fuel' + 1, m, x :: b, h, h' => by
    simp only [List.length_cons] at h h'
    simp only [parseLoop]
    rcases ht : R.readTag (x :: b) with _ | ⟨t, p⟩
    · rfl
    have hp := hL.readTag_lt _ _ _ ht
    simp only [List.length_cons] at hp
    simp only []
    rcases hf : field t p m with ⟨m', q⟩ | _ | _ <;> simp only []
    · have hq := hS.shrinks hf
      exact parseLoop_congr hL hS fuel fuel' m' q (by omega) (by omega)
    · rcases hu : R.unknownFieldParse t p with _ | ⟨u, q⟩
      · rfl
      have hq := hL.unknownFieldParse_le _ _ _ _ hu
      have := parseLoop_congr hL hS fuel fuel' (addUnknown u m) q (by omega) (by omega)
      simp only [this]

/-- The turns a parser counts are enough. -/
theorem parseLoop_eq (hL : R.Lawful) (hS : Switch field) {fuel : ℕ} (h : b.length ≤ fuel) :
    parseLoop R field addUnknown fuel m b = parse R field addUnknown m b :=
  parseLoop_congr hL hS _ _ _ _ h le_rfl

/-- One turn of the loop. -/
theorem parse_eq (hL : R.Lawful) (hS : Switch field) (ht : R.readTag b = some (t, p)) :
    parse R field addUnknown m b =
      match field t p m with
      | .done m q => parse R field addUnknown m q
      | .fail => none
      | .unusual =>
        if t &&& 7 = 4 ∨ t = 0 then some (m, some t)
        else
          match R.unknownFieldParse t p with
          | none => none
          | some (u, q) => parse R field addUnknown (addUnknown u m) q := by
  have hp := hL.readTag_lt _ _ _ ht
  cases b with
  | nil => exact absurd hp (Nat.not_lt_zero _)
  | cons x b =>
    simp only [List.length_cons] at hp
    simp only [parse, List.length_cons, parseLoop, ht]
    rcases hf : field t p m with ⟨m', q⟩ | _ | _
    · exact parseLoop_eq hL hS (by have := hS.shrinks hf; omega)
    · rfl
    · rcases hu : R.unknownFieldParse t p with _ | ⟨u, q⟩
      · rfl
      · simp only [parseLoop_eq hL hS (by
          have := hL.unknownFieldParse_le _ _ _ _ hu
          omega : q.length ≤ b.length)]
        rfl

theorem parse_done (hL : R.Lawful) (hS : Switch field) (ht : R.readTag b = some (t, p))
    (hf : field t p m = .done m' q) :
    parse R field addUnknown m b = parse R field addUnknown m' q := by
  rw [parse_eq hL hS ht, hf]

/-- The bytes of one field that has a value to write. -/
theorem parse_field (hL : R.Lawful) (hS : Switch field) {w : Bytes} {tag : UInt8}
    (ht : tag.toNat < 128)
    (hw : ∃ p, w = tag :: p ∧ ∀ r, field tag.toUInt32 (p ++ r) m = .done m' r) (r : Bytes) :
    parse R field addUnknown m (w ++ r) = parse R field addUnknown m' r := by
  obtain ⟨p, rfl, hf⟩ := hw
  exact parse_done hL hS (hL.readTag_byte tag (p ++ r) ht) (hf r)

/-- The bytes of one field, if it has a value to write. -/
theorem parse_optional {c : Prop} [Decidable c] {w r : Bytes}
    (h : c → parse R field addUnknown m (w ++ r) = parse R field addUnknown m' r) :
    parse R field addUnknown m ((if c then w else []) ++ r)
      = parse R field addUnknown (if c then m' else m) r := by
  split_ifs with hc
  · exact h hc
  · rfl

/-- A number that is written if it is not zero. -/
theorem parse_uint32 (hL : R.Lawful) (hS : Switch field) {n : ℕ} (hn : n < 16)
    {g : UInt32 → M → M} (hf : ∀ p m, field (UInt8.ofNat (8 * n)).toUInt32 p m
      = .read (R.readVarint32 p) fun v => g v m) (v : UInt32) (m : M) (r : Bytes) :
    parse R field addUnknown m ((if v ≠ 0 then R.writeUInt32 n v else []) ++ r)
      = parse R field addUnknown (if v ≠ 0 then g v m else m) r := by
  obtain ⟨p, hw, hp⟩ := hL.writeUInt32 n v hn
  refine parse_optional fun _ => parse_field hL hS (by simp; omega) ⟨p, hw, fun r => ?_⟩ r
  rw [hf, hp]
  rfl

/-- A flag that is written if it is set. -/
theorem parse_bool (hL : R.Lawful) (hS : Switch field) {n : ℕ} (hn : n < 16)
    {g : Bool → M → M} (hf : ∀ p m, field (UInt8.ofNat (8 * n)).toUInt32 p m
      = .read (R.readVarint64 p) fun v => g (v ≠ 0) m) (v : Bool) (m : M) (r : Bytes) :
    parse R field addUnknown m ((if v then R.writeBool n v else []) ++ r)
      = parse R field addUnknown (if v then g v m else m) r := by
  obtain ⟨p, hw, hp⟩ := hL.writeBool n v hn
  refine parse_optional fun hv => parse_field hL hS (by simp; omega) ⟨p, hw, fun r => ?_⟩ r
  rw [hf, hp, hv]
  rfl

theorem toInt32_toInt64 (v : Int32) : v.toInt64.toUInt64.toUInt32.toInt32 = v := by
  apply Int32.toBitVec_inj.1
  change (v.toBitVec.signExtend 64).setWidth 32 = v.toBitVec
  ext i hi
  rw [BitVec.getElem_setWidth, BitVec.getLsbD_signExtend]
  simp [hi, show i < 64 by omega]

/-- An enumeration that is written if it is not zero, extended to 64 bits. -/
theorem parse_enum (hL : R.Lawful) (hS : Switch field) {n : ℕ} (hn : n < 16)
    {g : Int32 → M → M} (hf : ∀ p m, field (UInt8.ofNat (8 * n)).toUInt32 p m
      = .read (R.readVarint64 p) fun v => g v.toUInt32.toInt32 m) (v : Int32) (m : M) (r : Bytes) :
    parse R field addUnknown m ((if v ≠ 0 then R.writeEnum n v else []) ++ r)
      = parse R field addUnknown (if v ≠ 0 then g v m else m) r := by
  obtain ⟨p, hw, hp⟩ := hL.writeEnum n v hn
  refine parse_optional fun _ => parse_field hL hS (by simp; omega) ⟨p, hw, fun r => ?_⟩ r
  rw [hf, hp]
  simp only [Field.read, toInt32_toInt64]

/-- Numbers that are written packed, if there are any. -/
theorem parse_packed (hL : R.Lawful) (hS : Switch field) {n : ℕ} (hn : n < 16)
    {g : List UInt32 → M → M} (h0 : ∀ m, g [] m = m)
    (hf : ∀ p m, field (UInt8.ofNat (8 * n + 2)).toUInt32 p m
      = .read (R.readPacked p) fun vs => g vs m) {vs : List UInt32}
    (hvs : R.uint32Sizes vs ≤ maxSize) (m : M) (r : Bytes) :
    parse R field addUnknown m ((if 0 < (R.uint32Sizes vs : ℤ) then
        R.writeUInt32Packed n vs (R.uint32Sizes vs) else []) ++ r)
      = parse R field addUnknown (g vs m) r := by
  obtain ⟨p, hw, hp⟩ := hL.writeUInt32Packed n vs hn hvs
  have hg : (if 0 < (R.uint32Sizes vs : ℤ) then g vs m else m) = g vs m := by
    split_ifs with hpos
    · rfl
    · have : vs = [] := by
        by_contra hne
        exact hpos (by exact_mod_cast (hL.uint32Sizes_pos vs).2 hne)
      rw [this, h0]
  rw [← hg]
  refine parse_optional fun _ => parse_field hL hS (by simp; omega) ⟨p, hw, fun r => ?_⟩ r
  rw [hf, hp]
  rfl

/-- A string of a repeated field, wherever the chunks of the input end. -/
theorem parse_string (hL : R.Lawful) (hS : Switch field) {tag : UInt8} {add : Bytes → M → M}
    (ht : tag.toNat < 128) (hf : ∀ p m, field tag.toUInt32 p m = readStrings R tag add p m)
    {s : Bytes} (hr : R.readString p = some (s, q)) :
    parse R field addUnknown m (tag :: p)
      = if R.verifyUTF8 s then parse R field addUnknown (add s m) q else none := by
  have hq := hL.readString_lt _ _ _ hr
  have hloop : stringsLoop R tag add p.length m p = stringsLoop R tag add (p.length + 1) m p :=
    stringsLoop_congr hL _ _ _ _ le_rfl (Nat.le_succ _)
  rw [parse_eq hL hS (hL.readTag_byte tag p ht), hf, readStrings, hloop]
  simp only [stringsLoop, hr]
  by_cases hs : R.verifyUTF8 s = true
  swap
  · simp only [hs, Bool.false_eq_true, if_false]
    rfl
  simp only [hs, if_true]
  by_cases ha : R.dataAvailable q = true
  swap
  · simp only [ha, Bool.false_eq_true, if_false]
    rfl
  simp only [ha, if_true]
  cases q with
  | nil =>
    rw [hL.dataAvailable_nil] at ha
    cases ha
  | cons x q =>
    simp only [List.length_cons] at hq
    by_cases hx : x = tag
    · subst hx
      -- the string that follows is read in the same loop, or in the next turn of the outer one
      rw [parse_eq hL hS (hL.readTag_byte x q ht), hf, readStrings,
        stringsLoop_congr hL q.length p.length _ _ le_rfl (by omega)]
      simp only [if_true]
      rcases stringsLoop R x add p.length (add s m) q with _ | y <;> rfl
    · simp only [hx, if_false]
      rfl

/-- The strings of a repeated field. -/
theorem parse_strings (hL : R.Lawful) (hS : Switch field) {x : UInt8} {g : Bytes → M → M}
    {w : Bytes → Bytes} (ht : x.toNat < 128)
    (hf : ∀ p m, field x.toUInt32 p m = readStrings R x g p m) :
    ∀ {ss : List Bytes}, (∀ s ∈ ss, ∃ p, w s = x :: p ∧ ∀ r, R.readString (p ++ r) = some (s, r)) →
      ∀ (m : M) (r : Bytes), parse R field addUnknown m (ss.flatMap w ++ r)
        = if ss.all R.verifyUTF8 then
            parse R field addUnknown (ss.foldl (fun m s => g s m) m) r
          else none
  | [], _, m, r => by simp
  | s :: ss, h, m, r => by
    obtain ⟨p, hw, hr⟩ := h s List.mem_cons_self
    have ih := parse_strings hL hS ht hf (fun s' hs' => h s' (List.mem_cons_of_mem _ hs')) (g s m) r
    rw [List.flatMap_cons, hw, List.cons_append, List.cons_append, List.append_assoc,
      parse_string hL hS ht hf (hr _), ih, List.all_cons, List.foldl_cons]
    by_cases hs : R.verifyUTF8 s = true <;> simp [hs]

/-- The unknown fields. -/
theorem parse_unknowns (hL : R.Lawful) (hS : Switch field) : ∀ {us : List U},
    (∀ u ∈ us, Keeps R field u) → ∀ (m : M) (r : Bytes),
      parse R field addUnknown m (us.flatMap R.writeUnknown ++ r)
        = parse R field addUnknown (us.foldl (fun m u => addUnknown u m) m) r
  | [], _, m, r => rfl
  | u :: us, h, m, r => by
    obtain ⟨t, hun, hend, hread⟩ := h u List.mem_cons_self
    obtain ⟨p, ht, hp⟩ := hread (us.flatMap R.writeUnknown ++ r)
    rw [List.flatMap_cons, List.append_assoc, parse_eq hL hS ht, hun, List.foldl_cons,
      ← parse_unknowns hL hS (fun u' hu' => h u' (List.mem_cons_of_mem _ hu')) (addUnknown u m) r]
    simp only [if_neg hend, hp]

/-- What each field and each unknown field keeps, a parse keeps. -/
theorem parseLoop_inv {I : M → Prop}
    (hfield : ∀ t p m m' q, field t p m = .done m' q → I m → I m')
    (hunknown : ∀ t p u q m, field t p m = .unusual → ¬ (t &&& 7 = 4 ∨ t = 0) →
      R.unknownFieldParse t p = some (u, q) → I m → I (addUnknown u m)) :
    ∀ {fuel : ℕ} {m m' : M} {b : Bytes} {last : Option UInt32},
      parseLoop R field addUnknown fuel m b = some (m', last) → I m → I m'
  | fuel, m, m', [], last, h, hI => by
    cases fuel <;> obtain ⟨rfl, -⟩ := Prod.mk.inj (Option.some.inj h) <;> exact hI
  | 0, _, _, _ :: _, _, h, _ => by cases h
  | fuel + 1, m, m', x :: b, last, h, hI => by
    simp only [parseLoop] at h
    split at h
    · cases h
    split at h
    · rename_i hf
      exact parseLoop_inv hfield hunknown h (hfield _ _ _ _ _ hf hI)
    · cases h
    · rename_i hf
      split_ifs at h with hend
      · obtain ⟨rfl, -⟩ := Prod.mk.inj (Option.some.inj h)
        exact hI
      · split at h
        · cases h
        · rename_i hu
          exact parseLoop_inv hfield hunknown h (hunknown _ _ _ _ _ hf hend hu hI)

theorem parse_inv {I : M → Prop} {last : Option UInt32}
    (h : parse R field addUnknown m b = some (m', last)) (hI : I m)
    (hfield : ∀ t p m m' q, field t p m = .done m' q → I m → I m')
    (hunknown : ∀ t p u q m, field t p m = .unusual → ¬ (t &&& 7 = 4 ∨ t = 0) →
      R.unknownFieldParse t p = some (u, q) → I m → I (addUnknown u m)) : I m' :=
  parseLoop_inv hfield hunknown h hI

end Loop

/-! ## The wire format is lawful -/

theorem maxSize_lt : maxSize < 128 ^ (4 + 1) := by decide

theorem encode_packed (vs : List UInt32) :
    (vs.flatMap fun v => Wire.encode 10 v.toNat)
      = (vs.map UInt32.toNat).flatMap (Wire.encode 10) := by
  rw [List.flatMap_map]

theorem uint32_lt (v : UInt32) : v.toNat < 128 ^ (9 + 1) :=
  v.toNat_lt.trans (by decide)

theorem uint64_lt (v : UInt64) : v.toNat < 128 ^ (9 + 1) :=
  v.toNat_lt.trans (by decide)

theorem length_le_packed : ∀ vs : List UInt32,
    vs.length ≤ (vs.map fun v => (Wire.encode 10 v.toNat).length).sum
  | [] => le_rfl
  | v :: vs => by
    have := length_le_packed vs
    have hpos : 0 < (Wire.encode 10 v.toNat).length := Wire.encode_length_pos
    rw [List.map_cons, List.sum_cons, List.length_cons]
    omega

/-- What reads an unknown field reads it where it is written. -/
theorem Unknown.parse_write {tag : UInt32} {b r : Bytes} {u : Unknown}
    (h : Unknown.parse tag b = some (u, r)) (r' : Bytes) :
    ∃ p, u.write ++ r' = Wire.encode 5 tag.toNat ++ p ∧ Unknown.parse tag p = some (u, r') := by
  unfold Unknown.parse at h
  split at h
  · rename_i ht
    obtain ⟨x, -, hx⟩ := Option.map_eq_some_iff.1 h
    obtain ⟨rfl, -⟩ := Prod.mk.inj hx
    refine ⟨_, List.append_assoc _ _ _, ?_⟩
    rw [Unknown.parse]
    simp only [ht, Wire.decode_encode (uint64_lt _), Option.map_some, UInt64.ofNat_toNat]
  · rename_i ht
    obtain ⟨x, h8, hx⟩ := Option.map_eq_some_iff.1 h
    obtain ⟨rfl, -⟩ := Prod.mk.inj hx
    refine ⟨_, List.append_assoc _ _ _, ?_⟩
    have := Wire.bytes_append x.1 r'
    rw [Wire.bytes_length_le h8] at this
    rw [Unknown.parse]
    simp only [ht, this, Option.map_some]
  · rename_i ht
    obtain ⟨x, hd, hx⟩ := Option.map_eq_some_iff.1 h
    obtain ⟨rfl, -⟩ := Prod.mk.inj hx
    refine ⟨_, List.append_assoc _ _ _, ?_⟩
    obtain ⟨y, hy, hb⟩ := Option.bind_eq_some_iff.1 hd
    have hlt : x.1.length < 128 ^ (4 + 1) := by
      rw [Wire.bytes_length_le hb]
      exact Wire.decode_lt hy
    rw [Unknown.parse]
    simp only [ht, Wire.decodeDelimited_encodeDelimited hlt, Option.map_some]
  · rename_i ht
    obtain ⟨x, h4, hx⟩ := Option.map_eq_some_iff.1 h
    obtain ⟨rfl, -⟩ := Prod.mk.inj hx
    refine ⟨_, List.append_assoc _ _ _, ?_⟩
    have := Wire.bytes_append x.1 r'
    rw [Wire.bytes_length_le h4] at this
    rw [Unknown.parse]
    simp only [ht, this, Option.map_some]
  · cases h

theorem Unknown.parse_length {tag : UInt32} {b r : Bytes} {u : Unknown}
    (h : Unknown.parse tag b = some (u, r)) : r.length ≤ b.length := by
  unfold Unknown.parse at h
  split at h
  · obtain ⟨x, h1, hx⟩ := Option.map_eq_some_iff.1 h
    obtain ⟨-, rfl⟩ := Prod.mk.inj hx
    exact (Wire.decode_length h1).le
  · obtain ⟨x, h1, hx⟩ := Option.map_eq_some_iff.1 h
    obtain ⟨-, rfl⟩ := Prod.mk.inj hx
    exact Wire.bytes_length h1
  · obtain ⟨x, h1, hx⟩ := Option.map_eq_some_iff.1 h
    obtain ⟨-, rfl⟩ := Prod.mk.inj hx
    exact (Wire.decodeDelimited_length h1).le
  · obtain ⟨x, h1, hx⟩ := Option.map_eq_some_iff.1 h
    obtain ⟨-, rfl⟩ := Prod.mk.inj hx
    exact Wire.bytes_length h1
  · cases h

theorem length_packed_eq (vs : List UInt32) :
    (vs.flatMap fun v => Wire.encode 10 v.toNat).length = wire.uint32Sizes vs :=
  List.length_flatMap

theorem map_length {α : Type*} {k : ℕ} {f : ℕ → α} {b r : Bytes} {x : α}
    (h : ((Wire.decode k b).map fun y => (f y.1, y.2)) = some (x, r)) : r.length < b.length := by
  obtain ⟨y, h1, hy⟩ := Option.map_eq_some_iff.1 h
  obtain ⟨-, rfl⟩ := Prod.mk.inj hy
  exact Wire.decode_length h1

theorem wire_lawful : wire.Lawful where
  readTag_lt _ _ _ := map_length
  readVarint32_lt _ _ _ := map_length
  readVarint64_lt _ _ _ := map_length
  readString_lt _ _ _ := Wire.decodeDelimited_length
  readPacked_lt b x r h := by
    obtain ⟨y, h1, h2⟩ := Option.bind_eq_some_iff.1 h
    obtain ⟨ns, -, h3⟩ := Option.map_eq_some_iff.1 h2
    obtain ⟨-, rfl⟩ := Prod.mk.inj h3
    exact Wire.decodeDelimited_length h1
  readMessage_lt _ _ _ := Wire.decodeDelimited_length
  unknownFieldParse_le _ _ _ _ := Unknown.parse_length
  dataAvailable_nil := rfl
  readTag_byte t r h := by
    simp only [wire, Wire.decode, if_pos h, Option.map_some, UInt32.ofNat_uInt8ToNat]
  writeUInt32 n v _ := ⟨_, rfl, fun r => by
    simp only [wire, Wire.decode_encode (uint32_lt v), Option.map_some, UInt32.ofNat_toNat]⟩
  writeBool n v _ := ⟨_, rfl, fun r => by
    have hv : (if v then 1 else 0) < 128 ^ (9 + 1) := by cases v <;> decide
    simp only [wire, Wire.decode_encode hv, Option.map_some]
    cases v <;> rfl⟩
  writeEnum n v _ := ⟨_, rfl, fun r => by
    simp only [wire, Wire.decode_encode (uint64_lt _), Option.map_some, UInt64.ofNat_toNat]⟩
  writeString n s _ hs := ⟨_, rfl, fun r =>
    Wire.decodeDelimited_encodeDelimited (hs.trans_lt maxSize_lt) r⟩
  writeUInt32Packed n vs _ hs := by
    refine ⟨_, rfl, fun r => ?_⟩
    have hlen := length_packed_eq vs
    have hd := Wire.decodeDelimited_encodeDelimited (k := 4)
      (s := vs.flatMap fun v => Wire.encode 10 v.toNat) (by rw [hlen]; exact hs.trans_lt maxSize_lt)
      r
    have hall : Wire.decodeAll (9 + 1) (wire.uint32Sizes vs)
        (vs.flatMap fun v => Wire.encode 10 v.toNat) = some (vs.map UInt32.toNat) := by
      rw [encode_packed]
      refine Wire.decodeAll_encode (fun n hn => ?_) ?_
      · obtain ⟨v, -, rfl⟩ := List.mem_map.1 hn
        exact uint32_lt v
      · rw [List.length_map]
        exact length_le_packed vs
    rw [Wire.encodeDelimited, hlen] at hd
    simp only [wire, Int.toNat_natCast]
    simp only [wire] at hd hlen hall
    rw [hd, Option.bind_some, hlen, hall, Option.map_some, List.map_map]
    have hid : vs.map (UInt32.ofNat ∘ UInt32.toNat) = vs :=
      (List.map_congr_left fun v _ => UInt32.ofNat_toNat).trans (List.map_id vs)
    rw [hid]
  internalWriteMessage n b _ hb := ⟨_, rfl, fun r =>
    Wire.decodeDelimited_encodeDelimited (hb.trans_lt maxSize_lt) r⟩
  unknownFieldParse t b u r h r' := by
    obtain ⟨p, h1, h2⟩ := Unknown.parse_write h r'
    refine ⟨p, ?_, h2⟩
    simp only [wire]
    rw [h1, Wire.decode_encode (t.toNat_lt.trans (by decide)), Option.map_some,
      UInt32.ofNat_toNat]
  uint32Size n v _ := Nat.add_comm _ _
  boolSize n v _ := by cases v <;> rfl
  enumSize n v _ := Nat.add_comm _ _
  stringSize n s _ _ := Nat.add_comm _ _
  length_le_stringSize s := by simp [wire, Wire.encodeDelimited]
  packedSize n vs _ _ := by
    have := length_packed_eq vs
    simp only [wire, List.length_cons, List.length_append, Int.toNat_natCast] at this ⊢
    omega
  uint32Sizes_pos vs := by
    have h := length_le_packed vs
    constructor
    · rintro h0 rfl
      exact absurd h0 (lt_irrefl 0)
    · intro hne
      exact (List.length_pos_iff.2 hne).trans_le h
  messageSize n b _ _ := by
    simp only [wire, List.length_cons, List.length_append, Int.toNat_natCast]
    omega
  length_le_lengthDelimitedSize n := Nat.le_add_left _ _
  unknownSize u := rfl

end Rome.Message
