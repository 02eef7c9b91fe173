import Rome.Proofs.Protobuf

/-!
# The messages come back as they were sent

What a message serializes to has the size `ByteSizeLong` gives, and is parsed as a merge of the
message into the one that is parsed into, whatever follows it, if its strings are UTF-8; otherwise
the parse fails. What a parse accepts has only strings that are UTF-8, and serializes to bytes that
are parsed as the same message.
-/

namespace Rome.Message

variable {U M : Type*} {R : Runtime U}

section Read

variable {α : Type*} {r : Option (α × Bytes)} {f : α → M} {m : M} {p q : Bytes}

theorem Field.read_shrinks (hlt : ∀ x q, r = some (x, q) → q.length < p.length)
    (h : Field.read r f = .done m q) : q.length ≤ p.length := by
  obtain ⟨x, hx, -⟩ := Field.read_done.1 h
  exact (hlt x q hx).le

theorem readStrings_shrinks (hL : R.Lawful) {tag : UInt8} {add : Bytes → M → M} {m' : M}
    (h : readStrings R tag add p m = .done m' q) : q.length ≤ p.length := by
  obtain ⟨x, hx, -⟩ := Field.read_done.1 h
  exact (stringsLoop_shrinks hL hx).le

@[simp] theorem readStrings_ne_unusual {tag : UInt8} {add : Bytes → M → M} :
    readStrings R tag add p m ≠ .unusual := Field.read_ne_unusual

end Read

/-- `ToCachedSize` of a size an `int` holds. -/
theorem toCachedSize_eq {n : ℕ} (h : n ≤ maxSize) : toCachedSize n = n := by
  unfold maxSize at h
  unfold toCachedSize
  refine Int.bmod_eq_of_le ?_ ?_
  · omega
  · omega

section Sizes

variable {ss : List Bytes} {us : List U} {n : ℕ}

theorem length_le_of_sum (hL : R.Lawful) {N : ℕ} (h : (ss.map R.stringSize).sum ≤ N) :
    ∀ s ∈ ss, s.length ≤ N := fun s hs =>
  (hL.length_le_stringSize s).trans ((List.single_le_sum (fun _ _ => Nat.zero_le _) _
    (List.mem_map_of_mem hs)).trans h)

theorem length_strings (hL : R.Lawful) (hn : n < 16) (hs : ∀ s ∈ ss, s.length ≤ maxSize) :
    (ss.flatMap (R.writeString n)).length = 1 * ss.length + (ss.map R.stringSize).sum := by
  induction ss with
  | nil => rfl
  | cons s ss ih =>
    rw [List.flatMap_cons, List.length_append, ih fun s' h => hs s' (List.mem_cons_of_mem _ h),
      hL.stringSize n s hn (hs s List.mem_cons_self), List.map_cons, List.sum_cons,
      List.length_cons]
    omega

theorem length_unknowns (hL : R.Lawful) :
    (us.flatMap R.writeUnknown).length = (us.map R.unknownSize).sum := by
  simp only [List.length_flatMap, hL.unknownSize]

theorem length_optional {c : Prop} [Decidable c] {w : Bytes} {k : ℕ} (h : w.length = k) :
    (if c then w else []).length = if c then k else 0 := by
  split_ifs
  · exact h
  · rfl

end Sizes

theorem foldl_append {α : Type*} {g : List α → M → M} (hg : ∀ x y m, g y (g x m) = g (x ++ y) m)
    (h0 : ∀ m, g [] m = m) : ∀ (l : List α) (m : M), l.foldl (fun m x => g [x] m) m = g l m
  | [], m => (h0 m).symm
  | x :: l, m => by rw [List.foldl_cons, foldl_append hg h0 l, hg, List.singleton_append]

theorem all_append_singleton {α : Type*} {g : α → Bool} {l : List α} {x : α} (h : l.all g = true)
    (hx : g x = true) : (l ++ [x]).all g = true := by
  rw [List.all_append, h, List.all_cons, hx]
  rfl

/-- An unknown field that is read is kept. -/
theorem keeps_of_parse (hL : R.Lawful) {field : UInt32 → Bytes → M → Field M} (hS : Switch field)
    {t : UInt32} {p q : Bytes} {u : U} {m : M} (hf : field t p m = .unusual)
    (ht : ¬ (t &&& 7 = 4 ∨ t = 0)) (hu : R.unknownFieldParse t p = some (u, q)) :
    Keeps R field u :=
  ⟨t, fun p' m' => hS.unusual hf p' m', ht, hL.unknownFieldParse _ _ _ _ hu⟩

/-! ## Command -/

namespace Command

/-- The strings are UTF-8. -/
def validStrings (R : Runtime U) (m : Command U) : Bool := m.commands.all R.verifyUTF8

/-- The unknown fields are none of the message's own. -/
def Sound (R : Runtime U) (m : Command U) : Prop := ∀ u ∈ m.unknown, Keeps R (field R) u

theorem switch (hL : R.Lawful) : Switch (field R) where
  shrinks h := by
    unfold field at h
    split at h
    · split_ifs at h
      exact Field.read_shrinks (hL.readVarint32_lt _) h
    · split_ifs at h
      exact Field.read_shrinks (hL.readVarint32_lt _) h
    · split_ifs at h
      exact Field.read_shrinks (hL.readVarint32_lt _) h
    · split_ifs at h
      exact readStrings_shrinks hL h
    · cases h
  unusual h p' m' := by
    unfold field at h ⊢
    split at h
    all_goals first | rfl | split_ifs at h ⊢ <;> simp_all

/-- The cached size is not written. -/
theorem internalSerialize_cachedSize (m : Command U) (n : ℤ) :
    internalSerialize R { m with cachedSize := n } = m.internalSerialize R := rfl

theorem serializeAsString_eq (m : Command U) :
    m.serializeAsString R = m.internalSerialize R :=
  internalSerialize_cachedSize m _

theorem strings_le (hL : R.Lawful) {m : Command U} (h : (m.byteSizeLong R).1 ≤ maxSize) :
    ∀ s ∈ m.commands, s.length ≤ maxSize :=
  length_le_of_sum hL (by
    simp only [byteSizeLong] at h
    omega)

theorem length_serialize (hL : R.Lawful) {m : Command U} (h : (m.byteSizeLong R).1 ≤ maxSize) :
    (m.serializeAsString R).length = (m.byteSizeLong R).1 := by
  rw [serializeAsString_eq]
  simp only [internalSerialize, byteSizeLong, List.length_append,
    length_optional (hL.uint32Size 1 m.cliId (by decide)),
    length_optional (hL.uint32Size 2 m.cliSeq (by decide)),
    length_optional (hL.uint32Size 3 m.svrSeq (by decide)),
    length_strings hL (n := 4) (by decide) (strings_le hL h), length_unknowns hL]
  omega

/-- What a message is serialized to is parsed as a merge, whatever follows it. -/
theorem parse_serialize (hL : R.Lawful) {m : Command U} (h : (m.byteSizeLong R).1 ≤ maxSize)
    (hu : m.Sound R) (m₀ : Command U) (r : Bytes) :
    m₀.internalParse R (m.serializeAsString R ++ r)
      = if m.validStrings R then (m₀.mergeFrom m).internalParse R r else none := by
  have hS := switch hL
  rw [serializeAsString_eq]
  simp only [internalParse, internalSerialize, List.append_assoc]
  rw [parse_uint32 hL hS (by decide) (g := setCliId) fun _ _ => rfl,
    parse_uint32 hL hS (by decide) (g := setCliSeq) fun _ _ => rfl,
    parse_uint32 hL hS (by decide) (g := setSvrSeq) fun _ _ => rfl,
    parse_strings hL hS (x := 34) (by decide) (fun _ _ => rfl) fun s hm =>
      hL.writeString 4 s (by decide) (strings_le hL h s hm)]
  refine if_congr Iff.rfl ?_ rfl
  rw [parse_unknowns hL hS hu,
    foldl_append (g := addCommands) (by simp [addCommands]) (by simp [addCommands]),
    foldl_append (g := addUnknowns) (by simp [addUnknowns]) (by simp [addUnknowns])]
  congr 1
  unfold mergeFrom
  simp only []
  split_ifs <;> rfl

/-- What a parse that starts with a message of the cached size `c` comes to. -/
structure Parsed (R : Runtime U) (c : ℤ) (m : Command U) : Prop where
  strings : m.validStrings R = true
  sound : m.Sound R
  cached : m.cachedSize = c

theorem parsed_of_parse (hL : R.Lawful) {c : ℤ} {m₀ m : Command U} {b : Bytes}
    {last : Option UInt32} (h : m₀.internalParse R b = some (m, last)) (h₀ : Parsed R c m₀) :
    Parsed R c m := by
  refine parse_inv h h₀ (fun t p m m' q hf H => ?_)
    (fun t p u q m hf ht hu H => ⟨H.strings, fun u' hu' => ?_, H.cached⟩)
  · unfold field at hf
    split at hf
    · split_ifs at hf
      obtain ⟨v, -, rfl⟩ := Field.read_done.1 hf
      exact ⟨H.strings, H.sound, H.cached⟩
    · split_ifs at hf
      obtain ⟨v, -, rfl⟩ := Field.read_done.1 hf
      exact ⟨H.strings, H.sound, H.cached⟩
    · split_ifs at hf
      obtain ⟨v, -, rfl⟩ := Field.read_done.1 hf
      exact ⟨H.strings, H.sound, H.cached⟩
    · split_ifs at hf
      obtain ⟨x, hx, rfl⟩ := Field.read_done.1 hf
      refine stringsLoop_inv hx H fun s m hs H => ⟨?_, H.sound, H.cached⟩
      exact all_append_singleton H.strings hs
    · cases hf
  · rcases List.mem_append.1 hu' with hu' | hu'
    · exact H.sound u' hu'
    · rw [List.mem_singleton.1 hu']
      exact keeps_of_parse hL (switch hL) hf ht hu

/-- A merge into a cleared message, which keeps the size it has cached. -/
theorem clear_mergeFrom (m₁ m : Command U) :
    m₁.clear.mergeFrom m = { m with cachedSize := m₁.cachedSize } := by
  obtain ⟨cliId, cliSeq, svrSeq, commands, unknown, cachedSize⟩ := m
  simp only [mergeFrom, clear, addUnknowns, addCommands, setCliId, setCliSeq, setSvrSeq]
  split_ifs <;> simp_all

end Command

/-! ## ConsensusObj -/

namespace ConsensusObj

/-- The strings are UTF-8. -/
def validStrings (R : Runtime U) (m : ConsensusObj U) : Bool := m.commands.all R.verifyUTF8

/-- The unknown fields are none of the message's own. -/
def Sound (R : Runtime U) (m : ConsensusObj U) : Prop := ∀ u ∈ m.unknown, Keeps R (field R) u

theorem switch (hL : R.Lawful) : Switch (field R) where
  shrinks h := by
    unfold field at h
    split at h
    · split_ifs at h
      exact Field.read_shrinks (hL.readVarint32_lt _) h
    · split_ifs at h
      exact Field.read_shrinks (hL.readVarint32_lt _) h
    · split_ifs at h
      exact Field.read_shrinks (hL.readVarint32_lt _) h
    · split_ifs at h
      exact Field.read_shrinks (hL.readVarint64_lt _) h
    · split_ifs at h
      · exact Field.read_shrinks (hL.readPacked_lt _) h
      · exact Field.read_shrinks (hL.readVarint32_lt _) h
    · split_ifs at h
      · exact Field.read_shrinks (hL.readPacked_lt _) h
      · exact Field.read_shrinks (hL.readVarint32_lt _) h
    · split_ifs at h
      exact readStrings_shrinks hL h
    · cases h
  unusual h p' m' := by
    unfold field at h ⊢
    split at h
    all_goals first | rfl | split_ifs at h ⊢ <;> simp_all

/-- What `ByteSizeLong` leaves in a message that is not too large. -/
theorem byteSizeLong_snd {m : ConsensusObj U} (h : (m.byteSizeLong R).1 ≤ maxSize) :
    R.uint32Sizes m.cliIds ≤ maxSize ∧ R.uint32Sizes m.cliSeqs ≤ maxSize
      ∧ (m.byteSizeLong R).2 = { m with
        cliIdsCachedByteSize := R.uint32Sizes m.cliIds
        cliSeqsCachedByteSize := R.uint32Sizes m.cliSeqs
        cachedSize := (m.byteSizeLong R).1 } := by
  have h1 : R.uint32Sizes m.cliIds ≤ maxSize := by
    simp only [byteSizeLong, packedSize] at h
    omega
  have h2 : R.uint32Sizes m.cliSeqs ≤ maxSize := by
    simp only [byteSizeLong, packedSize] at h
    omega
  refine ⟨h1, h2, ?_⟩
  have h3 := toCachedSize_eq h
  rw [← toCachedSize_eq h1, ← toCachedSize_eq h2, ← h3]
  rfl

theorem strings_le (hL : R.Lawful) {m : ConsensusObj U} (h : (m.byteSizeLong R).1 ≤ maxSize) :
    ∀ s ∈ m.commands, s.length ≤ maxSize :=
  length_le_of_sum hL (by
    simp only [byteSizeLong] at h
    omega)

theorem length_packed (hL : R.Lawful) {n : ℕ} (hn : n < 16) {vs : List UInt32}
    (h : R.uint32Sizes vs ≤ maxSize) :
    (if 0 < (R.uint32Sizes vs : ℤ) then R.writeUInt32Packed n vs (R.uint32Sizes vs) else []).length
      = packedSize R vs := by
  rw [length_optional (hL.packedSize n vs hn h), packedSize, toCachedSize_eq h]
  simp only [Nat.cast_pos]
  split_ifs <;> omega

theorem length_serialize (hL : R.Lawful) {m : ConsensusObj U}
    (h : (m.byteSizeLong R).1 ≤ maxSize) :
    (m.serializeAsString R).length = (m.byteSizeLong R).1 := by
  obtain ⟨h1, h2, h3⟩ := byteSizeLong_snd h
  rw [serializeAsString, h3]
  simp only [internalSerialize, List.length_append,
    length_optional (hL.uint32Size 1 m.proId (by decide)),
    length_optional (hL.uint32Size 2 m.proSeq (by decide)),
    length_optional (hL.uint32Size 3 m.svrSeq (by decide)),
    length_optional (hL.boolSize 4 m.isNull (by decide)),
    length_packed hL (n := 5) (by decide) h1, length_packed hL (n := 6) (by decide) h2,
    length_strings hL (n := 7) (by decide) (strings_le hL h), length_unknowns hL, byteSizeLong]
  omega

/-- What a message is serialized to is parsed as a merge, whatever follows it. -/
theorem parse_serialize (hL : R.Lawful) {m : ConsensusObj U} (h : (m.byteSizeLong R).1 ≤ maxSize)
    (hu : m.Sound R) (m₀ : ConsensusObj U) (r : Bytes) :
    m₀.internalParse R (m.serializeAsString R ++ r)
      = if m.validStrings R then (m₀.mergeFrom m).internalParse R r else none := by
  have hS := switch hL
  obtain ⟨h1, h2, h3⟩ := byteSizeLong_snd h
  rw [serializeAsString, h3]
  simp only [internalParse, internalSerialize, List.append_assoc]
  rw [parse_uint32 hL hS (by decide) (g := setProId) fun _ _ => rfl,
    parse_uint32 hL hS (by decide) (g := setProSeq) fun _ _ => rfl,
    parse_uint32 hL hS (by decide) (g := setSvrSeq) fun _ _ => rfl,
    parse_bool hL hS (by decide) (g := setIsNull) fun _ _ => rfl,
    parse_packed hL hS (by decide) (g := addCliIds) (by simp [addCliIds]) (fun _ _ => rfl) h1,
    parse_packed hL hS (by decide) (g := addCliSeqs) (by simp [addCliSeqs]) (fun _ _ => rfl) h2,
    parse_strings hL hS (x := 58) (by decide) (fun _ _ => rfl) fun s hm =>
      hL.writeString 7 s (by decide) (strings_le hL h s hm)]
  refine if_congr Iff.rfl ?_ rfl
  rw [parse_unknowns hL hS hu,
    foldl_append (g := addCommands) (by simp [addCommands]) (by simp [addCommands]),
    foldl_append (g := addUnknowns) (by simp [addUnknowns]) (by simp [addUnknowns])]
  congr 1
  unfold mergeFrom
  simp only []
  split_ifs <;> rfl

/-- What a parse that starts with a new message comes to. -/
structure Parsed (R : Runtime U) (m : ConsensusObj U) : Prop where
  strings : m.validStrings R = true
  sound : m.Sound R
  cliIds : m.cliIdsCachedByteSize = 0
  cliSeqs : m.cliSeqsCachedByteSize = 0
  cached : m.cachedSize = 0

theorem parsed_of_parse (hL : R.Lawful) {m₀ m : ConsensusObj U} {b : Bytes}
    {last : Option UInt32} (h : m₀.internalParse R b = some (m, last)) (h₀ : Parsed R m₀) :
    Parsed R m := by
  refine parse_inv h h₀ (fun t p m m' q hf H => ?_)
    (fun t p u q m hf ht hu H => ⟨H.strings, fun u' hu' => ?_, H.cliIds, H.cliSeqs, H.cached⟩)
  · have hkeep : ∀ {α : Type} {r : Option (α × Bytes)} {g : α → ConsensusObj U},
        Field.read r g = .done m' q → (∀ x, Parsed R (g x)) → Parsed R m' := fun hr hg => by
      obtain ⟨x, -, rfl⟩ := Field.read_done.1 hr
      exact hg x
    have hsame : ∀ m'' : ConsensusObj U, m''.commands = m.commands → m''.unknown = m.unknown →
        m''.cliIdsCachedByteSize = m.cliIdsCachedByteSize →
        m''.cliSeqsCachedByteSize = m.cliSeqsCachedByteSize → m''.cachedSize = m.cachedSize →
        Parsed R m'' := fun m'' h1 h2 h3 h4 h5 =>
      ⟨by rw [validStrings, h1]; exact H.strings, by rw [Sound, h2]; exact H.sound,
        h3.trans H.cliIds, h4.trans H.cliSeqs, h5.trans H.cached⟩
    unfold field at hf
    split at hf
    · split_ifs at hf
      exact hkeep hf fun x => hsame _ rfl rfl rfl rfl rfl
    · split_ifs at hf
      exact hkeep hf fun x => hsame _ rfl rfl rfl rfl rfl
    · split_ifs at hf
      exact hkeep hf fun x => hsame _ rfl rfl rfl rfl rfl
    · split_ifs at hf
      exact hkeep hf fun x => hsame _ rfl rfl rfl rfl rfl
    · split_ifs at hf <;> exact hkeep hf fun x => hsame _ rfl rfl rfl rfl rfl
    · split_ifs at hf <;> exact hkeep hf fun x => hsame _ rfl rfl rfl rfl rfl
    · split_ifs at hf
      obtain ⟨x, hx, rfl⟩ := Field.read_done.1 hf
      refine stringsLoop_inv hx H fun s m hs H => ⟨?_, H.sound, H.cliIds, H.cliSeqs, H.cached⟩
      exact all_append_singleton H.strings hs
    · cases hf
  · rcases List.mem_append.1 hu' with hu' | hu'
    · exact H.sound u' hu'
    · rw [List.mem_singleton.1 hu']
      exact keeps_of_parse hL (switch hL) hf ht hu

/-- A merge into a new message. -/
theorem new_mergeFrom {m : ConsensusObj U} (h : Parsed R m) :
    ({} : ConsensusObj U).mergeFrom m = m := by
  obtain ⟨-, -, h1, h2, h3⟩ := h
  obtain ⟨proId, proSeq, svrSeq, isNull, cliIds, cliSeqs, commands, unknown, c₁, c₂, c₃⟩ := m
  simp only [] at h1 h2 h3
  simp only [mergeFrom, addUnknowns, addCommands, addCliIds, addCliSeqs, setProId, setProSeq,
    setSvrSeq, setIsNull]
  split_ifs <;> simp_all

end ConsensusObj

/-! ## Msg -/

namespace Msg

/-- The strings are UTF-8. -/
def validStrings (R : Runtime U) (m : Msg U) : Bool := m.obj.all (ConsensusObj.validStrings R)

/-- The unknown fields are none of the message's own. -/
def Sound (R : Runtime U) (m : Msg U) : Prop :=
  (∀ u ∈ m.unknown, Keeps R (field R) u) ∧ ∀ o ∈ m.obj, o.Sound R

theorem switch (hL : R.Lawful) : Switch (field R) where
  shrinks h := by
    unfold field at h
    split at h
    · split_ifs at h
      exact Field.read_shrinks (hL.readVarint64_lt _) h
    · split_ifs at h
      exact Field.read_shrinks (hL.readVarint32_lt _) h
    · split_ifs at h
      exact Field.read_shrinks (hL.readVarint32_lt _) h
    · split_ifs at h
      split at h
      · cases h
      · rename_i b q hr
        split at h
        · obtain ⟨-, rfl⟩ := Field.done.inj h
          exact (hL.readMessage_lt _ _ _ hr).le
        · cases h
    · cases h
  unusual h p' m' := by
    unfold field at h ⊢
    split at h
    · split_ifs at h ⊢ <;> simp_all
    · split_ifs at h ⊢ <;> simp_all
    · split_ifs at h ⊢ <;> simp_all
    · split_ifs at h ⊢
      · split at h
        · cases h
        · split at h <;> cases h
      · simp_all
    · simp_all

/-- What is written of `obj`, its size computed first. -/
def writeObj (R : Runtime U) : Option (ConsensusObj U) → Bytes
  | some o => R.internalWriteMessage 4 (toCachedSize (o.byteSizeLong R).1) (o.serializeAsString R)
  | none => []

theorem serializeAsString_eq (m : Msg U) : m.serializeAsString R =
    (if m.type ≠ 0 then R.writeEnum 1 m.type else [])
      ++ (if m.phase ≠ 0 then R.writeUInt32 2 m.phase else [])
      ++ (if m.value ≠ 0 then R.writeUInt32 3 m.value else [])
      ++ writeObj R m.obj ++ m.unknown.flatMap R.writeUnknown := by
  obtain ⟨type, phase, value, obj, unknown, cachedSize⟩ := m
  cases obj <;> rfl

/-- A message that is not too large has an `obj` that is not. -/
theorem obj_le (hL : R.Lawful) {m : Msg U} (h : (m.byteSizeLong R).1 ≤ maxSize) {o : ConsensusObj U}
    (ho : m.obj = some o) : (o.byteSizeLong R).1 ≤ maxSize := by
  have := hL.length_le_lengthDelimitedSize (o.byteSizeLong R).1
  simp only [byteSizeLong, ho, Option.map_some] at h
  omega

theorem length_serialize (hL : R.Lawful) {m : Msg U} (h : (m.byteSizeLong R).1 ≤ maxSize) :
    (m.serializeAsString R).length = (m.byteSizeLong R).1 := by
  rw [serializeAsString_eq]
  cases ho : m.obj with
  | none =>
    simp only [List.length_append, length_optional (hL.enumSize 1 m.type (by decide)),
      length_optional (hL.uint32Size 2 m.phase (by decide)),
      length_optional (hL.uint32Size 3 m.value (by decide)), length_unknowns hL, byteSizeLong, ho,
      Option.map_none, writeObj, List.length_nil]
    omega
  | some o =>
    have hsize := obj_le hL h ho
    have hlen := ConsensusObj.length_serialize hL hsize
    have hobj : (writeObj R (some o)).length = 1 + R.lengthDelimitedSize (o.byteSizeLong R).1 := by
      rw [writeObj, toCachedSize_eq hsize, ← hlen, hL.messageSize 4 _ (by decide) (by omega)]
    simp only [List.length_append, length_optional (hL.enumSize 1 m.type (by decide)),
      length_optional (hL.uint32Size 2 m.phase (by decide)),
      length_optional (hL.uint32Size 3 m.value (by decide)), length_unknowns hL, byteSizeLong, ho,
      Option.map_some, hobj]
    omega

/-- `obj` is parsed as a merge into the one that is there, or a new one. -/
theorem parse_obj (hL : R.Lawful) {o : ConsensusObj U} (h : (o.byteSizeLong R).1 ≤ maxSize)
    (ho : o.Sound R) (m : Msg U) (r : Bytes) :
    parse R (field R) (fun u m => m.addUnknowns [u]) m (writeObj R (some o) ++ r)
      = if o.validStrings R then
          parse R (field R) (fun u m => m.addUnknowns [u]) (m.setObj (m.mutableObj.mergeFrom o)) r
        else none := by
  have hlen := ConsensusObj.length_serialize hL h
  obtain ⟨p, hw, hp⟩ := hL.internalWriteMessage 4 (o.serializeAsString R) (by decide) (by omega)
  have hparse := ConsensusObj.parse_serialize hL h ho m.mutableObj []
  rw [List.append_nil] at hparse
  have hfield : field R (UInt8.ofNat (8 * 4 + 2)).toUInt32 (p ++ r) m
      = if o.validStrings R then .done (m.setObj (m.mutableObj.mergeFrom o)) r else .fail := by
    have htag : ((UInt8.ofNat (8 * 4 + 2)).toUInt32 >>> 3).toNat = 4 := rfl
    have hbyte : (UInt8.ofNat (8 * 4 + 2)).toUInt32.toUInt8 = 34 := rfl
    simp only [field, htag, hbyte, if_true, hp, hparse]
    split_ifs <;> rfl
  rw [writeObj, toCachedSize_eq h, ← hlen, hw, List.cons_append,
    parse_eq hL (switch hL) (hL.readTag_byte _ _ (by decide)), hfield]
  split_ifs <;> rfl

/-- What a message is serialized to is parsed as a merge, whatever follows it. -/
theorem parse_serialize (hL : R.Lawful) {m : Msg U} (h : (m.byteSizeLong R).1 ≤ maxSize)
    (hu : m.Sound R) (m₀ : Msg U) (r : Bytes) :
    m₀.internalParse R (m.serializeAsString R ++ r)
      = if m.validStrings R then (m₀.mergeFrom m).internalParse R r else none := by
  have hS := switch hL
  rw [serializeAsString_eq]
  simp only [internalParse, List.append_assoc]
  rw [parse_enum hL hS (by decide) (g := setType) fun _ _ => rfl,
    parse_uint32 hL hS (by decide) (g := setPhase) fun _ _ => rfl,
    parse_uint32 hL hS (by decide) (g := setValue) fun _ _ => rfl]
  have hun : ∀ m' : Msg U, parse R (field R) (fun u m => m.addUnknowns [u]) m'
      (m.unknown.flatMap R.writeUnknown ++ r)
        = parse R (field R) (fun u m => m.addUnknowns [u]) (m'.addUnknowns m.unknown) r := by
    intro m'
    rw [parse_unknowns hL hS hu.1,
      foldl_append (g := addUnknowns) (by simp [addUnknowns]) (by simp [addUnknowns])]
  cases ho : m.obj with
  | none =>
    rw [writeObj, List.nil_append, hun, validStrings, ho, Option.all_none, if_pos rfl]
    congr 1
    unfold mergeFrom
    simp only [ho]
    split_ifs <;> rfl
  | some o =>
    rw [parse_obj hL (obj_le hL h ho) (hu.2 o ho), hun, validStrings, ho, Option.all_some]
    refine if_congr Iff.rfl ?_ rfl
    congr 1
    unfold mergeFrom
    simp only [ho]
    split_ifs <;> rfl

/-- What a parse that starts with a message of the cached size `c` comes to. -/
structure Parsed (R : Runtime U) (c : ℤ) (m : Msg U) : Prop where
  unknowns : ∀ u ∈ m.unknown, Keeps R (field R) u
  obj : ∀ o ∈ m.obj, ConsensusObj.Parsed R o
  cached : m.cachedSize = c

theorem Parsed.mutableObj {c : ℤ} {m : Msg U} (H : Parsed R c m) :
    ConsensusObj.Parsed R m.mutableObj := by
  rcases ho : m.obj with _ | o
  · rw [Msg.mutableObj, ho]
    exact ⟨rfl, by simp [ConsensusObj.Sound], rfl, rfl, rfl⟩
  · rw [Msg.mutableObj, ho]
    exact H.obj o ho

theorem parsed_of_parse (hL : R.Lawful) {c : ℤ} {m₀ m : Msg U} {b : Bytes}
    {last : Option UInt32} (h : m₀.internalParse R b = some (m, last)) (h₀ : Parsed R c m₀) :
    Parsed R c m := by
  refine parse_inv h h₀ (fun t p m m' q hf H => ?_)
    (fun t p u q m hf ht hu H => ⟨fun u' hu' => ?_, H.obj, H.cached⟩)
  · unfold field at hf
    split at hf
    · split_ifs at hf
      obtain ⟨v, -, rfl⟩ := Field.read_done.1 hf
      exact ⟨H.unknowns, H.obj, H.cached⟩
    · split_ifs at hf
      obtain ⟨v, -, rfl⟩ := Field.read_done.1 hf
      exact ⟨H.unknowns, H.obj, H.cached⟩
    · split_ifs at hf
      obtain ⟨v, -, rfl⟩ := Field.read_done.1 hf
      exact ⟨H.unknowns, H.obj, H.cached⟩
    · split_ifs at hf
      split at hf
      · cases hf
      · split at hf
        · rename_i o ho
          obtain ⟨rfl, -⟩ := Field.done.inj hf
          refine ⟨H.unknowns, fun o' ho' => ?_, H.cached⟩
          obtain rfl := Option.some.inj ho'
          exact ConsensusObj.parsed_of_parse hL ho H.mutableObj
        · cases hf
    · cases hf
  · rcases List.mem_append.1 hu' with hu' | hu'
    · exact H.unknowns u' hu'
    · rw [List.mem_singleton.1 hu']
      exact keeps_of_parse hL (switch hL) hf ht hu

theorem Parsed.validStrings {c : ℤ} {m : Msg U} (H : Parsed R c m) : m.validStrings R = true := by
  cases ho : m.obj with
  | none => simp [Msg.validStrings, ho]
  | some o =>
    rw [Msg.validStrings, ho, Option.all_some]
    exact (H.obj o ho).strings

theorem Parsed.sound {c : ℤ} {m : Msg U} (H : Parsed R c m) : m.Sound R :=
  ⟨H.unknowns, fun o ho => (H.obj o ho).sound⟩

/-- A merge into a cleared message, which keeps the size it has cached. -/
theorem clear_mergeFrom {c : ℤ} {m : Msg U} (h : Parsed R c m) (m₁ : Msg U) :
    m₁.clear.mergeFrom m = { m with cachedSize := m₁.cachedSize } := by
  obtain ⟨-, h1, -⟩ := h
  obtain ⟨type, phase, value, obj, unknown, cachedSize⟩ := m
  simp only [] at h1
  cases obj with
  | none =>
    simp only [mergeFrom, clear, addUnknowns, setType, setPhase, setValue]
    split_ifs <;> simp_all
  | some o =>
    have ho : ({} : ConsensusObj U).mergeFrom o = o := ConsensusObj.new_mergeFrom (h1 o rfl)
    simp only [mergeFrom, clear, addUnknowns, setType, setPhase, setValue, setObj,
      Msg.mutableObj, Option.getD_none, ho]
    split_ifs <;> simp_all

end Msg

/-! ## Results -/

theorem atLimit_eq_some {r : Option (M × Option UInt32)} {m : M} :
    atLimit r = some m ↔ r = some (m, none) := by
  rcases r with _ | ⟨m', _ | t⟩ <;> simp [atLimit]

/-- A proposal of two commands, with a field 9 that no message has. -/
def proposal : Msg Unknown where
  type := 1
  phase := 300
  obj := some { proId := 7, isNull := true, cliIds := [1, 300], commands := [[104, 105], []] }
  unknown := [.varint 72 5]

theorem proposal_sound : proposal.Sound wire :=
  ⟨fun u hu => by
    obtain rfl := List.mem_singleton.1 hu
    exact keeps_of_parse wire_lawful (Msg.switch wire_lawful) (p := [5]) (q := []) (m := {})
      (t := 72) rfl (by decide) rfl,
    fun o ho u hu => by
      obtain rfl := Option.some.inj ho
      cases hu⟩

/-- `ByteSizeLong` is exact, whatever sizes a message has cached: what it serializes to then has
that many bytes, those of `obj` and of its packed fields included. -/
theorem message_sizes (hL : R.Lawful) :
    (∀ m : Command U, (m.byteSizeLong R).1 ≤ maxSize →
        (m.serializeAsString R).length = (m.byteSizeLong R).1)
      ∧ (∀ m : ConsensusObj U, (m.byteSizeLong R).1 ≤ maxSize →
        (m.serializeAsString R).length = (m.byteSizeLong R).1)
      ∧ ∀ m : Msg U, (m.byteSizeLong R).1 ≤ maxSize →
        (m.serializeAsString R).length = (m.byteSizeLong R).1 :=
  ⟨fun _ => Command.length_serialize hL, fun _ => ConsensusObj.length_serialize hL,
    fun _ => Msg.length_serialize hL⟩

theorem message_sizes_proposal :
    (proposal.serializeAsString wire).length = (proposal.byteSizeLong wire).1
      ∧ (proposal.byteSizeLong wire).1 = 24 :=
  ⟨(message_sizes wire_lawful).2.2 _ (by decide +kernel), by decide +kernel⟩

/-- Any number of messages one after the other are parsed as their merge into the message that is
parsed into, `obj` into `obj`, if their strings are UTF-8, and otherwise not at all. -/
theorem messages_merge (hL : R.Lawful) :
    (∀ (ms : List (Command U)) (m₀ : Command U),
        (∀ m ∈ ms, (m.byteSizeLong R).1 ≤ maxSize ∧ m.Sound R) →
        atLimit (m₀.internalParse R (ms.flatMap (Command.serializeAsString R)))
          = if ms.all (Command.validStrings R) then some (ms.foldl Command.mergeFrom m₀) else none)
      ∧ ∀ (ms : List (Msg U)) (m₀ : Msg U),
        (∀ m ∈ ms, (m.byteSizeLong R).1 ≤ maxSize ∧ m.Sound R) →
        atLimit (m₀.internalParse R (ms.flatMap (Msg.serializeAsString R)))
          = if ms.all (Msg.validStrings R) then some (ms.foldl Msg.mergeFrom m₀) else none := by
  constructor
  · intro ms
    induction ms with
    | nil => exact fun _ _ => rfl
    | cons m ms ih =>
      intro m₀ h
      obtain ⟨h1, h2⟩ := h m List.mem_cons_self
      rw [List.flatMap_cons, Command.parse_serialize hL h1 h2, List.all_cons, List.foldl_cons]
      by_cases hs : m.validStrings R = true
      · simp only [hs, if_true, Bool.true_and]
        exact ih _ fun m' hm' => h m' (List.mem_cons_of_mem _ hm')
      · simp only [hs, Bool.false_and, Bool.false_eq_true, if_false]
        rfl
  · intro ms
    induction ms with
    | nil => exact fun _ _ => rfl
    | cons m ms ih =>
      intro m₀ h
      obtain ⟨h1, h2⟩ := h m List.mem_cons_self
      rw [List.flatMap_cons, Msg.parse_serialize hL h1 h2, List.all_cons, List.foldl_cons]
      by_cases hs : m.validStrings R = true
      · simp only [hs, if_true, Bool.true_and]
        exact ih _ fun m' hm' => h m' (List.mem_cons_of_mem _ hm')
      · simp only [hs, Bool.false_and, Bool.false_eq_true, if_false]
        rfl

theorem messages_merge_proposal :
    atLimit (({} : Msg Unknown).internalParse wire
      ([proposal, { value := 2, obj := some { cliIds := [6] } }].flatMap
        (Msg.serializeAsString wire)))
      = some { proposal with
        value := 2
        obj := some
          { proId := 7, isNull := true, cliIds := [1, 300, 6], commands := [[104, 105], []] } } :=
  ((messages_merge wire_lawful).2 [proposal, { value := 2, obj := some { cliIds := [6] } }] {} (by
    intro m hm
    rcases List.mem_cons.1 hm with rfl | hm
    · exact ⟨by decide +kernel, proposal_sound⟩
    · obtain rfl := List.mem_singleton.1 hm
      exact ⟨by decide +kernel, by simp, fun o ho u hu => by
        obtain rfl := Option.some.inj ho
        cases hu⟩)).trans (if_pos (by decide))

/-- Whatever bytes a message is parsed from, with fields in any order, repeated, unknown or not
packed: its strings are UTF-8, and what it serializes to is parsed, into any message, as the same
message. A message keeps the size it has cached when it is parsed into. -/
theorem parsed_serialize (hL : R.Lawful) :
    (∀ (m₀ m : Command U) (b : Bytes), m₀.parseFromString R b = some m →
        m.validStrings R = true ∧ m.cachedSize = m₀.cachedSize ∧ ((m.byteSizeLong R).1 ≤ maxSize →
          ∀ m₁ : Command U, m₁.parseFromString R (m.serializeAsString R)
            = some { m with cachedSize := m₁.cachedSize }))
      ∧ ∀ (m₀ m : Msg U) (b : Bytes), m₀.parseFromString R b = some m →
        m.validStrings R = true ∧ m.cachedSize = m₀.cachedSize ∧ ((m.byteSizeLong R).1 ≤ maxSize →
          ∀ m₁ : Msg U, m₁.parseFromString R (m.serializeAsString R)
            = some { m with cachedSize := m₁.cachedSize }) := by
  refine ⟨fun m₀ m b h => ?_, fun m₀ m b h => ?_⟩
  · have H := Command.parsed_of_parse hL (c := m₀.cachedSize) (atLimit_eq_some.1 h)
      ⟨rfl, by simp [Command.Sound, Command.clear], rfl⟩
    refine ⟨H.strings, H.cached, fun hsize m₁ => ?_⟩
    have := Command.parse_serialize hL hsize H.sound m₁.clear []
    rw [List.append_nil, H.strings, if_pos rfl, Command.clear_mergeFrom] at this
    exact atLimit_eq_some.2 this
  · have H := Msg.parsed_of_parse hL (c := m₀.cachedSize) (atLimit_eq_some.1 h)
      ⟨by simp [Msg.clear], by simp [Msg.clear], rfl⟩
    refine ⟨H.validStrings, H.cached, fun hsize m₁ => ?_⟩
    have := Msg.parse_serialize hL hsize H.sound m₁.clear []
    rw [List.append_nil, H.validStrings, if_pos rfl, Msg.clear_mergeFrom H] at this
    exact atLimit_eq_some.2 this

theorem parsed_serialize_unpacked :
    Msg.parseFromString wire {}
        (Msg.serializeAsString wire
          { phase := 2, obj := some { cliIds := [6, 8], commands := [[104]] } })
      = some { phase := 2, obj := some { cliIds := [6, 8], commands := [[104]] } } :=
  ((parsed_serialize wire_lawful).2 proposal
    { phase := 2, obj := some { cliIds := [6, 8], commands := [[104]] } }
    [34, 7, 40, 6, 40, 8, 58, 1, 104, 16, 9, 16, 2] rfl).2.2 (by decide +kernel) {}

end Rome.Message
