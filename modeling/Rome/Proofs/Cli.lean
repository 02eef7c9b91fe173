import Rome.Cli

/-!
# A command line is read as its settings

A setting is a flag, with the word after it unless the argument is a bool. The words that the loop
goes through are those of the settings it has read, and none of them changes what the loop makes of
the words after it, since it only changes values. What `parse_args` leaves for an argument is then
what the last of its settings gives.
-/

namespace Rome.Cli

variable {D : Type*}

/-- A flag of the command line with the word that is given for it, and the value that is read. -/
structure Setting (D : Type*) where
  flag : String
  given : Option String
  value : ArgValue D

def Setting.words (s : Setting D) : List String := s.flag :: s.given.toList

section Loop

variable (stod : String → Except StdException D)

/-- The setting can be read for the argument. -/
def Arg.Reads (a : Arg D) (s : Setting D) : Prop :=
  if a.type = .bool then s.given = none ∧ s.value = .bool true
  else ∃ w, s.given = some w ∧ startsWithDash w = false ∧ parseValue stod a.type w = .ok s.value

/-- The setting is one of an argument that there is. -/
def Reads (args : List (Arg D)) (s : Setting D) : Prop :=
  ∃ a, findArg args s.flag = some a ∧ a.Reads stod s

/-- The words at which the loop ends, and what it returns. -/
inductive Ends (args : List (Arg D)) :
    List String → Except StdException (Option String) → Prop
  | done : Ends args [] (.ok none)
  | unrecognized (ca : String) (rest : List String) (h : findArg args ca = none) :
      Ends args (ca :: rest) (.ok (some (unrecognized ca)))
  | requiresValue (ca : String) (rest : List String) (a : Arg D) (h : findArg args ca = some a)
      (ht : a.type ≠ .bool) (hw : ∀ w ∈ rest.head?, startsWithDash w) :
      Ends args (ca :: rest) (.ok (some (requiresValue ca)))
  | threw (ca next : String) (rest : List String) (a : Arg D) (e : StdException)
      (h : findArg args ca = some a) (ht : a.type ≠ .bool) (hw : startsWithDash next = false)
      (he : parseValue stod a.type next = .error e) : Ends args (ca :: next :: rest) (.error e)

theorem findArg_setArg (args : List (Arg D)) (f g : String) (v : ArgValue D) :
    findArg (setArg args f v) g
      = (findArg args g).map fun a => if a.flag = f then { a with value := some v } else a := by
  unfold findArg setArg
  rw [List.find?_map]
  congr 2
  funext a
  simp only [Function.comp_apply]
  split_ifs <;> rfl

/-- The same flags, for arguments of the same types. -/
def SameTypes (args args' : List (Arg D)) : Prop :=
  ∀ f, (findArg args f).map Arg.type = (findArg args' f).map Arg.type

theorem sameTypes_setArg (args : List (Arg D)) (f : String) (v : ArgValue D) :
    SameTypes args (setArg args f v) := by
  intro g
  rw [findArg_setArg, Option.map_map]
  congr 1
  funext a
  simp only [Function.comp_apply]
  split_ifs <;> rfl

theorem SameTypes.find {args args' : List (Arg D)} (h : SameTypes args args') {f : String}
    {a : Arg D} (ha : findArg args f = some a) :
    ∃ a', findArg args' f = some a' ∧ a'.type = a.type := by
  have hf := h f
  rw [ha, Option.map_some] at hf
  exact Option.map_eq_some_iff.mp hf.symm

variable {stod}

theorem Reads.sameTypes {args args' : List (Arg D)} {s : Setting D} (h : Reads stod args s)
    (hS : SameTypes args args') : Reads stod args' s := by
  obtain ⟨a, ha, hs⟩ := h
  obtain ⟨a', ha', hty⟩ := hS.find ha
  refine ⟨a', ha', ?_⟩
  unfold Arg.Reads at hs ⊢
  rw [hty]
  exact hs

theorem Ends.sameTypes {args args' : List (Arg D)} {rest : List String}
    {r : Except StdException (Option String)} (h : Ends stod args rest r)
    (hS : SameTypes args args') : Ends stod args' rest r := by
  cases h with
  | done => exact .done
  | unrecognized ca rest h =>
    have hf := hS ca
    rw [h, Option.map_none] at hf
    exact .unrecognized ca rest (Option.map_eq_none_iff.mp hf.symm)
  | requiresValue ca rest a h ht hw =>
    obtain ⟨b, hb, hty⟩ := hS.find h
    exact .requiresValue ca rest b hb (hty ▸ ht) hw
  | threw ca next rest a e h ht hw he =>
    obtain ⟨b, hb, hty⟩ := hS.find h
    exact .threw ca next rest b e hb (hty ▸ ht) hw (hty ▸ he)

/-- The loop reads a setting. -/
theorem Reads.parseLoop {args : List (Arg D)} {s : Setting D} (h : Reads stod args s)
    (rest : List String) :
    parseLoop stod (s.words ++ rest) args = parseLoop stod rest (setArg args s.flag s.value) := by
  obtain ⟨a, ha, hs⟩ := h
  unfold Arg.Reads at hs
  unfold Setting.words
  split_ifs at hs with ht
  · obtain ⟨hg, hv⟩ := hs
    rw [hg, hv, Option.toList_none, List.singleton_append, Cli.parseLoop]
    simp only [ha, if_pos ht]
  · obtain ⟨w, hg, hw, hp⟩ := hs
    rw [hg, Option.toList_some, List.cons_append, List.singleton_append, Cli.parseLoop]
    simp only [ha, if_neg ht, hw, hp, Bool.false_eq_true, if_false]

theorem Ends.parseLoop {args : List (Arg D)} {rest : List String}
    {r : Except StdException (Option String)} (h : Ends stod args rest r) :
    parseLoop stod rest args = (r, args) := by
  cases h with
  | done => rfl
  | unrecognized ca rest h => simp only [Cli.parseLoop, h]
  | requiresValue ca rest a h ht hw =>
    cases rest with
    | nil => simp only [Cli.parseLoop, h, if_neg ht]
    | cons w rest => simp only [Cli.parseLoop, h, if_neg ht, hw w rfl, if_true]
  | threw ca next rest a e h ht hw he =>
    simp only [Cli.parseLoop, h, if_neg ht, hw, he, Bool.false_eq_true, if_false]

/-- The map once the settings have been read. -/
def setAll (args : List (Arg D)) (ss : List (Setting D)) : List (Arg D) :=
  ss.foldl (fun args s => setArg args s.flag s.value) args

theorem parseLoop_settings (rest : List String) : ∀ (ss : List (Setting D)) (args : List (Arg D)),
    (∀ s ∈ ss, Reads stod args s) →
    parseLoop stod (ss.flatMap Setting.words ++ rest) args = parseLoop stod rest (setAll args ss)
  | [], _, _ => rfl
  | s :: ss, args, h => by
    rw [List.flatMap_cons, List.append_assoc, (h s List.mem_cons_self).parseLoop]
    exact parseLoop_settings rest ss _ fun t ht =>
      (h t (List.mem_cons_of_mem _ ht)).sameTypes (sameTypes_setArg args s.flag s.value)

theorem sameTypes_setAll : ∀ (ss : List (Setting D)) (args : List (Arg D)),
    SameTypes args (setAll args ss)
  | [], _ => fun _ => rfl
  | s :: ss, args => fun f =>
    (sameTypes_setArg args s.flag s.value f).trans (sameTypes_setAll ss _ f)

/-- The words are those of some settings, and then some at which the loop ends. -/
theorem exists_settings : ∀ (n : ℕ) (words : List String) (args : List (Arg D)),
    words.length = n → ∃ (ss : List (Setting D)) (rest : List String)
      (r : Except StdException (Option String)), words = ss.flatMap Setting.words ++ rest ∧
      (∀ s ∈ ss, Reads stod args s) ∧ Ends stod args rest r := by
  intro n
  induction n using Nat.strong_induction_on with
  | _ n ih =>
    intro words args hn
    -- a setting that is read, and what comes after it
    have hnext : ∀ (s : Setting D) (rest : List String), words = s.words ++ rest →
        Reads stod args s → ∃ (ss : List (Setting D)) (rest : List String)
          (r : Except StdException (Option String)), words = ss.flatMap Setting.words ++ rest ∧
          (∀ s ∈ ss, Reads stod args s) ∧ Ends stod args rest r := by
      intro s rest hw hs
      have hlen : rest.length < n := by
        rw [← hn, hw, List.length_append, Setting.words, List.length_cons]
        omega
      obtain ⟨ss, rest', r, hrest, hss, hr⟩ := ih rest.length hlen rest args rfl
      refine ⟨s :: ss, rest', r, ?_, ?_, hr⟩
      · rw [hw, hrest, List.flatMap_cons, List.append_assoc]
      · intro t ht
        obtain rfl | ht := List.mem_cons.mp ht
        · exact hs
        · exact hss t ht
    have hend : ∀ r, Ends stod args words r → ∃ (ss : List (Setting D)) (rest : List String)
        (r : Except StdException (Option String)), words = ss.flatMap Setting.words ++ rest ∧
        (∀ s ∈ ss, Reads stod args s) ∧ Ends stod args rest r :=
      fun r hr => ⟨[], words, r, rfl, fun s hs => absurd hs List.not_mem_nil, hr⟩
    obtain _ | ⟨ca, rest⟩ := words
    · exact hend _ .done
    obtain hca | ⟨a, hca⟩ := Option.eq_none_or_eq_some (findArg args ca)
    · exact hend _ (.unrecognized ca rest hca)
    by_cases ht : a.type = .bool
    · refine hnext ⟨ca, none, .bool true⟩ rest rfl ⟨a, hca, ?_⟩
      unfold Arg.Reads
      rw [if_pos ht]
      exact ⟨rfl, rfl⟩
    obtain _ | ⟨next, rest⟩ := rest
    · exact hend _ (.requiresValue ca [] a hca ht fun w hw => absurd hw (Option.not_mem_none w))
    obtain hw | hw := Bool.eq_false_or_eq_true (startsWithDash next)
    · refine hend _ (.requiresValue ca _ a hca ht fun w hw' => ?_)
      obtain rfl : next = w := Option.some.inj hw'
      exact hw
    cases hp : parseValue stod a.type next with
    | error e => exact hend _ (.threw ca next rest a e hca ht hw hp)
    | ok v =>
      refine hnext ⟨ca, some next, v⟩ rest rfl ⟨a, hca, ?_⟩
      unfold Arg.Reads
      rw [if_neg ht]
      exact ⟨next, rfl, hw, hp⟩

/-- What the loop does with a command line. -/
theorem parseLoop_eq_iff {words : List String} {args args' : List (Arg D)}
    {r : Except StdException (Option String)} :
    parseLoop stod words args = (r, args') ↔ ∃ (ss : List (Setting D)) (rest : List String),
      words = ss.flatMap Setting.words ++ rest ∧ (∀ s ∈ ss, Reads stod args s) ∧
      Ends stod args rest r ∧ args' = setAll args ss := by
  constructor
  · intro h
    obtain ⟨ss, rest, r', hw, hss, hr⟩ := exists_settings words.length words args rfl
    rw [hw, parseLoop_settings rest ss args hss,
      (hr.sameTypes (sameTypes_setAll ss args)).parseLoop] at h
    obtain ⟨rfl, rfl⟩ := Prod.mk.inj h
    exact ⟨ss, rest, hw, hss, hr, rfl⟩
  · rintro ⟨ss, rest, rfl, hss, hr, rfl⟩
    rw [parseLoop_settings rest ss args hss,
      (hr.sameTypes (sameTypes_setAll ss args)).parseLoop]

end Loop

/-! ## What the settings leave -/

/-- What the last setting of a flag gives. -/
def lastGiven (ss : List (Setting D)) (flag : String) : Option (ArgValue D) :=
  (ss.reverse.find? fun s => s.flag = flag).map Setting.value

theorem lastGiven_append (ss : List (Setting D)) (s : Setting D) (flag : String) :
    lastGiven (ss ++ [s]) flag = if s.flag = flag then some s.value else lastGiven ss flag := by
  unfold lastGiven
  rw [List.reverse_append, List.reverse_singleton, List.singleton_append, List.find?_cons]
  by_cases h : s.flag = flag
  · rw [if_pos h, decide_eq_true h]
    rfl
  · rw [if_neg h, decide_eq_false h]

theorem mem_of_lastGiven {ss : List (Setting D)} {flag : String} {v : ArgValue D}
    (h : lastGiven ss flag = some v) : ∃ s ∈ ss, s.flag = flag ∧ s.value = v := by
  obtain ⟨s, hs, rfl⟩ := Option.map_eq_some_iff.mp h
  have hf := List.find?_some hs
  exact ⟨s, List.mem_reverse.mp (List.mem_of_find?_eq_some hs), of_decide_eq_true hf, rfl⟩

/-- What an argument has after the settings. -/
def Arg.after (ss : List (Setting D)) (a : Arg D) : Arg D :=
  { a with value := (lastGiven ss a.flag).or a.value }

theorem setAll_eq (args : List (Arg D)) (ss : List (Setting D)) :
    setAll args ss = args.map (Arg.after ss) := by
  induction ss using List.reverseRecOn with
  | nil => exact (List.map_id args).symm
  | append_singleton ss s ih =>
    have hs : setAll args (ss ++ [s]) = setArg (setAll args ss) s.flag s.value :=
      List.foldl_append ..
    rw [hs, ih, setArg, List.map_map]
    refine List.map_congr_left fun a _ => ?_
    have hflag : (a.after ss).flag = a.flag := rfl
    by_cases h : a.flag = s.flag
    · rw [Function.comp_apply, if_pos (hflag.trans h), Arg.after, Arg.after, lastGiven_append,
        if_pos h.symm]
      rfl
    · rw [Function.comp_apply, if_neg fun h' => h (hflag.symm.trans h'), Arg.after, Arg.after,
        lastGiven_append, if_neg (Ne.symm h)]

theorem basename_ne_empty (path : String) : basename path ≠ "" := by
  unfold basename
  simp only []
  split_ifs with h h'
  · decide
  · decide
  · intro he
    have hlast := List.rdropWhile_last_not (fun c => c = '/') path.toList h'
    have hnil : (path.toList.rdropWhile (· = '/')).rtakeWhile (· ≠ '/') = [] := by
      have := congrArg String.toList he
      simpa using this
    rw [List.rtakeWhile_eq_nil_iff] at hnil
    exact hnil h' (by simpa using hlast)

section Parse

variable (stod : String → Except StdException D)

/-- What is returned once the loop has ended. -/
def atEnd (args : List (Arg D)) :
    Except StdException (Option String) → Except StdException (Option String)
  | .ok none => .ok ((args.find? fun a => a.value.isNone).map fun a => isRequired a.flag)
  | r => r

theorem atEnd_eq_ok_none {args : List (Arg D)} {r : Except StdException (Option String)} :
    atEnd args r = .ok none ↔ r = .ok none ∧ ∀ a ∈ args, a.value ≠ none := by
  obtain e | _ | e := r
  · simp [atEnd]
  · simp [atEnd, Option.isNone_iff_eq_none]
  · simp [atEnd]

theorem atEnd_of_ne {args : List (Arg D)} {r : Except StdException (Option String)}
    (h : r ≠ .ok none) : atEnd args r = r := by
  obtain e | _ | e := r
  · rfl
  · exact absurd rfl h
  · rfl

theorem parseArgs_of_loop {m : ArgMap D} {args : List (Arg D)} {words : List String}
    {r : Except StdException (Option String)} (hm : m.programName = "") (argv0 : String)
    (hl : parseLoop stod words m.args = (r, args)) :
    m.parseArgs stod argv0 words = (atEnd args r, ⟨args, basename argv0⟩) := by
  unfold ArgMap.parseArgs
  rw [if_neg (not_not.mpr hm), hl]
  obtain e | _ | e := r
  · rfl
  · simp only [atEnd]
    cases List.find? (fun a => a.value.isNone) args <;> rfl
  · rfl

/-- What `parse_args` does with a command line. -/
theorem parseArgs_eq_iff {m m' : ArgMap D} {argv0 : String} {words : List String}
    {r : Except StdException (Option String)} (hm : m.programName = "") :
    m.parseArgs stod argv0 words = (r, m') ↔
      ∃ (ss : List (Setting D)) (rest : List String) (r' : Except StdException (Option String)),
        words = ss.flatMap Setting.words ++ rest ∧ (∀ s ∈ ss, Reads stod m.args s) ∧
        Ends stod m.args rest r' ∧ m' = ⟨m.args.map (Arg.after ss), basename argv0⟩ ∧
        r = atEnd m'.args r' := by
  constructor
  · intro h
    rw [parseArgs_of_loop stod hm argv0 rfl] at h
    obtain ⟨rfl, rfl⟩ := Prod.mk.inj h
    obtain ⟨ss, rest, hw, hss, hr, hset⟩ := parseLoop_eq_iff.mp
      (rfl : parseLoop stod words m.args = (_, _))
    exact ⟨ss, rest, _, hw, hss, hr, by rw [hset, setAll_eq], rfl⟩
  · rintro ⟨ss, rest, r', hw, hss, hr, rfl, rfl⟩
    have hl := parseLoop_eq_iff.mpr ⟨ss, rest, hw, hss, hr, rfl⟩
    rw [setAll_eq] at hl
    exact parseArgs_of_loop stod hm argv0 hl

theorem Ends.ok_none {args : List (Arg D)} {rest : List String}
    {r : Except StdException (Option String)} (h : Ends stod args rest r) :
    r = .ok none ↔ rest = [] := by
  cases h <;> simp

theorem parseArgs_again {m : ArgMap D} (hm : m.programName ≠ "") (argv0 : String)
    (words : List String) : m.parseArgs stod argv0 words
      = (.ok (some "Error: parse_args() should only be called once!"), m) := by
  unfold ArgMap.parseArgs
  rw [if_pos hm]

/-- A command line that is accepted has given all that has no default. -/
theorem parseArgs_accepted {m m' : ArgMap D} {argv0 : String} {words : List String}
    (h : m.parseArgs stod argv0 words = (.ok none, m')) :
    ∃ ss : List (Setting D), (∀ s ∈ ss, Reads stod m.args s) ∧ (∀ a ∈ m'.args, a.value ≠ none) ∧
      m' = ⟨m.args.map (Arg.after ss), basename argv0⟩ := by
  by_cases hm : m.programName = ""
  · obtain ⟨ss, rest, r, -, hss, -, hm', hend⟩ := (parseArgs_eq_iff stod hm).mp h
    exact ⟨ss, hss, (atEnd_eq_ok_none.mp hend.symm).2, hm'⟩
  · rw [parseArgs_again stod hm] at h
    exact absurd (Prod.mk.inj h).1 (by simp)

end Parse

/-! ## Any calls -/

/-- The value of the argument, if it has one, is of its type. -/
def Arg.Typed (a : Arg D) : Prop := ∀ v, a.value = some v → v.type = a.type

/-- A map that calls have made: in the order of the flags, one argument for each. -/
structure SortedArgs (args : List (Arg D)) : Prop where
  sorted : args.Pairwise fun a b => a.flag ≤ b.flag
  nodup : (args.map Arg.flag).Nodup

/-- A map made with defaults of their types: every value is of its argument's. -/
structure WfArgs (args : List (Arg D)) : Prop extends SortedArgs args where
  typed : ∀ a ∈ args, a.Typed

theorem sortedArgs_nil : SortedArgs ([] : List (Arg D)) := ⟨.nil, List.nodup_nil⟩

theorem wfArgs_nil : WfArgs ([] : List (Arg D)) :=
  ⟨sortedArgs_nil, fun _ h => absurd h List.not_mem_nil⟩

theorem findArg_eq_none {args : List (Arg D)} {f : String} :
    findArg args f = none ↔ f ∉ args.map Arg.flag := by
  unfold findArg
  rw [List.find?_eq_none, List.mem_map]
  simp

theorem findArg_some {args : List (Arg D)} {f : String} {a : Arg D} (h : findArg args f = some a) :
    a ∈ args ∧ a.flag = f :=
  ⟨List.mem_of_find?_eq_some h, by simpa using List.find?_some h⟩

section Import

variable {args : List (Arg D)}

theorem SortedArgs.find (h : SortedArgs args) {a : Arg D} (ha : a ∈ args) :
    findArg args a.flag = some a := by
  obtain hn | ⟨b, hb⟩ := Option.eq_none_or_eq_some (findArg args a.flag)
  · exact absurd (List.mem_map_of_mem ha) (findArg_eq_none.mp hn)
  · obtain ⟨hmem, hflag⟩ := findArg_some hb
    rw [hb, List.inj_on_of_nodup_map h.nodup hmem ha hflag]

theorem SortedArgs.insert (h : SortedArgs args) {c : Arg D}
    (hd : ¬ (findArg args c.flag).isSome) :
    SortedArgs (args.orderedInsert (fun a b => a.flag ≤ b.flag) c) := by
  have hperm := List.perm_orderedInsert (fun a b : Arg D => a.flag ≤ b.flag) c args
  have htotal : Std.Total fun a b : Arg D => a.flag ≤ b.flag := ⟨fun a b => le_total _ _⟩
  have htrans : IsTrans (Arg D) fun a b => a.flag ≤ b.flag := ⟨fun a b c => le_trans⟩
  refine ⟨h.sorted.orderedInsert c args, ?_⟩
  rw [(hperm.map Arg.flag).nodup_iff, List.map_cons, List.nodup_cons]
  exact ⟨findArg_eq_none.mp (Option.not_isSome_iff_eq_none.mp hd), h.nodup⟩

/-- `import_args` keeps the order, and the types where its arguments' defaults have theirs. -/
theorem SortedArgs.importLoop (h : SortedArgs args) (cs : List (Arg D)) :
    SortedArgs (importLoop cs args).2
      ∧ ((∀ a ∈ args, a.Typed) → (∀ c ∈ cs, c.Typed) → ∀ a ∈ (importLoop cs args).2, a.Typed) := by
  induction cs generalizing args with
  | nil => exact ⟨h, fun ht _ => ht⟩
  | cons c cs ih =>
    unfold Cli.importLoop
    split_ifs with hf hd
    · exact ⟨h, fun ht _ => ht⟩
    · exact ⟨h, fun ht _ => ht⟩
    · obtain ⟨h1, h2⟩ := ih (h.insert hd)
      refine ⟨h1, fun ht hcs => h2 (fun a ha => ?_) fun c hc => hcs c (List.mem_cons_of_mem _ hc)⟩
      obtain rfl | ha := List.mem_cons.mp
        ((List.perm_orderedInsert (fun a b : Arg D => a.flag ≤ b.flag) c args).mem_iff.mp ha)
      · exact hcs a List.mem_cons_self
      · exact ht a ha

end Import

theorem map_eq_ok {ε α β : Type*} {f : α → β} {x : Except ε α} {y : β} (h : x.map f = .ok y) :
    ∃ a, x = .ok a ∧ f a = y := by
  cases x with
  | error e => cases h
  | ok a => exact ⟨a, rfl, Except.ok.inj h⟩

theorem parseValue_type (stod : String → Except StdException D) {type : ArgValType} {w : String}
    {v : ArgValue D} (h : parseValue stod type w = .ok v) : v.type = type := by
  cases type with
  | i64 => obtain ⟨n, -, rfl⟩ := map_eq_ok h; rfl
  | f64 => obtain ⟨n, -, rfl⟩ := map_eq_ok h; rfl
  | str => obtain rfl := Except.ok.inj h; rfl
  | bool => obtain rfl := Except.ok.inj h; rfl

theorem stoi_bounds {w : String} {v : ℤ} (h : stoi w = .ok v) : -2 ^ 31 ≤ v ∧ v < 2 ^ 31 := by
  unfold stoi at h
  simp only [] at h
  split_ifs at h with h1 h2
  all_goals
    obtain rfl := Except.ok.inj h
    assumption

theorem Reads.value_type {stod : String → Except StdException D} {args : List (Arg D)} {a : Arg D}
    {s : Setting D} (h : Reads stod args s) (ha : findArg args s.flag = some a) :
    s.value.type = a.type := by
  obtain ⟨b, hb, hs⟩ := h
  obtain rfl := Option.some.inj (hb.symm.trans ha)
  unfold Arg.Reads at hs
  split_ifs at hs with ht
  · rw [hs.2, ht]
    rfl
  · obtain ⟨w, -, -, hp⟩ := hs
    exact parseValue_type stod hp

theorem SortedArgs.after {args : List (Arg D)} (h : SortedArgs args) (ss : List (Setting D)) :
    SortedArgs (args.map (Arg.after ss)) := by
  refine ⟨List.pairwise_map.mpr h.sorted, ?_⟩
  rw [List.map_map]
  exact h.nodup

/-- The settings keep the map as it should be. -/
theorem WfArgs.after {stod : String → Except StdException D} {args : List (Arg D)}
    {ss : List (Setting D)} (h : WfArgs args) (hss : ∀ s ∈ ss, Reads stod args s) :
    WfArgs (args.map (Arg.after ss)) := by
  refine ⟨h.toSortedArgs.after ss, fun b hb v hv => ?_⟩
  obtain ⟨a, ha, rfl⟩ := List.mem_map.mp hb
  unfold Arg.after at hv
  obtain hg | ⟨w, hg⟩ := Option.eq_none_or_eq_some (lastGiven ss a.flag)
  · rw [hg, Option.none_or] at hv
    exact h.typed a ha v hv
  · rw [hg, Option.some_or] at hv
    obtain rfl := Option.some.inj hv
    obtain ⟨s, hs, hflag, rfl⟩ := mem_of_lastGiven hg
    exact (hss s hs).value_type (a := a) (hflag ▸ h.find ha)

def ArgCall.Typed : ArgCall D → Prop
  | .importArgs args => ∀ a ∈ args, a.Typed
  | .parseArgs _ _ => True

section Calls

variable {stod : String → Except StdException D}

/-- Whatever `parse_args` returns, it has only read settings. -/
theorem parseArgs_after (m : ArgMap D) (argv0 : String) (words : List String) :
    (m.parseArgs stod argv0 words).2 = m ∨ ∃ ss : List (Setting D),
      (∀ s ∈ ss, Reads stod m.args s)
        ∧ (m.parseArgs stod argv0 words).2.args = m.args.map (Arg.after ss) := by
  by_cases hm : m.programName = ""
  · obtain ⟨r, m', hp⟩ : ∃ r m', m.parseArgs stod argv0 words = (r, m') := ⟨_, _, rfl⟩
    obtain ⟨ss, -, -, -, hss, -, rfl, -⟩ := (parseArgs_eq_iff stod hm).mp hp
    exact .inr ⟨ss, hss, by rw [hp]⟩
  · exact .inl (by rw [parseArgs_again stod hm])

theorem SortedArgs.call {m : ArgMap D} (h : SortedArgs m.args) (c : ArgCall D) :
    SortedArgs (m.call stod c).2.args := by
  cases c with
  | importArgs args =>
    change SortedArgs (m.importArgs args).2.args
    unfold ArgMap.importArgs
    split_ifs
    · exact h
    · exact (h.importLoop args).1
  | parseArgs argv0 words =>
    change SortedArgs (m.parseArgs stod argv0 words).2.args
    obtain hm | ⟨ss, -, hm⟩ := @parseArgs_after _ stod m argv0 words
    · rwa [hm]
    · rw [hm]
      exact h.after ss

theorem SortedArgs.calls : ∀ (cs : List (ArgCall D)) {m : ArgMap D}, SortedArgs m.args →
    SortedArgs (m.calls stod cs).args
  | [], _, h => h
  | c :: cs, _, h => SortedArgs.calls cs (h.call c)

theorem WfArgs.parseArgs {m : ArgMap D} (h : WfArgs m.args) (argv0 : String)
    (words : List String) : WfArgs (m.parseArgs stod argv0 words).2.args := by
  obtain hm | ⟨ss, hss, hm⟩ := @parseArgs_after _ stod m argv0 words
  · rwa [hm]
  · rw [hm]
    exact h.after hss

theorem WfArgs.call {m : ArgMap D} (h : WfArgs m.args) {c : ArgCall D} (hc : c.Typed) :
    WfArgs (m.call stod c).2.args := by
  refine ⟨h.toSortedArgs.call c, ?_⟩
  cases c with
  | importArgs args =>
    change ∀ a ∈ (m.importArgs args).2.args, a.Typed
    unfold ArgMap.importArgs
    split_ifs
    · exact h.typed
    · exact (h.toSortedArgs.importLoop args).2 h.typed hc
  | parseArgs argv0 words => exact (h.parseArgs argv0 words).typed

theorem WfArgs.calls : ∀ {cs : List (ArgCall D)} {m : ArgMap D}, WfArgs m.args →
    (∀ c ∈ cs, c.Typed) → WfArgs (m.calls stod cs).args
  | [], _, h, _ => h
  | c :: _, _, h, hcs =>
    (h.call (hcs c List.mem_cons_self)).calls fun d hd => hcs d (List.mem_cons_of_mem _ hd)

/-- Once `parse_args` has run, nothing changes the map. -/
theorem call_again {m : ArgMap D} (hm : m.programName ≠ "") (c : ArgCall D) :
    ∃ e, m.call stod c = (.ok (some e), m) := by
  cases c with
  | importArgs args =>
    refine ⟨"Error: cannot call import_args() after parse_args()", ?_⟩
    rw [ArgMap.call, ArgMap.importArgs, if_pos hm]
  | parseArgs argv0 words => exact ⟨_, parseArgs_again stod hm argv0 words⟩

theorem calls_again {m : ArgMap D} (hm : m.programName ≠ "") : ∀ cs : List (ArgCall D),
    m.calls stod cs = m
  | [] => rfl
  | c :: cs => by
    obtain ⟨e, hc⟩ : ∃ e, m.call stod c = (.ok (some e), m) := call_again hm c
    rw [ArgMap.calls, List.foldl_cons, hc]
    exact calls_again hm cs

/-- The first argument without a value, in the order of the flags. -/
def FirstMissing (args : List (Arg D)) (a : Arg D) : Prop :=
  a ∈ args ∧ a.value = none ∧ ∀ b ∈ args, b.value = none → a.flag ≤ b.flag

theorem SortedArgs.find_missing {args : List (Arg D)} (h : SortedArgs args) {a : Arg D} :
    args.find? (fun a => a.value.isNone) = some a ↔ FirstMissing args a := by
  have hfind : ∀ {a : Arg D}, args.find? (fun a => a.value.isNone) = some a →
      FirstMissing args a := by
    intro a ha
    obtain ⟨hnone, as, bs, rfl, has⟩ := List.find?_eq_some_iff_append.mp ha
    refine ⟨List.mem_append_right as List.mem_cons_self, Option.isNone_iff_eq_none.mp hnone,
      fun b hb hnone => ?_⟩
    have hsorted := (List.pairwise_append.mp h.sorted).2.1
    obtain hb | hb := List.mem_append.mp hb
    · exact absurd (has b hb) (by simp [hnone])
    obtain rfl | hb := List.mem_cons.mp hb
    · exact le_rfl
    · exact List.rel_of_pairwise_cons hsorted hb
  refine ⟨hfind, fun ha => ?_⟩
  obtain ⟨hmem, hnone, hleast⟩ := ha
  obtain ⟨b, hb⟩ := Option.isSome_iff_exists.mp
    ((List.find?_isSome (p := fun a : Arg D => a.value.isNone)).mpr
      ⟨a, hmem, Option.isNone_iff_eq_none.mpr hnone⟩)
  obtain ⟨hbmem, hbnone, hbleast⟩ := hfind hb
  rw [hb, List.inj_on_of_nodup_map h.nodup hbmem hmem
    (le_antisymm (hbleast a hmem hnone) (hleast b hbmem hbnone))]

theorem SortedArgs.atEnd_ok_none {args : List (Arg D)} (h : SortedArgs args)
    {r : Except StdException (Option String)} :
    r = atEnd args (.ok none) ↔ r = .ok none ∧ (∀ a ∈ args, a.value ≠ none) ∨
      ∃ a, FirstMissing args a ∧ r = .ok (some (isRequired a.flag)) := by
  constructor
  · rintro rfl
    obtain hn | ⟨a, ha⟩ := Option.eq_none_or_eq_some (args.find? fun a => a.value.isNone)
    · have hnone : atEnd args (.ok none) = .ok none := by rw [atEnd, hn, Option.map_none]
      exact .inl ⟨hnone, (atEnd_eq_ok_none.mp hnone).2⟩
    · exact .inr ⟨a, h.find_missing.mp ha, by rw [atEnd, ha, Option.map_some]⟩
  · rintro (⟨rfl, hall⟩ | ⟨a, ha, rfl⟩)
    · exact (atEnd_eq_ok_none.mpr ⟨rfl, hall⟩).symm
    · rw [atEnd, h.find_missing.mpr ha, Option.map_some]

/-- A command line is settings that are read, and then words at which the loop ends. Without such
words it is accepted, unless an argument is left without a value; then the first of them is named.
The map has what the last settings give in all cases. -/
theorem parse_args_outcome (stod : String → Except StdException D) (before : List (ArgCall D))
    {m : ArgMap D} (hm : ArgMap.empty.calls stod before = m)
    (hname : m.programName = "") (argv0 : String) (words : List String)
    (r : Except StdException (Option String)) (m' : ArgMap D) :
    m.parseArgs stod argv0 words = (r, m') ↔
      ∃ (ss : List (Setting D)) (rest : List String), words = ss.flatMap Setting.words ++ rest ∧
        (∀ s ∈ ss, Reads stod m.args s) ∧
        m' = ⟨m.args.map (Arg.after ss), basename argv0⟩ ∧
        (rest ≠ [] ∧ Ends stod m.args rest r ∨
          rest = [] ∧ (r = .ok none ∧ (∀ a ∈ m'.args, a.value ≠ none) ∨
            ∃ a, FirstMissing m'.args a ∧ r = .ok (some (isRequired a.flag)))) := by
  have hsorted : SortedArgs m.args := hm ▸ sortedArgs_nil.calls before
  rw [parseArgs_eq_iff stod hname]
  constructor
  · rintro ⟨ss, rest, r', hw, hss, hr, rfl, hend⟩
    refine ⟨ss, rest, hw, hss, rfl, ?_⟩
    by_cases hrest : rest = []
    · obtain rfl := hr.ok_none.mpr hrest
      exact .inr ⟨hrest, (hsorted.after ss).atEnd_ok_none.mp hend⟩
    · rw [atEnd_of_ne (fun h => hrest (hr.ok_none.mp h))] at hend
      exact .inl ⟨hrest, hend ▸ hr⟩
  · rintro ⟨ss, rest, hw, hss, rfl, ⟨hrest, hr⟩ | ⟨rfl, hend⟩⟩
    · exact ⟨ss, rest, r, hw, hss, hr, rfl,
        (atEnd_of_ne fun h => hrest (hr.ok_none.mp h)).symm⟩
    · exact ⟨ss, [], .ok none, hw, hss, .done, rfl, (hsorted.after ss).atEnd_ok_none.mpr hend⟩

theorem competeArgs_typed : ∀ a ∈ (competeArgs : List (Arg D)), a.Typed := by
  unfold competeArgs Arg.Typed
  simp [i64Arg, i64ArgOpt, boolArgOpt, ArgValue.type]

/-- `stod` of a word that is no number. -/
def stodThrows : String → Except StdException ℚ := fun _ => .error .invalidArgument

/-- A node that is not told how many there are. -/
theorem parse_args_outcome_compete :
    competeMap.parseArgs stodThrows "./compete" ["--node_id", "1"]
      = (.ok (some (isRequired "--node_count")),
        ⟨competeMap.args.map (Arg.after [⟨"--node_id", some "1", .i64 1⟩]), "compete"⟩) := by
  refine (parse_args_outcome stodThrows [.importArgs competeArgs] rfl rfl "./compete"
    ["--node_id", "1"] _ _).mpr ⟨[⟨"--node_id", some "1", .i64 1⟩], [], rfl, ?_, by decide,
      .inr ⟨rfl, .inr ⟨i64Arg "--node_count", ⟨by decide, rfl, by decide⟩, rfl⟩⟩⟩
  exact List.forall_mem_singleton.mpr ⟨i64Arg "--node_id", rfl, "1", rfl, rfl, rfl⟩

theorem findArg_after (args : List (Arg D)) (ss : List (Setting D)) (f : String) :
    findArg (args.map (Arg.after ss)) f = (findArg args f).map (Arg.after ss) := by
  unfold findArg
  rw [List.find?_map]
  rfl

theorem get_isSome {β : Type*} {alternative : ArgValue D → Option β} {type : ArgValType}
    (halt : ∀ v : ArgValue D, (alternative v).isSome ↔ v.type = type) {m : ArgMap D}
    (h : WfArgs m.args) (hall : ∀ a ∈ m.args, a.value ≠ none) (f : String) :
    (m.get alternative f).isSome ↔ ∃ a ∈ m.args, a.flag = f ∧ a.type = type := by
  unfold ArgMap.get ArgMap.value
  constructor
  · intro hs
    obtain hn | ⟨a, ha⟩ := Option.eq_none_or_eq_some (findArg m.args f)
    · rw [hn] at hs
      exact absurd hs (by simp)
    obtain ⟨hmem, hflag⟩ := findArg_some ha
    obtain ⟨v, hv⟩ := Option.ne_none_iff_exists'.mp (hall a hmem)
    rw [ha, Option.bind_some, hv, Option.bind_some, halt] at hs
    exact ⟨a, hmem, hflag, (h.typed a hmem v hv).symm.trans hs⟩
  · rintro ⟨a, hmem, rfl, rfl⟩
    obtain ⟨v, hv⟩ := Option.ne_none_iff_exists'.mp (hall a hmem)
    rw [h.find hmem, Option.bind_some, hv, Option.bind_some, halt]
    exact h.typed a hmem v hv

/-- An integer that is read is a default, or was given and fits an `int`. -/
theorem iget_after {m : ArgMap D} {ss : List (Setting D)} (hss : ∀ s ∈ ss, Reads stod m.args s)
    {name f : String} {v : ℤ}
    (hv : (ArgMap.mk (m.args.map (Arg.after ss)) name).iget f = some v) :
    m.iget f = some v ∨ -2 ^ 31 ≤ v ∧ v < 2 ^ 31 := by
  unfold ArgMap.iget ArgMap.get ArgMap.value at hv ⊢
  simp only [findArg_after] at hv
  obtain hn | ⟨a, ha⟩ := Option.eq_none_or_eq_some (findArg m.args f)
  · rw [hn] at hv
    exact absurd hv (by simp)
  rw [ha, Option.map_some, Option.bind_some, Arg.after] at hv
  rw [ha, Option.bind_some]
  obtain hg | ⟨w, hg⟩ := Option.eq_none_or_eq_some (lastGiven ss a.flag)
  · rw [hg, Option.none_or] at hv
    exact .inl hv
  · rw [hg, Option.some_or, Option.bind_some] at hv
    obtain ⟨s, hs, -, rfl⟩ := mem_of_lastGiven hg
    obtain ⟨b, -, hb⟩ := hss s hs
    have hi : s.value = .i64 v := by
      cases hval : s.value <;> rw [hval] at hv <;> simp_all [ArgValue.i64?]
    unfold Arg.Reads at hb
    split_ifs at hb with ht
    · exact absurd (hb.2.symm.trans hi) (by simp)
    · obtain ⟨w, -, -, hp⟩ := hb
      have hty := parseValue_type stod hp
      rw [hi] at hp hty
      rw [← hty] at hp
      obtain ⟨n, hn, he⟩ := map_eq_ok hp
      obtain rfl := ArgValue.i64.inj he
      exact .inr (stoi_bounds hn)

/-- Where the arguments' defaults are of their types and `parse_args` accepts a command line, each
argument can be read as what it is and as nothing else, whatever is called before and after. -/
theorem args_read (stod : String → Except StdException D) (before after : List (ArgCall D))
    (argv0 : String) (words : List String) {m m' : ArgMap D} (hb : ∀ c ∈ before, c.Typed)
    (hm : ArgMap.empty.calls stod before = m)
    (h : m.parseArgs stod argv0 words = (.ok none, m')) :
    m'.calls stod after = m' ∧ (∀ c, ∃ e, m'.call stod c = (.ok (some e), m')) ∧
    (∀ f, ((m'.iget f).isSome ↔ ∃ a ∈ m'.args, a.flag = f ∧ a.type = .i64) ∧
      ((m'.fget f).isSome ↔ ∃ a ∈ m'.args, a.flag = f ∧ a.type = .f64) ∧
      ((m'.sget f).isSome ↔ ∃ a ∈ m'.args, a.flag = f ∧ a.type = .str) ∧
      ((m'.bget f).isSome ↔ ∃ a ∈ m'.args, a.flag = f ∧ a.type = .bool)) ∧
    ∀ f v, m'.iget f = some v → m.iget f = some v ∨ -2 ^ 31 ≤ v ∧ v < 2 ^ 31 := by
  have hwf : WfArgs m.args := hm ▸ wfArgs_nil.calls hb
  have hwf' : WfArgs m'.args := by
    have hp : WfArgs (m.parseArgs stod argv0 words).2.args := hwf.parseArgs argv0 words
    rwa [h] at hp
  obtain ⟨ss, hss, hall, rfl⟩ := parseArgs_accepted stod h
  have hname := basename_ne_empty argv0
  refine ⟨calls_again hname after, call_again hname, fun f => ⟨?_, ?_, ?_, ?_⟩, fun f v =>
    iget_after hss⟩
  · exact get_isSome (fun v => by cases v <;> simp [ArgValue.i64?, ArgValue.type]) hwf' hall f
  · exact get_isSome (fun v => by cases v <;> simp [ArgValue.f64?, ArgValue.type]) hwf' hall f
  · exact get_isSome (fun v => by cases v <;> simp [ArgValue.str?, ArgValue.type]) hwf' hall f
  · exact get_isSome (fun v => by cases v <;> simp [ArgValue.bool?, ArgValue.type]) hwf' hall f

/-- The map of node 1 of two, with four threads. -/
def competeNode : ArgMap ℚ :=
  (competeMap.parseArgs stodThrows "./compete"
    ["--node_id", "1", "--thread_count", "4", "--node_count", "2"]).2

theorem args_read_compete :
    competeNode.calls stodThrows [.importArgs competeArgs] = competeNode ∧
      (competeNode.iget "--node_count").isSome ∧ (competeNode.bget "--server").isSome := by
  obtain ⟨hsame, -, hget, -⟩ := args_read stodThrows [.importArgs competeArgs]
    [.importArgs competeArgs] "./compete"
    ["--node_id", "1", "--thread_count", "4", "--node_count", "2"]
    (List.forall_mem_singleton.mpr competeArgs_typed) (rfl : _ = competeMap)
    (rfl : _ = (_, competeNode))
  refine ⟨hsame, (hget "--node_count").1.mpr ?_, (hget "--server").2.2.2.mpr ?_⟩
  · exact ⟨⟨"--node_count", .i64, some (.i64 2)⟩, by decide, rfl, rfl⟩
  · exact ⟨⟨"--server", .bool, some (.bool false)⟩, by decide, rfl, rfl⟩

end Calls

end Rome.Cli
