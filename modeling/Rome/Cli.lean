import Mathlib

/-!
# Command-line arguments

An `ArgMap` is given the arguments of a program, and then its command line, once. Doubles are `D`,
which `stod` reads.
-/

namespace Rome.Cli

variable {D : Type*}

/-- `Arg::ArgValType`. -/
inductive ArgValType
  | i64
  | f64
  | str
  | bool
  deriving DecidableEq

/-- `Arg::value_t`. -/
inductive ArgValue (D : Type*)
  | i64 (v : ℤ)
  | f64 (v : D)
  | str (v : String)
  | bool (v : Bool)
  deriving DecidableEq

/-- The alternative of the variant that a value is. -/
def ArgValue.type : ArgValue D → ArgValType
  | .i64 _ => .i64
  | .f64 _ => .f64
  | .str _ => .str
  | .bool _ => .bool

structure Arg (D : Type*) where
  flag : String
  type : ArgValType
  value : Option (ArgValue D)
  deriving DecidableEq

def strArgOpt (flag defVal : String) : Arg D := ⟨flag, .str, some (.str defVal)⟩
def strArg (flag : String) : Arg D := ⟨flag, .str, none⟩
def boolArgOpt (flag : String) : Arg D := ⟨flag, .bool, some (.bool false)⟩
def i64ArgOpt (flag : String) (defVal : ℤ) : Arg D := ⟨flag, .i64, some (.i64 defVal)⟩
def i64Arg (flag : String) : Arg D := ⟨flag, .i64, none⟩
def f64ArgOpt (flag : String) (defVal : D) : Arg D := ⟨flag, .f64, some (.f64 defVal)⟩
def f64Arg (flag : String) : Arg D := ⟨flag, .f64, none⟩

/-- The arguments of the map, in the order of their flags. -/
structure ArgMap (D : Type*) where
  args : List (Arg D)
  programName : String
  deriving DecidableEq

def ArgMap.empty : ArgMap D := ⟨[], ""⟩

/-- `find` of the map. -/
def findArg (args : List (Arg D)) (flag : String) : Option (Arg D) :=
  args.find? fun a => a.flag = flag

/-- `*s.begin() == '-'`. -/
def startsWithDash (s : String) : Bool := s.toList.head? == some '-'

/-! ## `import_args` -/

def invalidFlag (flag : String) : String := "Error: invalid flag `" ++ flag ++ "`"
def duplicateFlag (flag : String) : String := "Error: duplicate flag `" ++ flag ++ "`"

def importLoop : List (Arg D) → List (Arg D) → Option String × List (Arg D)
  | [], args => (none, args)
  | c :: cs, args =>
    if c.flag.length < 2 ∨ !startsWithDash c.flag then (some (invalidFlag c.flag), args)
    else if (findArg args c.flag).isSome then (some (duplicateFlag c.flag), args)
    else importLoop cs (args.orderedInsert (fun a b => a.flag ≤ b.flag) c)

def ArgMap.importArgs (m : ArgMap D) (args : List (Arg D)) : Option String × ArgMap D :=
  if m.programName ≠ "" then (some "Error: cannot call import_args() after parse_args()", m)
  else
    let r := importLoop args m.args
    (r.1, { m with args := r.2 })

/-! ## `parse_args` -/

/-- What `stoi` and `stod` throw. -/
inductive StdException
  | invalidArgument
  | outOfRange
  deriving DecidableEq

def isSpace (c : Char) : Bool := c == ' ' || (9 ≤ c.toNat && c.toNat ≤ 13)

/-- `std::stoi`: blanks, a sign, and as many digits as there are, of an `int`. -/
def stoi (str : String) : Except StdException ℤ :=
  let s := str.toList.dropWhile isSpace
  let digits := (if s.head? = some '-' ∨ s.head? = some '+' then s.tail else s).takeWhile
    Char.isDigit
  let n : ℤ := digits.foldl (fun n c => 10 * n + (c.toNat - 48)) 0
  let v := if s.head? = some '-' then -n else n
  if digits = [] then .error .invalidArgument
  else if -2 ^ 31 ≤ v ∧ v < 2 ^ 31 then .ok v
  else .error .outOfRange

/-- `basename` of `libgen.h`. -/
def basename (path : String) : String :=
  let s := path.toList.rdropWhile (· = '/')
  if path.toList = [] then "."
  else if s = [] then "/"
  else String.ofList (s.rtakeWhile (· ≠ '/'))

def unrecognized (ca : String) : String := "Error: unrecognized argument `" ++ ca ++ "`"
def requiresValue (ca : String) : String := "Error: argument `" ++ ca ++ "` requires a value"
def isRequired (flag : String) : String := "Error: `" ++ flag ++ "` is required"

/-- The value of an argument that is not a bool. -/
def parseValue (stod : String → Except StdException D) (type : ArgValType) (next : String) :
    Except StdException (ArgValue D) :=
  match type with
  | .i64 => (stoi next).map .i64
  | .f64 => (stod next).map .f64
  | .str => .ok (.str next)
  | .bool => .ok (.bool true)

/-- `arg->second.value = v`. -/
def setArg (args : List (Arg D)) (flag : String) (v : ArgValue D) : List (Arg D) :=
  args.map fun a => if a.flag = flag then { a with value := some v } else a

/-- The loop over the words, with the map as it is left. -/
def parseLoop (stod : String → Except StdException D) :
    List String → List (Arg D) → Except StdException (Option String) × List (Arg D)
  | [], args => (.ok none, args)
  | ca :: rest, args =>
    match findArg args ca with
    | none => (.ok (some (unrecognized ca)), args)
    | some arg =>
      if arg.type = .bool then parseLoop stod rest (setArg args ca (.bool true))
      else
        match rest with
        | [] => (.ok (some (requiresValue ca)), args)
        | next :: rest =>
          if startsWithDash next then (.ok (some (requiresValue ca)), args)
          else
            match parseValue stod arg.type next with
            | .error e => (.error e, args)
            | .ok v => parseLoop stod rest (setArg args ca v)

def ArgMap.parseArgs (stod : String → Except StdException D) (m : ArgMap D) (argv0 : String)
    (words : List String) : Except StdException (Option String) × ArgMap D :=
  if m.programName ≠ "" then
    (.ok (some "Error: parse_args() should only be called once!"), m)
  else
    let r := parseLoop stod words m.args
    let m := { m with args := r.2, programName := basename argv0 }
    match r.1 with
    | .ok none =>
      match m.args.find? fun a => a.value.isNone with
      | some a => (.ok (some (isRequired a.flag)), m)
      | none => (.ok none, m)
    | e => (e, m)

/-! ## What was given -/

/-- `args.find(flag)->second.value.value()`. -/
def ArgMap.value (m : ArgMap D) (flag : String) : Option (ArgValue D) :=
  (findArg m.args flag).bind Arg.value

def ArgValue.i64? : ArgValue D → Option ℤ
  | .i64 v => some v
  | _ => none

def ArgValue.f64? : ArgValue D → Option D
  | .f64 v => some v
  | _ => none

def ArgValue.str? : ArgValue D → Option String
  | .str v => some v
  | _ => none

def ArgValue.bool? : ArgValue D → Option Bool
  | .bool v => some v
  | _ => none

/-- `std::get` of the value, for one of the alternatives. -/
def ArgMap.get {β : Type*} (alternative : ArgValue D → Option β) (m : ArgMap D) (flag : String) :
    Option β :=
  (m.value flag).bind alternative

def ArgMap.bget (m : ArgMap D) (flag : String) : Option Bool := m.get ArgValue.bool? flag
def ArgMap.iget (m : ArgMap D) (flag : String) : Option ℤ := m.get ArgValue.i64? flag
def ArgMap.fget (m : ArgMap D) (flag : String) : Option D := m.get ArgValue.f64? flag
def ArgMap.sget (m : ArgMap D) (flag : String) : Option String := m.get ArgValue.str? flag

/-- A call that may change the map. -/
inductive ArgCall (D : Type*)
  | importArgs (args : List (Arg D))
  | parseArgs (argv0 : String) (words : List String)

def ArgMap.call (stod : String → Except StdException D) (m : ArgMap D) :
    ArgCall D → Except StdException (Option String) × ArgMap D
  | .importArgs args => ((.ok (m.importArgs args).1), (m.importArgs args).2)
  | .parseArgs argv0 words => m.parseArgs stod argv0 words

/-- The map after some calls. -/
def ArgMap.calls (stod : String → Except StdException D) (m : ArgMap D) (cs : List (ArgCall D)) :
    ArgMap D :=
  cs.foldl (fun m c => (m.call stod c).2) m

/-! ## `compete.cc` -/

/-- `ARGS`. -/
def competeArgs : List (Arg D) :=
  [i64Arg "--node_id", i64Arg "--thread_count", i64Arg "--node_count", i64ArgOpt "--cache_depth" 0,
    boolArgOpt "--server"]

/-- What `main` makes of them. -/
def competeMap : ArgMap D := (ArgMap.empty.importArgs competeArgs).2

end Rome.Cli
