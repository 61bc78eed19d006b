import RowCode.File.Format

/-!
# Command-line options

One argument names the program file. Options may come before or after it, each at most once. Flags
of one letter may be written together, and a value may follow its option in the same argument or in
the next one, where it must not look like an option. After `--` nothing is an option.
-/

namespace RowCode

structure Options where
  program : String
  format : Option FileFormat
  nameAll : Bool
  stem : String
  native : Bool
  conditionOnly : Bool
  row : String
  debug : Bool
  deriving DecidableEq

namespace Options

inductive Flag where
  | nameAll | native | conditionOnly | debug
  deriving DecidableEq

inductive Setting where
  | format | stem | row
  deriving DecidableEq

inductive Switch where
  | flag (f : Flag)
  | setting (s : Setting)

def Switch.ofLong? : String → Option Switch
  | "format" => some (.setting .format)
  | "materialize-all" => some (.flag .nameAll)
  | "prefix" => some (.setting .stem)
  | "native" => some (.flag .native)
  | "condition-only" => some (.flag .conditionOnly)
  | "row" => some (.setting .row)
  | "debug" => some (.flag .debug)
  | _ => none

def Switch.ofShort? : Char → Option Switch
  | 'f' => some (.setting .format)
  | 'm' => some (.flag .nameAll)
  | 'p' => some (.setting .stem)
  | 'n' => some (.flag .native)
  | 'c' => some (.flag .conditionOnly)
  | 'r' => some (.setting .row)
  | 'd' => some (.flag .debug)
  | _ => none

structure Given where
  program : Option String := none
  flags : List Flag := []
  values : List (Setting × String) := []

def Given.addFlag? (g : Given) (f : Flag) : Option Given :=
  if f ∈ g.flags then none else some { g with flags := f :: g.flags }

def Given.addValue? (g : Given) (s : Setting) (value : String) : Option Given :=
  if (g.values.lookup s).isSome then none else some { g with values := (s, value) :: g.values }

def Given.addProgram? (g : Given) (path : String) : Option Given :=
  if g.program.isSome || path = "" then none else some { g with program := some path }

/-- The value that follows a short option in its own argument, if there is one. -/
def attachedValue? : List Char → Option String
  | [] => none
  | '=' :: cs => some (String.ofList cs)
  | cs => some (String.ofList cs)

/-- Takes an argument of short options. Gives also the setting that still wants its value. -/
def takeShort? (g : Given) : List Char → Option (Given × Option Setting)
  | [] => some (g, none)
  | c :: cs =>
    match Switch.ofShort? c with
    | none => none
    | some (.flag f) => (g.addFlag? f).bind fun g => takeShort? g cs
    | some (.setting s) =>
      match attachedValue? cs with
      | some value => (g.addValue? s value).map fun g => (g, none)
      | none => some (g, some s)

def takeLong? (g : Given) (cs : List Char) : Option (Given × Option Setting) :=
  let name := String.ofList (cs.takeWhile (· ≠ '='))
  let value := (cs.dropWhile (· ≠ '=')).tail?.map String.ofList
  match Switch.ofLong? name, value with
  | none, _ => none
  | some (.flag f), none => (g.addFlag? f).map fun g => (g, none)
  | some (.flag _), some _ => none
  | some (.setting s), some value => (g.addValue? s value).map fun g => (g, none)
  | some (.setting s), none => some (g, some s)

def takePlain? (g : Given) : List String → Option Given
  | [] => some g
  | arg :: rest => (g.addProgram? arg).bind fun g => takePlain? g rest

/-- Takes all arguments; `pending` is a setting that wants its value from the next one. -/
def takeAll? (g : Given) (pending : Option Setting) : List String → Option Given
  | [] => if pending.isSome then none else some g
  | arg :: rest =>
    match arg.toList, pending with
    | ['-', '-'], none => takePlain? g rest
    | '-' :: '-' :: cs, none => (takeLong? g cs).bind fun (g, pending) => takeAll? g pending rest
    | '-' :: c :: cs, none =>
      (takeShort? g (c :: cs)).bind fun (g, pending) => takeAll? g pending rest
    | '-' :: _ :: _, some _ => none
    | _, some s => (g.addValue? s arg).bind fun g => takeAll? g none rest
    | _, none => (g.addProgram? arg).bind fun g => takeAll? g none rest

/-- The format of a name; one that is not given need not be known. -/
def format? : Option String → Option (Option FileFormat)
  | none => some none
  | some "json" => some (some .json)
  | some "bincode" => some (some .binary)
  | some _ => none

def ofArguments? (args : List String) : Option Options := do
  let g ← takeAll? {} none args
  let program ← g.program
  let format ← format? (g.values.lookup .format)
  pure {
    program, format
    nameAll := .nameAll ∈ g.flags
    stem := (g.values.lookup .stem).getD "v"
    native := .native ∈ g.flags
    conditionOnly := .conditionOnly ∈ g.flags
    row := (g.values.lookup .row).getD "row"
    debug := .debug ∈ g.flags }

end Options

end RowCode
