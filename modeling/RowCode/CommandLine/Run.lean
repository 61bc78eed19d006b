import RowCode.CommandLine.Options
import RowCode.File.Directory
import RowCode.Lowering.Pass

/-!
# Running the command

The command prints the declarations of a program's projections and condition, a blank line if there
are any, and one line per output.
-/

namespace RowCode

inductive CommandResult where
  | printed (output : String)
  | failed (report : String)
  | misused
  deriving DecidableEq

namespace Command

def indent (message : String) : String :=
  String.ofList (message.toList.flatMap fun c => if c = '\n' then "\n    ".toList else [c])

def report (attempt cause : String) : String :=
  attempt ++ "\n\nCaused by:\n    " ++ indent cause ++ "\n"

def context (o : Options) (p : Program) : LoweringContext where
  program := p
  adapter := TypeAdapter.standard
  inputs := [⟨.var ⟨o.row, .objectArray⟩, .ofRowType p.inputRowType TypeAdapter.standard⟩]
  policy := if o.nameAll then .all else .shared
  stem := o.stem
  table := if o.native then .native else .standard

def projectLines : Nat → List Expr → String
  | _, [] => ""
  | index, e :: rest =>
    "project " ++ toString index ++ ": " ++ e.text ++ "\n" ++ projectLines (index + 1) rest

def render (block : Block) (projects : List Expr) (condition : Expr) : String :=
  block.text ++ (if block.length = 0 then "" else "\n") ++ projectLines 0 projects ++
    "condition: " ++ condition.text ++ "\n"

/-- Lowers the outputs of a program, the projections first unless only the condition is wanted. -/
def lowerOutputs (o : Options) (p : Program) : CommandResult :=
  let c := context o p
  let (projects, block) :=
    if o.conditionOnly then (.ok [], .empty) else c.lowerProjects .empty
  match projects with
  | .error e => .failed (report "Failed to translate projections" e.message)
  | .ok projects =>
    match c.lowerCondition block with
    | (.error e, _) => .failed (report "Failed to translate condition" e.message)
    | (.ok condition, block) => .printed (render block projects condition)

/-- Runs the command, given how files are read. -/
def run (read? : String → Option (List UInt8)) (args : List String) : CommandResult :=
  match Options.ofArguments? args with
  | none => .misused
  | some o =>
    match Program.load read? o.program o.format with
    | .error e => .failed (report ("Failed to load " ++ o.program) e.message)
    | .ok p => lowerOutputs o p

end Command

end RowCode
