import Formula.CommandLine.Arguments
import Formula.Compile
import Formula.Routine.Listing

/-!
# The command line

A run shows the program of a formula, on request its straight-line code, and on request its value at
a point.  What a run prints is a value, `Outcome`, and printing it is all that is left to do.

An error in the formula is shown under the formula, with a caret at the character where it is.
-/

namespace Formula
namespace CommandLine

/-- The effects of a run. -/
structure Outcome where
  code : Nat
  output : String
  errors : String
  deriving DecidableEq, Repr

/-- The number of characters before a byte position. -/
def column (source : String) (position : Nat) : Nat :=
  match Text.splitAtByte? source.toList (min position source.utf8ByteSize) with
  | some (before, _) => before.length
  | none => position

/-- The lines about an error in a formula. -/
def sourceReport (source : String) (e : SourceError) : String :=
  "error: " ++ e.text ++ "\n  " ++ source ++ "\n  " ++
    String.ofList (List.replicate (column source e.position) ' ') ++ "^\n"

/-- The lines about anything else. -/
def report (message : String) : String := "error: " ++ message ++ "\n"

/-- The lines about a formula that could not be compiled. -/
def formulaReport (source : String) : FormulaError → String
  | .failed (.rejected e) => sourceReport source e
  | e => report e.message

/-- The function applied to a point, with the names of its inputs. -/
def pointText (source : String) (names : List String) (point : List Binary64) : String :=
  let item (i : Nat) (x : Binary64) := names.getD i ("x" ++ toString i) ++ "=" ++ Decimal.render x
  source ++ "(" ++ String.intercalate ", " (point.mapIdx item) ++ ")"

/-- The line about the value at a point, or the message of an error. -/
def evaluation (p : Program) (o : Options) (names : List String) (point : List Binary64) :
    Except String String :=
  match p.load o with
  | .error e => .error (CompileErrorOn.load e).message
  | .ok f =>
    match f.tryEvaluate Arithmetic.float (point.map Binary64.toFloat).toArray with
    | .error e => .error e.message
    | .ok x =>
      .ok ("Result: " ++ pointText p.source names point ++ " = " ++ Decimal.render (.ofFloat x) ++
        " (" ++ f.backend.name ++ " backend)\n")

/-- Everything after the listing of a program: what is printed and the message of an error. -/
def sections (p : Program) (a : Arguments) : String × Option String :=
  let o : Options := { backend := a.backend.getD .jit, optLevel := a.optLevel.getD .speed }
  let evaluated (printed : String) : String × Option String :=
    match a.point with
    | none => (printed, none)
    | some point =>
      match evaluation p o a.names point with
      | .ok line => (printed ++ line, none)
      | .error message => (printed, some message)
  if a.showCode then
    match p.routine with
    | .error e => ("CLIF IR:\n", some (CompileErrorOn.load e).message)
    | .ok routine => evaluated ("CLIF IR:\n" ++ routine.listing ++ "\n")
  else evaluated ""

/-- Compiles a formula as the arguments say. -/
def program (a : Arguments) (formula : String) : Except FormulaError Program :=
  if a.names.isEmpty then (Program.ofFormula formula (a.inputs.getD 0)).mapError .failed
  else Program.ofNamedFormula formula a.names

/-- Runs a formula as the arguments say. -/
def runFormula (a : Arguments) (formula : String) : Outcome :=
  match program a formula with
  | .error e => ⟨1, "", formulaReport formula e⟩
  | .ok p =>
    let printed := "Module:\n" ++ p.listing
    match sections p a with
    | (more, none) => ⟨0, printed ++ more, ""⟩
    | (more, some message) => ⟨1, printed ++ more, report message⟩

/-- How the command is used. -/
def usage : String := "usage: exprc [OPTIONS] EXPRESSION\n"

/-- The outcome of a command line. -/
def run (arguments : List String) : Outcome :=
  match parse arguments with
  | .error .usage => ⟨2, "", usage⟩
  | .error .version => ⟨0, "exprc 0.1.0\n", ""⟩
  | .error .help => ⟨0, usage, ""⟩
  | .ok (a, formula) => runFormula a formula

end CommandLine
end Formula
