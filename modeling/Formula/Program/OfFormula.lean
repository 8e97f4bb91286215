import Std.Data.HashSet
import Formula.Parser

/-!
# From text to program

`Program.ofFormula` takes a formula over numbered inputs and `Program.ofNamedFormula` one over named
inputs.  Both refuse more inputs than an instruction can refer to before they look at the text.

**Names** have to be distinct and free.  A name is free when it has the shape of a name and means
nothing yet: it is not the name of a constant or a function, and not `x` or `X` with a digit after
it.
-/

namespace Formula

/-- Why there is no program for a formula and its inputs. -/
inductive FormulaError where
  | failed (failure : Failure)
  /-- an input name that is repeated, reserved or no name at all -/
  | badName (name : String)
  deriving DecidableEq, Repr

/-- The wording of an error. -/
def FormulaError.message : FormulaError → String
  | failed (.rejected e) => e.text
  | failed .brokenCall => "a call lost count of its operands"
  | badName name => "duplicate or reserved input name: " ++ name

namespace Scope

/-- Whether a name already has a meaning in a formula. -/
def isReserved (name : String) : Bool :=
  let isNumbered :=
    match name.toList with
    | c :: d :: _ => (c == 'x' || c == 'X') && Text.isDigit d
    | _ => false
  isNumbered || (Pool.named? name).isSome || (FunctionName.ofSpelling? name).isSome

/-- Whether a name may be given to an input. -/
def isFree (name : String) : Bool := Text.isName name.toList && !isReserved name

/-- The first name that is not free or was seen before. -/
def badName? (seen : Std.HashSet String) : List String → Option String
  | [] => none
  | name :: names =>
    if isFree name && !seen.contains name then badName? (seen.insert name) names else some name

end Scope

namespace Program

/-- The program of a formula in a scope that instructions can reach. -/
def ofScope (scope : Scope) (source : String) : Except Failure Program :=
  if Scope.capacity < scope.inputs then .error (.of 0 .tooLarge) else parse scope source

/-- The program of a formula over the inputs `x0`, `x1` and so on. -/
def ofFormula (source : String) (inputs : Nat) : Except Failure Program :=
  ofScope (.numbered inputs) source

/-- The program of a formula over named inputs; the numbered form stays available. -/
def ofNamedFormula (source : String) (names : List String) : Except FormulaError Program :=
  match Scope.badName? ∅ names with
  | some name => .error (.badName name)
  | none => (ofScope (.named names) source).mapError .failed

end Program
end Formula
