import Formula.Decimal.Shortest
import Formula.Program

/-!
# Listings of programs

A listing has comment lines for the source, the entry point and the tables that are not empty, and
one line for each instruction with its index.
-/

namespace Formula
namespace Program

/-- One line of a listing: the index in at least four digits, and the instruction. -/
def codeLine (place : Nat) (i : Instruction) : String :=
  Text.paddedNat 4 place ++ "  " ++ i.text

/-- Numbered items of a table, separated by commas. -/
def tableLine (letter : String) (items : List String) : String :=
  String.intercalate ", "
    (items.mapIdx fun i item => letter ++ toString i ++ " = " ++ item)

/-- The lines of a listing. -/
def lines (p : Program) : List String :=
  let constants :=
    if p.constants.isEmpty then []
    else ["; constants: " ++ tableLine "c" (p.constants.toList.map Decimal.render)]
  let functions :=
    if p.functions.isEmpty then []
    else
      let item (f : FunctionName) := f.spelling ++ "/" ++ toString f.arity
      ["; functions: " ++ tableLine "f" (p.functions.toList.map item)]
  ["; source: " ++ p.source,
    "; entry: evaluate(" ++ toString p.inputs ++ " inputs) -> f64, max stack " ++
      toString p.maxStack] ++
    constants ++ functions ++ p.code.toList.mapIdx codeLine

/-- The listing of a program. -/
def listing (p : Program) : String := String.join (p.lines.map (· ++ "\n"))

end Program
end Formula
