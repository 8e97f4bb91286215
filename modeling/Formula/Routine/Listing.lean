import Formula.Binary64
import Formula.Routine
import Formula.Text.Layout

/-!
# Listings of straight-line code

A listing is one function that takes the address of the inputs, `v0`, and returns a float; the value
of the node at index `n` is `v(n+1)`.  Every call declares a signature and a function of its own,
and all signatures come before all functions.  An instruction that reads constants directly repeats
them in a comment.

Constants are written in hexadecimal, with the thirteen digits of the fraction and a binary
exponent. Offsets are written in decimal up to 9999 and from there on in hexadecimal, in groups of
four digits.
-/

namespace Formula
namespace Routine

/-- A constant in hexadecimal. -/
def constantText (x : Binary64) : String :=
  let sign := if x.isNegative then "-" else ""
  let explicitSign := if x.isNegative then "-" else "+"
  let fraction := Text.paddedHex 13 (x.unsigned % Binary64.exponentUnit)
  let exponent : Nat := x.unsigned / Binary64.exponentUnit
  if Binary64.infinity < x.unsigned then explicitSign ++ "NaN"
  else if x.unsigned == Binary64.infinity then explicitSign ++ "Inf"
  else if x.unsigned == 0 then sign ++ "0.0"
  else if exponent == 0 then sign ++ "0x0." ++ fraction ++ "p-1022"
  else sign ++ "0x1." ++ fraction ++ "p" ++ toString ((exponent : Int) - 1023)

/-- Groups of four hexadecimal digits joined by underscores, the lowest group last. -/
def hexGroups (n : Nat) : List String :=
  if _ : n < 65536 then [Text.paddedHex 4 n]
  else hexGroups (n / 65536) ++ [Text.paddedHex 4 (n % 65536)]
termination_by n
decreasing_by omega

/-- The offset of an input from the address of the first, with its sign; nothing when it is zero. -/
def offsetText (slot : Nat) : String :=
  let offset := inputOffset slot
  if offset == 0 then ""
  else if offset < 10000 then "+" ++ toString offset
  else "+0x" ++ String.intercalate "_" (hexGroups offset)

/-- The name of a value. -/
def valueText (v : Value) : String := "v" ++ toString (v + 1)

/-- The name of an instruction of one operand. -/
def unaryText : UnaryOp → String
  | .neg => "fneg"
  | .abs => "fabs"
  | .floor => "floor"

/-- The name of an instruction of two operands. -/
def binaryText : BinaryOp → String
  | .add => "fadd"
  | .sub => "fsub"
  | .mul => "fmul"
  | .div => "fdiv"
  | .max => "fmax"
  | .min => "fmin"

/-- Items separated by commas. -/
def commas (items : List String) : String := String.intercalate ", " items

/-- The constants that are read directly, in a comment. -/
def constantsComment (nodes : Array Node) (operands : List Value) : String :=
  let constant (v : Value) : Option String :=
    match nodes[v]? with
    | some (.const x) => some (valueText v ++ " = " ++ constantText x)
    | _ => none
  match operands.filterMap constant with
  | [] => ""
  | constants => "  ; " ++ commas constants

/-- An instruction; calls are numbered in the order in which they are made. -/
def nodeText (calls : Nat) : Node → String
  | .load slot => "load.f64 notrap aligned readonly v0" ++ offsetText slot
  | .const x => "f64const " ++ constantText x
  | .unary op x => unaryText op ++ " " ++ valueText x
  | .binary op x y => binaryText op ++ " " ++ valueText x ++ ", " ++ valueText y
  | .call _ arguments =>
    "call fn" ++ toString calls ++ "(" ++ commas (arguments.map valueText) ++ ")"

/-- The lines of the nodes from an index on, after a number of calls; the latest line first. -/
def nodeLines (nodes : Array Node) : List Node → Nat → Nat → List String → List String
  | [], _, _, lines => lines.reverse
  | node :: rest, index, calls, lines =>
    let line :=
      "    " ++ valueText index ++ " = " ++ nodeText calls node ++
        constantsComment nodes node.operands
    nodeLines nodes rest (index + 1) (if isCall node then calls + 1 else calls) (line :: lines)

/-- The shims and argument counts of the calls, in order. -/
def calls (r : Routine) : List (Nat × Nat) :=
  r.nodes.toList.filterMap fun
    | .call shim arguments => some (shim, arguments.length)
    | _ => none

/-- The declarations of the calls, followed by an empty line if there are any. -/
def declarations (r : Routine) : List String :=
  let signature (i : Nat) (call : Nat × Nat) :=
    "    sig" ++ toString i ++ " = (" ++ commas (List.replicate call.2 "f64") ++
      ") -> f64 system_v"
  let function (i : Nat) (call : Nat × Nat) :=
    "    fn" ++ toString i ++ " = u0:" ++ toString call.1 ++ " sig" ++ toString i
  match r.calls with
  | [] => []
  | calls => calls.mapIdx signature ++ calls.mapIdx function ++ [""]

/-- The lines of a listing. -/
def lines (r : Routine) : List String :=
  ["function u0:0(i64) -> f64 system_v \x7b"] ++ r.declarations ++ ["block0(v0: i64):"] ++
    nodeLines r.nodes r.nodes.toList 0 0 [] ++
    ["    return " ++ valueText r.result ++ constantsComment r.nodes [r.result], "\x7d"]

/-- The listing of a routine. -/
def listing (r : Routine) : String := String.join (r.lines.map (· ++ "\n"))

end Routine
end Formula
