import Formula.Arithmetic
import Formula.Fault
import Formula.Memory

/-!
# Straight-line code

A routine is a list of nodes, each of which computes one value from the inputs, a constant or
earlier values; a value is the index of the node that computes it.  There is no stack and no
control.  Builtins without an instruction of their own are called through shims, which a routine
refers to by their position in its list of imports.

The inputs stand side by side in memory, and a load takes one of them by its distance from the
first.  A load from past their end is a fault here.
-/

namespace Formula

/-- A value of a routine: the index of the node that computes it. -/
abbrev Value := Nat

/-- Instructions of one operand. -/
inductive UnaryOp where
  | neg
  | abs
  | floor
  deriving DecidableEq, Repr

/-- Instructions of two operands. -/
inductive BinaryOp where
  | add
  | sub
  | mul
  | div
  | max
  | min
  deriving DecidableEq, Repr

/-- How a value is computed. -/
inductive Node where
  | load (slot : Nat)
  | const (x : Binary64)
  | unary (op : UnaryOp) (x : Value)
  | binary (op : BinaryOp) (x y : Value)
  /-- a call of the shim at a position of the imports -/
  | call (shim : Nat) (arguments : List Value)
  deriving Repr

/-- The values that a node reads, in order. -/
def Node.operands : Node → List Value
  | load _ | const _ => []
  | unary _ x => [x]
  | binary _ x y => [x, y]
  | call _ arguments => arguments

/-- Straight-line code with its imports and the value it returns. -/
structure Routine where
  nodes : Array Node
  imports : Array Builtin
  result : Value
  deriving Repr

namespace Arithmetic

variable {α : Type}

/-- An instruction of one operand. -/
def unary (a : Arithmetic α) : UnaryOp → α → α
  | .neg => a.neg
  | .abs => a.abs
  | .floor => a.floor

/-- An instruction of two operands. -/
def binary (a : Arithmetic α) : BinaryOp → α → α → α
  | .add => a.add
  | .sub => a.sub
  | .mul => a.mul
  | .div => a.div
  | .max => a.max
  | .min => a.min

end Arithmetic

namespace Routine

variable {α : Type}

/-- The distance of an input from the first, in bytes. -/
def inputOffset (slot : Nat) : Nat := Memory.numberSize * slot

/-- A value computed before. -/
def lookup (values : Array α) (v : Value) : Except Fault α :=
  match values[v]? with
  | some x => .ok x
  | none => .error (.value v)

/-- What a node computes, given the values before it. -/
def evaluateNode (a : Arithmetic α) (imports : Array Builtin) (point values : Array α) :
    Node → Except Fault α
  | .load slot =>
    match point[slot]? with
    | some x => .ok x
    | none => .error (.input slot)
  | .const x => .ok (a.const x)
  | .unary op x => (lookup values x).map (a.unary op)
  | .binary op x y => do return a.binary op (← lookup values x) (← lookup values y)
  | .call shim arguments =>
    match imports[shim]?, arguments with
    | none, _ => .error (.function shim)
    | some f, [x] => (lookup values x).map (a.apply₁ f)
    | some f, [x, y] => do return a.apply₂ f (← lookup values x) (← lookup values y)
    | some _, arguments => .error (.arguments arguments.length)

/-- The values of nodes in order, after the values before them. -/
def run (a : Arithmetic α) (imports : Array Builtin) (point : Array α) :
    List Node → Array α → Except Fault (Array α)
  | [], values => .ok values
  | node :: nodes, values =>
    match evaluateNode a imports point values node with
    | .error fault => .error fault
    | .ok x => run a imports point nodes (values.push x)

/-- The value of a routine at a point. -/
def evaluate (a : Arithmetic α) (r : Routine) (point : Array α) : Except Fault α :=
  match run a r.imports point r.nodes.toList #[] with
  | .error fault => .error fault
  | .ok values => lookup values r.result

/-- Whether a node calls a shim. -/
def isCall : Node → Bool
  | .call _ _ => true
  | _ => false

end Routine
end Formula
