import Formula.Builtin
import Formula.Operator

/-!
# Instructions of the stack machine

An instruction pops its operands and pushes one value.  Inputs, constants and functions are referred
to by their index in the tables of the program that the instruction belongs to.
-/

namespace Formula

/-- One instruction. -/
inductive Instruction where
  /-- push an input -/
  | loadInput (slot : Nat)
  /-- push a constant -/
  | loadConst (index : Nat)
  | add
  | sub
  | mul
  | div
  | pow
  | neg
  /-- pop as many values as the function has arguments and push its value -/
  | call (index : Nat)
  deriving DecidableEq, Repr

namespace Instruction

/-- The instruction of a binary operator. -/
def ofOperator : Operator → Instruction
  | .plus => add
  | .minus => sub
  | .star => mul
  | .slash => div
  | .caret => pow

/-- How many values an instruction pops; `none` for a call past the end of the function table.
Every instruction pushes one. -/
def pops? (functions : Array FunctionName) : Instruction → Option Nat
  | loadInput _ | loadConst _ => some 0
  | add | sub | mul | div | pow => some 2
  | neg => some 1
  | call index => functions[index]?.map FunctionName.arity

/-- How an instruction is written. -/
def text : Instruction → String
  | loadInput slot => "load_input x" ++ toString slot
  | loadConst index => "load_const c" ++ toString index
  | add => "add"
  | sub => "sub"
  | mul => "mul"
  | div => "div"
  | pow => "pow"
  | neg => "neg"
  | call index => "call f" ++ toString index

end Instruction
end Formula
