import Formula.Binary64
import Formula.Instruction

/-!
# Programs

A program is a sequence of instructions with the tables it refers to: the constants, the functions
it calls, the number of its inputs and the stack it asks for.  The text it was compiled from goes
along for listings.

A program need not make sense; `Malformed` says where and how one does not.  The check of a program
and its lowering to straight-line code find such defects independently, each with words of its own.
-/

namespace Formula

/-- A program for the stack machine. -/
structure Program where
  source : String
  inputs : Nat
  maxStack : Nat
  constants : Array Binary64
  functions : Array FunctionName
  code : Array Instruction
  deriving Repr

/-- What can be wrong with a program at one of its instructions, or at its end. -/
inductive Malformation where
  /-- an input past the declared ones -/
  | undeclaredInput (slot inputs : Nat)
  /-- a constant past the end of the pool -/
  | unknownConstant (index size : Nat)
  /-- a call past the end of the function table -/
  | unknownFunction (call : Instruction)
  /-- fewer values on the stack than the instruction pops -/
  | underflow (instruction : Instruction)
  /-- more values on the stack than the program asked for -/
  | overflow (depth maxStack : Nat)
  /-- not exactly one value at the end -/
  | leftover (depth : Nat)
  /-- fewer operands than an instruction needs, seen while lowering -/
  | missingOperand
  /-- a constant past the end of the pool, seen while lowering -/
  | missingConstant (index : Nat)
  /-- a call past the end of the function table, seen while lowering -/
  | missingFunction (index : Nat)
  /-- values left below the result, seen while lowering -/
  | extraOperands (count : Nat)
  deriving DecidableEq, Repr

/-- The wording of a defect. -/
def Malformation.message : Malformation → String
  | undeclaredInput slot inputs =>
    "input x" ++ toString slot ++ " out of range for " ++ toString inputs ++ " inputs"
  | unknownConstant index size =>
    "constant c" ++ toString index ++ " out of range for pool of " ++ toString size
  | unknownFunction call => call.text ++ " has no function entry"
  | underflow instruction => instruction.text ++ " underflows the stack"
  | overflow depth maxStack =>
    "stack depth " ++ toString depth ++ " exceeds declared maximum " ++ toString maxStack
  | leftover depth => toString depth ++ " values left on the stack, expected 1"
  | missingOperand => "operand stack underflow during lowering"
  | missingConstant index => "constant c" ++ toString index ++ " out of range"
  | missingFunction index => "function f" ++ toString index ++ " out of range"
  | extraOperands count => toString count ++ " extra values left after lowering"

/-- A defect at an instruction, or at the length of the code for its end. -/
structure Malformed where
  index : Nat
  reason : Malformation
  deriving DecidableEq, Repr

/-- The whole wording of a defect with its place. -/
def Malformed.message (m : Malformed) : String :=
  "malformed module at instruction " ++ toString m.index ++ ": " ++ m.reason.message

end Formula
