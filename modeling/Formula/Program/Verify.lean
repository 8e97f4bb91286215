import Formula.Program

/-!
# Checking a program

`Program.verify` follows the depth of the stack through the code and accepts a program when

* every input, constant and function that an instruction names exists,
* no instruction pops more values than there are and none leaves more than the declared maximum,
* one value is left at the end.

It stops at the first instruction that breaks a rule.  Of two rules broken by one instruction the
one listed first is reported.

What the constants are and what the functions compute does not matter.  The check looks at the
`Shape` of a program, where a function is its number of arguments, and a shape may have functions of
any number of them.
-/

namespace Formula

/-- What the check of a program looks at. -/
structure Shape where
  inputs : Nat
  maxStack : Nat
  /-- the size of the pool -/
  constants : Nat
  /-- the number of arguments of each function in the table -/
  arities : Array Nat
  code : Array Instruction
  deriving Repr

namespace Shape

/-- How many values an instruction pops; `none` for a call past the end of the function table. -/
def pops? (m : Shape) : Instruction → Option Nat
  | .call index => m.arities[index]?
  | i => i.pops? #[]

/-- The depth after an instruction that is met at a given depth, or the first rule it breaks. -/
def depthAfter (m : Shape) (depth : Nat) (i : Instruction) : Except Malformation Nat :=
  match operandFault i with
  | some fault => .error fault
  | none =>
    match m.pops? i with
    | none => .error (.unknownFunction i)
    | some pops =>
      if depth < pops then .error (.underflow i)
      else if m.maxStack < depth - pops + 1 then .error (.overflow (depth - pops + 1) m.maxStack)
      else .ok (depth - pops + 1)
where
  /-- A load from outside the tables. -/
  operandFault : Instruction → Option Malformation
    | .loadInput slot => if m.inputs ≤ slot then some (.undeclaredInput slot m.inputs) else none
    | .loadConst index =>
      if m.constants ≤ index then some (.unknownConstant index m.constants) else none
    | _ => none

/-- The depth after the code that starts at a place with a given depth. -/
def depthFrom (m : Shape) : List Instruction → Nat → Nat → Except Malformed Nat
  | [], _, depth => .ok depth
  | i :: code, place, depth =>
    match m.depthAfter depth i with
    | .error reason => .error ⟨place, reason⟩
    | .ok depth => m.depthFrom code (place + 1) depth

/-- Checks a shape. -/
def verify (m : Shape) : Except Malformed Unit :=
  match m.depthFrom m.code.toList 0 0 with
  | .error e => .error e
  | .ok depth => if depth == 1 then .ok () else .error ⟨m.code.size, .leftover depth⟩

end Shape

namespace Program

/-- The shape of a program. -/
def shape (p : Program) : Shape where
  inputs := p.inputs
  maxStack := p.maxStack
  constants := p.constants.size
  arities := (p.functions.toList.map FunctionName.arity).toArray
  code := p.code

/-- Checks a program. -/
def verify (p : Program) : Except Malformed Unit := p.shape.verify

end Program
end Formula
