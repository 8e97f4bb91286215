import Formula.Pool
import Formula.SourceError

/-!
# What a name stands for

A name in the place of an operand is, by the first rule that applies,

1. a declared name, which stands for the input at its first position,
2. `E` or `PI`, a constant,
3. `x` or `X` and digits, the input of that number.

An input has to be one of the declared inputs and within reach of an instruction.  Names of
functions never come here: they need an argument list.
-/

namespace Formula

/-- What is loaded for a name. -/
inductive Operand where
  | input (slot : Nat)
  | constant
  deriving DecidableEq, Repr

/-- The inputs a formula may use: how many, and names for the first of them. -/
structure Scope where
  inputs : Nat
  names : List String
  deriving DecidableEq, Repr

namespace Scope

/-- Scope of numbered inputs only. -/
def numbered (inputs : Nat) : Scope := ⟨inputs, []⟩

/-- Scope of named inputs. -/
def named (names : List String) : Scope := ⟨names.length, names⟩

/-- The number of inputs that an instruction can refer to. -/
def capacity : Nat := 65536

/-- Numbers of inputs from here on are not even read. -/
def indexLimit : Nat := 0x10000000000000000

/-- The input of a slot, for a name that was resolved to it. -/
def input (s : Scope) (name : String) (slot : Nat) : Except Cause Operand :=
  if s.inputs ≤ slot then .error (.undeclaredInput name s.inputs)
  else if capacity ≤ slot then .error .tooLarge
  else .ok (.input slot)

/-- The input of a number, for a name of `x` or `X` and the characters `index`. -/
def indexed (s : Scope) (name : String) (index : List Char) : Except Cause Operand :=
  match Decimal.digits? index with
  | some slot => if slot < indexLimit then s.input name slot else .error (.malformedIndex name)
  | none =>
    if index.isEmpty || (index.head?.map Text.isDigit).getD false then
      .error (.malformedIndex name)
    else .error (.unknownName name)

/-- What a name stands for. -/
def resolve (s : Scope) (name : String) : Except Cause Operand :=
  match s.names.idxOf? name with
  | some slot => s.input name slot
  | none =>
    if (Pool.named? name).isSome then .ok .constant
    else
      match name.toList with
      | [] => .error (.unknownName name)
      | c :: index =>
        if c == 'x' || c == 'X' then s.indexed name index else .error (.unknownName name)

end Scope
end Formula
