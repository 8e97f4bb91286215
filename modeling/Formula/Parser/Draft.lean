import Formula.Pool
import Formula.Program

/-!
# A program in the making

The parser writes instructions as soon as their operands are complete.  A draft holds what it has
written, the tables that the code refers to, and the depth of the stack after the code so far
together with the greatest depth yet.  That greatest depth becomes the stack that the program asks
for.
-/

namespace Formula

/-- A program in the making. -/
structure Draft where
  pool : Pool
  functions : FunctionTable
  code : Array Instruction
  depth : Nat
  peak : Nat

namespace Draft

/-- Nothing written yet. -/
def empty : Draft where
  pool := .empty
  functions := .empty
  code := #[]
  depth := 0
  peak := 0

/-- Writes an instruction that pushes a value. -/
def push (d : Draft) (i : Instruction) : Draft :=
  { d with code := d.code.push i, depth := d.depth + 1, peak := max d.peak (d.depth + 1) }

/-- Writes an instruction that pops `arity` values and pushes one, if there are so many. -/
def reduce? (d : Draft) (i : Instruction) (arity : Nat) : Option Draft :=
  if d.depth < arity then none
  else some { d with code := d.code.push i, depth := d.depth - arity + 1 }

/-- Writes the load of an input. -/
def loadInput (d : Draft) (slot : Nat) : Draft := d.push (.loadInput slot)

/-- Writes the load of a constant, if the pool takes its spelling. -/
def loadConstant? (d : Draft) (text : String) : Option Draft :=
  match d with
  | ⟨pool, functions, code, depth, peak⟩ =>
    match pool.intern text with
    | (none, _) => none
    | (some entry, pool) =>
      some (push ⟨pool, functions, code, depth, peak⟩ (.loadConst entry.index))

/-- The program of a finished draft. -/
def toProgram (d : Draft) (source : String) (inputs : Nat) : Program where
  source := source
  inputs := inputs
  maxStack := d.peak
  constants := d.pool.values
  functions := d.functions.entries
  code := d.code

end Draft
end Formula
