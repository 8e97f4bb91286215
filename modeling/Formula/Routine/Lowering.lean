import Std.Data.HashMap
import Formula.LoadError
import Formula.Memory
import Formula.Program
import Formula.Routine

/-!
# Lowering stack code

Lowering replays the code of a program on a stack of values instead of numbers, so that the stack is
gone from what comes out.

* An input is loaded at its first use, and later uses share that value.  Inputs past the declared
  ones are loaded anew at each use.
* The operand of a power is looked at: when the exponent is a constant, or a constant with its sign
  changed any number of times, and it is an integer from 0 to 64, the power becomes multiplications.
  Negative exponents are left alone, because a reciprocal underflows where the power does not.
* Shims are numbered in the order in which they are first asked for, and a shim is known by its
  name.  Those of the function table come first, in the order of the table, whether they are called
  or not.

Lowering needs no check of the program.  It has checks of its own for what it cannot do without.

`Program.lower` is the replay.  `Program.routine` sets up memory for it first: a row for the stack
and a row for the inputs, of the sizes that the program declares.  A program that declares more than
memory can have fails there, before its first instruction.
-/

namespace Formula

/-- Nodes in the making, with the shims asked for and the values of inputs already loaded. -/
structure Builder where
  nodes : Array Node
  imports : Array Builtin
  loaded : Std.HashMap Nat Value

namespace Builder

/-- No nodes yet. -/
def empty : Builder := ⟨#[], #[], ∅⟩

/-- Adds a node and gives its value. -/
def emit (b : Builder) (node : Node) : Value × Builder :=
  match b with
  | ⟨nodes, imports, loaded⟩ =>
    let value := nodes.size
    (value, ⟨nodes.push node, imports, loaded⟩)

/-- The position of the shim of a builtin, asked for now if no shim of its name was before. -/
def shim (b : Builder) (f : Builtin) : Nat × Builder :=
  match b.imports.findIdx? (fun g => g.symbol? == f.symbol?) with
  | some position => (position, b)
  | none => (b.imports.size, { b with imports := b.imports.push f })

/-- Asks for the shims of a function table. -/
def importAll (b : Builder) (functions : List FunctionName) : Builder :=
  functions.foldl (fun b f => if f.builtin.isInline then b else (b.shim f.builtin).2) b

/-- The value of an input. -/
def input (b : Builder) (inputs slot : Nat) : Value × Builder :=
  match b.loaded[slot]? with
  | some value => (value, b)
  | none =>
    match b.emit (.load slot) with
    | (value, ⟨nodes, imports, loaded⟩) =>
      (value, ⟨nodes, imports, if slot < inputs then loaded.insert slot value else loaded⟩)

/-- A call of the shim of a builtin. -/
def call (b : Builder) (f : Builtin) (arguments : List Value) : Value × Builder :=
  let (position, b) := b.shim f
  b.emit (.call position arguments)

/-- A builtin applied to values: instructions where there are some, else a call. -/
def apply (b : Builder) (f : Builtin) (arguments : List Value) : Value × Builder :=
  match f, arguments with
  | .abs, [x] => b.emit (.unary .abs x)
  | .floor, [x] => b.emit (.unary .floor x)
  | .round, [x] =>
    let (half, b) := b.emit (.const .half)
    let (shifted, b) := b.emit (.binary .add x half)
    b.emit (.unary .floor shifted)
  | .max, [x, y] => b.emit (.binary .max x y)
  | .min, [x, y] => b.emit (.binary .min x y)
  | f, arguments => b.call f arguments

/-- Multiplies a result by the base raised to `n`, one bit of `n` after the other from the lowest.
The base is squared only while a higher bit is left. -/
def powerLoop (b : Builder) (result base : Value) (n : Nat) : Value × Builder :=
  if _ : n = 0 then (result, b)
  else
    let (result, b) := if n % 2 = 1 then b.emit (.binary .mul result base) else (result, b)
    let (base, b) := if 1 < n then b.emit (.binary .mul base base) else (base, b)
    b.powerLoop result base (n / 2)
termination_by n
decreasing_by omega

/-- A value raised to a natural number, by multiplications. -/
def power (b : Builder) (base : Value) : Nat → Value × Builder
  | 0 => b.emit (.const .one)
  | 1 => (base, b)
  | 2 => b.emit (.binary .mul base base)
  | 3 =>
    let (square, b) := b.emit (.binary .mul base base)
    b.emit (.binary .mul square base)
  | 4 =>
    let (square, b) := b.emit (.binary .mul base base)
    b.emit (.binary .mul square square)
  | n =>
    let (one, b) := b.emit (.const .one)
    b.powerLoop one base n

end Builder

/-- A value on the stack of a lowering, with the number it is known to be. -/
structure Lowered where
  value : Value
  known : Option Binary64

/-- The greatest exponent that becomes multiplications. -/
def maxInlineExponent : Nat := 64

/-- The integer from 0 to 64 that a number is equal to. -/
def inlineExponent? (e : Binary64) : Option Nat :=
  match e.natural? with
  | some n => if n ≤ maxInlineExponent then some n else none
  | none => none

/-- A lowering under way: the nodes so far and the stack of values, the top first. -/
structure Lowering where
  builder : Builder
  stack : List Lowered

namespace Lowering

/-- Pushes a value of which nothing is known. -/
def push (result : Value × Builder) (stack : List Lowered) : Lowering :=
  ⟨result.2, ⟨result.1, none⟩ :: stack⟩

/-- Replaces the two top values. -/
def binary (s : Lowering) (op : BinaryOp) : Except Malformation Lowering :=
  match s with
  | ⟨builder, y :: x :: stack⟩ => .ok (push (builder.emit (.binary op x.value y.value)) stack)
  | _ => .error .missingOperand

/-- One instruction. -/
def step (p : Program) (s : Lowering) : Instruction → Except Malformation Lowering
  | .loadInput slot =>
    match s with
    | ⟨builder, stack⟩ => .ok (push (builder.input p.inputs slot) stack)
  | .loadConst index =>
    match p.constants[index]? with
    | none => .error (.missingConstant index)
    | some x =>
      match s with
      | ⟨builder, stack⟩ =>
        let (value, builder) := builder.emit (.const x)
        .ok ⟨builder, ⟨value, some x⟩ :: stack⟩
  | .add => s.binary .add
  | .sub => s.binary .sub
  | .mul => s.binary .mul
  | .div => s.binary .div
  | .pow =>
    match s with
    | ⟨builder, exponent :: base :: stack⟩ =>
      match exponent.known.bind inlineExponent? with
      | some n => .ok (push (builder.power base.value n) stack)
      | none => .ok (push (builder.call .pow [base.value, exponent.value]) stack)
    | _ => .error .missingOperand
  | .neg =>
    match s with
    | ⟨builder, x :: stack⟩ =>
      let (value, builder) := builder.emit (.unary .neg x.value)
      .ok ⟨builder, ⟨value, x.known.map Binary64.neg⟩ :: stack⟩
    | _ => .error .missingOperand
  | .call index =>
    match p.functions[index]? with
    | none => .error (.missingFunction index)
    | some f =>
      if f.arity = 2 then
        match s with
        | ⟨builder, y :: x :: stack⟩ =>
          .ok (push (builder.apply f.builtin [x.value, y.value]) stack)
        | _ => .error .missingOperand
      else
        match s with
        | ⟨builder, x :: stack⟩ => .ok (push (builder.apply f.builtin [x.value]) stack)
        | _ => .error .missingOperand

/-- The code that starts at a place. -/
def run (p : Program) (s : Lowering) : List Instruction → Nat → Except Malformed Lowering
  | [], _ => .ok s
  | i :: code, place =>
    match s.step p i with
    | .error reason => .error ⟨place, reason⟩
    | .ok s => run p s code (place + 1)

end Lowering

/-- The straight-line code of a program. -/
def Program.lower (p : Program) : Except Malformed Routine :=
  let start : Lowering := ⟨Builder.empty.importAll p.functions.toList, []⟩
  match start.run p p.code.toList 0 with
  | .error e => .error e
  | .ok s =>
    match s.stack with
    | [] => .error ⟨p.code.size, .missingOperand⟩
    | [x] => .ok ⟨s.builder.nodes, s.builder.imports, x.value⟩
    | _ :: extra => .error ⟨p.code.size, .extraOperands extra.length⟩

/-- The bytes of a place on the stack of a lowering: a value, and a number if it is known. -/
def Lowered.size : Nat := 24

/-- The bytes of a place for the value of an input, which may not be loaded yet. -/
def Builder.inputSize : Nat := 8

/-- Whether memory has room for the stack and the inputs that a program declares. -/
def Program.fitsMemory (p : Program) : Bool :=
  Memory.fits p.maxStack Lowered.size && Memory.fits p.inputs Builder.inputSize

/-- The straight-line code of a program, if there is room to make it. -/
def Program.routine (p : Program) : Except LoadError Routine :=
  if p.fitsMemory then p.lower.mapError .malformed else .error .memory

end Formula
