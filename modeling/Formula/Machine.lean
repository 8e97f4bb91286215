import Formula.Arithmetic
import Formula.Fault
import Formula.Memory
import Formula.Program

/-!
# The stack machine

A run works on a row of cells that is set up once and never grows; a counter says how many of them
are live.  Small programs get a row of a fixed size, larger ones a row of the size they ask for.

Every access is checked here, and a failed check is a `Fault`.  The value of a run is the first
cell.

`evaluate` is a run on a row that is there.  `interpret` first asks memory for the row, and it asks
for as much as the program declares, whether the program uses it or not.

An instruction makes at most one more cell live, so that a run leaves all cells untouched that are
past the number of instructions.  `interpret` leaves them out when it sets up its row.  This saves
time and changes nothing: `evaluateOn_usedCells` says so of every program.
-/

namespace Formula
namespace Machine

variable {α : Type}

/-- A row of cells, of which the first `live` hold the stack. -/
structure Stack (α : Type) where
  cells : Array α
  live : Nat

namespace Stack

/-- Writes a value into the first free cell. -/
def push (s : Stack α) (x : α) : Except Fault (Stack α) :=
  match s with
  | ⟨cells, live⟩ =>
    if h : live < cells.size then .ok ⟨cells.set live x h, live + 1⟩ else .error .overflow

/-- Replaces the top value. -/
def unary (s : Stack α) (f : α → α) : Except Fault (Stack α) :=
  match s with
  | ⟨cells, live⟩ =>
    if h : 0 < live ∧ live ≤ cells.size then
      have top : live - 1 < cells.size := by omega
      let value := f cells[live - 1]
      .ok ⟨cells.set (live - 1) value top, live⟩
    else .error .underflow

/-- Replaces the two top values by one. -/
def binary (s : Stack α) (f : α → α → α) : Except Fault (Stack α) :=
  match s with
  | ⟨cells, live⟩ =>
    if h : 1 < live ∧ live ≤ cells.size then
      have top : live - 1 < cells.size := by omega
      have next : live - 2 < cells.size := by omega
      let value := f cells[live - 2] cells[live - 1]
      .ok ⟨cells.set (live - 2) value next, live - 1⟩
    else .error .underflow

end Stack

/-- One instruction. -/
def step (a : Arithmetic α) (p : Program) (point : Array α) (s : Stack α) :
    Instruction → Except Fault (Stack α)
  | .loadInput slot =>
    match point[slot]? with
    | some x => s.push x
    | none => .error (.input slot)
  | .loadConst index =>
    match p.constants[index]? with
    | some x => s.push (a.const x)
    | none => .error (.constant index)
  | .add => s.binary a.add
  | .sub => s.binary a.sub
  | .mul => s.binary a.mul
  | .div => s.binary a.div
  | .pow => s.binary a.pow
  | .neg => s.unary a.neg
  | .call index =>
    match p.functions[index]? with
    | none => .error (.function index)
    | some f => if f.arity = 2 then s.binary (a.apply₂ f.builtin) else s.unary (a.apply₁ f.builtin)

/-- Instructions in order, up to the first fault. -/
def run (a : Arithmetic α) (p : Program) (point : Array α) (s : Stack α) :
    List Instruction → Except Fault (Stack α)
  | [] => .ok s
  | i :: code =>
    match step a p point s i with
    | .error fault => .error fault
    | .ok s => run a p point s code

/-- The number of cells that every run has at least. -/
def fixedCells : Nat := 32

/-- The cells of a program: a fixed number if that is enough, else as many as it asks for. -/
def cells (p : Program) : Nat := if p.maxStack ≤ fixedCells then fixedCells else p.maxStack

/-- The cells of a program without those that its code is too short to reach. -/
def usedCells (p : Program) : Nat := min (cells p) (max fixedCells p.code.size)

/-- The value of a program at a point, on a row of cells. -/
def evaluateOn (a : Arithmetic α) (p : Program) (point row : Array α) : Except Fault α :=
  match run a p point ⟨row, 0⟩ p.code.toList with
  | .error fault => .error fault
  | .ok s =>
    match s.cells[0]? with
    | some x => .ok x
    | none => .error .underflow

/-- The value of a program at a point. -/
def evaluate (a : Arithmetic α) (p : Program) (point : Array α) : Except Fault α :=
  evaluateOn a p point (Array.replicate (cells p) (a.const .zero))

/-- Whether memory has room for the stack that a program declares.  A row of the fixed size is
always there. -/
def hasRow (p : Program) : Bool :=
  p.maxStack ≤ fixedCells || Memory.fits p.maxStack Memory.numberSize

/-- The value of a program at a point, if there is a row to run it on. -/
def interpret (a : Arithmetic α) (p : Program) (point : Array α) : Except Fault α :=
  if hasRow p then evaluateOn a p point (Array.replicate (usedCells p) (a.const .zero))
  else .error .memory

end Machine
end Formula
