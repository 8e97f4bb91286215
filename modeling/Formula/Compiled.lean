import Formula.Host
import Formula.Machine
import Formula.Program.Verify
import Formula.Script

/-!
# Compiled functions

Loading checks a program and makes it callable, by straight-line code or by the stack machine.
Which of them it is depends on the options and on the host.  The function that comes out knows its
number of inputs and refuses points of any other length; the code behind it is never run on one.

Each way to call a function is defined once, as a script of what its code is invoked on, and the
value is the run of that script.
-/

namespace Formula

/-- What a compiled function runs. -/
inductive Code where
  | native (routine : Routine)
  | interpreted (program : Program)

namespace Code

/-- The backend that runs the code. -/
def backend : Code → Backend
  | native _ => .jit
  | interpreted _ => .interpreter

/-- The value of the code at a point, whose length is not checked. -/
def evaluate {α : Type} (a : Arithmetic α) : Code → Array α → Except Fault α
  | native routine, point => routine.evaluate a point
  | interpreted program, point => Machine.interpret a program point

/-- Whether the code can reach a builtin that is computed out of line.  Their last bits are not
fixed by this library. -/
def usesOutOfLine : Code → Bool
  | native routine => routine.nodes.any Routine.isCall
  | interpreted program =>
    program.code.any fun
      | .pow => true
      | .call index => (program.functions[index]?.map fun f => !f.builtin.isInline).getD false
      | _ => false

end Code

/-- A callable function. -/
structure Compiled where
  source : String
  inputs : Nat
  maxStack : Nat
  names : List String
  code : Code

/-- Settles what became of straight-line code.  The stack machine takes over from a host without a
target, if the options say so. -/
def Program.orFallback {ρ : Type} (p : Program) (o : Options) :
    Except (LoadErrorOn ρ) Routine → Except (LoadErrorOn ρ) Code
  | .ok routine => .ok (.native routine)
  | .error e =>
    match e.fallback? o with
    | some _ => .ok (.interpreted p)
    | none => .error e

/-- The code of a checked program on a host. -/
def Program.codeOn {ρ : Type} (host : Host ρ) (p : Program) (o : Options) :
    Except (LoadErrorOn ρ) Code :=
  match o.backend with
  | .interpreter => .ok (.interpreted p)
  | .jit => p.orFallback o (p.build host o)

/-- Checks a program and makes it callable on a host. -/
def Program.loadOn {ρ : Type} (host : Host ρ) (p : Program) (o : Options) :
    Except (LoadErrorOn ρ) Compiled :=
  match p.verify with
  | .error e => .error (.malformed e)
  | .ok _ =>
    match p.codeOn host o with
    | .error e => .error e
    | .ok code =>
      .ok { source := p.source, inputs := p.inputs, maxStack := p.maxStack, names := [], code }

/-- Checks a program and makes it callable, on a host that takes everything. -/
def Program.load (p : Program) (o : Options) : Except LoadError Compiled := p.loadOn .ready o

namespace Compiled

variable {α : Type}

/-- The backend of a function. -/
def backend (f : Compiled) : Backend := f.code.backend

/-- Refuses a point of the wrong length. -/
def checkLength (f : Compiled) (point : Array α) : Except EvaluationError Unit :=
  if point.size = f.inputs then .ok () else .error (.length f.inputs point.size)

/-- The value of the code behind a function. -/
def value (a : Arithmetic α) (f : Compiled) (point : Array α) : Except EvaluationError α :=
  (f.code.evaluate a point).mapError .fault

/-- A call on a point.  The code is not invoked on a point of the wrong length. -/
def pointScript (f : Compiled) (point : Array α) : Script α (Except EvaluationError α) :=
  match f.checkLength point with
  | .error e => .done (.error e)
  | .ok _ => .invoke point .done

/-- A call on a point that the caller promises to have the right length. -/
def promisedScript (f : Compiled) (point : Array α) : Script α (Option α) :=
  (f.pointScript point).map Except.toOption

/-- The value at a point, or the error of its length. -/
def tryEvaluate (a : Arithmetic α) (f : Compiled) (point : Array α) : Except EvaluationError α :=
  (f.pointScript point).run (f.value a)

/-- The value at a point that the caller promises to have the right length; nothing otherwise. -/
def evaluate? (a : Arithmetic α) (f : Compiled) (point : Array α) : Option α :=
  (f.promisedScript point).run (f.value a)

end Compiled
end Formula
