import Formula.Options
import Formula.Routine.Lowering

/-!
# Hosts

Straight-line code runs on a host, by way of a code generator.  The generator is not part of this
library.  All that matters of it is whether it takes what it is given, and a `Host` is its answers:
to the options, to the shims of a function table, and to a routine.  Nothing is asked of the answers
here.

Code is made in this order: a target for the options, the shims of the function table, the routine,
its machine code.  The first that fails is reported.  A host without a target has no straight-line
code at all, and that is the one case in which the stack machine may take over.
-/

namespace Formula

/-- What a code generator answers. -/
structure Host (ρ : Type) where
  /-- whether there is a target for options -/
  target : Options → Except (Refusal ρ) Unit
  /-- whether the shims of a function table can be declared -/
  declare : Array FunctionName → Except (Refusal ρ) Unit
  /-- whether there is machine code for a routine -/
  generate : Options → Routine → Except (Refusal ρ) Unit

/-- A host that takes everything. -/
def Host.ready {ρ : Type} : Host ρ where
  target _ := .ok ()
  declare _ := .ok ()
  generate _ _ := .ok ()

namespace Program

variable {ρ : Type}

/-- The straight-line code of a program on a host, before there is machine code for it. -/
def routineOn (host : Host ρ) (p : Program) (o : Options) : Except (LoadErrorOn ρ) Routine := do
  (host.target o).mapError .refused
  (host.declare p.functions).mapError .refused
  p.routine.mapError .lift

/-- The straight-line code of a program on a host that has machine code for it. -/
def build (host : Host ρ) (p : Program) (o : Options) : Except (LoadErrorOn ρ) Routine := do
  let routine ← p.routineOn host o
  (host.generate o routine).mapError .refused
  return routine

end Program

/-- The report of a host without a target, if the options have the stack machine take over. -/
def LoadErrorOn.fallback? {ρ : Type} (o : Options) : LoadErrorOn ρ → Option ρ
  | .refused ⟨.host, report⟩ => if o.fallback then some report else none
  | _ => none

end Formula
