import Formula.Compiled
import Formula.Event
import Formula.Program.OfFormula

/-!
# From text to a compiled function

The two ways into the library: `compile` for numbered inputs and `compileNamed` for named ones.  A
function comes back only when every stage succeeded.  The events of a compilation are those of its
program, if there is one, and of loading it.

Each of them is on a host that takes everything, and there is one for any host beside it.
-/

namespace Formula

/-- Why there is no compiled function on a host. -/
inductive CompileErrorOn (ρ : Type) where
  | formula (error : FormulaError)
  | load (error : LoadErrorOn ρ)
  deriving DecidableEq, Repr

/-- Why there is no compiled function, whatever the host. -/
abbrev CompileError := CompileErrorOn Empty

section

variable {ρ : Type}

/-- The wording of an error. -/
def CompileErrorOn.message [ToString ρ] : CompileErrorOn ρ → String
  | formula error => error.message
  | load error => "failed to load compiled expression: " ++ error.message

/-- Loads what became of a formula. -/
def loadResult (host : Host ρ) (program : Except FormulaError Program) (o : Options) :
    Except (CompileErrorOn ρ) Compiled :=
  match program with
  | .error e => .error (.formula e)
  | .ok p => (p.loadOn host o).mapError .load

/-- Compiles a formula over the inputs `x0`, `x1` and so on, for a host. -/
def compileOn (host : Host ρ) (source : String) (inputs : Nat) (o : Options) :
    Except (CompileErrorOn ρ) Compiled :=
  loadResult host ((Program.ofFormula source inputs).mapError .failed) o

/-- Compiles a formula over named inputs, for a host. -/
def compileNamedOn (host : Host ρ) (source : String) (names : List String) (o : Options) :
    Except (CompileErrorOn ρ) Compiled :=
  (loadResult host (Program.ofNamedFormula source names) o).map fun f => { f with names }

end

/-- Compiles a formula over the inputs `x0`, `x1` and so on. -/
def compile (source : String) (inputs : Nat) (o : Options) : Except CompileError Compiled :=
  compileOn .ready source inputs o

/-- Compiles a formula over named inputs. -/
def compileNamed (source : String) (names : List String) (o : Options) :
    Except CompileError Compiled :=
  compileNamedOn .ready source names o

/-- The events of compiling a formula into a program. -/
def formulaEvents (program : Except FormulaError Program) : List Event :=
  match program with
  | .error _ => []
  | .ok p => [.compiled p]

/-- The events of compiling a formula into a function. -/
def compileEvents (program : Except FormulaError Program) (o : Options) : List Event :=
  match program with
  | .error _ => []
  | .ok p => .compiled p :: p.loadEvents o

end Formula
