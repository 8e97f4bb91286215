import Formula.Compiled
import Formula.Program.Listing

/-!
# What happens on the way to a compiled function

Compiling, lowering and loading have nothing to say while they run: what a log would show follows
from the program and the options, and is computed from them here.

* A compiled program is one event.
* Lowering has an event before each instruction, so it ends with the instruction that cannot be
  lowered if there is one.
* Loading ends with success or with the error that was found.  Where the stack machine takes over
  from the host, there is an event before that.
* A program that memory has no room for leaves no event behind where it fails.
-/

namespace Formula

/-- How much an event matters. -/
inductive Level where
  | trace
  | debug
  | warn
  | error
  deriving DecidableEq, Repr

/-- The name of a level. -/
def Level.name : Level → String
  | trace => "TRACE"
  | debug => "DEBUG"
  | warn => "WARN"
  | error => "ERROR"

/-- Something worth a line in a log. -/
inductive Event where
  | compiled (p : Program)
  | lowering (place : Nat) (i : Instruction)
  | loaded (p : Program) (backend : Backend)
  /-- the stack machine takes over, for a reason that the host gave -/
  | fallback (reason : String)
  | refused (p : Program) (reason : String)

namespace Event

/-- The level of an event. -/
def level : Event → Level
  | compiled _ | loaded _ _ => .debug
  | lowering _ _ => .trace
  | fallback _ => .warn
  | refused _ _ => .error

/-- The wording of an event. -/
def message : Event → String
  | compiled p =>
    "compiled '" ++ p.source ++ "': " ++ toString p.inputs ++ " inputs, " ++
      toString p.code.size ++ " instructions, " ++ toString p.constants.size ++ " constants, " ++
      toString p.functions.size ++ " functions, max stack " ++ toString p.maxStack
  | lowering place i => "lowering " ++ Program.codeLine place i
  | loaded p backend =>
    "loaded '" ++ p.source ++ "' with the " ++ backend.name ++ " backend (" ++
      toString p.code.size ++ " instructions, max stack " ++ toString p.maxStack ++ ")"
  | fallback reason => "JIT unavailable (" ++ reason ++ "), falling back to the interpreter"
  | refused p reason => "failed to load '" ++ p.source ++ "': " ++ reason

/-- The line of an event in a log. -/
def text (e : Event) : String := e.level.name ++ " " ++ e.message

end Event

namespace Program

/-- The events of lowering a program. -/
def lowerEvents (p : Program) : List Event :=
  let reached :=
    match p.routine with
    | .ok _ => p.code.size
    | .error (.malformed e) => e.index + 1
    | .error .memory => 0
  (p.code.toList.take reached).mapIdx .lowering

/-- The events of making straight-line code on a host.  It is asked before the first instruction. -/
def buildEvents {ρ : Type} (host : Host ρ) (p : Program) (o : Options) : List Event :=
  match host.target o, host.declare p.functions with
  | .ok _, .ok _ => p.lowerEvents
  | _, _ => []

/-- The events of settling what became of straight-line code. -/
def fallbackEvents {ρ : Type} [ToString ρ] (o : Options) :
    Except (LoadErrorOn ρ) Routine → List Event
  | .ok _ => []
  | .error e => ((e.fallback? o).map fun report => .fallback (toString report)).toList

/-- The events of loading a program on a host. -/
def loadEventsOn {ρ : Type} [ToString ρ] (host : Host ρ) (p : Program) (o : Options) :
    List Event :=
  match p.verify with
  | .error e => [.refused p e.message]
  | .ok _ =>
    let making :=
      match o.backend with
      | .jit => p.buildEvents host o ++ fallbackEvents o (p.build host o)
      | .interpreter => []
    match p.codeOn host o with
    | .error .memory => making
    | .error e => making ++ [.refused p e.message]
    | .ok code => making ++ [.loaded p code.backend]

/-- The events of loading a program, on a host that takes everything. -/
def loadEvents (p : Program) (o : Options) : List Event :=
  p.loadEventsOn (.ready : Host Empty) o

end Program
end Formula
