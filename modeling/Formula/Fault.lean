/-!
# Accesses that go wrong

Running a program means reading tables by index and working on a stack of fixed size.  A run that
reads or writes outside of them stops with a fault.  Programs that pass their check have none.  What
a check does not look at is memory: a stack can be declared so large that no run begins.

A caller sees a fault as an `EvaluationError`, beside the errors in the number of values that it
gave.
-/

namespace Formula

/-- Why a run stops without a value. -/
inductive Fault where
  /-- an input past the end of the point -/
  | input (slot : Nat)
  /-- a constant past the end of the pool -/
  | constant (index : Nat)
  /-- a function past the end of its table -/
  | function (index : Nat)
  /-- a push on a full stack -/
  | overflow
  /-- a pop from a stack with too few values -/
  | underflow
  /-- a value that was not computed yet -/
  | value (index : Nat)
  /-- a call with a number of arguments that no builtin has -/
  | arguments (count : Nat)
  /-- a declared stack that memory has no room for -/
  | memory
  deriving DecidableEq, Repr

/-- Why a compiled function has no value. -/
inductive EvaluationError where
  /-- a wrong number of values -/
  | length (expected got : Nat)
  | fault (fault : Fault)
  deriving DecidableEq, Repr

/-- The wording of an error. -/
def EvaluationError.message : EvaluationError → String
  | length expected got =>
    "Invalid input length: expected " ++ toString expected ++ ", got " ++ toString got
  | fault .memory => "capacity overflow"
  | fault _ => "access outside of the program"

end Formula
