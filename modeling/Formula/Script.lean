import Formula.Fault

/-!
# Scripts

The code behind a compiled function takes a slice of values and does not check its length.  A way to
call the function is a script: it says on which slices the code is invoked, in which order, and what
is made of the answers.  Run with the code, a script gives the result of the call; what it invokes
the code on can be looked at apart from that.
-/

namespace Formula

/-- A computation that invokes a function of slices. -/
inductive Script (α β : Type) where
  | done (answer : β)
  | invoke (slice : Array α) (next : Except EvaluationError α → Script α β)

namespace Script

variable {α β γ : Type}

/-- The answer, with a function to invoke. -/
def run (call : Array α → Except EvaluationError α) : Script α β → β
  | done answer => answer
  | invoke slice next => (next (call slice)).run call

/-- The slices that the function is invoked on, in order. -/
def trace (call : Array α → Except EvaluationError α) : Script α β → List (Array α)
  | done _ => []
  | invoke slice next => slice :: (next (call slice)).trace call

/-- Goes on with the answer. -/
def bind : Script α β → (β → Script α γ) → Script α γ
  | done answer, k => k answer
  | invoke slice next, k => invoke slice fun r => (next r).bind k

/-- Changes the answer. -/
def map (g : β → γ) (s : Script α β) : Script α γ := s.bind fun answer => done (g answer)

/-- The values at points in order, up to the first fault, after values that are there already. -/
def invokeFrom (values : Array α) :
    List (Array α) → Script α (Except EvaluationError (List α))
  | [] => done (.ok values.toList)
  | point :: points =>
    invoke point fun
      | .error e => done (.error e)
      | .ok x => invokeFrom (values.push x) points

/-- The values at points in order, up to the first fault. -/
def invokeAll (points : List (Array α)) : Script α (Except EvaluationError (List α)) :=
  invokeFrom #[] points

/-- Scripts one after the other, up to the first fault, with their values put together after values
that are there already. -/
def gatherFrom (values : Array α) :
    List (Script α (Except EvaluationError (List α))) → Script α (Except EvaluationError (List α))
  | [] => done (.ok values.toList)
  | s :: scripts =>
    s.bind fun
      | .error e => done (.error e)
      | .ok more => gatherFrom (values ++ more) scripts

variable (call : Array α → Except EvaluationError α)

@[simp] theorem run_bind (s : Script α β) (k : β → Script α γ) :
    (s.bind k).run call = (k (s.run call)).run call := by
  induction s with
  | done answer => rfl
  | invoke slice next ih => exact ih (call slice)

@[simp] theorem trace_bind (s : Script α β) (k : β → Script α γ) :
    (s.bind k).trace call = s.trace call ++ (k (s.run call)).trace call := by
  induction s with
  | done answer => rfl
  | invoke slice next ih => exact congrArg (slice :: ·) (ih (call slice))

@[simp] theorem run_map (g : β → γ) (s : Script α β) :
    (s.map g).run call = g (s.run call) := run_bind call s _

@[simp] theorem trace_map (g : β → γ) (s : Script α β) :
    (s.map g).trace call = s.trace call := by
  rw [map, trace_bind]
  exact List.append_nil _

end Script
end Formula
