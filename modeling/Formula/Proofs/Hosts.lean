import Formula.Compiled
import Formula.Proofs.Lowering

/-!
# Loading on a host

Whatever a code generator answers, loading a program has few outcomes.  `build_cases` has those of
making straight-line code: the generator gives up, the lowering fails, or both go through.
`loadOn_cases` has those of loading: a function that came out runs the program, or the lowered
program.  A program that passes its check is never reported as malformed (`loadOn_ne_malformed`).

The stack machine takes the place of straight-line code for one reason only (`backend_of_loadOn`).
-/

namespace Formula
namespace Program

variable {ρ : Type} {host : Host ρ} {p : Program} {o : Options} {code : Code} {f : Compiled}
  {e : LoadErrorOn ρ}

/-- **What can become of straight-line code on a host.** -/
theorem build_cases (host : Host ρ) (p : Program) (o : Options) :
    (∃ refusal, p.build host o = .error (.refused refusal)) ∨
      (∃ e, p.routine = .error e ∧ p.build host o = .error (.lift e)) ∨
      ∃ r, p.routine = .ok r ∧ p.build host o = .ok r := by
  unfold build routineOn
  cases host.target o with
  | error refusal => exact .inl ⟨refusal, rfl⟩
  | ok _ =>
    cases host.declare p.functions with
    | error refusal => exact .inl ⟨refusal, rfl⟩
    | ok _ =>
      cases hroutine : p.routine with
      | error e => exact .inr (.inl ⟨e, rfl, rfl⟩)
      | ok r =>
        simp only [Except.mapError, bind, Except.bind]
        cases host.generate o r with
        | error refusal => exact .inl ⟨refusal, rfl⟩
        | ok _ => exact .inr (.inr ⟨r, rfl, rfl⟩)

/-- Straight-line code is the lowered program. -/
theorem lower_of_routine {r : Routine} (h : p.routine = .ok r) : p.lower = .ok r := by
  unfold routine at h
  split at h
  · cases hlower : p.lower with
    | error e =>
      rw [hlower] at h
      cases h
    | ok r' =>
      rw [hlower] at h
      cases h
      rfl
  · cases h

/-- What code there is after a fallback. -/
theorem orFallback_eq_ok {built : Except (LoadErrorOn ρ) Routine}
    (h : p.orFallback o built = .ok code) :
    (∃ r, built = .ok r ∧ code = .native r) ∨
      (∃ report, built = .error (.refused ⟨.host, report⟩)) ∧ o.fallback = true ∧
        code = .interpreted p := by
  unfold orFallback at h
  split at h
  · cases h
    exact .inl ⟨_, rfl, rfl⟩
  · split at h <;> cases h
    rename_i report hreport
    unfold LoadErrorOn.fallback? at hreport
    split at hreport
    · split at hreport <;> cases hreport
      rename_i hfallback
      exact .inr ⟨⟨_, rfl⟩, hfallback, rfl⟩
    · cases hreport

theorem orFallback_eq_error {built : Except (LoadErrorOn ρ) Routine}
    (h : p.orFallback o built = .error e) : built = .error e := by
  unfold orFallback at h
  split at h
  · cases h
  · split at h <;> cases h
    rfl

/-- **The code on a host** is the program, or the lowered program. -/
theorem codeOn_cases (h : p.codeOn host o = .ok code) :
    code = .interpreted p ∨ ∃ r, p.lower = .ok r ∧ code = .native r := by
  unfold codeOn at h
  split at h
  · cases h
    exact .inl rfl
  · rcases orFallback_eq_ok h with ⟨r, hbuild, rfl⟩ | ⟨-, -, rfl⟩
    · rcases build_cases host p o with ⟨_, hr⟩ | ⟨_, -, hr⟩ | ⟨r', hroutine, hr⟩
      · cases hbuild.symm.trans hr
      · cases hbuild.symm.trans hr
      · cases hbuild.symm.trans hr
        exact .inr ⟨r, lower_of_routine hroutine, rfl⟩
    · exact .inl rfl

/-- **Why there is no code on a host:** the generator gave up, or the lowering failed. -/
theorem codeOn_eq_error (h : p.codeOn host o = .error e) :
    (∃ refusal, e = .refused refusal) ∨ ∃ e', p.routine = .error e' ∧ e = .lift e' := by
  unfold codeOn at h
  split at h
  · cases h
  · have hbuild := orFallback_eq_error h
    rcases build_cases host p o with ⟨refusal, hr⟩ | ⟨e', hroutine, hr⟩ | ⟨r, -, hr⟩
    · cases hbuild.symm.trans hr
      exact .inl ⟨refusal, rfl⟩
    · cases hbuild.symm.trans hr
      exact .inr ⟨e', hroutine, rfl⟩
    · cases hbuild.symm.trans hr

/-- Loading is a check, and then making the code. -/
theorem loadOn_eq_ok (h : p.loadOn host o = .ok f) :
    p.verify = .ok () ∧ p.codeOn host o = .ok f.code ∧ f.inputs = p.inputs ∧
      f.maxStack = p.maxStack := by
  unfold loadOn at h
  split at h
  · cases h
  · rename_i hverify
    split at h
    · cases h
    · rename_i code hcode
      cases h
      exact ⟨hverify, hcode, rfl, rfl⟩

/-- **What loading gives.** -/
theorem loadOn_cases (h : p.loadOn host o = .ok f) :
    p.verify = .ok () ∧ f.inputs = p.inputs ∧ f.maxStack = p.maxStack ∧
      (f.code = .interpreted p ∨ ∃ r, p.lower = .ok r ∧ f.code = .native r) := by
  obtain ⟨hverify, hcode, hinputs, hstack⟩ := loadOn_eq_ok h
  exact ⟨hverify, hinputs, hstack, codeOn_cases hcode⟩

/-- **A checked program is not malformed** for any host. -/
theorem loadOn_ne_malformed (host : Host ρ) (h : p.verify = .ok ()) (o : Options)
    (defect : Malformed) : p.loadOn host o ≠ .error (.malformed defect) := by
  intro herror
  unfold loadOn at herror
  rw [h] at herror
  dsimp only at herror
  split at herror
  · rename_i e hcode
    cases herror
    obtain ⟨r, hr⟩ := lower_of_verify h
    rcases codeOn_eq_error hcode with ⟨refusal, he⟩ | ⟨e', hroutine, he⟩
    · cases he
    · rw [routine_of_lower hr] at hroutine
      split at hroutine <;> cases hroutine
      cases he
  · cases herror

/-- **The backend is the one that was asked for,** but for one case: the stack machine takes over
from a host without a target, if the options say so. -/
theorem backend_of_loadOn (h : p.loadOn host o = .ok f) :
    f.backend = o.backend ∨
      f.backend = .interpreter ∧ o.backend = .jit ∧ o.fallback = true ∧
        ∃ report, p.build host o = .error (.refused ⟨.host, report⟩) := by
  obtain ⟨-, hcode, -⟩ := loadOn_eq_ok h
  unfold Compiled.backend
  unfold codeOn at hcode
  split at hcode
  · rename_i hbackend
    rw [← Except.ok.inj hcode, hbackend]
    exact .inl rfl
  · rename_i hbackend
    rcases orFallback_eq_ok hcode with ⟨r, -, hnative⟩ | ⟨hbuild, hfallback, hinterpreted⟩
    · rw [hnative, hbackend]
      exact .inl rfl
    · rw [hinterpreted]
      exact .inr ⟨rfl, hbackend, hfallback, hbuild⟩

end Program
end Formula
