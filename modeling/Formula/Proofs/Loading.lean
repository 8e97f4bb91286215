import Formula.Compile
import Formula.Proofs.Hosts
import Formula.Proofs.WellFormed

/-!
# Compiling never finds a malformed program

A program is checked when it is loaded, and its lowering has checks of its own.  Both are about
programs that come from elsewhere: what the parser makes passes the check (`verify_of_parse`), and
what passes the check can be lowered (`lower_of_verify`).  So compiling a formula fails because of
the formula or the names, for lack of memory, or because of the host, and never with a `malformed`
error.
-/

namespace Formula

variable {ρ : Type}

/-- What became of a parsed formula is not malformed. -/
theorem loadResult_ne_malformed (host : Host ρ) {program : Except FormulaError Program}
    (h : ∀ p, program = .ok p → p.verify = .ok ()) (o : Options) (defect : Malformed) :
    loadResult host program o ≠ .error (.load (.malformed defect)) := by
  cases program with
  | error e => simp [loadResult]
  | ok p =>
    intro herror
    have hload := Program.loadOn_ne_malformed host (h p rfl) o defect
    cases hresult : p.loadOn host o with
    | ok f => simp [loadResult, hresult, Except.mapError] at herror
    | error e =>
      rw [hresult] at hload
      simp only [loadResult, hresult, Except.mapError, Except.error.injEq,
        CompileErrorOn.load.injEq] at herror
      exact hload (congrArg _ herror)

/-- The program of a formula passes its check, however the failures are reported. -/
theorem Program.verify_of_ofScope {scope : Scope} {source : String} {p : Program}
    {report : Failure → FormulaError} (h : (ofScope scope source).mapError report = .ok p) :
    p.verify = .ok () := by
  unfold ofScope at h
  split at h
  · cases h
  · cases hparse : parse scope source with
    | error e =>
      rw [hparse] at h
      cases h
    | ok q =>
      rw [hparse] at h
      cases h
      exact verify_of_parse hparse

/-- Compiling a formula over numbered inputs finds no malformed program. -/
theorem compileOn_ne_malformed (host : Host ρ) (source : String) (inputs : Nat) (o : Options)
    (defect : Malformed) :
    compileOn host source inputs o ≠ .error (.load (.malformed defect)) :=
  loadResult_ne_malformed host (fun _ hp => Program.verify_of_ofScope hp) o defect

/-- Compiling a formula over named inputs finds no malformed program. -/
theorem compileNamedOn_ne_malformed (host : Host ρ) (source : String) (names : List String)
    (o : Options) (defect : Malformed) :
    compileNamedOn host source names o ≠ .error (.load (.malformed defect)) := by
  have hload : loadResult host (Program.ofNamedFormula source names) o ≠
      .error (.load (.malformed defect)) := by
    refine loadResult_ne_malformed host (fun p hp => ?_) o defect
    unfold Program.ofNamedFormula at hp
    split at hp
    · cases hp
    · exact Program.verify_of_ofScope hp
  unfold compileNamedOn
  cases hresult : loadResult host (Program.ofNamedFormula source names) o with
  | ok f => simp [Except.map]
  | error e =>
    rw [hresult] at hload
    exact hload

/-- **Parsed programs are well formed and declare exactly the stack they use.**  The check accepts
what the parser makes and refuses it with any smaller stack.  So compiling finds no malformed
program, on either backend and on any host. -/
theorem parse_declares_least_stack :
    (∀ scope source p, parse scope source = .ok p →
      p.verify = .ok () ∧
        ∀ k < p.maxStack, ∃ defect, Program.verify { p with maxStack := k } = .error defect) ∧
      (∀ (ρ : Type) (host : Host ρ) source inputs o defect,
        compileOn host source inputs o ≠ .error (.load (.malformed defect))) ∧
      ∀ (ρ : Type) (host : Host ρ) source names o defect,
        compileNamedOn host source names o ≠ .error (.load (.malformed defect)) := by
  refine ⟨fun scope source p hp => ⟨verify_of_parse hp, fun k hk => ?_⟩,
    fun _ => compileOn_ne_malformed, fun _ => compileNamedOn_ne_malformed⟩
  cases hverify : Program.verify { p with maxStack := k } with
  | error defect => exact ⟨defect, rfl⟩
  | ok _ =>
    have hle := (verify_iff_of_parse hp k).mp hverify
    omega

/-- Four values are on the stack at once in the middle of a formula, and three are not enough. -/
theorem parse_declares_least_stack_four :
    ∃ p, parse ⟨3, []⟩ "x0^-x1^-max(x2,x0)*-x1" = .ok p ∧ p.maxStack = 4 ∧ p.verify = .ok () ∧
      ∃ defect, Program.verify { p with maxStack := 3 } = .error defect := by
  have hmax : (parse ⟨3, []⟩ "x0^-x1^-max(x2,x0)*-x1").toOption.map (·.maxStack) = some 4 := by
    decide +kernel
  cases hparse : parse ⟨3, []⟩ "x0^-x1^-max(x2,x0)*-x1" with
  | error e =>
    rw [hparse] at hmax
    cases hmax
  | ok p =>
    rw [hparse] at hmax
    have hfour : p.maxStack = 4 := Option.some.inj hmax
    obtain ⟨hverify, hleast⟩ := parse_declares_least_stack.1 _ _ _ hparse
    exact ⟨p, rfl, hfour, hverify, hleast 3 (by omega)⟩

end Formula
