import Formula.Program

/-!
# Programs that cannot be made callable

Making a program callable can fail for three reasons: the program breaks a rule, it declares more
than memory can have, or the host has no machine code for it.  The last is up to a code generator
that is not part of this library, so its reports are of any type `ρ`.

`LoadError` is the case without reports.  It is what can go wrong on a host that takes everything.
-/

namespace Formula

/-- What a code generator was at when it gave up. -/
inductive Stage where
  /-- looking for a target -/
  | host
  /-- reading its settings -/
  | setting
  /-- making machine code -/
  | codegen
  /-- putting machine code in its place -/
  | linking
  /-- declaring a function -/
  | declaration
  /-- defining the function that is called from outside -/
  | definition
  deriving DecidableEq, Repr

/-- The wording of a stage. -/
def Stage.text : Stage → String
  | host => "host machine is not supported"
  | setting => "invalid code generator setting"
  | codegen => "codegen error"
  | linking => "module error"
  | declaration => "declaration error"
  | definition => "definition error"

/-- A code generator gave up. -/
structure Refusal (ρ : Type) where
  stage : Stage
  report : ρ
  deriving DecidableEq, Repr

/-- Why a program cannot be made callable on a host. -/
inductive LoadErrorOn (ρ : Type) where
  | malformed (defect : Malformed)
  /-- the program declares more than memory can have -/
  | memory
  | refused (refusal : Refusal ρ)
  deriving DecidableEq, Repr

/-- Why a program cannot be made callable, whatever the host. -/
abbrev LoadError := LoadErrorOn Empty

/-- There is nothing to word where there are no reports. -/
instance instToStringEmpty : ToString Empty := ⟨nofun⟩

namespace LoadErrorOn

variable {ρ : Type}

/-- An error that no host has a part in, on a host. -/
def lift : LoadError → LoadErrorOn ρ
  | .malformed defect => .malformed defect
  | .memory => .memory

/-- The wording of an error. -/
def message [ToString ρ] : LoadErrorOn ρ → String
  | malformed defect => defect.message
  | memory => "capacity overflow"
  | refused ⟨stage, report⟩ => stage.text ++ ": " ++ toString report

end LoadErrorOn
end Formula
