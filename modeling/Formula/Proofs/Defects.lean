import Formula.Proofs.Lowering

/-!
# The check and the lowering find the same defects

A program is checked by counting depths, and it is lowered by replaying its code on a stack of
values.  The two were made apart: the check looks up how many values an instruction pops, while the
lowering takes its operands off one by one and fails at the first that is missing.

* `Program.Replays` is what the lowering asks of one instruction.  Whether an instruction can be
  lowered depends on the length of the stack alone, and not on the values there.
* The check asks for the same and for two things more, that inputs are declared and that the
  declared stack is not exceeded (`admits_iff_replays`).  So a program passes its check exactly if
  it can be lowered and keeps to what it declares (`verify_eq_ok_iff_lower`).
* Where inputs are declared and the declared stack cannot be exceeded, the two go through the code
  side by side, and they fail at the same place or not at all (`verify_error_iff_lower`).

Loading a program sets up memory before it lowers anything.  A program that declares too much fails
there, with code that is right or wrong.
-/

namespace Formula

namespace Program

/-- How much an instruction adds to the depth of the stack: it pushes one value and pops its
operands. -/
def gain (p : Program) (i : Instruction) : Int := 1 - ((i.pops? p.functions).getD 0 : Nat)

/-- The depth of the stack after code that starts with nothing on it. -/
def height (p : Program) (code : List Instruction) : Int := (code.map p.gain).sum

@[simp] theorem height_nil (p : Program) : p.height [] = 0 := rfl

@[simp] theorem height_cons (p : Program) (i : Instruction) (code : List Instruction) :
    p.height (i :: code) = p.gain i + p.height code := List.sum_cons

/-- An instruction can be lowered and takes the stack from one depth to another: the constant that
it loads exists, and so do its operands. -/
structure Replays (p : Program) (depth : Nat) (i : Instruction) (depth' : Nat) : Prop where
  constant : ∀ index, i = .loadConst index → index < p.constants.size
  pops : ∃ pops, i.pops? p.functions = some pops ∧ pops ≤ depth ∧ depth' = depth - pops + 1

variable {p : Program} {depth depth' : Nat} {i : Instruction}

/-- The check asks for what the lowering asks for, and that the program keeps to what it
declares. -/
theorem admits_iff_replays :
    p.Admits depth i depth' ↔ p.Replays depth i depth' ∧
      (∀ slot, i = .loadInput slot → slot < p.inputs) ∧ depth' ≤ p.maxStack := by
  constructor
  · rintro ⟨names, pops, room⟩
    refine ⟨⟨?_, pops⟩, ?_, room⟩
    · rintro index rfl
      exact names
    · rintro slot rfl
      exact names
  · rintro ⟨⟨constant, pops⟩, declared, room⟩
    refine ⟨?_, pops, room⟩
    cases i with
    | loadInput slot => exact declared slot rfl
    | loadConst index => exact constant index rfl
    | add | sub | mul | div | pow | neg | call => trivial

/-- An instruction that finds its operands changes the depth by its gain. -/
theorem Replays.depth_eq (h : p.Replays depth i depth') : (depth' : Int) = depth + p.gain i := by
  obtain ⟨pops, hpops, henough, rfl⟩ := h.pops
  rw [gain, hpops, Option.getD_some]
  omega

theorem Replays.depth_unique {mid : Nat} (h : p.Replays depth i depth')
    (hmid : p.Replays depth i mid) : depth' = mid := by
  have hdepth := h.depth_eq
  have hdepth' := hmid.depth_eq
  omega

end Program

namespace Lowering

variable {p : Program} {s s' : Lowering} {i : Instruction}

/-! ## One instruction -/

theorem length_of_binary {op : BinaryOp} (h : s.binary op = .ok s') :
    2 ≤ s.stack.length ∧ s'.stack.length = s.stack.length - 2 + 1 := by
  obtain ⟨builder, _ | ⟨y, _ | ⟨x, stack⟩⟩⟩ := s
  · cases h
  · cases h
  · cases h
    simp [push]

/-- An instruction that is lowered finds what it needs. -/
theorem replays_of_step (h : s.step p i = .ok s') :
    p.Replays s.stack.length i s'.stack.length := by
  obtain ⟨builder, stack⟩ := s
  cases i with
  | loadInput slot =>
    cases h
    exact ⟨by simp, 0, rfl, Nat.zero_le _, rfl⟩
  | loadConst index =>
    simp only [step] at h
    split at h
    · cases h
    · rename_i x hx
      cases h
      refine ⟨?_, 0, rfl, Nat.zero_le _, rfl⟩
      rintro _ ⟨⟩
      exact (Array.getElem?_eq_some_iff.mp hx).1
  | add | sub | mul | div =>
    obtain ⟨henough, hlength⟩ := length_of_binary h
    exact ⟨by simp, 2, rfl, henough, hlength⟩
  | pow =>
    rcases stack with _ | ⟨exponent, _ | ⟨base, stack⟩⟩
    · cases h
    · cases h
    · simp only [step] at h
      split at h <;> cases h <;> exact ⟨by simp, 2, rfl, by simp, by simp [push]⟩
  | neg =>
    rcases stack with _ | ⟨x, stack⟩
    · cases h
    · cases h
      exact ⟨by simp, 1, rfl, by simp, by simp⟩
  | call index =>
    simp only [step] at h
    split at h
    · cases h
    · rename_i f hf
      have hpops : (Instruction.call index).pops? p.functions = some f.arity := by
        simp [Instruction.pops?, hf]
      split at h
      · rename_i harity
        rcases stack with _ | ⟨y, _ | ⟨x, stack⟩⟩
        · cases h
        · cases h
        · cases h
          exact ⟨by simp, f.arity, hpops, by simp [harity], by simp [harity, push]⟩
      · rename_i harity
        have hone : f.arity = 1 := f.arity_eq_one_or_two.resolve_right harity
        rcases stack with _ | ⟨x, stack⟩
        · cases h
        · cases h
          exact ⟨by simp, f.arity, hpops, by simp [hone], by simp [hone, push]⟩

/-- Two values on top of a stack that has so many. -/
theorem exists_cons_cons {α : Type} {vs : List α} (h : 2 ≤ vs.length) :
    ∃ y x rest, vs = y :: x :: rest := by
  obtain ⟨y, vs, rfl⟩ := List.exists_cons_of_length_pos (Nat.lt_of_lt_of_le Nat.zero_lt_two h)
  obtain ⟨x, vs, rfl⟩ := List.exists_cons_of_length_pos (Nat.le_of_succ_le_succ h)
  exact ⟨y, x, vs, rfl⟩

/-- An instruction that finds what it needs is lowered. -/
theorem exists_step {depth : Nat} (h : p.Replays s.stack.length i depth) :
    ∃ s', s.step p i = .ok s' := by
  obtain ⟨builder, stack⟩ := s
  obtain ⟨hconstant, pops, hpops, henough, -⟩ := h
  cases i with
  | loadInput slot => exact ⟨_, rfl⟩
  | loadConst index =>
    have hlt := hconstant index rfl
    simp only [step, Array.getElem?_eq_getElem hlt]
    exact ⟨_, rfl⟩
  | add | sub | mul | div =>
    cases hpops
    obtain ⟨y, x, stack, rfl⟩ := exists_cons_cons henough
    exact ⟨_, rfl⟩
  | pow =>
    cases hpops
    obtain ⟨exponent, base, stack, rfl⟩ := exists_cons_cons henough
    simp only [step]
    split <;> exact ⟨_, rfl⟩
  | neg =>
    cases hpops
    obtain ⟨x, stack, rfl⟩ := List.exists_cons_of_length_pos henough
    exact ⟨_, rfl⟩
  | call index =>
    obtain ⟨f, hf, rfl⟩ := Option.map_eq_some_iff.mp hpops
    simp only [step, hf]
    rcases f.arity_eq_one_or_two with harity | harity
    · rw [harity] at henough ⊢
      obtain ⟨x, stack, rfl⟩ := List.exists_cons_of_length_pos henough
      exact ⟨_, rfl⟩
    · rw [harity] at henough ⊢
      obtain ⟨y, x, stack, rfl⟩ := exists_cons_cons henough
      exact ⟨_, rfl⟩

/-! ## Code -/

/-- **Code climbs exactly if it can be replayed,** names declared inputs only and never goes deeper
than declared. -/
theorem climbs_iff {code : List Instruction} {depth : Nat} (place : Nat)
    (hs : s.stack.length ≤ p.maxStack) :
    p.Climbs s.stack.length code depth ↔
      (∃ s', s.run p code place = .ok s' ∧ s'.stack.length = depth) ∧
        (∀ slot, .loadInput slot ∈ code → slot < p.inputs) ∧
        ∀ u, u <+: code → s.stack.length + p.height u ≤ p.maxStack := by
  induction code generalizing s place with
  | nil =>
    constructor
    · intro h
      cases h
      refine ⟨⟨s, rfl, rfl⟩, nofun, fun u hu => ?_⟩
      rw [List.prefix_nil.mp hu, Program.height_nil]
      omega
    · rintro ⟨⟨s', hrun, rfl⟩, -, -⟩
      cases hrun
      exact .nil _
  | cons i code ih =>
    constructor
    · rintro ⟨⟩
      rename_i mid first rest
      obtain ⟨hreplays, hdeclared, hroom⟩ := Program.admits_iff_replays.mp first
      obtain ⟨s₁, hstep⟩ := exists_step hreplays
      obtain rfl := (replays_of_step hstep).depth_unique hreplays
      obtain ⟨⟨s', hrun, hlength⟩, hslots, hheights⟩ := (ih (place + 1) hroom).mp rest
      refine ⟨⟨s', by simp only [run, hstep, hrun], hlength⟩, fun slot hmem => ?_, fun u hu => ?_⟩
      · rcases List.mem_cons.mp hmem with hi | hmem
        · exact hdeclared slot hi.symm
        · exact hslots slot hmem
      · cases u with
        | nil => simpa using hs
        | cons j u =>
          obtain ⟨rfl, hrest⟩ := List.cons_prefix_cons.mp hu
          have hheight := hheights u hrest
          rw [hreplays.depth_eq] at hheight
          rw [Program.height_cons]
          omega
    · rintro ⟨⟨s', hrun, hlength⟩, hslots, hheights⟩
      unfold run at hrun
      split at hrun
      · cases hrun
      · rename_i s₁ hstep
        have hreplays := replays_of_step hstep
        have hdepth := hreplays.depth_eq
        have hroom : s₁.stack.length ≤ p.maxStack := by
          have hheight := hheights [i] (List.cons_prefix_cons.mpr ⟨rfl, List.nil_prefix⟩)
          rw [Program.height_cons, Program.height_nil] at hheight
          omega
        refine .cons (Program.admits_iff_replays.mpr ⟨hreplays, ?_, hroom⟩)
          ((ih (place + 1) hroom).mpr ⟨⟨s', hrun, hlength⟩, ?_, ?_⟩)
        · rintro slot rfl
          exact hslots slot List.mem_cons_self
        · exact fun slot hmem => hslots slot (List.mem_cons_of_mem i hmem)
        · intro u hu
          have hheight := hheights (i :: u) (List.cons_prefix_cons.mpr ⟨rfl, hu⟩)
          rw [Program.height_cons] at hheight
          omega

/-- Two answers about the same code: the depth that was counted is the length of the stack, or both
fail at one place. -/
inductive Matches : Except Malformed Nat → Except Malformed Lowering → Prop
  | ok (s : Lowering) : Matches (.ok s.stack.length) (.ok s)
  | error (place : Nat) (found met : Malformation) :
      Matches (.error ⟨place, found⟩) (.error ⟨place, met⟩)

/-- **Side by side.**  Where inputs are declared and the declared stack has room for whatever the
code pushes, the check and the lowering go through the code alike. -/
theorem matches_run {code : List Instruction} (place : Nat)
    (hslots : ∀ slot, .loadInput slot ∈ code → slot < p.inputs)
    (hroom : s.stack.length + code.length ≤ p.maxStack) :
    Matches (p.shape.depthFrom code place s.stack.length) (s.run p code place) := by
  induction code generalizing s place with
  | nil => exact .ok s
  | cons i code ih =>
    have hdeclared : ∀ slot, i = .loadInput slot → slot < p.inputs := by
      rintro slot rfl
      exact hslots slot List.mem_cons_self
    unfold Shape.depthFrom run
    cases hstep : s.step p i with
    | ok s₁ =>
      have hreplays := replays_of_step hstep
      have hdepth : s₁.stack.length ≤ s.stack.length + 1 := by
        obtain ⟨pops, -, -, hlength⟩ := hreplays.pops
        omega
      rw [List.length_cons] at hroom
      have hadmits : p.Admits s.stack.length i s₁.stack.length :=
        Program.admits_iff_replays.mpr ⟨hreplays, hdeclared, by omega⟩
      simp only [Program.depthAfter_eq_ok_iff.mpr hadmits]
      exact ih (place + 1) (fun slot hmem => hslots slot (List.mem_cons_of_mem i hmem)) (by omega)
    | error met =>
      cases hafter : p.shape.depthAfter s.stack.length i with
      | error found => exact .error place found met
      | ok depth =>
        have hadmits := Program.depthAfter_eq_ok_iff.mp hafter
        obtain ⟨s₁, hs₁⟩ := exists_step (Program.admits_iff_replays.mp hadmits).1
        rw [hstep] at hs₁
        cases hs₁

/-! ## Whole programs -/

/-- A lowering before its first instruction. -/
def start (p : Program) : Lowering := ⟨Builder.empty.importAll p.functions.toList, []⟩

/-- The straight-line code that a lowering leaves after code of a given size. -/
def result (s : Lowering) (size : Nat) : Except Malformed Routine :=
  match s.stack with
  | [] => .error ⟨size, .missingOperand⟩
  | [x] => .ok ⟨s.builder.nodes, s.builder.imports, x.value⟩
  | _ :: extra => .error ⟨size, .extraOperands extra.length⟩

/-- There is straight-line code if one value is left, and otherwise a defect at the end. -/
theorem result_cases (s : Lowering) (size : Nat) :
    (s.stack.length = 1 ∧ ∃ r, s.result size = .ok r) ∨
      (s.stack.length ≠ 1 ∧ ∃ reason, s.result size = .error ⟨size, reason⟩) := by
  obtain ⟨builder, _ | ⟨x, _ | ⟨y, stack⟩⟩⟩ := s
  · exact .inr ⟨nofun, _, rfl⟩
  · exact .inl ⟨rfl, _, rfl⟩
  · exact .inr ⟨by simp, _, rfl⟩

end Lowering

namespace Program

variable {p : Program}

theorem lower_eq (p : Program) :
    p.lower = match (Lowering.start p).run p p.code.toList 0 with
      | .error e => .error e
      | .ok s => s.result p.code.size := rfl

/-- A program can be lowered exactly if its code can be replayed and leaves one value. -/
theorem exists_lower_iff :
    (∃ r, p.lower = .ok r) ↔
      ∃ s, (Lowering.start p).run p p.code.toList 0 = .ok s ∧ s.stack.length = 1 := by
  rw [lower_eq]
  cases (Lowering.start p).run p p.code.toList 0 with
  | error e => simp
  | ok s =>
    rcases s.result_cases p.code.size with ⟨hone, r, hr⟩ | ⟨hne, reason, hr⟩
    · simp [hr, hone]
    · simp [hr, hne]

/-- **A program passes its check exactly if it can be lowered and keeps to what it declares.** -/
theorem verify_eq_ok_iff_lower :
    p.verify = .ok () ↔ (∃ r, p.lower = .ok r) ∧
      (∀ slot, .loadInput slot ∈ p.code → slot < p.inputs) ∧
      ∀ u, u <+: p.code.toList → p.height u ≤ p.maxStack := by
  have hempty : (Lowering.start p).stack.length ≤ p.maxStack := Nat.zero_le _
  have hclimbs : p.Climbs 0 p.code.toList 1 ↔ _ := Lowering.climbs_iff 0 hempty
  have hzero : ((Lowering.start p).stack.length : Int) = 0 := rfl
  simp only [hzero, Int.zero_add, Array.mem_toList_iff] at hclimbs
  rw [verify_eq_ok_iff, exists_lower_iff]
  exact hclimbs

/-- **Where a program keeps to what it declares, the check and the lowering fail at one place.** -/
theorem verify_error_iff_lower (hslots : ∀ slot, .loadInput slot ∈ p.code → slot < p.inputs)
    (hroom : p.code.size ≤ p.maxStack) (k : Nat) :
    (∃ found, p.verify = .error ⟨k, found⟩) ↔ ∃ met, p.lower = .error ⟨k, met⟩ := by
  have hmatches : Lowering.Matches (p.shape.depthFrom p.code.toList 0 0)
      ((Lowering.start p).run p p.code.toList 0) := by
    have hcode : ∀ slot, .loadInput slot ∈ p.code.toList → slot < p.inputs :=
      fun slot hmem => hslots slot (Array.mem_toList_iff.mp hmem)
    have hlength : (Lowering.start p).stack.length + p.code.toList.length ≤ p.maxStack := by
      rw [Array.length_toList]
      exact Nat.le_trans (Nat.le_of_eq (Nat.zero_add _)) hroom
    exact Lowering.matches_run 0 hcode hlength
  rw [lower_eq, verify_eq]
  generalize p.shape.depthFrom p.code.toList 0 0 = counted at hmatches
  generalize (Lowering.start p).run p p.code.toList 0 = replayed at hmatches
  cases hmatches with
  | error place found met => simp
  | ok s =>
    rcases s.result_cases p.code.size with ⟨hone, r, hr⟩ | ⟨hne, reason, hr⟩
    · simp [hone, hr]
    · simp [hne, hr]

/-- **The check and the loading agree on which programs are sound.**  Let memory have room for the
stack and the inputs that a program declares.

* The program passes its check exactly if loading it gives straight-line code, all the inputs that
  it loads are declared, and the depth after every instruction is at most the declared one.
* If the inputs are declared and the declared stack is at least as long as the code, the check fails
  at an instruction exactly if the loading fails there; the end of the code counts as one.

Without room for them, loading fails before it looks at the code. -/
theorem verify_iff_routine (p : Program) :
    (p.maxStack * 24 ≤ 2 ^ 63 - 1 ∧ p.inputs * 8 ≤ 2 ^ 63 - 1 →
      (p.verify = .ok () ↔ (∃ r, p.routine = .ok r) ∧
        (∀ slot, .loadInput slot ∈ p.code → slot < p.inputs) ∧
        ∀ u, u <+: p.code.toList → p.height u ≤ p.maxStack) ∧
      ((∀ slot, .loadInput slot ∈ p.code → slot < p.inputs) → p.code.size ≤ p.maxStack →
        ∀ k, (∃ found, p.verify = .error ⟨k, found⟩) ↔
          ∃ met, p.routine = .error (.malformed ⟨k, met⟩))) ∧
    (¬ (p.maxStack * 24 ≤ 2 ^ 63 - 1 ∧ p.inputs * 8 ≤ 2 ^ 63 - 1) →
      p.routine = .error .memory) := by
  rw [routine_eq_ite]
  refine ⟨fun hmemory => ?_, fun hmemory => if_neg hmemory⟩
  rw [if_pos hmemory]
  constructor
  · rw [verify_eq_ok_iff_lower]
    cases p.lower <;> simp [Except.mapError]
  · intro hslots hroom k
    rw [verify_error_iff_lower hslots hroom k]
    cases p.lower <;> simp [Except.mapError]

/-- More inputs than memory has room for pass the check, and the program cannot be loaded. -/
theorem routine_of_oversized_inputs :
    verify ⟨"x0", 1152921504606846976, 1, #[], #[], #[.loadInput 0]⟩ = .ok () ∧
      ∀ r, routine ⟨"x0", 1152921504606846976, 1, #[], #[], #[.loadInput 0]⟩ ≠ .ok r := by
  have hmemory : routine ⟨"x0", 1152921504606846976, 1, #[], #[], #[.loadInput 0]⟩ =
      .error .memory := rfl
  refine ⟨rfl, fun r hr => ?_⟩
  rw [hmemory] at hr
  cases hr

end Program

end Formula
