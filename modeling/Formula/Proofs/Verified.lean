import Formula.Program.Verify

/-!
# What a check of a program finds

`Program.verify` walks through the code with a depth and stops at the first rule that is broken.
Here the rules are stated once, for one instruction: as they are checked in
`Shape.depthAfter_eq_ok_iff`, and for a program as `Program.Admits`.  A program passes its check
exactly if its code climbs from depth zero to depth one by admitted instructions
(`verify_eq_ok_iff`), and the induction along `Climbs` is the one that everything about checked
programs goes by: the stack machine has no fault on them and they can be lowered.
-/

namespace Formula

/-! ## One instruction -/

namespace Shape

/-- What an instruction loads exists. -/
def Names (m : Shape) : Instruction → Prop
  | .loadInput slot => slot < m.inputs
  | .loadConst index => index < m.constants
  | _ => True

variable {m : Shape}

theorem operandFault_eq_none_iff {i : Instruction} :
    depthAfter.operandFault m i = none ↔ m.Names i := by
  cases i <;> simp [depthAfter.operandFault, Names]

/-- The check of one instruction: what it names exists, it finds its operands, and its result has a
place. -/
theorem depthAfter_eq_ok_iff {depth depth' : Nat} {i : Instruction} :
    m.depthAfter depth i = .ok depth' ↔
      m.Names i ∧ (∃ pops, m.pops? i = some pops ∧ pops ≤ depth ∧ depth' = depth - pops + 1) ∧
        depth' ≤ m.maxStack := by
  unfold depthAfter
  constructor
  · intro h
    split at h
    · cases h
    · rename_i hnames
      split at h
      · cases h
      · rename_i pops hpops
        split at h
        · cases h
        · rename_i henough
          split at h
          · cases h
          · rename_i hroom
            cases h
            exact ⟨operandFault_eq_none_iff.mp hnames, ⟨pops, hpops, by omega, rfl⟩, by omega⟩
  · rintro ⟨hnames, ⟨pops, hpops, henough, rfl⟩, hroom⟩
    have hfault := operandFault_eq_none_iff.mpr hnames
    simp only [hfault, hpops, if_neg (Nat.not_lt.mpr henough), if_neg (Nat.not_lt.mpr hroom)]

end Shape

namespace Program

/-- What an instruction loads exists. -/
def Names (p : Program) : Instruction → Prop
  | .loadInput slot => slot < p.inputs
  | .loadConst index => index < p.constants.size
  | _ => True

/-- An instruction takes the stack from one depth to another: what it names exists, it finds its
operands, and its result has a place. -/
structure Admits (p : Program) (depth : Nat) (i : Instruction) (depth' : Nat) : Prop where
  names : p.Names i
  pops : ∃ pops, i.pops? p.functions = some pops ∧ pops ≤ depth ∧ depth' = depth - pops + 1
  room : depth' ≤ p.maxStack

/-- Code takes the stack from one depth to another. -/
inductive Climbs (p : Program) : Nat → List Instruction → Nat → Prop
  | nil (depth : Nat) : Climbs p depth [] depth
  | cons {depth mid depth' : Nat} {i : Instruction} {code : List Instruction}
      (first : p.Admits depth i mid) (rest : Climbs p mid code depth') :
      Climbs p depth (i :: code) depth'

variable {p : Program}

theorem names_shape {i : Instruction} : p.shape.Names i ↔ p.Names i := by
  cases i <;> rfl

theorem pops?_shape (i : Instruction) : p.shape.pops? i = i.pops? p.functions := by
  cases i with
  | call index => simp [shape, Shape.pops?, Instruction.pops?]
  | loadInput | loadConst | add | sub | mul | div | pow | neg => rfl

/-- The check of one instruction. -/
theorem depthAfter_eq_ok_iff {depth depth' : Nat} {i : Instruction} :
    p.shape.depthAfter depth i = .ok depth' ↔ p.Admits depth i depth' := by
  rw [Shape.depthAfter_eq_ok_iff, names_shape, pops?_shape]
  exact ⟨fun ⟨names, pops, room⟩ => ⟨names, pops, room⟩,
    fun ⟨names, pops, room⟩ => ⟨names, pops, room⟩⟩

/-! ## Code -/

/-- The check of code, wherever it starts. -/
theorem depthFrom_eq_ok_iff {code : List Instruction} {place depth depth' : Nat} :
    p.shape.depthFrom code place depth = .ok depth' ↔ p.Climbs depth code depth' := by
  induction code generalizing place depth with
  | nil =>
    constructor
    · intro h
      cases h
      exact .nil _
    · intro h
      cases h
      rfl
  | cons i code ih =>
    unfold Shape.depthFrom
    constructor
    · intro h
      split at h
      · cases h
      · rename_i mid hmid
        exact .cons (depthAfter_eq_ok_iff.mp hmid) (ih.mp h)
    · intro h
      cases h with
      | cons first rest =>
        simp only [depthAfter_eq_ok_iff.mpr first]
        exact ih.mpr rest

theorem verify_eq (p : Program) :
    p.verify = match p.shape.depthFrom p.code.toList 0 0 with
      | .error e => .error e
      | .ok depth => if depth == 1 then .ok () else .error ⟨p.code.size, .leftover depth⟩ := rfl

/-- **A program passes its check exactly if its code climbs from nothing to one value.** -/
theorem verify_eq_ok_iff : p.verify = .ok () ↔ p.Climbs 0 p.code.toList 1 := by
  rw [← @depthFrom_eq_ok_iff p p.code.toList 0, verify_eq]
  cases p.shape.depthFrom p.code.toList 0 0 with
  | error e => simp
  | ok depth => by_cases h : depth = 1 <;> simp [h]

end Program
end Formula
