import Mathlib.Algebra.Ring.Int.Defs
import Mathlib.Order.Bounds.Basic
import Formula.Proofs.Verified

/-!
# The first instruction that breaks a rule

The check of a program goes through the code with a depth and stops early, so the depth it has is
that of an instruction only as long as nothing went wrong before.  The rules themselves can be
stated without a run.  The depth before an instruction is a sum over the instructions in front of it
(`Shape.depthBefore`), and `Shape.Obeys` lists the rules for one instruction by that depth.

* Where the depths agree, one instruction is admitted exactly if it obeys the rules, and the depths
  agree again after it (`depthAfter_eq_ok_iff_obeys`).  This is the step.
* From a place on, the check comes to the end or stops at the least place where a rule is broken
  (`depthFrom_cases`).  This is the run.

Nothing is assumed of the shape.  After the first broken rule the sums have no meaning as depths,
and by then the check has stopped.
-/

namespace Formula
namespace Shape

/-- How much an instruction adds to the depth of the stack: it pushes one value and pops its
operands. -/
def gain (m : Shape) (i : Instruction) : Int := 1 - ((m.pops? i).getD 0 : Nat)

/-- The depth of the stack before the instruction at a place. -/
def depthBefore (m : Shape) (k : Nat) : Int := ((m.code.toList.take k).map m.gain).sum

/-- The rules for the instruction at a place. -/
structure Obeys (m : Shape) (k : Nat) (i : Instruction) : Prop where
  input : ∀ slot, i = .loadInput slot → slot < m.inputs
  constant : ∀ index, i = .loadConst index → index < m.constants
  function : ∀ index, i = .call index → index < m.arities.size
  operands : ∀ pops, m.pops? i = some pops → (pops : Int) ≤ m.depthBefore k
  room : m.depthBefore (k + 1) ≤ m.maxStack

/-- The instruction at a place breaks a rule. -/
def Breaks (m : Shape) (k : Nat) : Prop := ∃ i, m.code[k]? = some i ∧ ¬ m.Obeys k i

variable {m : Shape} {i : Instruction} {k depth depth' : Nat}

/-! ## One instruction -/

@[simp] theorem depthBefore_zero (m : Shape) : m.depthBefore 0 = 0 := rfl

theorem depthBefore_succ (h : m.code[k]? = some i) :
    m.depthBefore (k + 1) = m.depthBefore k + m.gain i := by
  rw [← Array.getElem?_toList] at h
  simp only [depthBefore, List.take_add_one, h, Option.toList_some, List.map_append,
    List.sum_append, List.map_cons, List.map_nil, List.sum_cons, List.sum_nil, Int.add_zero]

/-- An instruction that finds its operands takes the depth to the one that the check computes. -/
theorem depthBefore_succ_of_le (hi : m.code[k]? = some i) (hdepth : m.depthBefore k = depth)
    {pops : Nat} (hpops : m.pops? i = some pops) (henough : pops ≤ depth) :
    m.depthBefore (k + 1) = (depth - pops + 1 : Nat) := by
  rw [depthBefore_succ hi, gain, hpops, Option.getD_some]
  omega

/-- An instruction has a number of operands, unless it is a call past the end of the table. -/
theorem exists_pops_iff :
    (∃ pops, m.pops? i = some pops) ↔ ∀ index, i = .call index → index < m.arities.size := by
  cases i with
  | call index =>
    constructor
    · rintro ⟨pops, hpops⟩ _ ⟨⟩
      exact (Array.getElem?_eq_some_iff.mp hpops).1
    · intro h
      exact ⟨_, Array.getElem?_eq_getElem (h index rfl)⟩
  | loadInput | loadConst => exact ⟨nofun, fun _ => ⟨0, rfl⟩⟩
  | add | sub | mul | div | pow => exact ⟨nofun, fun _ => ⟨2, rfl⟩⟩
  | neg => exact ⟨nofun, fun _ => ⟨1, rfl⟩⟩

theorem names_iff :
    m.Names i ↔ (∀ slot, i = .loadInput slot → slot < m.inputs) ∧
      ∀ index, i = .loadConst index → index < m.constants := by
  cases i <;> simp [Names]

/-- An instruction that obeys the rules finds its operands. -/
theorem Obeys.exists_pops (hobeys : m.Obeys k i) (hi : m.code[k]? = some i)
    (hdepth : m.depthBefore k = depth) :
    ∃ pops, m.pops? i = some pops ∧ pops ≤ depth ∧
      m.depthBefore (k + 1) = (depth - pops + 1 : Nat) := by
  obtain ⟨pops, hpops⟩ := exists_pops_iff.mpr hobeys.function
  have henough : pops ≤ depth := by
    have hoperands := hobeys.operands pops hpops
    omega
  exact ⟨pops, hpops, henough, depthBefore_succ_of_le hi hdepth hpops henough⟩

/-- **One instruction.**  The check admits it exactly if it obeys the rules, and the depth after it
is the one to go on with. -/
theorem depthAfter_eq_ok_iff_obeys (hi : m.code[k]? = some i) (hdepth : m.depthBefore k = depth) :
    m.depthAfter depth i = .ok depth' ↔ m.Obeys k i ∧ m.depthBefore (k + 1) = depth' := by
  rw [depthAfter_eq_ok_iff, names_iff]
  constructor
  · rintro ⟨⟨hinput, hconstant⟩, ⟨pops, hpops, henough, rfl⟩, hroom⟩
    have hafter := depthBefore_succ_of_le hi hdepth hpops henough
    refine ⟨⟨hinput, hconstant, exists_pops_iff.mp ⟨pops, hpops⟩, fun pops' hpops' => ?_, ?_⟩,
      hafter⟩
    · cases hpops.symm.trans hpops'
      omega
    · omega
  · rintro ⟨hobeys, hafter⟩
    obtain ⟨pops, hpops, henough, hcomputed⟩ := hobeys.exists_pops hi hdepth
    have hroom := hobeys.room
    exact ⟨⟨hobeys.input, hobeys.constant⟩, ⟨pops, hpops, henough, by omega⟩, by omega⟩

/-! ## Code -/

/-- **From a place on.**  The check comes to the end of the code, all of which obeys the rules, or
it stops at the least place that breaks one. -/
theorem depthFrom_cases {rest : List Instruction} (hrest : m.code.toList.drop k = rest)
    (hdepth : m.depthBefore k = depth) :
    (∃ depth' : Nat, m.depthFrom rest k depth = .ok depth' ∧ (∀ j, k ≤ j → ¬ m.Breaks j) ∧
      m.depthBefore m.code.size = depth') ∨
    ∃ j reason, m.depthFrom rest k depth = .error ⟨j, reason⟩ ∧
      IsLeast {j | k ≤ j ∧ m.Breaks j} j := by
  induction rest generalizing k depth with
  | nil =>
    have hend : m.code.size ≤ k := by
      rw [← Array.length_toList]
      exact List.drop_eq_nil_iff.mp hrest
    refine .inl ⟨depth, rfl, fun j hj => ?_, ?_⟩
    · rintro ⟨i, hi, -⟩
      have hlt := (Array.getElem?_eq_some_iff.mp hi).1
      omega
    · rw [← hdepth, depthBefore, depthBefore, List.take_of_length_le hend,
        List.take_of_length_le (Nat.le_of_eq (Array.length_toList))]
  | cons i rest ih =>
    have hi : m.code[k]? = some i := by
      rw [← Array.getElem?_toList, ← List.head?_drop, hrest]
      rfl
    have hrest' : m.code.toList.drop (k + 1) = rest := by
      rw [← List.tail_drop, hrest]
      rfl
    cases hafter : m.depthAfter depth i with
    | error reason =>
      have hbreaks : m.Breaks k := by
        refine ⟨i, hi, fun hobeys => ?_⟩
        obtain ⟨pops, -, -, hmid⟩ := hobeys.exists_pops hi hdepth
        have hadmitted := (depthAfter_eq_ok_iff_obeys hi hdepth).mpr ⟨hobeys, hmid⟩
        cases hafter.symm.trans hadmitted
      refine .inr ⟨k, reason, ?_, ⟨Nat.le_refl k, hbreaks⟩, fun j hj => hj.1⟩
      simp only [depthFrom, hafter]
    | ok mid =>
      obtain ⟨hobeys, hmid⟩ := (depthAfter_eq_ok_iff_obeys hi hdepth).mp hafter
      have hkept : ¬ m.Breaks k := by
        rintro ⟨i', hi', hbroken⟩
        cases hi.symm.trans hi'
        exact hbroken hobeys
      -- This place is kept, so the least one from here on is the least one from the next place on.
      have hnext : ∀ j, k ≤ j → m.Breaks j → k + 1 ≤ j := by
        intro j hj hbreaks
        rcases Nat.eq_or_lt_of_le hj with rfl | hlt
        · exact absurd hbreaks hkept
        · exact hlt
      simp only [depthFrom, hafter]
      rcases ih hrest' hmid with ⟨depth', hok, hobeyed, hlast⟩ | ⟨j, reason, herror, hj, hleast⟩
      · exact .inl ⟨depth', hok, fun j hj hbreaks => hobeyed j (hnext j hj hbreaks) hbreaks, hlast⟩
      · refine .inr ⟨j, reason, herror, ⟨Nat.le_of_succ_le hj.1, hj.2⟩, ?_⟩
        rintro j' ⟨hj', hbreaks⟩
        exact hleast ⟨hnext j' hj' hbreaks, hbreaks⟩

/-- **The three ways in which a check ends.** -/
theorem verify_cases (m : Shape) :
    ((∀ k, ¬ m.Breaks k) ∧ m.depthBefore m.code.size = 1 ∧ m.verify = .ok ()) ∨
    ((∀ k, ¬ m.Breaks k) ∧ m.depthBefore m.code.size ≠ 1 ∧
      ∃ reason, m.verify = .error ⟨m.code.size, reason⟩) ∨
    ∃ k reason, IsLeast {k | m.Breaks k} k ∧ m.verify = .error ⟨k, reason⟩ := by
  have hcode : m.code.toList.drop 0 = m.code.toList := rfl
  rcases depthFrom_cases hcode m.depthBefore_zero with
    ⟨depth, hok, hobeyed, hlast⟩ | ⟨k, reason, herror, hk, hleast⟩
  · have hnone : ∀ k, ¬ m.Breaks k := fun k => hobeyed k (Nat.zero_le k)
    by_cases hone : depth = 1
    · refine .inl ⟨hnone, by omega, ?_⟩
      simp only [verify, hok, hone, BEq.rfl, if_true]
    · refine .inr (.inl ⟨hnone, by omega, .leftover depth, ?_⟩)
      simp only [verify, hok, beq_eq_false_iff_ne.mpr hone, Bool.false_eq_true, if_false]
  · refine .inr (.inr ⟨k, reason, ⟨hk.2, fun j hj => hleast ⟨Nat.zero_le j, hj⟩⟩, ?_⟩)
    simp only [verify, herror]

/-- **The check decides the rules and names the first offender.**  The shape may be any, with
functions of any number of arguments, and the check of a program is the check of its shape.

* It passes exactly if every instruction obeys the rules and one value is left at the end.
* If an instruction breaks a rule, the check fails at the least such instruction.
* If only the end is wrong, it fails at the length of the code. -/
theorem verify_decides (m : Shape) :
    (m.verify = .ok () ↔
      (∀ k i, m.code[k]? = some i → m.Obeys k i) ∧ m.depthBefore m.code.size = 1) ∧
    (∀ k, IsLeast {k | ∃ i, m.code[k]? = some i ∧ ¬ m.Obeys k i} k →
      ∃ reason, m.verify = .error ⟨k, reason⟩) ∧
    ((∀ k i, m.code[k]? = some i → m.Obeys k i) → m.depthBefore m.code.size ≠ 1 →
      ∃ reason, m.verify = .error ⟨m.code.size, reason⟩) ∧
    ∀ p : Program, p.shape = m → p.verify = m.verify := by
  have hobeyed : (∀ k, ¬ m.Breaks k) ↔ ∀ k i, m.code[k]? = some i → m.Obeys k i := by
    simp [Breaks]
  rw [← hobeyed]
  refine ⟨?_, ?_, ?_, fun p hp => hp ▸ rfl⟩
  · rcases m.verify_cases with ⟨hnone, hone, hok⟩ | ⟨-, hne, reason, herror⟩ |
      ⟨k, reason, hleast, herror⟩
    · exact ⟨fun _ => ⟨hnone, hone⟩, fun _ => hok⟩
    · rw [herror]
      exact ⟨nofun, fun h => absurd h.2 hne⟩
    · rw [herror]
      exact ⟨nofun, fun h => absurd hleast.1 (h.1 k)⟩
  · intro k hk
    rcases m.verify_cases with ⟨hnone, -, -⟩ | ⟨hnone, -, -⟩ | ⟨k', reason, hleast, herror⟩
    · exact absurd hk.1 (hnone k)
    · exact absurd hk.1 (hnone k)
    · rw [IsLeast.unique hk hleast]
      exact ⟨reason, herror⟩
  · intro hnone hne
    rcases m.verify_cases with ⟨-, hone, -⟩ | ⟨-, -, herror⟩ | ⟨k, reason, hleast, -⟩
    · exact absurd hone hne
    · exact herror
    · exact absurd hleast.1 (hnone k)

/-- A function of three arguments finds two, and an input that is not declared comes after it. -/
example : verify ⟨1, 2, 0, #[3], #[.loadInput 0, .loadInput 0, .call 0, .loadInput 4]⟩ =
    .error ⟨2, .underflow (.call 0)⟩ := rfl

end Shape
end Formula
