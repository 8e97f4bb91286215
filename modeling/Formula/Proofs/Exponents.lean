import Mathlib.Algebra.Field.Rat
import Mathlib.Algebra.Order.Field.Rat
import Mathlib.Data.Rat.Cast.Order
import Mathlib.Tactic.Linarith
import Mathlib.Tactic.Positivity
import Formula.Routine.Lowering

/-!
# Which powers become multiplications

A lowering remembers of the top of its stack which constant it is, through changes of sign.  What it
remembers depends only on the last instructions: a load of a constant with changes of sign after it.
`Program.trailing?` reads it off the instructions before a place, the latest first.

`Binary64.value?` is the rational number of a word, and `natural?_eq_some_iff` says that the integer
found by arithmetic on words is that number.  `inlinePower?_eq_some_iff` puts both together: a power
becomes multiplications exactly if its exponent is a constant with any number of changes of sign,
whose value is an integer from 0 to 64.
-/

namespace Formula

namespace Binary64

/-- The rational number of a finite word. -/
def value? (x : Binary64) : Option ℚ :=
  if infinity ≤ x.unsigned then none
  else
    let magnitude : ℚ := x.magnitude.1 * 2 ^ x.magnitude.2 / 2 ^ 1074
    some (if x.isNegative then -magnitude else magnitude)

/-- A quotient that is a natural number. -/
theorem div_eq_natCast_iff {units one n : Nat} (hone : 0 < one) :
    (units : ℚ) / one = n ↔ units = n * one := by
  rw [div_eq_iff (by positivity), ← Nat.cast_mul, Nat.cast_inj]

theorem neg_div_eq_natCast_iff {units one n : Nat} (hone : 0 < one) :
    -((units : ℚ) / one) = n ↔ units = 0 ∧ n = 0 := by
  constructor
  · intro h
    have hnonneg : (0 : ℚ) ≤ units / one := by positivity
    have hn : (0 : ℚ) ≤ n := by positivity
    have hzero : (n : ℚ) = 0 := by linarith
    have hn0 : n = 0 := by exact_mod_cast hzero
    have hquotient : (units : ℚ) / one = (0 : Nat) := by
      rw [Nat.cast_zero]
      linarith
    rw [div_eq_natCast_iff hone, Nat.zero_mul] at hquotient
    exact ⟨hquotient, hn0⟩
  · rintro ⟨rfl, rfl⟩
    simp

/-- The natural number of a word is its value. -/
theorem natural?_eq_some_iff {x : Binary64} {n : Nat} :
    x.natural? = some n ↔ x.value? = some (n : ℚ) := by
  unfold natural? value?
  by_cases hinf : infinity ≤ x.unsigned
  · rw [if_pos hinf, if_pos hinf]
    simp
  · rw [if_neg hinf, if_neg hinf]
    have hpos : ∀ k, 0 < Nat.pow 2 k := Nat.two_pow_pos
    have hone := hpos 1074
    have hcast : (x.magnitude.1 * 2 ^ x.magnitude.2 / 2 ^ 1074 : ℚ) =
        (x.magnitude.1 * Nat.pow 2 x.magnitude.2 : Nat) / (Nat.pow 2 1074 : Nat) := by
      simp only [Nat.pow_eq, Nat.cast_mul, Nat.cast_pow, Nat.cast_ofNat]
    simp only [hcast, Option.some.injEq]
    generalize x.magnitude.1 * Nat.pow 2 x.magnitude.2 = units
    generalize Nat.pow 2 1074 = one at hone
    by_cases hunits : units = 0
    · subst hunits
      cases x.isNegative <;> simp [eq_comm]
    · cases x.isNegative with
      | true =>
        simp only [if_true, neg_div_eq_natCast_iff hone]
        simp [hunits]
      | false =>
        simp only [Bool.false_eq_true, if_false, div_eq_natCast_iff hone]
        by_cases hmod : units % one = 0
        · have hiff : units / one = n ↔ units = n * one :=
            Nat.div_eq_iff_eq_mul_left hone (Nat.dvd_of_mod_eq_zero hmod)
          simp [hunits, hmod, hiff]
        · have hne : units ≠ n * one := by
            rintro rfl
            exact hmod (Nat.mul_mod_left n one)
          simp [hunits, hmod, hne]

end Binary64

/-- The exponents that become multiplications are the integers from 0 to 64. -/
theorem inlineExponent?_eq_some_iff {e : Binary64} {n : Nat} :
    inlineExponent? e = some n ↔ e.value? = some (n : ℚ) ∧ n ≤ 64 := by
  unfold inlineExponent?
  rw [← Binary64.natural?_eq_some_iff]
  cases hn : e.natural? with
  | none => simp
  | some m =>
    by_cases hm : m ≤ maxInlineExponent
    · simp only [if_pos hm, Option.some.injEq]
      exact ⟨fun h => ⟨h, h ▸ hm⟩, And.left⟩
    · simp only [if_neg hm, Option.some.injEq]
      refine ⟨fun h => (by cases h), ?_⟩
      rintro ⟨rfl, hle⟩
      exact absurd hle hm

namespace Program

/-- The constant that the instructions before a place leave on top of the stack, the latest
instruction first. -/
def trailing? (p : Program) : List Instruction → Option Binary64
  | .loadConst index :: _ => p.constants[index]?
  | .neg :: before => (p.trailing? before).map Binary64.neg
  | _ => none

/-- The exponent of a power that becomes multiplications, given the instructions before it. -/
def inlinePower? (p : Program) (before : List Instruction) : Option Nat :=
  (p.trailing? before).bind inlineExponent?

/-- A power after these instructions, the latest first, has a constant exponent: a constant with
some changes of sign after it, whose value is an integer from 0 to 64. -/
def Expands (p : Program) (before : List Instruction) (n : Nat) : Prop :=
  ∃ (signs index : Nat) (earlier : List Instruction) (x : Binary64),
    before = List.replicate signs .neg ++ .loadConst index :: earlier ∧
    p.constants[index]? = some x ∧ (Binary64.neg^[signs] x).value? = some (n : ℚ) ∧ n ≤ 64

variable {p : Program}

theorem trailing?_eq_some_iff {before : List Instruction} {e : Binary64} :
    p.trailing? before = some e ↔
      ∃ (signs index : Nat) (earlier : List Instruction) (x : Binary64),
        before = List.replicate signs .neg ++ .loadConst index :: earlier ∧
        p.constants[index]? = some x ∧ Binary64.neg^[signs] x = e := by
  constructor
  · intro h
    induction before generalizing e with
    | nil => cases h
    | cons i before ih =>
      cases i with
      | loadConst index => exact ⟨0, index, before, e, rfl, h, rfl⟩
      | neg =>
        obtain ⟨e', he', rfl⟩ := Option.map_eq_some_iff.mp h
        obtain ⟨signs, index, earlier, x, rfl, hx, rfl⟩ := ih he'
        exact ⟨signs + 1, index, earlier, x, rfl, hx, Function.iterate_succ_apply' ..⟩
      | loadInput | add | sub | mul | div | pow | call => cases h
  · rintro ⟨signs, index, earlier, x, rfl, hx, rfl⟩
    induction signs with
    | zero => exact hx
    | succ signs ih =>
      rw [Function.iterate_succ_apply']
      exact Option.map_eq_some_iff.mpr ⟨_, ih, rfl⟩

/-- The powers that become multiplications are those with such an exponent. -/
theorem inlinePower?_eq_some_iff {before : List Instruction} {n : Nat} :
    p.inlinePower? before = some n ↔ p.Expands before n := by
  unfold inlinePower? Expands
  rw [Option.bind_eq_some_iff]
  constructor
  · rintro ⟨e, he, hn⟩
    obtain ⟨signs, index, earlier, x, hbefore, hx, rfl⟩ := trailing?_eq_some_iff.mp he
    exact ⟨signs, index, earlier, x, hbefore, hx, inlineExponent?_eq_some_iff.mp hn⟩
  · rintro ⟨signs, index, earlier, x, hbefore, hx, hn⟩
    exact ⟨_, trailing?_eq_some_iff.mpr ⟨signs, index, earlier, x, hbefore, hx, rfl⟩,
      inlineExponent?_eq_some_iff.mpr hn⟩

end Program
end Formula
