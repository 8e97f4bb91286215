import Formula.SourceError
import Formula.Text

/-!
# Numerals

A numeral is digits with an optional point, or a point and digits, followed by an optional exponent:
a mark `e` or `E`, an optional sign and digits.  A sign belongs to a numeral only right after the
mark.

`Numeral.length?` measures the numeral at the front of a text.  It takes as much as it can, and a
text that begins like a numeral and goes on wrongly is an error rather than a shorter numeral:

* a second point after the fraction,
* an exponent mark without digits,
* a point after the digits of an exponent.

All characters involved have one byte, so lengths here are byte lengths as well.
-/

namespace Formula
namespace Numeral

/-- A position relative to the start of a numeral, with what is wrong there. -/
abbrev Fault := Nat × Cause

/-- Whether a numeral begins at the front of a text. -/
def starts : List Char → Bool
  | [] => false
  | c :: cs => Text.isDigit c || (c == '.' && (cs.head?.map Text.isDigit).getD false)

/-- Whether a point is at the front of a text. -/
def atPoint (cs : List Char) : Bool := cs.head? == some '.'

/-- Whether an exponent mark is at the front of a text. -/
def atMark (cs : List Char) : Bool := cs.head? == some 'e' || cs.head? == some 'E'

/-- The number of sign characters, none or one, at the front of a text. -/
def signLength (cs : List Char) : Nat :=
  if cs.head? == some '+' || cs.head? == some '-' then 1 else 0

/-- The number of digits at the front of a text. -/
def digitsLength (cs : List Char) : Nat := (cs.takeWhile Text.isDigit).length

/-- The number of characters in the part of a numeral before its exponent. -/
def mantissaLength (cs : List Char) : Except Fault Nat :=
  let whole := digitsLength cs
  if atPoint (cs.drop whole) then
    let length := whole + 1 + digitsLength (cs.drop (whole + 1))
    if atPoint (cs.drop length) then .error (length, .secondPoint) else .ok length
  else .ok whole

/-- The length of a numeral whose part before the exponent is already measured. -/
def withExponent (cs : List Char) (mantissa : Nat) : Except Fault Nat :=
  if atMark (cs.drop mantissa) then
    let start := mantissa + 1 + signLength (cs.drop (mantissa + 1))
    let digits := digitsLength (cs.drop start)
    if digits == 0 then .error (start, .emptyExponent)
    else if atPoint (cs.drop (start + digits)) then .error (start + digits, .pointInExponent)
    else .ok (start + digits)
  else .ok mantissa

/-- The length of the numeral at the front of a text, `none` when no numeral begins there. -/
def length? (cs : List Char) : Except Fault (Option Nat) :=
  if starts cs then
    match mantissaLength cs with
    | .error fault => .error fault
    | .ok mantissa => (withExponent cs mantissa).map some
  else .ok none

/-- The byte offset at which the numeral starting at byte `start` ends.  No numeral starts past the
end of a text or inside a character. -/
def stop? (source : String) (start : Nat) : Except SourceError (Option Nat) :=
  match Text.splitAtByte? source.toList start with
  | none => .ok none
  | some (_, rest) =>
    match length? rest with
    | .error (distance, cause) => .error ⟨start + distance, cause⟩
    | .ok length => .ok (length.map (start + ·))

/-! ## A numeral is never empty -/

theorem digitsLength_pos {c : Char} {cs : List Char} (h : Text.isDigit c = true) :
    0 < digitsLength (c :: cs) := by
  simp [digitsLength, h]

theorem mantissaLength_pos {cs : List Char} {m : Nat} (begins : starts cs = true)
    (h : mantissaLength cs = .ok m) : 0 < m := by
  simp only [mantissaLength] at h
  split at h
  · split at h
    · cases h
    · cases h; omega
  · rename_i noPoint
    cases h
    cases cs with
    | nil => simp [starts] at begins
    | cons c cs =>
      simp only [starts, Bool.or_eq_true, Bool.and_eq_true, beq_iff_eq] at begins
      rcases begins with digit | ⟨rfl, _⟩
      · exact digitsLength_pos digit
      · have zero : digitsLength ('.' :: cs) = 0 := by
          simp [digitsLength, show Text.isDigit '.' = false by decide]
        simp [zero, atPoint] at noPoint

/-- An exponent only adds to the length. -/
theorem le_withExponent {cs : List Char} {m n : Nat} (h : withExponent cs m = .ok n) : m ≤ n := by
  simp only [withExponent] at h
  split at h
  · split at h
    · cases h
    · split at h
      · cases h
      · cases h; omega
  · cases h; exact Nat.le_refl _

theorem length?_pos {cs : List Char} {n : Nat} (h : length? cs = .ok (some n)) : 0 < n := by
  simp only [length?] at h
  split at h
  · rename_i begins
    split at h
    · cases h
    · rename_i m hm
      cases hx : withExponent cs m with
      | error e => simp [hx, Except.map] at h
      | ok k =>
        simp only [hx, Except.map, Except.ok.injEq, Option.some.injEq] at h
        subst h
        exact Nat.lt_of_lt_of_le (mantissaLength_pos begins hm) (le_withExponent hx)
  · cases h

end Numeral
end Formula
