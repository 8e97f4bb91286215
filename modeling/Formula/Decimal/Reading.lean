import Formula.Binary64
import Formula.Text

/-!
# Reading a number from its text

The texts that denote a number are an optional sign followed by `inf`, `infinity` or `nan` in any
case, or by a decimal: digits with an optional point among them, at least one digit in all, and an
optional exponent.  A decimal denotes the number of binary64 nearest to it, with ties to even.

Reading has two halves.  `Decimal.ofChars?` recognises the spelling and keeps the digits and the
power of ten as exact numbers; `Decimal.toWord` rounds once.  Powers of ten far outside the range of
binary64 are settled by the count of digits.

An exponent is read digit by digit, and what is read stops growing at 65536: digits after that are
checked and otherwise ignored.  It makes a difference only for decimals with tens of thousands of
zeros.
-/

namespace Formula

/-- An unsigned decimal `mantissa * 10^exponent`.  The count of significant digits rides along, to
place its magnitude without computing the power. -/
structure Decimal where
  mantissa : Nat
  digits : Nat
  exponent : Int
  deriving DecidableEq, Repr

namespace Decimal

/-- A number with one more decimal digit at its end. -/
def appendDigit (n : Nat) (c : Char) : Nat := 10 * n + (c.toNat - '0'.toNat)

/-- The value of a list of decimal digits, cut in halves as often as `cuts` says.  Halves are read
apart and put together once, which is faster than digit by digit when they are long. -/
def digitsValueBy : Nat → List Char → Nat
  | 0, cs => cs.foldl appendDigit 0
  | cuts + 1, cs =>
    let high := cs.take (cs.length / 2)
    let low := cs.drop (cs.length / 2)
    digitsValueBy cuts high * Nat.pow 10 low.length + digitsValueBy cuts low

/-- The value of a list of decimal digits. -/
def digitsValue (cs : List Char) : Nat := digitsValueBy (cs.length / 64).log2 cs

theorem foldl_appendDigit (cs : List Char) (n : Nat) :
    cs.foldl appendDigit n = n * Nat.pow 10 cs.length + cs.foldl appendDigit 0 := by
  induction cs generalizing n with
  | nil => simp
  | cons c cs ih =>
    rw [List.foldl_cons, List.foldl_cons, ih (appendDigit n c), ih (appendDigit 0 c)]
    simp only [appendDigit, List.length_cons, Nat.pow_eq, Nat.pow_succ]
    grind

/-- Cutting does not change the value. -/
theorem digitsValueBy_eq_foldl (cuts : Nat) (cs : List Char) :
    digitsValueBy cuts cs = cs.foldl appendDigit 0 := by
  induction cuts generalizing cs with
  | zero => rfl
  | succ cuts ih =>
    rw [digitsValueBy, ih, ih, ← foldl_appendDigit, ← List.foldl_append, List.take_append_drop]

/-- The value is the one read digit by digit. -/
theorem digitsValue_eq_foldl (cs : List Char) : digitsValue cs = cs.foldl appendDigit 0 :=
  digitsValueBy_eq_foldl _ cs

/-- The decimal with the given digits before and after the point. -/
def ofDigits (whole fraction : List Char) (exponent : Int) : Decimal :=
  let significant := (whole ++ fraction).dropWhile (· == '0')
  { mantissa := digitsValue significant
    digits := significant.length
    exponent := exponent - fraction.length }

/-- A possibly empty run of digits as a number, if it is a nonempty run of digits only. -/
def digits? (cs : List Char) : Option Nat :=
  if !cs.isEmpty && cs.all Text.isDigit then some (digitsValue cs) else none

/-- An optional sign in front of something: whether it is negative, and the rest. -/
def splitSign : List Char → Bool × List Char
  | '-' :: cs => (true, cs)
  | '+' :: cs => (false, cs)
  | cs => (false, cs)

/-- Exponents from here on take no further digits. -/
def exponentLimit : Nat := 65536

/-- The size of an exponent with the given digits. -/
def exponentValue (cs : List Char) : Nat :=
  cs.foldl (fun n c => if n < exponentLimit then appendDigit n c else n) 0

/-- The exponent part of a decimal: nothing, or a mark, an optional sign and digits. -/
def exponent? : List Char → Option Int
  | [] => some 0
  | mark :: cs =>
    if mark == 'e' || mark == 'E' then
      let (negative, ds) := splitSign cs
      if ds.isEmpty || !ds.all Text.isDigit then none
      else
        let size : Int := exponentValue ds
        some (if negative then -size else size)
    else none

/-- The digits after an optional point, and what follows them. -/
def splitFraction : List Char → List Char × List Char
  | '.' :: cs => (cs.takeWhile Text.isDigit, cs.dropWhile Text.isDigit)
  | cs => ([], cs)

/-- The unsigned decimal that a text spells. -/
def ofChars? (cs : List Char) : Option Decimal :=
  let whole := cs.takeWhile Text.isDigit
  let (fraction, rest) := splitFraction (cs.dropWhile Text.isDigit)
  if whole.isEmpty && fraction.isEmpty then none
  else (exponent? rest).map (ofDigits whole fraction)

/-- The word nearest to a decimal.  With `d` digits it lies below `10^(exponent + d)` and not below
a tenth of that, which settles the decimals above and below every finite word. -/
def toWord (x : Decimal) : Nat :=
  let magnitude := x.exponent + x.digits
  if x.mantissa == 0 || magnitude < -330 then 0
  else if 310 < magnitude then Binary64.infinity
  else if 0 ≤ x.exponent then Binary64.ofRatio (x.mantissa * Nat.pow 10 x.exponent.toNat) 1
  else Binary64.ofRatio x.mantissa (Nat.pow 10 (-x.exponent).toNat)

/-- The word of an unsigned number text: a special word in any case, or a decimal. -/
def unsignedWord? (cs : List Char) : Option Nat :=
  match String.ofList (cs.map Char.toLower) with
  | "inf" => some Binary64.infinity
  | "infinity" => some Binary64.infinity
  | "nan" => some Binary64.notANumber
  | _ => (ofChars? cs).map toWord

/-- The number that a text denotes.  A sign is kept by all of them, zero and `nan` included. -/
def parse? (text : String) : Option Binary64 :=
  let (negative, cs) := splitSign text.toList
  (unsignedWord? cs).map fun word =>
    Binary64.ofWord (if negative then Binary64.signBit + word else word)

end Decimal
end Formula
