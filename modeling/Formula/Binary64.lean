/-!
# Words of binary64

A number in binary64 is its 64-bit word: a sign bit, eleven bits of exponent and fifty-two bits of
fraction.  Constants are kept as words and not as floats, because a word has a sign even where it is
not a number, and a float has none there.  Everything here is exact arithmetic on natural numbers.

* `Binary64.ofRatio` is the word nearest to a positive ratio, with ties to the even word.  Rounding
  up may carry into the exponent, and that is the right word already, because words of one sign are
  ordered as numbers; past the last finite word the carry gives infinity.
* `Binary64.magnitude` goes the other way: the two naturals `m` and `q` with value `m * 2^(q-1074)`.
* `Binary64.natural?` is the natural number that a word is equal to.
-/

namespace Formula

/-- A number in binary64, given by its word. -/
structure Binary64 where
  bits : UInt64
  deriving DecidableEq, Repr

namespace Binary64

/-- The word of positive infinity. -/
def infinity : Nat := 0x7ff0000000000000

/-- The word of the quiet not-a-number with no payload. -/
def notANumber : Nat := 0x7ff8000000000000

/-- The lowest bit of the exponent, and the bit that a normal significand has above its fraction. -/
def exponentUnit : Nat := 0x10000000000000

/-- The number of values of the exponent field. -/
def exponentCount : Nat := 0x800

/-- The sign bit. -/
def signBit : Nat := 0x8000000000000000

/-- The quotient rounded to the nearest natural, a tie to the even one. -/
def roundedQuotient (num den : Nat) : Nat :=
  let quotient := num / den
  let twice := 2 * (num % den)
  if twice < den then quotient
  else if den < twice then quotient + 1
  else quotient + quotient % 2

/-- The exponent `k`, counted from `-1074`, at which a positive ratio is rounded: the one that
leaves fifty-three bits before the point, but never less than zero. -/
def roundingExponent (num den : Nat) : Nat :=
  let estimate : Int := (num.log2 : Int) - den.log2
  let below : Bool :=
    if 0 ≤ estimate then num < den * Nat.pow 2 estimate.toNat
    else num * Nat.pow 2 (-estimate).toNat < den
  let k := if below then estimate - 53 else estimate - 52
  (k + 1074).toNat

/-- The word nearest to the ratio `num / den` of two positive naturals. -/
def ofRatio (num den : Nat) : Nat :=
  let k := roundingExponent num den
  let significand :=
    if 1074 ≤ k then roundedQuotient num (den * Nat.pow 2 (k - 1074))
    else roundedQuotient (num * Nat.pow 2 (1074 - k)) den
  min infinity (k * exponentUnit + significand)

/-- The number of a word. -/
def ofWord (word : Nat) : Binary64 := ⟨word.toUInt64⟩

/-- The word of a number. -/
def word (x : Binary64) : Nat := x.bits.toNat

/-- The word without its sign bit. -/
def unsigned (x : Binary64) : Nat := x.word % signBit

/-- Whether the sign bit is set. -/
def isNegative (x : Binary64) : Bool := signBit ≤ x.word

/-- The other sign. -/
def neg (x : Binary64) : Binary64 :=
  ofWord (if x.isNegative then x.unsigned else signBit + x.unsigned)

/-- The float of a number.  Numbers that are not a number have one float in common. -/
def toFloat (x : Binary64) : Float := Float.ofBits x.bits

/-- The number of a float. -/
def ofFloat (x : Float) : Binary64 := ⟨x.toBits⟩

/-- Zero. -/
def zero : Binary64 := ofWord 0

/-- One half. -/
def half : Binary64 := ofWord 0x3fe0000000000000

/-- One. -/
def one : Binary64 := ofWord 0x3ff0000000000000

/-- The base of the natural logarithm. -/
def e : Binary64 := ofWord 0x4005bf0a8b145769

/-- The ratio of a circle's circumference to its diameter. -/
def pi : Binary64 := ofWord 0x400921fb54442d18

/-- The significand and the exponent, counted from `-1074`, of the magnitude of a finite number. -/
def magnitude (x : Binary64) : Nat × Nat :=
  let fraction := x.word % exponentUnit
  match x.word / exponentUnit % exponentCount with
  | 0 => (fraction, 0)
  | k + 1 => (exponentUnit + fraction, k)

/-- The natural number that a finite number is equal to.  Negative zero is equal to zero. -/
def natural? (x : Binary64) : Option Nat :=
  if infinity ≤ x.unsigned then none
  else
    let (m, q) := x.magnitude
    let units := m * Nat.pow 2 q
    let unitsOfOne := Nat.pow 2 1074
    if units == 0 then some 0
    else if x.isNegative || units % unitsOfOne != 0 then none
    else some (units / unitsOfOne)

end Binary64
end Formula
