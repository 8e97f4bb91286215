import Formula.Binary64
import Formula.Text.Layout

/-!
# Writing a float with the fewest digits

A finite float stands for an interval of reals, those that round to it.  Its text has the fewest
digits of any decimal in that interval, and of those with as few digits it is the nearest to the
float.  The search is exact: with one, two, ... digits, the two neighbours of the float on that
decimal grid are tested for membership, and seventeen digits always suffice.

All quantities are counted in quarters of the last place, that is in units of `2^(q-1076)` for a
magnitude `m * 2^(q-1074)`.  The float is `4 * m` of them, and its neighbours' midpoints lie two
away, or one below when `m` is a power of two and the exponent can still shrink.

The layout is positional for every exponent, with no point when there is no fraction.
-/

namespace Formula
namespace Decimal

/-- The reals that round to a float, as a float's own position and two ends counted in units of
`unit / scale`; an even significand owns the ends. -/
structure Interval where
  low : Nat
  value : Nat
  high : Nat
  closed : Bool
  unit : Nat
  scale : Nat

namespace Interval

/-- The interval of the magnitude `m * 2^(q-1074)`. -/
def ofMagnitude (m q : Nat) : Interval :=
  { low := if m == Binary64.exponentUnit && 0 < q then 4 * m - 1 else 4 * m - 2
    value := 4 * m
    high := 4 * m + 2
    closed := m % 2 == 0
    unit := Nat.pow 2 (q - 1076)
    scale := Nat.pow 2 (1076 - q) }

/-- Whether the grid point `d * num / den` lies in the interval. -/
def contains (i : Interval) (d num den : Nat) : Bool :=
  let point := d * num * i.scale
  let low := i.low * i.unit * den
  let high := i.high * i.unit * den
  if i.closed then low ≤ point && point ≤ high else low < point && point < high

/-- The nearest of a float's two neighbours on the grid of multiples of `num / den`, among those in
the interval; the upper one when both are as near. -/
def neighbour? (i : Interval) (num den : Nat) : Option Nat :=
  let step := num * i.scale
  let value := i.value * i.unit * den
  let below := value / step
  let excess := value % step
  let upperFirst := step ≤ 2 * excess
  let candidates := if upperFirst then [below + 1, below] else [below, below + 1]
  candidates.find? fun d => i.contains d num den

/-- The greatest power of ten not above the value, by its exponent.  The estimate from the binary
exponent is exact or one too small. -/
def decimalExponent (i : Interval) (binaryExponent : Int) : Int :=
  let estimate := binaryExponent * 30103 / 100000
  let next := estimate + 1
  let reached : Bool :=
    if 0 ≤ next then Nat.pow 10 next.toNat * i.scale ≤ i.value * i.unit
    else i.scale ≤ i.value * i.unit * Nat.pow 10 (-next).toNat
  if reached then next else estimate

/-- The first grid with a hit, trying finer ones: the digits and the power of ten they count. -/
def search (i : Interval) : Nat → Int → Nat × Int
  | 0, power => (0, power)
  | tries + 1, power =>
    let hit :=
      if 0 ≤ power then i.neighbour? (Nat.pow 10 power.toNat) 1
      else i.neighbour? 1 (Nat.pow 10 (-power).toNat)
    match hit with
    | some d => (d, power)
    | none => i.search tries (power - 1)

end Interval

/-- The shortest decimal `d * 10^p` that rounds to the magnitude `m * 2^(q-1074)`, for positive `m`.
-/
def shortest (m q : Nat) : Nat × Int :=
  let interval := Interval.ofMagnitude m q
  interval.search 20 (interval.decimalExponent ((m.log2 : Int) + q - 1074))

/-- Positional layout of `d * 10^p`: trailing zeros fill up to the point, and a point with no digit
after it is left out. -/
def positional (d : Nat) (p : Int) : String :=
  let digits := Nat.toDigits 10 d
  if 0 ≤ p then String.ofList (digits ++ List.replicate p.toNat '0')
  else
    let places := (-p).toNat
    let padded := List.replicate (places + 1 - digits.length) '0' ++ digits
    let whole := padded.take (padded.length - places)
    let fraction := (padded.drop (padded.length - places)).reverse.dropWhile (· == '0')
    if fraction.isEmpty then String.ofList whole
    else String.ofList (whole ++ '.' :: fraction.reverse)

/-- The text of a number.  The sign is left out where it is not a number. -/
def render (x : Binary64) : String :=
  let sign := if x.isNegative then "-" else ""
  if Binary64.infinity < x.unsigned then "NaN"
  else if x.unsigned == Binary64.infinity then sign ++ "inf"
  else if x.unsigned == 0 then sign ++ "0"
  else
    let (m, q) := x.magnitude
    let (d, p) := shortest m q
    sign ++ positional d p

end Decimal
end Formula
