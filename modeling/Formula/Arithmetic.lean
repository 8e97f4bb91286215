import Formula.Binary64
import Formula.Builtin

/-!
# Arithmetic as a parameter

Programs are run over any carrier with the operations of `Arithmetic`.  Running them over floats is
one instance, `Arithmetic.float`; nothing in the machine or in straight-line code looks at a value
other than through these operations, so what is proved about them holds for every instance.

Builtins are derived from the operations: rounding is the floor of the argument and a half, and a
function of two arguments given only one uses it twice.
-/

namespace Formula

/-- The operations a program is run with.  Constants enter from binary64. -/
structure Arithmetic (α : Type) where
  const : Binary64 → α
  neg : α → α
  add : α → α → α
  sub : α → α → α
  mul : α → α → α
  div : α → α → α
  pow : α → α → α
  max : α → α → α
  min : α → α → α
  abs : α → α
  floor : α → α
  acos : α → α
  asin : α → α
  atan : α → α
  cos : α → α
  exp : α → α
  log : α → α
  sin : α → α
  tan : α → α

namespace Arithmetic

variable {α : Type}

/-- The argument and a half, rounded down: halves round upwards. -/
def round (a : Arithmetic α) (x : α) : α := a.floor (a.add x (a.const .half))

/-- A builtin of two arguments; one of a single argument ignores the second. -/
def apply₂ (a : Arithmetic α) : Builtin → α → α → α
  | .max, x, y => a.max x y
  | .min, x, y => a.min x y
  | .pow, x, y => a.pow x y
  | .acos, x, _ => a.acos x
  | .asin, x, _ => a.asin x
  | .atan, x, _ => a.atan x
  | .abs, x, _ => a.abs x
  | .cos, x, _ => a.cos x
  | .exp, x, _ => a.exp x
  | .log, x, _ => a.log x
  | .floor, x, _ => a.floor x
  | .round, x, _ => a.round x
  | .sin, x, _ => a.sin x
  | .tan, x, _ => a.tan x

/-- A builtin of one argument; one of two arguments takes it twice. -/
def apply₁ (a : Arithmetic α) (b : Builtin) (x : α) : α := a.apply₂ b x x

/-- The greater of two floats.  It is not a number when either is not, and zero counts as greater
than negative zero. -/
def maxFloat (x y : Float) : Float :=
  if x.isNaN || y.isNaN then (Binary64.ofWord Binary64.notANumber).toFloat
  else if x < y then y
  else if y < x then x
  else if (Binary64.ofFloat x).isNegative then y else x

/-- The lesser of two floats, with the conventions of `maxFloat`. -/
def minFloat (x y : Float) : Float :=
  if x.isNaN || y.isNaN then (Binary64.ofWord Binary64.notANumber).toFloat
  else if x < y then x
  else if y < x then y
  else if (Binary64.ofFloat x).isNegative then x else y

/-- Arithmetic of floats. -/
def float : Arithmetic Float where
  const x := x.toFloat
  neg x := -x
  add x y := x + y
  sub x y := x - y
  mul x y := x * y
  div x y := x / y
  pow x y := Float.pow x y
  max := maxFloat
  min := minFloat
  abs := Float.abs
  floor := Float.floor
  acos := Float.acos
  asin := Float.asin
  atan := Float.atan
  cos := Float.cos
  exp := Float.exp
  log := Float.log
  sin := Float.sin
  tan := Float.tan

end Arithmetic
end Formula
