/-!
# The functions a formula may call

The set is fixed: a formula cannot define functions.  `Builtin` says what is computed and
`FunctionName` how a formula calls for it; `int` and `floor` are two names of one builtin.  A name
fixes its number of arguments, so a wrong count is always an error of the caller.

A builtin is **inline** when straight-line code has instructions for it, and otherwise it is called
out of line, under a name that no other builtin has (`eq_of_symbol?_eq`).
-/

namespace Formula

/-- What a function computes. -/
inductive Builtin where
  | acos
  | asin
  | atan
  | abs
  | cos
  | exp
  /-- natural logarithm -/
  | log
  | max
  | min
  | floor
  /-- rounding with halves upwards -/
  | round
  | sin
  | tan
  | pow
  deriving DecidableEq, Repr

namespace Builtin

/-- The number of arguments of a builtin. -/
def arity : Builtin → Nat
  | max | min | pow => 2
  | _ => 1

/-- The name under which straight-line code calls the builtin, if it has no instructions for it. -/
def symbol? : Builtin → Option String
  | acos => some "exprc_acos"
  | asin => some "exprc_asin"
  | atan => some "exprc_atan"
  | cos => some "exprc_cos"
  | exp => some "exprc_exp"
  | log => some "exprc_log"
  | sin => some "exprc_sin"
  | tan => some "exprc_tan"
  | pow => some "exprc_pow"
  | abs | max | min | floor | round => none

/-- Whether straight-line code computes the builtin without a call. -/
def isInline (f : Builtin) : Bool := f.symbol?.isNone

/-- **A name is the name of one builtin.** -/
theorem eq_of_symbol?_eq {f g : Builtin} (hf : f.isInline = false) (h : g.symbol? = f.symbol?) :
    g = f := by
  revert hf h
  cases f <;> cases g <;> simp [isInline, symbol?]

end Builtin

/-- A callable name. -/
inductive FunctionName where
  | acos
  | asin
  | atan
  | abs
  | cos
  | exp
  | log
  | max
  | min
  | int
  | floor
  | round
  | sin
  | tan
  | pow
  deriving DecidableEq, Repr

namespace FunctionName

/-- Every callable name. -/
def all : List FunctionName :=
  [acos, asin, atan, abs, cos, exp, log, max, min, int, floor, round, sin, tan, pow]

/-- How a name is written. -/
def spelling : FunctionName → String
  | acos => "acos"
  | asin => "asin"
  | atan => "atan"
  | abs => "abs"
  | cos => "cos"
  | exp => "exp"
  | log => "log"
  | max => "max"
  | min => "min"
  | int => "int"
  | floor => "floor"
  | round => "round"
  | sin => "sin"
  | tan => "tan"
  | pow => "pow"

/-- What a name stands for. -/
def builtin : FunctionName → Builtin
  | acos => .acos
  | asin => .asin
  | atan => .atan
  | abs => .abs
  | cos => .cos
  | exp => .exp
  | log => .log
  | max => .max
  | min => .min
  | int => .floor
  | floor => .floor
  | round => .round
  | sin => .sin
  | tan => .tan
  | pow => .pow

/-- The number of arguments of a name. -/
def arity (f : FunctionName) : Nat := f.builtin.arity

/-- The callable name that is written so.  Case matters. -/
def ofSpelling? (text : String) : Option FunctionName := all.find? fun f => f.spelling == text

/-- No name is missing from the list. -/
theorem mem_all (f : FunctionName) : f ∈ all := by cases f <;> simp [all]

theorem arity_pos (f : FunctionName) : 0 < f.arity := by cases f <;> decide

theorem arity_eq_one_or_two (f : FunctionName) : f.arity = 1 ∨ f.arity = 2 := by
  cases f <;> decide

theorem spelling_of_ofSpelling? {text : String} {f : FunctionName}
    (h : ofSpelling? text = some f) : f.spelling = text := by
  simpa using List.find?_some h

@[simp] theorem ofSpelling?_spelling (f : FunctionName) : ofSpelling? f.spelling = some f := by
  cases f <;> decide

end FunctionName

/-- The functions that a program calls, in the order of their first call. -/
structure FunctionTable where
  entries : Array FunctionName
  deriving DecidableEq, Repr

namespace FunctionTable

/-- The table with no entries. -/
def empty : FunctionTable := ⟨#[]⟩

/-- The number of entries that an instruction can refer to. -/
def capacity : Nat := 65536

/-- The number of entries. -/
def size (t : FunctionTable) : Nat := t.entries.size

/-- The index of a function, which is entered if it is not in the table yet; `none` when its index
would be out of reach. -/
def intern (t : FunctionTable) (f : FunctionName) : Option (Nat × FunctionTable) :=
  match t.entries.idxOf? f with
  | some index => if index < capacity then some (index, t) else none
  | none => if t.size < capacity then some (t.size, ⟨t.entries.push f⟩) else none

end FunctionTable
end Formula
