import Formula.Arithmetic
import Formula.Instruction
import Formula.Proofs.Names
import Formula.Token.Scan

/-!
# The grammar of formulas

The parser builds no tree, so what a formula means is said here without it: a grammar over lexemes
that derives a tree with each phrase, the order in which a stack machine has to work through a tree,
and the value of a tree at a point.

## The phrases

    Expr     := Product₁ (('+' | '-') Product₀)*
    Product₁ := Factor (('*' | '/') Factor)*
    Product₀ := Power (('*' | '/') Factor)*
    Factor   := ['+' | '-'] Power
    Power    := Primary ('^' Primary)* ['^' ('+' | '-') Power]
    Primary  := number | name | '(' Expr ')' | f '(' Expr ')' | f '(' Expr ',' Expr ')'

A repetition is written as a rule that extends a phrase of the same kind on its right, which is how
its operators come to associate to the left.  The unsigned part of a power is a kind of phrase of
its own, the chain.

* A product after a binary `+` or `-` begins with a power: `a+-b` is no expression, `a*-b` is one.
* A sign in front of a power applies to the whole power, so `-2^2` is `-(2^2)`.
* A signed exponent takes the whole power that follows: `a^-b^c` is `a^(-(b^c))`, while `a^b^c` is
  `(a^b)^c`.

## Mnemonics

The code of a tree is its nodes in post-order.  A `Mnemonic` is an instruction before it is given
the tables of a program: it refers to a constant by its spelling and to a function by its name.
`assemble` puts in the places, which are counted in the order of first use.
-/

namespace Formula

/-! ## Trees -/

/-- A formula as a tree.  A call has as many operands as its function takes. -/
inductive Tree where
  | constant (spelling : String)
  | input (slot : Nat)
  | sign (negative : Bool) (x : Tree)
  | binary (op : Operator) (x y : Tree)
  | call₁ (f : FunctionName) (unary : f.arity = 1) (x : Tree)
  | call₂ (f : FunctionName) (pair : f.arity = 2) (x y : Tree)

/-- The operation of a binary operator. -/
def Arithmetic.operate {α : Type} (a : Arithmetic α) : Operator → α → α → α
  | .plus => a.add
  | .minus => a.sub
  | .star => a.mul
  | .slash => a.div
  | .caret => a.pow

/-- The value of a tree at a point, found by walking the tree.  There is none when a constant has no
value or an input is past the end of the point. -/
def Tree.value? {α : Type} (a : Arithmetic α) (point : Array α) : Tree → Option α
  | constant spelling => (Pool.value? spelling).map a.const
  | input slot => point[slot]?
  | sign false x => x.value? a point
  | sign true x => (x.value? a point).map a.neg
  | binary op x y =>
    match x.value? a point, y.value? a point with
    | some v, some w => some (a.operate op v w)
    | _, _ => none
  | call₁ f _ x => (x.value? a point).map (a.apply₁ f.builtin)
  | call₂ f _ x y =>
    match x.value? a point, y.value? a point with
    | some v, some w => some (a.apply₂ f.builtin v w)
    | _, _ => none

/-! ## Derivations -/

/-- The kinds of phrases. -/
inductive Phrase where
  | expr
  /-- a product, in front of which a sign may stand or not -/
  | product (signed : Bool)
  | factor
  | power
  /-- primaries joined by `^`, the unsigned part of a power -/
  | chain
  | primary
  deriving DecidableEq, Repr

/-- The operators of products.  Those of sums are the signs, `Operator.isSign`. -/
def Operator.isTimes : Operator → Bool
  | star => true
  | slash => true
  | _ => false

/-- The tree under a sign. -/
def Tree.signed (op : Operator) (x : Tree) : Tree := .sign (op == .minus) x

/-- Phrases, the lexemes they are spelled by and their trees. -/
inductive Derives (scope : Scope) : Phrase → List Lexeme → Tree → Prop
  -- primaries
  | number (spelling : String) : Derives scope .primary [.number spelling] (.constant spelling)
  | constant {name : String} (free : FunctionName.ofSpelling? name = none)
      (means : scope.Denotes name .constant) :
      Derives scope .primary [.name name] (.constant name)
  | input {name : String} {slot : Nat} (free : FunctionName.ofSpelling? name = none)
      (means : scope.Denotes name (.input slot)) :
      Derives scope .primary [.name name] (.input slot)
  | group {w : List Lexeme} {x : Tree} (inner : Derives scope .expr w x) :
      Derives scope .primary (.openParen :: (w ++ [.closeParen])) x
  | call₁ {w : List Lexeme} {x : Tree} (f : FunctionName) (unary : f.arity = 1)
      (argument : Derives scope .expr w x) :
      Derives scope .primary (.name f.spelling :: .openParen :: (w ++ [.closeParen]))
        (.call₁ f unary x)
  | call₂ {u w : List Lexeme} {x y : Tree} (f : FunctionName) (pair : f.arity = 2)
      (first : Derives scope .expr u x) (second : Derives scope .expr w y) :
      Derives scope .primary
        (.name f.spelling :: .openParen :: (u ++ .comma :: (w ++ [.closeParen])))
        (.call₂ f pair x y)
  -- powers
  | base {w : List Lexeme} {x : Tree} (inner : Derives scope .primary w x) :
      Derives scope .chain w x
  | raise {u w : List Lexeme} {x y : Tree} (left : Derives scope .chain u x)
      (right : Derives scope .primary w y) :
      Derives scope .chain (u ++ .operator .caret :: w) (.binary .caret x y)
  | unsigned {w : List Lexeme} {x : Tree} (inner : Derives scope .chain w x) :
      Derives scope .power w x
  | exponent {u w : List Lexeme} {x y : Tree} {op : Operator} (isSign : op.isSign = true)
      (left : Derives scope .chain u x) (right : Derives scope .power w y) :
      Derives scope .power (u ++ .operator .caret :: .operator op :: w)
        (.binary .caret x (.signed op y))
  -- factors and products
  | bare {w : List Lexeme} {x : Tree} (inner : Derives scope .power w x) :
      Derives scope .factor w x
  | signed {w : List Lexeme} {x : Tree} {op : Operator} (isSign : op.isSign = true)
      (inner : Derives scope .power w x) :
      Derives scope .factor (.operator op :: w) (.signed op x)
  | firstFactor {w : List Lexeme} {x : Tree} (inner : Derives scope .factor w x) :
      Derives scope (.product true) w x
  | firstPower {w : List Lexeme} {x : Tree} (inner : Derives scope .power w x) :
      Derives scope (.product false) w x
  | times {s : Bool} {u w : List Lexeme} {x y : Tree} {op : Operator} (isTimes : op.isTimes = true)
      (left : Derives scope (.product s) u x) (right : Derives scope .factor w y) :
      Derives scope (.product s) (u ++ .operator op :: w) (.binary op x y)
  -- expressions
  | firstProduct {w : List Lexeme} {x : Tree} (inner : Derives scope (.product true) w x) :
      Derives scope .expr w x
  | plus {u w : List Lexeme} {x y : Tree} {op : Operator} (isSign : op.isSign = true)
      (left : Derives scope .expr u x) (right : Derives scope (.product false) w y) :
      Derives scope .expr (u ++ .operator op :: w) (.binary op x y)

/-- A spelling has at least one lexeme. -/
theorem Derives.ne_nil {scope : Scope} {c : Phrase} {w : List Lexeme} {x : Tree}
    (h : Derives scope c w x) : w ≠ [] := by
  induction h <;> simp_all

/-- At no place are more than `n` parentheses open. -/
def NestsWithin (n : Nat) (w : List Lexeme) : Prop :=
  ∀ u, u <+: w → u.count .openParen ≤ u.count .closeParen + n

/-! ## Post-order -/

/-- An instruction that names its constant or its function. -/
inductive Mnemonic where
  | constant (spelling : String)
  | input (slot : Nat)
  | negate
  | operator (op : Operator)
  | call (f : FunctionName)
  deriving DecidableEq, Repr

/-- The nodes of a tree in post-order.  A plus sign is the identity and has no instruction. -/
def Tree.postorder : Tree → List Mnemonic
  | constant spelling => [.constant spelling]
  | input slot => [.input slot]
  | sign false x => x.postorder
  | sign true x => x.postorder ++ [.negate]
  | binary op x y => x.postorder ++ y.postorder ++ [.operator op]
  | call₁ f _ x => x.postorder ++ [.call f]
  | call₂ f _ x y => x.postorder ++ y.postorder ++ [.call f]

namespace Mnemonic

/-- The constant that a mnemonic loads. -/
def spelling? : Mnemonic → Option String
  | constant spelling => some spelling
  | _ => none

/-- The function that a mnemonic calls. -/
def function? : Mnemonic → Option FunctionName
  | call f => some f
  | _ => none

/-- The spellings of constants, each once, in the order of first use. -/
def spellings (ms : List Mnemonic) : List String := (ms.filterMap spelling?).eraseDups

/-- The functions called, each once, in the order of first call. -/
def functions (ms : List Mnemonic) : List FunctionName := (ms.filterMap function?).eraseDups

/-- The instruction of a mnemonic, for tables of constants and functions. -/
def instruction (constants : List String) (functions : List FunctionName) : Mnemonic → Instruction
  | constant spelling => .loadConst (constants.idxOf spelling)
  | input slot => .loadInput slot
  | negate => .neg
  | operator op => .ofOperator op
  | call f => .call (functions.idxOf f)

/-- The code of mnemonics, with places counted in the order of first use. -/
def assemble (ms : List Mnemonic) : List Instruction :=
  ms.map (instruction (spellings ms) (functions ms))

/-- How many values a mnemonic pops. -/
def arity : Mnemonic → Nat
  | constant _ | input _ => 0
  | negate => 1
  | operator _ => 2
  | call f => f.arity

end Mnemonic

/-- The spellings of the constants in a tree, from left to right. -/
def Tree.spellings (x : Tree) : List String := x.postorder.filterMap Mnemonic.spelling?

end Formula
