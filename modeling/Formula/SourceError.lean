import Formula.Operator

/-!
# What can be wrong with the text of a formula

An error is a byte position and a cause.  Causes are data; their wording is one function,
`Cause.message`, and their class another, `Cause.kind`.

Two pairs of causes share their wording.  A sign can lack its operand because of the operator before
it or because of an operand that the parser failed to notice (`signAfterOperand`), and a formula can
be too large for its constants, its inputs or its functions (`functionTableFull`).  They are kept
apart because one of each pair is never the cause of a rejection.  Nor are `countMismatch` and
`unexpectedToken`, which have a wording of their own.
-/

namespace Formula

/-- The classes of errors in a text. -/
inductive ErrorKind where
  /-- a malformed numeral, or a character outside the grammar -/
  | lexical
  /-- unbalanced parentheses, misplaced operators or operands, or a limit -/
  | syntactic
  /-- a name without a meaning, or an input that was not declared -/
  | semantic
  deriving DecidableEq, Repr

/-- The word for a class of errors. -/
def ErrorKind.name : ErrorKind → String
  | lexical => "lexical"
  | syntactic => "syntax"
  | semantic => "semantic"

/-- Why a text is no formula. -/
inductive Cause where
  | illegalCharacter (c : Char)
  | secondPoint
  | emptyExponent
  | pointInExponent
  | emptyFormula
  | tooLarge
  | functionTableFull
  | doubledSign (op : Operator)
  | signAfterOperand (op : Operator)
  | missingOperandBefore (symbol : Char)
  | missingOperandAtEnd
  | emptyParentheses
  | missingOperatorBefore (text : String)
  | unmatchedClose
  | missingClose
  | tooManyArguments
  | tooFewArguments
  | strayComma
  | unexpectedToken
  | nestedTooDeeply
  | countMismatch
  | callWithoutParentheses (function : String)
  | malformedIndex (name : String)
  | unknownFunction (name : String)
  | unknownName (name : String)
  | undeclaredInput (name : String) (declared : Nat)
  deriving DecidableEq, Repr

namespace Cause

/-- The class of a cause. -/
def kind : Cause → ErrorKind
  | illegalCharacter _ | secondPoint | emptyExponent | pointInExponent => .lexical
  | unknownFunction _ | unknownName _ | undeclaredInput _ _ => .semantic
  | _ => .syntactic

/-- The wording of a cause. -/
def message : Cause → String
  | illegalCharacter c => "illegal character '" ++ c.toString ++ "'"
  | secondPoint => "malformed number: second decimal point"
  | emptyExponent => "malformed number: exponent has no digits"
  | pointInExponent => "malformed number: decimal point in exponent"
  | emptyFormula => "empty expression"
  | tooLarge => "expression too large"
  | functionTableFull => "expression too large"
  | doubledSign op => "'" ++ op.symbol.toString ++ "' cannot follow another sign, use parentheses"
  | signAfterOperand op => "missing operand before '" ++ op.symbol.toString ++ "'"
  | missingOperandBefore c => "missing operand before '" ++ c.toString ++ "'"
  | missingOperandAtEnd => "missing operand at end of expression"
  | emptyParentheses => "empty parentheses"
  | missingOperatorBefore text => "missing operator before '" ++ text ++ "'"
  | unmatchedClose => "unmatched ')'"
  | missingClose => "missing ')'"
  | tooManyArguments => "too many arguments"
  | tooFewArguments => "too few arguments"
  | strayComma => "',' outside of a function call"
  | unexpectedToken => "unexpected token"
  | nestedTooDeeply => "expression nested too deeply"
  | countMismatch => "operand/operator count mismatch"
  | callWithoutParentheses name => "function '" ++ name ++ "' requires '('"
  | malformedIndex name => "malformed variable index in '" ++ name ++ "'"
  | unknownFunction name => "illegal function '" ++ name ++ "'"
  | unknownName name => "unknown identifier '" ++ name ++ "'"
  | undeclaredInput name declared =>
    "variable '" ++ name ++ "' out of range: " ++ toString declared ++ " input(s) declared"

end Cause

/-- An error at a byte position of a formula. -/
structure SourceError where
  position : Nat
  cause : Cause
  deriving DecidableEq, Repr

/-- The whole wording of an error: its class, its position and its cause. -/
def SourceError.text (e : SourceError) : String :=
  e.cause.kind.name ++ " error at " ++ toString e.position ++ ": " ++ e.cause.message

end Formula
