import Formula.Operator
import Formula.Text

/-!
# Tokens

A token is a lexeme with the byte offset at which it starts.  It also records how a sign standing
there would be read, `SignContext`, which is decided by the nearest character before it that is not
blank:

* at the start of the text and after `(`, `,`, `*`, `/` or `^` a sign is **unary**,
* after `+` or `-` it is **doubled**, which no formula allows,
* after anything else, the end of an operand, it is **binary**.
-/

namespace Formula

/-- What a token spells. -/
inductive Lexeme where
  | number (spelling : String)
  | name (spelling : String)
  | operator (op : Operator)
  | openParen
  | closeParen
  | comma
  deriving DecidableEq, Repr

/-- The spelling of a lexeme. -/
def Lexeme.text : Lexeme → String
  | number spelling => spelling
  | name spelling => spelling
  | operator op => op.symbol.toString
  | openParen => "("
  | closeParen => ")"
  | comma => ","

/-- How a `+` or `-` is to be read. -/
inductive SignContext where
  | unary
  | binary
  | doubled
  deriving DecidableEq, Repr

/-- How a sign is to be read after a character, or at the start of a text. -/
def SignContext.after : Option Char → SignContext
  | none => unary
  | some c =>
    if c == '(' || c == ',' || c == '*' || c == '/' || c == '^' then unary
    else if c == '+' || c == '-' then doubled
    else binary

/-- How a sign at a byte offset of a text is to be read, when the offset is inside the text and
between two characters. -/
def SignContext.ofOffset? (source : String) (offset : Nat) : Option SignContext :=
  (Text.splitAtByte? source.toList offset).map fun (before, _) =>
    after (before.reverse.find? fun c => !Text.isBlank c)

/-- A lexeme at its place. -/
structure Token where
  lexeme : Lexeme
  offset : Nat
  sign : SignContext
  deriving DecidableEq, Repr

namespace Token

/-- The spelling of a token. -/
def text (t : Token) : String := t.lexeme.text

/-- The byte offset right after a token. -/
def stop (t : Token) : Nat := t.offset + t.text.utf8ByteSize

end Token
end Formula
