import Formula.Numeral
import Formula.Token

/-!
# Scanning

A cursor stands at a byte offset of a text.  `Cursor.next` skips blanks and takes one lexeme, or
finds the end of the text, or fails; looking ahead is the same function with the new cursor thrown
away, because cursors are values.  `scan` repeats it to the end.

**Why scanning ends.**  Every lexeme has at least one character (`Lexeme.read_pos`), so the text
that is left gets shorter with each token.

A cursor carries the nearest character before it that is not blank, which is all that a sign needs
to know about its surroundings.
-/

namespace Formula

namespace Lexeme

/-- The lexeme of a character that is one by itself. -/
def ofChar? : Char → Option Lexeme
  | '(' => some openParen
  | ')' => some closeParen
  | ',' => some comma
  | c => (Operator.ofSymbol? c).map operator

/-- The length of the name at the front of a text that begins with a letter. -/
def nameLength (cs : List Char) : Nat := 1 + (cs.tail.takeWhile Text.isNameChar).length

/-- The lexeme at the front of a nonempty text, with its length: a numeral if one begins there, else
a name, else a single character. -/
def read (c : Char) (cs : List Char) : Except Numeral.Fault (Lexeme × Nat) :=
  match Numeral.length? (c :: cs) with
  | .error fault => .error fault
  | .ok (some n) => .ok (number (String.ofList ((c :: cs).take n)), n)
  | .ok none =>
    if c.isAlpha then
      let n := nameLength (c :: cs)
      .ok (name (String.ofList ((c :: cs).take n)), n)
    else
      match ofChar? c with
      | some lexeme => .ok (lexeme, 1)
      | none => .error (0, .illegalCharacter c)

theorem read_pos {c : Char} {cs : List Char} {lexeme : Lexeme} {n : Nat}
    (h : read c cs = .ok (lexeme, n)) : 0 < n := by
  simp only [read] at h
  split at h
  · cases h
  · rename_i hn
    cases h
    exact Numeral.length?_pos hn
  · split at h
    · cases h; simp only [nameLength]; omega
    · split at h <;> cases h
      exact Nat.one_pos

end Lexeme

/-- A place in a text: what is left of it, the byte offset, and the nearest character before the
place that is not blank. -/
structure Cursor where
  rest : List Char
  offset : Nat
  before : Option Char
  deriving DecidableEq, Repr

namespace Cursor

/-- The start of a text. -/
def start (source : String) : Cursor := ⟨source.toList, 0, none⟩

/-- Past the blanks in front. -/
def skipBlanks (k : Cursor) : Cursor :=
  { k with
    rest := k.rest.dropWhile Text.isBlank
    offset := k.offset + (k.rest.takeWhile Text.isBlank).length }

/-- Past a lexeme of `n` characters, all of one byte and the last of them not blank. -/
def advance (k : Cursor) (n : Nat) : Cursor :=
  { rest := k.rest.drop n
    offset := k.offset + n
    before := (k.rest.take n).getLast? }

/-- The next token and the place after it, or `none` at the end of the text. -/
def next (k : Cursor) : Except SourceError (Option (Token × Cursor)) :=
  let k := k.skipBlanks
  match k.rest with
  | [] => .ok none
  | c :: cs =>
    match Lexeme.read c cs with
    | .error (distance, cause) => .error ⟨k.offset + distance, cause⟩
    | .ok (lexeme, n) => .ok (some (⟨lexeme, k.offset, .after k.before⟩, k.advance n))

theorem length_dropWhile_le (p : Char → Bool) (cs : List Char) :
    (cs.dropWhile p).length ≤ cs.length :=
  (List.dropWhile_sublist p).length_le

/-- Taking a token shortens the text that is left. -/
theorem next_rest_lt {k k' : Cursor} {t : Token} (h : k.next = .ok (some (t, k'))) :
    k'.rest.length < k.rest.length := by
  simp only [next] at h
  split at h
  · cases h
  · rename_i c cs hrest
    split at h
    · cases h
    · rename_i lexeme n hread
      cases h
      have pos := Lexeme.read_pos hread
      have le := length_dropWhile_le Text.isBlank k.rest
      have len : (k.skipBlanks.rest).length = cs.length + 1 := by rw [hrest]; rfl
      simp only [skipBlanks] at len
      simp only [advance, skipBlanks, List.length_drop]
      omega

end Cursor

/-- The tokens of a text up to its end, given by its offset, or up to the first error. -/
structure Scanned where
  tokens : List Token
  ending : Except SourceError Nat

/-- Scans from a cursor on, after the tokens already seen, latest first. -/
def Cursor.scanOnto (k : Cursor) (seen : List Token) : Scanned :=
  match _ : k.next with
  | .error e => ⟨seen.reverse, .error e⟩
  | .ok none => ⟨seen.reverse, .ok k.skipBlanks.offset⟩
  | .ok (some (t, k')) => k'.scanOnto (t :: seen)
termination_by k.rest.length
decreasing_by exact next_rest_lt (by assumption)

/-- The tokens of a text. -/
def scan (source : String) : Scanned := (Cursor.start source).scanOnto []

end Formula
