/-!
# Characters and byte offsets

A formula is worked on as its list of characters.  Positions that leave the library are byte
offsets into the UTF-8 spelling, so a character of two bytes moves them by two.

Two notions of empty space meet here, and they differ on purpose.

* **Blank** characters separate tokens.  There are five of them, all of one byte.
* **White** characters are the twenty-five of the Unicode property.  A text of white characters
  alone counts as an empty formula, although a white character that is not blank cannot stand
  between two tokens.
-/

namespace Formula
namespace Text

/-- The characters that may separate two tokens. -/
def isBlank (c : Char) : Bool :=
  c == ' ' || c == '\t' || c == '\n' || c == '\x0c' || c == '\r'

/-- The characters of the Unicode property `White_Space`. -/
def isWhite (c : Char) : Bool :=
  let n := c.toNat
  (0x09 ≤ n && n ≤ 0x0d) || n == 0x20 || n == 0x85 || n == 0xa0 || n == 0x1680 ||
    (0x2000 ≤ n && n ≤ 0x200a) || n == 0x2028 || n == 0x2029 || n == 0x202f || n == 0x205f ||
    n == 0x3000

/-- A decimal digit. -/
def isDigit (c : Char) : Bool := c.isDigit

/-- A character that may follow the first letter of a name. -/
def isNameChar (c : Char) : Bool := c.isAlphanum || c == '_'

/-- Every blank character is white. -/
theorem isWhite_of_isBlank {c : Char} (h : isBlank c = true) : isWhite c = true := by
  simp only [isBlank, Bool.or_eq_true, beq_iff_eq] at h
  rcases h with (((rfl | rfl) | rfl) | rfl) | rfl <;> decide

/-- A letter followed by letters, digits and underscores. -/
def isName : List Char → Bool
  | [] => false
  | c :: cs => c.isAlpha && cs.all isNameChar

/-- The number of UTF-8 bytes of a list of characters. -/
def byteLength : List Char → Nat
  | [] => 0
  | c :: cs => c.utf8Size + byteLength cs

/-- Goes forward by a number of bytes from a place, with the characters before it, latest first. -/
def splitOnto (seen : List Char) : List Char → Nat → Option (List Char × List Char)
  | cs, 0 => some (seen.reverse, cs)
  | [], _ + 1 => none
  | c :: cs, n + 1 =>
    if c.utf8Size ≤ n + 1 then splitOnto (c :: seen) cs (n + 1 - c.utf8Size) else none

/-- The characters before a byte offset and those after it, when the offset is inside the text and
between two characters. -/
def splitAtByte? (cs : List Char) (n : Nat) : Option (List Char × List Char) := splitOnto [] cs n

theorem splitOnto_eq_some {seen cs before after : List Char} {n : Nat}
    (h : splitOnto seen cs n = some (before, after)) :
    ∃ passed, before = seen.reverse ++ passed ∧ cs = passed ++ after ∧ byteLength passed = n := by
  induction cs generalizing seen n with
  | nil =>
    cases n with
    | zero => simp only [splitOnto] at h; cases h; exact ⟨[], by simp, rfl, rfl⟩
    | succ n => simp [splitOnto] at h
  | cons c cs ih =>
    cases n with
    | zero => simp only [splitOnto] at h; cases h; exact ⟨[], by simp, rfl, rfl⟩
    | succ n =>
      simp only [splitOnto] at h
      split at h
      · rename_i fits
        obtain ⟨passed, rfl, rfl, bytes⟩ := ih h
        exact ⟨c :: passed, by simp, rfl, by simp only [byteLength, bytes]; omega⟩
      · cases h

/-- Splitting loses nothing, and the first part has as many bytes as were asked for. -/
theorem splitAtByte?_eq_some {cs before after : List Char} {n : Nat}
    (h : splitAtByte? cs n = some (before, after)) :
    cs = before ++ after ∧ byteLength before = n := by
  obtain ⟨passed, rfl, rfl, bytes⟩ := splitOnto_eq_some h
  exact ⟨rfl, bytes⟩

end Text
end Formula
