/-!
# Small pieces of layout

Numbers padded to a width, hexadecimal digits, and texts between quotes: the pieces that the
listings and descriptions of the library are put together from.
-/

namespace Formula
namespace Text

/-- Zeros in front of digits, up to a width. -/
def zeroPadded (width : Nat) (digits : List Char) : String :=
  String.ofList (List.replicate (width - digits.length) '0' ++ digits)

/-- A number in decimal, with zeros in front up to a width. -/
def paddedNat (width n : Nat) : String := zeroPadded width (Nat.toDigits 10 n)

/-- A number in lower-case hexadecimal, with zeros in front up to a width. -/
def paddedHex (width n : Nat) : String := zeroPadded width (Nat.toDigits 16 n)

/-- One character of a quoted text.  A control character without a letter of its own is written by
its number in braces. -/
def escaped (c : Char) : String :=
  if c == '"' then "\\\""
  else if c == '\\' then "\\\\"
  else if c == '\t' then "\\t"
  else if c == '\n' then "\\n"
  else if c == '\r' then "\\r"
  else if c.toNat == 0 then "\\0"
  else if c.toNat < 0x20 || c.toNat == 0x7f then
    "\\u\x7b" ++ String.ofList (Nat.toDigits 16 c.toNat) ++ "\x7d"
  else c.toString

/-- A text between double quotes, with the escapes a reader needs to see where it ends. -/
def quoted (s : String) : String := "\"" ++ String.join (s.toList.map escaped) ++ "\""

/-- A list of quoted texts between square brackets. -/
def quotedList (texts : List String) : String :=
  "[" ++ String.intercalate ", " (texts.map quoted) ++ "]"

end Text
end Formula
