/-!
# Room in memory

A row of equal cells is set aside in one piece of memory, and a piece has a greatest length.  A row
that would be longer cannot be set up at all, whatever is to be put into it.  A row within the
length is taken to exist.
-/

namespace Formula
namespace Memory

/-- The greatest length of a piece of memory, in bytes. -/
def limit : Nat := 0x7fffffffffffffff

/-- Whether a row of `count` cells of `size` bytes can be set up. -/
def fits (count size : Nat) : Bool := count * size ≤ limit

/-- The bytes of a number. -/
def numberSize : Nat := 8

end Memory
end Formula
