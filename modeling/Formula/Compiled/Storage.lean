import Formula.Memory

/-!
# Storage of values

Values for a function come from storage, and the results of a batch go into storage.  Most storage
presents its values as one contiguous slice.  A strided view does not: with two or more elements
whose stride is not one it presents an empty slice, so reads through the slice see no values and
writes change nothing, while its size still counts the elements.

Storage of any length is still bounded by memory, at eight bytes an element.
-/

namespace Formula

/-- Elements in their logical order, and the distance between neighbours in memory. -/
structure Storage (α : Type) where
  elements : Array α
  stride : Int := 1
  deriving Repr

/-- Kinds of storage by the lengths they can have. -/
inductive StorageKind where
  | anyLength
  | fixedLength (n : Nat)
  deriving DecidableEq, Repr

namespace Storage

variable {α : Type}

/-- Contiguous storage. -/
def contiguous (elements : Array α) : Storage α := ⟨elements, 1⟩

/-- A view that runs through memory backwards. -/
def backwards (memory : Array α) : Storage α := ⟨memory.reverse, -1⟩

/-- The number of elements. -/
def size (s : Storage α) : Nat := s.elements.size

/-- Whether memory holds the elements next to each other in order. -/
def isContiguous (s : Storage α) : Bool := s.stride == 1 || s.size ≤ 1

/-- The elements as one slice, empty when they are not contiguous. -/
def slice (s : Storage α) : Array α := if s.isContiguous then s.elements else #[]

/-- Writes values through the slice, as many as it has room for. -/
def write (s : Storage α) (values : List α) : Storage α :=
  if s.isContiguous then
    let written := values.take s.size
    { s with elements := written.toArray ++ s.elements.extract written.length s.size }
  else s

/-- Storage of a kind with equal elements; there is none of a length that the kind cannot have, and
none that memory has no room for. -/
def replicate? (kind : StorageKind) (length : Nat) (x : α) : Option (Storage α) :=
  let allowed :=
    match kind with
    | .anyLength => true
    | .fixedLength n => length == n
  if allowed && Memory.fits length Memory.numberSize then
    some (contiguous (Array.replicate length x))
  else none

end Storage
end Formula
