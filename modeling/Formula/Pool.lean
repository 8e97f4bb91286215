import Std.Data.HashMap
import Formula.Decimal.Reading

/-!
# The pool of constants

The constants of a program are entered by their spelling and not by their value: `1.0` and `1.00`
take two places.  A spelling is entered at its first use and keeps its place; the pool has room for
65536. `E` and `PI` are spellings too, those of the two named constants.

The index from spellings to places is kept in step with the values by the type: a place in the index
is a place in the pool.
-/

namespace Formula

/-- The values of the constants in the order of their first use, and the place of each spelling. -/
structure Pool where
  values : Array Binary64
  places : Std.HashMap String Nat
  places_lt : ∀ (text : String) (i : Nat), places[text]? = some i → i < values.size

namespace Pool

/-- A constant at its place. -/
structure Entry where
  index : Nat
  value : Binary64

/-- The pool without constants. -/
def empty : Pool where
  values := #[]
  places := ∅
  places_lt text i h := by simp at h

/-- The number of constants that an instruction can refer to. -/
def capacity : Nat := 65536

/-- The number of constants. -/
def size (p : Pool) : Nat := p.values.size

/-- The value at a place. -/
def get? (p : Pool) (i : Nat) : Option Binary64 := p.values[i]?

/-- The value of a named constant. -/
def named? (name : String) : Option Binary64 :=
  if name == "E" then some .e
  else if name == "PI" then some .pi
  else none

/-- The value of a spelling: a named constant, or the number it denotes. -/
def value? (text : String) : Option Binary64 :=
  match named? text with
  | some x => some x
  | none => Decimal.parse? text

/-- A pool with a new constant at the end. -/
def push (p : Pool) (text : String) (x : Binary64) : Pool :=
  match p with
  | ⟨values, places, places_lt⟩ =>
    let place := values.size
    { values := values.push x
      places := places.insert text place
      places_lt := by
        intro t i h
        rw [Array.size_push]
        rw [Std.HashMap.getElem?_insert] at h
        split at h
        · cases h; exact Nat.lt_succ_self _
        · exact Nat.lt_succ_of_lt (places_lt t i h) }

/-- The constant of a spelling, entered at the end if it is new.  There is none when the spelling
has no value, or when it is new and the pool is full. -/
def intern (p : Pool) (text : String) : Option Entry × Pool :=
  match h : p.places[text]? with
  | some i =>
    have : i < p.values.size := p.places_lt text i h
    (some ⟨i, p.values[i]⟩, p)
  | none =>
    match value? text with
    | none => (none, p)
    | some x => if p.size < capacity then (some ⟨p.size, x⟩, p.push text x) else (none, p)

end Pool
end Formula
