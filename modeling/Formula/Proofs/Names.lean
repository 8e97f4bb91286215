import Mathlib.Data.List.Induction
import Mathlib.Data.Nat.Digits.Defs
import Formula.Builtin
import Formula.Parser.Scope

/-!
# What a name denotes

`Scope.resolve` looks a name up rule by rule and reports the first thing that is wrong.  Here the
rules are stated apart from the lookup, as a relation: `Scope.Denotes` says of a name and an operand
that the one stands for the other, and nothing about errors.

* A declared name denotes the input at its first position.
* `E` and `PI` denote constants, unless they are declared.
* `x` or `X` with digits after it denotes the input of that number, unless it is declared.  Leading
  zeros are allowed, and the number has to fit sixty-four bits.

Every input has to be below the declared number of inputs and below the capacity of an instruction.
`resolve_eq_ok_iff` says that the lookup succeeds exactly on what is denoted.

Every input has a name by its number, `inputName`, which is what is written for it where a formula
is made and not read.
-/

namespace Formula
namespace Scope

/-- The value of a list of decimal digits, the last of which counts one. -/
def numberOf (digits : List Char) : Nat :=
  Nat.ofDigits 10 (digits.reverse.map fun d => d.toNat - '0'.toNat)

/-- A slot that is declared and that an instruction can refer to. -/
def Reaches (s : Scope) (slot : Nat) : Prop := slot < s.inputs ∧ slot ≤ 65535

/-- What a name stands for, by the first rule that applies. -/
inductive Denotes (s : Scope) : String → Operand → Prop
  | declared {name : String} {slot : Nat} (here : s.names[slot]? = some name)
      (first : ∀ earlier < slot, s.names[earlier]? ≠ some name) (reached : s.Reaches slot) :
      Denotes s name (.input slot)
  | constant {name : String} (undeclared : name ∉ s.names) (named : name = "E" ∨ name = "PI") :
      Denotes s name .constant
  | numbered {c : Char} {digits : List Char} (undeclared : String.ofList (c :: digits) ∉ s.names)
      (letter : c = 'x' ∨ c = 'X') (nonempty : digits ≠ [])
      (decimal : ∀ d ∈ digits, d.isDigit = true) (fits : numberOf digits < 2 ^ 64)
      (reached : s.Reaches (numberOf digits)) :
      Denotes s (String.ofList (c :: digits)) (.input (numberOf digits))

/-! ## Numbers in names -/

/-- Reading digit by digit gives the value of the digits. -/
theorem foldl_appendDigit_eq_numberOf (digits : List Char) :
    digits.foldl Decimal.appendDigit 0 = numberOf digits := by
  induction digits using List.reverseRecOn with
  | nil => rfl
  | append_singleton digits d ih =>
    rw [List.foldl_append, ih]
    simp only [numberOf, List.foldl_cons, List.foldl_nil, Decimal.appendDigit,
      List.reverse_append, List.reverse_cons, List.reverse_nil, List.nil_append,
      List.singleton_append, List.map_cons, Nat.ofDigits_cons]
    omega

theorem digits?_eq_some_iff {cs : List Char} {n : Nat} :
    Decimal.digits? cs = some n ↔
      cs ≠ [] ∧ (∀ c ∈ cs, c.isDigit = true) ∧ n = numberOf cs := by
  rw [Decimal.digits?, Decimal.digitsValue_eq_foldl, foldl_appendDigit_eq_numberOf]
  by_cases h : (!cs.isEmpty && cs.all Text.isDigit) = true
  · rw [if_pos h]
    simp only [Bool.and_eq_true, Bool.not_eq_true', List.isEmpty_eq_false_iff, List.all_eq_true,
      Text.isDigit] at h
    simp only [Option.some.injEq]
    exact ⟨fun hn => ⟨h.1, h.2, hn.symm⟩, fun hn => hn.2.2.symm⟩
  · rw [if_neg h]
    simp only [Bool.and_eq_true, Bool.not_eq_true', List.isEmpty_eq_false_iff, List.all_eq_true,
      Text.isDigit] at h
    simp only [reduceCtorEq, false_iff]
    exact fun hn => h ⟨hn.1, hn.2.1⟩

/-! ## The lookup succeeds exactly on what is denoted -/

variable {s : Scope} {name : String}

theorem input_eq_ok_iff {slot : Nat} {o : Operand} :
    s.input name slot = .ok o ↔ s.Reaches slot ∧ o = .input slot := by
  unfold input Reaches capacity
  by_cases h₁ : s.inputs ≤ slot
  · rw [if_pos h₁]
    simp only [reduceCtorEq, false_iff, not_and]
    omega
  · rw [if_neg h₁]
    by_cases h₂ : 65536 ≤ slot
    · rw [if_pos h₂]
      simp only [reduceCtorEq, false_iff, not_and]
      omega
    · rw [if_neg h₂, Except.ok.injEq]
      exact ⟨fun h => ⟨⟨by omega, by omega⟩, h.symm⟩, fun h => h.2.symm⟩

theorem indexed_eq_ok_iff {index : List Char} {o : Operand} :
    s.indexed name index = .ok o ↔
      index ≠ [] ∧ (∀ d ∈ index, d.isDigit = true) ∧ numberOf index < 2 ^ 64 ∧
        s.Reaches (numberOf index) ∧ o = .input (numberOf index) := by
  unfold indexed
  cases hd : Decimal.digits? index with
  | none =>
    have hnot : ¬ (index ≠ [] ∧ ∀ d ∈ index, d.isDigit = true) := fun h => by
      rw [digits?_eq_some_iff.mpr ⟨h.1, h.2, rfl⟩] at hd
      cases hd
    refine iff_of_false (fun h => ?_) fun h => hnot ⟨h.1, h.2.1⟩
    dsimp only at h
    split at h <;> cases h
  | some slot =>
    obtain ⟨hne, hdec, rfl⟩ := digits?_eq_some_iff.mp hd
    by_cases hfits : numberOf index < indexLimit
    · simp only [if_pos hfits, input_eq_ok_iff]
      exact ⟨fun h => ⟨hne, hdec, hfits, h⟩, fun h => h.2.2.2⟩
    · simp only [if_neg hfits, reduceCtorEq, false_iff]
      exact fun h => hfits h.2.2.1

theorem named?_isSome_iff : (Pool.named? name).isSome = true ↔ name = "E" ∨ name = "PI" := by
  unfold Pool.named?
  by_cases hE : name = "E"
  · simp [hE]
  · by_cases hP : name = "PI" <;> simp [hE, hP]

/-- A declared name denotes the input at its first position and nothing else. -/
theorem denotes_iff_of_declared {slot : Nat} {o : Operand} (hi : s.names.idxOf? name = some slot) :
    s.Denotes name o ↔ s.Reaches slot ∧ o = .input slot := by
  obtain ⟨hslot, heq, hfirst⟩ := List.findIdx?_eq_some_iff_getElem.mp hi
  have here : s.names[slot]? = some name := by
    rw [List.getElem?_eq_getElem hslot, eq_of_beq heq]
  have first : ∀ earlier < slot, s.names[earlier]? ≠ some name := fun j hj hsame => by
    have hlt : j < s.names.length := by omega
    rw [List.getElem?_eq_getElem hlt, Option.some.injEq] at hsame
    exact hfirst j hj (by rw [hsame]; exact beq_self_eq_true name)
  have member : name ∈ s.names := List.mem_of_getElem? here
  constructor
  · intro h
    cases h with
    | @declared _ slot' here' first' reached =>
      have hsame : slot' = slot := by
        rcases Nat.lt_trichotomy slot' slot with hlt | heq' | hgt
        · exact absurd here' (first slot' hlt)
        · exact heq'
        · exact absurd here (first' slot hgt)
      exact ⟨hsame ▸ reached, by rw [hsame]⟩
    | constant undeclared => exact absurd member undeclared
    | numbered undeclared => exact absurd member undeclared
  · rintro ⟨reached, rfl⟩
    exact .declared here first reached

/-- A name denotes the input of a number: it is `x` or `X` and digits, and the number is within the
limits. -/
def Numbered (s : Scope) (name : String) (o : Operand) : Prop :=
  ∃ (c : Char) (digits : List Char), name.toList = c :: digits ∧ (c = 'x' ∨ c = 'X') ∧
    digits ≠ [] ∧ (∀ d ∈ digits, d.isDigit = true) ∧ numberOf digits < 2 ^ 64 ∧
    s.Reaches (numberOf digits) ∧ o = .input (numberOf digits)

/-- **An undeclared name** denotes a constant, or an input by its number. -/
theorem denotes_iff_of_undeclared {o : Operand} (undeclared : name ∉ s.names) :
    s.Denotes name o ↔ ((name = "E" ∨ name = "PI") ∧ o = .constant) ∨ s.Numbered name o := by
  constructor
  · intro h
    cases h with
    | declared here => exact absurd (List.mem_of_getElem? here) undeclared
    | constant _ named => exact .inl ⟨named, rfl⟩
    | @numbered c digits _ letter nonempty decimal fits reached =>
      exact .inr ⟨c, digits, String.toList_ofList, letter, nonempty, decimal, fits, reached, rfl⟩
  · rintro (⟨named, rfl⟩ | ⟨c, digits, hname, letter, nonempty, decimal, fits, reached, rfl⟩)
    · exact .constant undeclared named
    · obtain rfl : name = String.ofList (c :: digits) := by rw [← hname, String.ofList_toList]
      exact .numbered undeclared letter nonempty decimal fits reached

/-- A name of `x` or `X` and digits is no named constant. -/
theorem Numbered.not_named {o : Operand} (h : s.Numbered name o) :
    ¬ (name = "E" ∨ name = "PI") := by
  obtain ⟨c, digits, hname, letter, -⟩ := h
  rintro (rfl | rfl)
  all_goals
    have hc := congrArg List.head? hname
    rw [List.head?_cons] at hc
    rcases letter with rfl | rfl <;> revert hc <;> decide

/-- What is found of a name that is neither declared nor a constant. -/
theorem numbered_iff {c : Char} {index : List Char} {o : Operand}
    (hname : name.toList = c :: index) :
    s.Numbered name o ↔ (c = 'x' ∨ c = 'X') ∧ s.indexed name index = .ok o := by
  rw [indexed_eq_ok_iff]
  constructor
  · rintro ⟨c', digits, hname', letter, hrest⟩
    obtain ⟨rfl, rfl⟩ := List.cons.inj (hname.symm.trans hname')
    exact ⟨letter, hrest⟩
  · rintro ⟨letter, hrest⟩
    exact ⟨c, index, hname, letter, hrest⟩

/-- **The lookup succeeds exactly on what is denoted.** -/
theorem resolve_eq_ok_iff {o : Operand} : s.resolve name = .ok o ↔ s.Denotes name o := by
  unfold resolve
  cases hi : s.names.idxOf? name with
  | some slot => rw [input_eq_ok_iff, denotes_iff_of_declared hi]
  | none =>
    rw [denotes_iff_of_undeclared (List.idxOf?_eq_none_iff.mp hi)]
    by_cases hc : name = "E" ∨ name = "PI"
    · have hnot : ¬ s.Numbered name o := fun h => h.not_named hc
      simp only [if_pos (named?_isSome_iff.mpr hc), Except.ok.injEq, hc, true_and, hnot, or_false]
      exact eq_comm
    · simp only [if_neg fun h => hc (named?_isSome_iff.mp h), hc, false_and, false_or]
      cases hl : name.toList with
      | nil =>
        refine iff_of_false nofun fun h => ?_
        obtain ⟨c, digits, hname, -⟩ := h
        cases hl.symm.trans hname
      | cons c index =>
        rw [numbered_iff hl]
        by_cases letter : c = 'x' ∨ c = 'X'
        · have hb : (c == 'x' || c == 'X') = true := by simpa using letter
          simp only [if_pos hb, letter, true_and]
        · have hb : ¬ (c == 'x' || c == 'X') = true := by simpa using letter
          simp only [if_neg hb, letter, false_and, reduceCtorEq]

/-! ## Names of numbered inputs -/

/-- The name of a numbered input. -/
def inputName (slot : Nat) : String := "x" ++ toString slot

theorem toList_inputName (slot : Nat) :
    (inputName slot).toList = 'x' :: Nat.toDigits 10 slot := by
  rw [inputName, String.toList_append, Nat.toString_eq_ofList_toDigits]
  exact congrArg ('x' :: ·) String.toList_ofList

theorem isDigit_of_mem_toDigits {slot : Nat} {d : Char} (h : d ∈ Nat.toDigits 10 slot) :
    d.isDigit = true := Nat.isDigit_of_mem_toDigits (by decide) (by decide) h

theorem isName_inputName (slot : Nat) : Text.isName (inputName slot).toList = true := by
  rw [toList_inputName, Text.isName, Bool.and_eq_true, List.all_eq_true]
  refine ⟨by decide, fun d hd => ?_⟩
  simp [Text.isNameChar, Char.isAlphanum, isDigit_of_mem_toDigits hd]

/-- The digits of a number spell it. -/
theorem numberOf_toDigits (n : Nat) : numberOf (Nat.toDigits 10 n) = n := by
  have h := Nat.ofDigitChars_ten_toDigits (n := n)
  rw [Nat.ofDigitChars_eq_foldl] at h
  rw [← foldl_appendDigit_eq_numberOf]
  exact h

/-- The name of an input denotes it, where the name is not declared. -/
theorem denotes_inputName {s : Scope} {slot : Nat} (undeclared : inputName slot ∉ s.names)
    (reached : s.Reaches slot) : s.Denotes (inputName slot) (.input slot) := by
  have hname : inputName slot = String.ofList ('x' :: Nat.toDigits 10 slot) := by
    rw [← toList_inputName, String.ofList_toList]
  have h := Denotes.numbered (hname ▸ undeclared) (.inl rfl) Nat.toDigits_ne_nil
    (fun _ hd => isDigit_of_mem_toDigits hd)
    (by rw [numberOf_toDigits]; exact Nat.lt_of_le_of_lt reached.2 (by decide))
    (by rw [numberOf_toDigits]; exact reached)
  rwa [numberOf_toDigits, ← hname] at h

/-- No function is named so. -/
theorem ofSpelling?_inputName (slot : Nat) : FunctionName.ofSpelling? (inputName slot) = none := by
  rw [Option.eq_none_iff_forall_ne_some]
  intro f hf
  have hhead := congrArg (fun t => t.toList.head?) (FunctionName.spelling_of_ofSpelling? hf)
  simp only [toList_inputName, List.head?_cons] at hhead
  cases f <;> revert hhead <;> decide

end Scope
end Formula
