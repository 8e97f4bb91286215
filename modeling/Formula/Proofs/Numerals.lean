import Mathlib.Data.List.Basic
import Mathlib.Data.List.TakeWhile
import Formula.Numeral
import Formula.Pool

/-!
# Literals

The literals are `(D+ ['.' D*] | '.' D+) [('e' | 'E') ['+' | '-'] D+]` over the decimal digits `D`.
`Numeral.Literal` is that grammar, apart from both functions that work on numerals: the one that
measures a numeral in a text, and the one that reads the number it denotes.

* What is measured is a literal (`literal_of_length?`).
* The texts with a number are wider: they may have a sign, and they may be a word such as `inf`
  (`Decimal.Denotes`).  Reading succeeds on them and on no others (`parse?_isSome_iff`).
* So every literal has a value (`Literal.value?_isSome`).

A numeral that was scanned can thus always be entered in a pool that has room.
-/

namespace Formula
namespace Numeral

/-- Decimal digits only. -/
def Digits (ds : List Char) : Prop := ∀ d ∈ ds, Text.isDigit d = true

/-- The part of a literal before its exponent. -/
inductive Mantissa : List Char → Prop
  | whole {ds : List Char} (digits : Digits ds) (nonempty : ds ≠ []) : Mantissa ds
  | point {ds fs : List Char} (digits : Digits ds) (fraction : Digits fs)
      (nonempty : ds ≠ [] ∨ fs ≠ []) : Mantissa (ds ++ '.' :: fs)

/-- The spelling of a number. -/
inductive Literal : List Char → Prop
  | plain {m : List Char} (mantissa : Mantissa m) : Literal m
  | scaled {m sign ds : List Char} {mark : Char} (mantissa : Mantissa m)
      (isMark : mark = 'e' ∨ mark = 'E') (isSign : sign = [] ∨ sign = ['+'] ∨ sign = ['-'])
      (digits : Digits ds) (nonempty : ds ≠ []) : Literal (m ++ mark :: (sign ++ ds))

/-! ## What is measured is a literal -/

theorem digits_take (cs : List Char) : Digits (cs.take (digitsLength cs)) := by
  rw [digitsLength, ← List.prefix_iff_eq_take.mp (List.takeWhile_prefix Text.isDigit)]
  exact fun d hd => List.mem_takeWhile_imp hd

theorem take_digitsLength_ne_nil {c : Char} {cs : List Char} (h : Text.isDigit c = true) :
    (c :: cs).take (digitsLength (c :: cs)) ≠ [] := by
  have hpos : 0 < digitsLength (c :: cs) := digitsLength_pos h
  simp only [ne_eq, List.take_eq_nil_iff, List.cons_ne_nil, or_false]
  omega

/-- A point at a place, and what comes before and after it. -/
theorem drop_of_atPoint {cs : List Char} {n : Nat} (h : atPoint (cs.drop n) = true) :
    cs.drop n = '.' :: cs.drop (n + 1) := by
  unfold atPoint at h
  cases hd : cs.drop n with
  | nil => rw [hd] at h; cases h
  | cons c rest =>
    rw [hd] at h
    have hc : c = '.' := by simpa using h
    have hrest : cs.drop (n + 1) = rest := by
      rw [← List.drop_drop, hd]
      rfl
    rw [hc, hrest]

/-- The digits before a point, the point and the digits after it. -/
theorem mantissa_of_atPoint {cs : List Char} (begins : starts cs = true)
    (hpoint : atPoint (cs.drop (digitsLength cs)) = true) :
    Mantissa (cs.take (digitsLength cs + 1 + digitsLength (cs.drop (digitsLength cs + 1)))) := by
  have hdrop := drop_of_atPoint hpoint
  have htake : cs.take (digitsLength cs + 1 + digitsLength (cs.drop (digitsLength cs + 1))) =
      cs.take (digitsLength cs) ++ '.' ::
        (cs.drop (digitsLength cs + 1)).take
          (digitsLength (cs.drop (digitsLength cs + 1))) := by
    rw [Nat.add_assoc, List.take_add, hdrop, Nat.add_comm 1, List.take_succ_cons]
  rw [htake]
  refine .point (digits_take _) (digits_take _) ?_
  -- a point without a digit before it has one after it, because a numeral begins there
  cases cs with
  | nil => cases begins
  | cons c cs =>
    by_cases hc : Text.isDigit c = true
    · exact .inl (take_digitsLength_ne_nil hc)
    · have hzero : digitsLength (c :: cs) = 0 := by simp [digitsLength, hc]
      simp only [starts, hc, Bool.false_or, Bool.and_eq_true] at begins
      rw [hzero]
      cases cs with
      | nil => cases begins.2
      | cons d cs => exact .inr (take_digitsLength_ne_nil begins.2)

theorem mantissa_of_mantissaLength {cs : List Char} {m : Nat} (begins : starts cs = true)
    (h : mantissaLength cs = .ok m) : Mantissa (cs.take m) := by
  have hpos := mantissaLength_pos begins h
  simp only [mantissaLength] at h
  split at h
  · rename_i hpoint
    split at h
    · cases h
    · cases h
      exact mantissa_of_atPoint begins hpoint
  · cases h
    refine .whole (digits_take _) fun hnil => ?_
    rcases List.take_eq_nil_iff.mp hnil with hzero | hcs
    · omega
    · rw [hcs] at begins
      cases begins

theorem take_signLength (cs : List Char) :
    cs.take (signLength cs) = [] ∨ cs.take (signLength cs) = ['+'] ∨
      cs.take (signLength cs) = ['-'] := by
  unfold signLength
  split
  · rename_i h
    cases cs with
    | nil => exact .inl rfl
    | cons c cs =>
      have hc : c = '+' ∨ c = '-' := by simpa using h
      rcases hc with rfl | rfl <;> simp
  · exact .inl rfl

theorem literal_of_withExponent {cs : List Char} {m n : Nat} (hm : Mantissa (cs.take m))
    (h : withExponent cs m = .ok n) : Literal (cs.take n) := by
  simp only [withExponent] at h
  split at h
  · rename_i hmark
    split at h
    · cases h
    · rename_i hdigits
      split at h
      · cases h
      · cases h
        cases hd : cs.drop m with
        | nil => rw [hd] at hmark; cases hmark
        | cons mark rest =>
          have hrest : cs.drop (m + 1) = rest := by
            rw [← List.drop_drop, hd]
            rfl
          have hm' : mark = 'e' ∨ mark = 'E' := by simpa [hd, atMark] using hmark
          rw [hrest] at hdigits ⊢
          have hstart : cs.drop (m + 1 + signLength rest) = rest.drop (signLength rest) := by
            rw [← List.drop_drop, hrest]
          rw [hstart] at hdigits ⊢
          have htake : cs.take (m + 1 + signLength rest +
              digitsLength (rest.drop (signLength rest))) =
              cs.take m ++ mark :: (rest.take (signLength rest) ++
                (rest.drop (signLength rest)).take
                  (digitsLength (rest.drop (signLength rest)))) := by
            rw [Nat.add_assoc, Nat.add_assoc, List.take_add, hd, Nat.add_comm 1,
              List.take_succ_cons, List.take_add]
          rw [htake]
          refine .scaled hm hm' (take_signLength rest) (digits_take _) fun hnil => ?_
          rcases List.take_eq_nil_iff.mp hnil with hzero | hcs
          · simp [hzero] at hdigits
          · simp [hcs, digitsLength] at hdigits
  · cases h
    exact .plain hm

/-- **What is measured is a literal.** -/
theorem literal_of_length? {cs : List Char} {n : Nat} (h : length? cs = .ok (some n)) :
    Literal (cs.take n) := by
  simp only [length?] at h
  split at h
  · rename_i begins
    split at h
    · cases h
    · rename_i m hm
      cases hx : withExponent cs m with
      | error fault => rw [hx] at h; cases h
      | ok k =>
        rw [hx] at h
        cases h
        exact literal_of_withExponent (mantissa_of_mantissaLength begins hm) hx
  · cases h

/-! ## A literal is read -/

theorem takeWhile_digits {ds rest : List Char} (hd : Digits ds)
    (hrest : ∀ c ∈ rest.head?, Text.isDigit c = false) :
    (ds ++ rest).takeWhile Text.isDigit = ds ∧ (ds ++ rest).dropWhile Text.isDigit = rest := by
  rw [List.takeWhile_append_of_pos hd, List.dropWhile_append_of_pos hd]
  cases rest with
  | nil => simp
  | cons c rest =>
    have hc : Text.isDigit c = false := hrest c (by simp)
    simp [hc]

theorem splitFraction_of_ne {rest : List Char} (h : ∀ c ∈ rest.head?, c ≠ '.') :
    Decimal.splitFraction rest = ([], rest) := by
  unfold Decimal.splitFraction
  split
  · exact absurd rfl (h '.' (by simp))
  · rfl

theorem splitSign_of_ne {cs : List Char} (h : ∀ c ∈ cs.head?, c ≠ '-' ∧ c ≠ '+') :
    Decimal.splitSign cs = (false, cs) := by
  unfold Decimal.splitSign
  split
  · exact absurd rfl (h '-' (by simp)).1
  · exact absurd rfl (h '+' (by simp)).2
  · rfl

theorem ne_of_isDigit {c : Char} (h : Text.isDigit c = true) : c ≠ '.' ∧ c ≠ '-' ∧ c ≠ '+' := by
  refine ⟨?_, ?_, ?_⟩ <;> rintro rfl <;> revert h <;> decide

/-- A mantissa in front of anything that cannot continue it is split off as it is. -/
theorem Mantissa.ofChars? {m rest : List Char} (hm : Mantissa m)
    (hrest : ∀ c ∈ rest.head?, Text.isDigit c = false ∧ c ≠ '.')
    (hexp : (Decimal.exponent? rest).isSome = true) :
    (Decimal.ofChars? (m ++ rest)).isSome = true := by
  unfold Decimal.ofChars?
  cases hm with
  | whole digits nonempty =>
    obtain ⟨htake, hdrop⟩ := takeWhile_digits digits fun c hc => (hrest c hc).1
    simp only [htake, hdrop, splitFraction_of_ne fun c hc => (hrest c hc).2]
    simp [nonempty, hexp]
  | @point ds fs digits fraction nonempty =>
    have hpoint : ∀ c ∈ ('.' :: (fs ++ rest)).head?, Text.isDigit c = false := by
      simp only [List.head?_cons, Option.mem_some_iff, forall_eq']
      decide
    obtain ⟨htake, hdrop⟩ := takeWhile_digits digits hpoint
    obtain ⟨hftake, hfdrop⟩ := takeWhile_digits fraction fun c hc => (hrest c hc).1
    rw [List.append_assoc, List.cons_append]
    simp only [htake, hdrop, Decimal.splitFraction, hftake, hfdrop]
    rcases nonempty with hne | hne <;> simp [hne, hexp]

/-- A sign is split off from what does not begin with one. -/
theorem splitSign_append {sign cs : List Char} (isSign : sign = [] ∨ sign = ['+'] ∨ sign = ['-'])
    (h : ∀ c ∈ cs.head?, c ≠ '-' ∧ c ≠ '+') :
    ∃ negative, Decimal.splitSign (sign ++ cs) = (negative, cs) := by
  rcases isSign with rfl | rfl | rfl
  · exact ⟨false, splitSign_of_ne h⟩
  · exact ⟨false, rfl⟩
  · exact ⟨true, rfl⟩

theorem exponent?_isSome {sign ds : List Char} {mark : Char} (isMark : mark = 'e' ∨ mark = 'E')
    (isSign : sign = [] ∨ sign = ['+'] ∨ sign = ['-']) (digits : Digits ds)
    (nonempty : ds ≠ []) : (Decimal.exponent? (mark :: (sign ++ ds))).isSome = true := by
  have hmark : (mark == 'e' || mark == 'E') = true := by simpa using isMark
  obtain ⟨negative, hsplit⟩ := splitSign_append isSign fun c hc =>
    (ne_of_isDigit (digits c (List.mem_of_mem_head? hc))).2
  have hall : (ds.isEmpty || !ds.all Text.isDigit) = false := by
    have hd : ds.all Text.isDigit = true := List.all_eq_true.mpr digits
    simp [nonempty, hd]
  simp [Decimal.exponent?, hmark, hsplit, hall]

/-- A literal begins with a digit or a point. -/
theorem Literal.head {cs : List Char} (h : Literal cs) :
    ∀ c ∈ cs.head?, Text.isDigit c = true ∨ c = '.' := by
  have hmantissa : ∀ {m : List Char}, Mantissa m →
      m ≠ [] ∧ ∀ c ∈ m.head?, Text.isDigit c = true ∨ c = '.' := by
    intro m hm
    cases hm with
    | whole digits nonempty =>
      exact ⟨nonempty, fun c hc => .inl (digits c (List.mem_of_mem_head? hc))⟩
    | @point ds fs digits =>
      refine ⟨by simp, fun c hc => ?_⟩
      cases ds with
      | nil => exact .inr (by simpa using hc.symm)
      | cons d ds => exact .inl (digits c (by simp_all))
  cases h with
  | plain mantissa => exact (hmantissa mantissa).2
  | scaled mantissa =>
    obtain ⟨hne, hhead⟩ := hmantissa mantissa
    rwa [List.head?_append_of_ne_nil _ hne]

/-- A literal does not begin with a sign. -/
theorem Literal.head_ne_sign {cs : List Char} (h : Literal cs) :
    ∀ c ∈ cs.head?, c ≠ '-' ∧ c ≠ '+' := by
  intro c hc
  rcases h.head c hc with hdigit | rfl
  · exact (ne_of_isDigit hdigit).2
  · decide

theorem Literal.ofChars?_isSome {cs : List Char} (h : Literal cs) :
    (Decimal.ofChars? cs).isSome = true := by
  cases h with
  | plain mantissa =>
    have hnil : (Decimal.ofChars? (cs ++ [])).isSome = true := mantissa.ofChars? (by simp) rfl
    rwa [List.append_nil] at hnil
  | scaled mantissa isMark isSign digits nonempty =>
    refine mantissa.ofChars? ?_ (exponent?_isSome isMark isSign digits nonempty)
    simp only [List.head?_cons, Option.mem_some_iff, forall_eq']
    rcases isMark with rfl | rfl <;> decide

end Numeral

/-! ## The texts with a number -/

namespace Decimal

open Numeral

/-- The numbers that are written without digits. -/
def words : List String := ["inf", "infinity", "nan"]

/-- The texts that denote a number: after an optional sign, a word in any case or a literal. -/
inductive Denotes : List Char → Prop
  | word {sign cs : List Char} (isSign : sign = [] ∨ sign = ['+'] ∨ sign = ['-'])
      (isWord : String.ofList (cs.map Char.toLower) ∈ words) : Denotes (sign ++ cs)
  | literal {sign cs : List Char} (isSign : sign = [] ∨ sign = ['+'] ∨ sign = ['-'])
      (isLiteral : Literal cs) : Denotes (sign ++ cs)

theorem exists_splitSign (cs : List Char) :
    ∃ sign, (sign = [] ∨ sign = ['+'] ∨ sign = ['-']) ∧ cs = sign ++ (splitSign cs).2 := by
  unfold splitSign
  split
  · exact ⟨['-'], by simp, rfl⟩
  · exact ⟨['+'], by simp, rfl⟩
  · exact ⟨[], by simp, rfl⟩

/-- What reads as an exponent makes a literal of the mantissa before it. -/
theorem literal_of_exponent? {m rest : List Char} (hm : Mantissa m)
    (h : (exponent? rest).isSome = true) : Literal (m ++ rest) := by
  cases rest with
  | nil =>
    rw [List.append_nil]
    exact .plain hm
  | cons mark cs =>
    obtain ⟨sign, isSign, hcs⟩ := exists_splitSign cs
    simp only [exponent?] at h
    split at h
    · rename_i isMark
      split at h
      · cases h
      · rename_i hdigits
        simp only [Bool.or_eq_true, Bool.not_eq_true', not_or, Bool.not_eq_false,
          List.isEmpty_iff, List.all_eq_true] at hdigits
        rw [hcs]
        exact .scaled hm (by simpa using isMark) isSign hdigits.2 hdigits.1
    · cases h

/-- The digits that are read before and after a point are a mantissa, if there are any. -/
theorem mantissa_of_splitFraction {whole rest : List Char} (digits : Digits whole)
    (nonempty : ¬ (whole.isEmpty && (splitFraction rest).1.isEmpty) = true) :
    ∃ m, Mantissa m ∧ whole ++ rest = m ++ (splitFraction rest).2 := by
  unfold splitFraction at nonempty ⊢
  split at nonempty
  · rename_i cs
    have hfraction : Digits (cs.takeWhile Text.isDigit) := fun d hd => List.mem_takeWhile_imp hd
    refine ⟨whole ++ '.' :: cs.takeWhile Text.isDigit, .point digits hfraction ?_, ?_⟩
    · by_cases hw : whole = []
      · simp only [hw, List.isEmpty_nil, Bool.true_and, List.isEmpty_iff] at nonempty
        exact .inr nonempty
      · exact .inl hw
    · rw [List.append_assoc, List.cons_append, List.takeWhile_append_dropWhile]
  · have hwhole : whole ≠ [] := by simpa using nonempty
    exact ⟨whole, .whole digits hwhole, rfl⟩

/-- **A decimal is read exactly from the literals.** -/
theorem ofChars?_isSome_iff {cs : List Char} : (ofChars? cs).isSome = true ↔ Literal cs := by
  refine ⟨fun h => ?_, Literal.ofChars?_isSome⟩
  simp only [ofChars?] at h
  split at h
  · cases h
  · rename_i nonempty
    rw [Option.isSome_map] at h
    obtain ⟨m, hm, hcs⟩ :=
      mantissa_of_splitFraction (fun d hd => List.mem_takeWhile_imp hd) nonempty
    rw [List.takeWhile_append_dropWhile] at hcs
    rw [hcs]
    exact literal_of_exponent? hm h

theorem unsignedWord?_isSome_iff {cs : List Char} :
    (unsignedWord? cs).isSome = true ↔
      String.ofList (cs.map Char.toLower) ∈ words ∨ Literal cs := by
  unfold unsignedWord?
  split
  · rename_i hw
    simp [hw, words]
  · rename_i hw
    simp [hw, words]
  · rename_i hw
    simp [hw, words]
  · rename_i hinf hinfinity hnan
    have hno : String.ofList (cs.map Char.toLower) ∉ words := by
      simp only [words, List.mem_cons, List.not_mem_nil, or_false, not_or]
      exact ⟨hinf, hinfinity, hnan⟩
    rw [Option.isSome_map, ofChars?_isSome_iff, or_iff_right hno]

/-- A word does not begin with a sign. -/
theorem head_ne_sign_of_word {cs : List Char}
    (h : String.ofList (cs.map Char.toLower) ∈ words) : ∀ c ∈ cs.head?, c ≠ '-' ∧ c ≠ '+' := by
  have hhead : ∀ w ∈ words, w.toList.head? ≠ some '-' ∧ w.toList.head? ≠ some '+' := by decide
  have hlower := hhead _ h
  rw [String.toList_ofList, List.head?_map] at hlower
  intro c hc
  rw [Option.mem_def.mp hc] at hlower
  constructor
  · rintro rfl
    exact hlower.1 rfl
  · rintro rfl
    exact hlower.2 rfl

/-- **A number is read exactly from the texts that denote one.** -/
theorem parse?_isSome_iff {text : String} :
    (parse? text).isSome = true ↔ Denotes text.toList := by
  have hread : (parse? text).isSome = (unsignedWord? (splitSign text.toList).2).isSome :=
    Option.isSome_map
  rw [hread, unsignedWord?_isSome_iff]
  constructor
  · obtain ⟨sign, isSign, htext⟩ := exists_splitSign text.toList
    rintro (isWord | isLiteral)
    · exact htext ▸ .word isSign isWord
    · exact htext ▸ .literal isSign isLiteral
  · intro h
    generalize text.toList = cs at h
    cases h with
    | word isSign isWord =>
      obtain ⟨negative, hsplit⟩ := splitSign_append isSign (head_ne_sign_of_word isWord)
      rw [hsplit]
      exact .inl isWord
    | literal isSign isLiteral =>
      obtain ⟨negative, hsplit⟩ := splitSign_append isSign isLiteral.head_ne_sign
      rw [hsplit]
      exact .inr isLiteral

end Decimal

namespace Numeral

theorem Literal.denotes {cs : List Char} (h : Literal cs) : Decimal.Denotes cs :=
  .literal (.inl rfl) h

/-- **Every literal has a value.** -/
theorem Literal.value?_isSome {cs : List Char} (h : Literal cs) :
    (Pool.value? (String.ofList cs)).isSome = true := by
  unfold Pool.value?
  split
  · rfl
  · rw [Decimal.parse?_isSome_iff, String.toList_ofList]
    exact h.denotes

end Numeral
end Formula
