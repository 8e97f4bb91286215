import Formula.Proofs.Numerals

/-!
# Where a numeral ends

`Numeral.length?` measures the numeral at the front of a text, and it takes as much as it can.  What
it measures is decided by the numeral and by the one character after it.  `Numeral.Ends` is the
condition on that character: no digit and no point goes on with the numeral, and a mark does not
either, unless the numeral has an exponent already.

* `Ends.length?_append`: a literal that ends in front of a text is measured there.
* `ends_of_length?`: what is measured is a literal, and it ends there.
-/

namespace Formula

namespace Numeral

/-- A literal ends in front of a character, or at the end of the text: no digit and no point goes on
with it, and a mark follows only if there is one already. -/
structure Ends (cs : List Char) (next : Option Char) : Prop where
  literal : Literal cs
  halts : ∀ c ∈ next, Text.isDigit c = false ∧ c ≠ '.'
  marked : ∀ c ∈ next, c = 'e' ∨ c = 'E' → ∃ d ∈ cs, d = 'e' ∨ d = 'E'

theorem digitsLength_append {ds rest : List Char} (hd : Digits ds)
    (hrest : ∀ c ∈ rest.head?, Text.isDigit c = false) : digitsLength (ds ++ rest) = ds.length := by
  rw [digitsLength, (takeWhile_digits hd hrest).1]

theorem atPoint_eq_false {rest : List Char} (h : ∀ c ∈ rest.head?, c ≠ '.') :
    atPoint rest = false := by
  cases rest with
  | nil => rfl
  | cons c rest =>
    have hc : c ≠ '.' := h c (by simp)
    simp [atPoint, hc]

theorem atMark_eq_false {rest : List Char} (h : ∀ c ∈ rest.head?, ¬ (c = 'e' ∨ c = 'E')) :
    atMark rest = false := by
  cases rest with
  | nil => rfl
  | cons c rest =>
    have hc : ¬ (c = 'e' ∨ c = 'E') := h c (by simp)
    simpa [atMark] using hc

/-- A mantissa is measured up to what cannot go on with it. -/
theorem Mantissa.mantissaLength_append {m rest : List Char} (hm : Mantissa m)
    (hrest : ∀ c ∈ rest.head?, Text.isDigit c = false ∧ c ≠ '.') :
    mantissaLength (m ++ rest) = .ok m.length := by
  have hdigit : ∀ c ∈ rest.head?, Text.isDigit c = false := fun c hc => (hrest c hc).1
  have hpoint : atPoint rest = false := atPoint_eq_false fun c hc => (hrest c hc).2
  unfold mantissaLength
  cases hm with
  | whole digits nonempty =>
    simp [digitsLength_append digits hdigit, hpoint]
  | @point ds fs digits fraction nonempty =>
    have hhead : ∀ c ∈ ('.' :: (fs ++ rest)).head?, Text.isDigit c = false := by
      simp only [List.head?_cons, Option.mem_some_iff, forall_eq']
      decide
    have hwhole : digitsLength (ds ++ '.' :: (fs ++ rest)) = ds.length :=
      digitsLength_append digits hhead
    have hafter : (ds ++ '.' :: (fs ++ rest)).drop (ds.length + 1) = fs ++ rest := by
      rw [← List.drop_drop, List.drop_left]
      rfl
    have hend : (ds ++ '.' :: (fs ++ rest)).drop (ds.length + 1 + fs.length) = rest := by
      rw [← List.drop_drop, hafter, List.drop_left]
    rw [List.append_assoc, List.cons_append]
    simp only [hwhole, List.drop_left, hafter, digitsLength_append fraction hdigit, hend, hpoint]
    simp [atPoint, Nat.add_assoc, Nat.add_comm 1]

theorem Mantissa.starts_append {m : List Char} (hm : Mantissa m) (rest : List Char) :
    starts (m ++ rest) = true := by
  cases hm with
  | whole digits nonempty =>
    cases m with
    | nil => exact absurd rfl nonempty
    | cons d ds => simp [starts, digits d (by simp)]
  | @point ds fs digits fraction nonempty =>
    cases ds with
    | cons d ds => simp [starts, digits d (by simp)]
    | nil =>
      cases fs with
      | nil => simp at nonempty
      | cons f fs => simp [starts, fraction f (by simp)]

/-- A mantissa has no mark. -/
theorem Mantissa.unmarked {m : List Char} (hm : Mantissa m) : ∀ d ∈ m, ¬ (d = 'e' ∨ d = 'E') := by
  have hdigit : ∀ {d : Char}, Text.isDigit d = true → ¬ (d = 'e' ∨ d = 'E') := by
    rintro d hd (rfl | rfl) <;> revert hd <;> decide
  cases hm with
  | whole digits => exact fun d hd => hdigit (digits d hd)
  | point digits fraction =>
    intro d hd
    rcases List.mem_append.mp hd with hd | hd
    · exact hdigit (digits d hd)
    · rcases List.mem_cons.mp hd with rfl | hd
      · decide
      · exact hdigit (fraction d hd)

theorem signLength_append {sign ds rest : List Char}
    (isSign : sign = [] ∨ sign = ['+'] ∨ sign = ['-']) (digits : Digits ds) (nonempty : ds ≠ []) :
    signLength (sign ++ (ds ++ rest)) = sign.length := by
  rcases isSign with rfl | rfl | rfl
  · cases ds with
    | nil => exact absurd rfl nonempty
    | cons d ds =>
      have hd := ne_of_isDigit (digits d (by simp))
      simp [signLength, hd.2.1, hd.2.2]
  · rfl
  · rfl

/-- The exponent of a literal is measured up to what cannot go on with it. -/
theorem withExponent_append {m sign ds rest : List Char} {mark : Char}
    (isMark : mark = 'e' ∨ mark = 'E') (isSign : sign = [] ∨ sign = ['+'] ∨ sign = ['-'])
    (digits : Digits ds) (nonempty : ds ≠ [])
    (hrest : ∀ c ∈ rest.head?, Text.isDigit c = false ∧ c ≠ '.') :
    withExponent (m ++ mark :: (sign ++ (ds ++ rest))) m.length =
      .ok (m ++ mark :: (sign ++ ds)).length := by
  have hmark : atMark (mark :: (sign ++ (ds ++ rest))) = true := by simpa [atMark] using isMark
  have hafter : (m ++ mark :: (sign ++ (ds ++ rest))).drop (m.length + 1) =
      sign ++ (ds ++ rest) := by
    rw [← List.drop_drop, List.drop_left]
    rfl
  have hdigits : (m ++ mark :: (sign ++ (ds ++ rest))).drop (m.length + 1 + sign.length) =
      ds ++ rest := by
    rw [← List.drop_drop, hafter, List.drop_left]
  have hend : (m ++ mark :: (sign ++ (ds ++ rest))).drop
      (m.length + 1 + sign.length + ds.length) = rest := by
    rw [← List.drop_drop, hdigits, List.drop_left]
  have hpos : (ds.length == 0) = false := by
    rw [beq_eq_false_iff_ne]
    exact fun h => nonempty (List.length_eq_zero_iff.mp h)
  have hlength : digitsLength (ds ++ rest) = ds.length :=
    digitsLength_append digits fun c hc => (hrest c hc).1
  have hpoint : atPoint rest = false := atPoint_eq_false fun c hc => (hrest c hc).2
  simp only [withExponent, List.drop_left, hmark, hafter, signLength_append isSign digits nonempty,
    hdigits, hlength, hpos, hend, hpoint]
  simp only [if_true, Bool.false_eq_true, if_false, List.length_append, List.length_cons,
    Except.ok.injEq]
  omega

/-- A literal that ends is measured. -/
theorem Ends.length?_append {cs rest : List Char} (h : Ends cs rest.head?) :
    length? (cs ++ rest) = .ok (some cs.length) := by
  obtain ⟨literal, halts, marked⟩ := h
  cases literal with
  | plain mantissa =>
    have hmark : atMark rest = false := atMark_eq_false fun c hc hm => by
      obtain ⟨d, hd, hd'⟩ := marked c hc hm
      exact mantissa.unmarked d hd hd'
    simp [length?, mantissa.starts_append, mantissa.mantissaLength_append halts, withExponent,
      hmark, Except.map]
  | @scaled m sign ds mark mantissa isMark isSign digits nonempty =>
    have hnext : ∀ c ∈ (mark :: (sign ++ (ds ++ rest))).head?,
        Text.isDigit c = false ∧ c ≠ '.' := by
      simp only [List.head?_cons, Option.mem_some_iff, forall_eq']
      rcases isMark with rfl | rfl <;> decide
    rw [List.append_assoc, List.cons_append, List.append_assoc]
    simp only [length?, mantissa.starts_append, if_true, mantissa.mantissaLength_append hnext,
      withExponent_append isMark isSign digits nonempty halts]
    rfl

/-! ### What is measured ends there -/

theorem isDigit_drop_digitsLength (cs : List Char) :
    ∀ c ∈ (cs.drop (digitsLength cs)).head?, Text.isDigit c = false := by
  have hdrop : cs.drop (digitsLength cs) = cs.dropWhile Text.isDigit := by
    have happ : cs.takeWhile Text.isDigit ++ cs.dropWhile Text.isDigit = cs :=
      List.takeWhile_append_dropWhile
    calc cs.drop (digitsLength cs)
        = (cs.takeWhile Text.isDigit ++ cs.dropWhile Text.isDigit).drop
            (cs.takeWhile Text.isDigit).length := by rw [happ]; rfl
      _ = cs.dropWhile Text.isDigit := List.drop_left
  rw [hdrop]
  intro c hc
  have hhead := List.head?_dropWhile_not Text.isDigit cs
  rw [Option.mem_def.mp hc] at hhead
  simpa using hhead

theorem ne_point_of_atPoint {cs : List Char} (h : ¬ atPoint cs = true) :
    ∀ c ∈ cs.head?, c ≠ '.' := by
  rintro c hc rfl
  exact h (by simp [atPoint, Option.mem_def.mp hc])

theorem halts_of_mantissaLength {cs : List Char} {m : Nat} (h : mantissaLength cs = .ok m) :
    ∀ c ∈ (cs.drop m).head?, Text.isDigit c = false ∧ c ≠ '.' := by
  simp only [mantissaLength] at h
  split at h
  · split at h
    · cases h
    · rename_i hpoint
      cases h
      rw [← List.drop_drop] at hpoint ⊢
      exact fun c hc => ⟨isDigit_drop_digitsLength _ c hc, ne_point_of_atPoint hpoint c hc⟩
  · rename_i hpoint
    cases h
    exact fun c hc => ⟨isDigit_drop_digitsLength _ c hc, ne_point_of_atPoint hpoint c hc⟩

theorem ends_of_withExponent {cs : List Char} {m n : Nat} (hm : Mantissa (cs.take m))
    (hhalts : ∀ c ∈ (cs.drop m).head?, Text.isDigit c = false ∧ c ≠ '.')
    (h : withExponent cs m = .ok n) : Ends (cs.take n) (cs.drop n).head? := by
  have hliteral := literal_of_withExponent hm h
  simp only [withExponent] at h
  split at h
  · rename_i hmark
    split at h
    · cases h
    · split at h
      · cases h
      · rename_i hpoint
        cases h
        refine ⟨hliteral, ?_, fun _ _ _ => ?_⟩
        · rw [← List.drop_drop] at hpoint ⊢
          exact fun c hc => ⟨isDigit_drop_digitsLength _ c hc, ne_point_of_atPoint hpoint c hc⟩
        · -- the mark is the character after the mantissa
          cases hd : cs.drop m with
          | nil => rw [hd] at hmark; cases hmark
          | cons mark rest =>
            have hm' : mark = 'e' ∨ mark = 'E' := by simpa [hd, atMark] using hmark
            refine ⟨mark, ?_, hm'⟩
            rw [Nat.add_assoc, Nat.add_assoc, List.take_add, hd, Nat.add_comm 1,
              List.take_succ_cons]
            simp
  · rename_i hmark
    cases h
    refine ⟨hliteral, hhalts, fun c hc hm' => absurd ?_ hmark⟩
    simpa [atMark, Option.mem_def.mp hc] using hm'

/-- **What is measured is a literal, and it ends there.** -/
theorem ends_of_length? {cs : List Char} {n : Nat} (h : length? cs = .ok (some n)) :
    Ends (cs.take n) (cs.drop n).head? := by
  simp only [length?] at h
  split at h
  · rename_i begins
    split at h
    · cases h
    · rename_i m hm
      cases hx : withExponent cs m with
      | error fault => rw [hx] at h; cases h
      | ok k =>
        rw [hx] at h
        cases h
        exact ends_of_withExponent (mantissa_of_mantissaLength begins hm)
          (halts_of_mantissaLength hm) hx
  · cases h

/-- A literal that ends in front of anything ends at the end of a text. -/
theorem Ends.none {cs : List Char} {next : Option Char} (h : Ends cs next) : Ends cs none :=
  ⟨h.literal, by simp, by simp⟩

end Numeral

end Formula
