import Formula.Proofs.Carets
import Formula.Proofs.Octets

/-!
# The longest literal

`Numeral.stop?` finds the end of the numeral at a byte of a text.  Three answers are possible, and
here each of them is told apart by the grammar alone.

* There is no numeral: no beginning of the bytes from there on is a literal.
* There is one, and it ends at the end of the longest beginning that is a literal.  What comes after
  it cannot be mistaken for a part of it: no point, and no mark unless there is one already.
* What begins like a literal goes on wrongly (`Numeral.Malformed`).  The longest mantissa is
  followed by a point, or by a mark and no digits, or by an exponent with a point after it.

Longest beginnings are compared by `IsLongest`.  The longest mantissa is what `mantissaLength`
measures, whether or not it then refuses what follows (`isLongest_mantissa`), and everything about
literals is derived from that and from one equation for exponents (`withExponent_of_mark`).

The measuring is done on characters.  Characters of a numeral have one byte each, so that measuring
the bytes gives the same (`stop?_eq_octets`), also where the first of them is inside of a character.
-/

namespace Formula

/-- Of the beginnings of a text that are of some kind, the longest. -/
structure IsLongest (kind : List Char → Prop) (p cs : List Char) : Prop where
  isPrefix : p <+: cs
  isKind : kind p
  length_le : ∀ q, q <+: cs → kind q → q.length ≤ p.length

theorem IsLongest.length_eq {kind : List Char → Prop} {p q cs : List Char}
    (h : IsLongest kind p cs) (h' : IsLongest kind q cs) : p.length = q.length :=
  Nat.le_antisymm (h'.length_le p h.isPrefix h.isKind) (h.length_le q h'.isPrefix h'.isKind)

namespace Numeral

open Text

variable {cs ds p rest : List Char} {m n : Nat}

/-! ## The longest mantissa -/

theorem le_digitsLength (hd : Digits ds) (rest : List Char) :
    ds.length ≤ digitsLength (ds ++ rest) := by
  rw [digitsLength, List.takeWhile_append_of_pos hd, List.length_append]
  exact Nat.le_add_right _ _

@[simp] theorem reached_ok (n : Nat) : reached (.ok n) = n := rfl

@[simp] theorem reached_error (fault : Fault) : reached (.error fault) = fault.1 := rfl

theorem reached_mantissaLength (cs : List Char) :
    reached (mantissaLength cs) =
      if atPoint (cs.drop (digitsLength cs)) then
        digitsLength cs + 1 + digitsLength (cs.drop (digitsLength cs + 1))
      else digitsLength cs := by
  simp only [mantissaLength]
  split
  · split <;> rfl
  · rfl

/-- No mantissa goes on past what is measured. -/
theorem Mantissa.length_le_reached (hp : Mantissa p) (rest : List Char) :
    p.length ≤ reached (mantissaLength (p ++ rest)) := by
  rw [reached_mantissaLength]
  cases hp with
  | whole digits nonempty =>
    have hle := le_digitsLength digits rest
    split <;> omega
  | @point ds fs digits fraction nonempty =>
    have hhead : ∀ c ∈ ('.' :: (fs ++ rest)).head?, Text.isDigit c = false := by
      simp only [List.head?_cons, Option.mem_some_iff, forall_eq']
      decide
    have hwhole : digitsLength (ds ++ '.' :: (fs ++ rest)) = ds.length :=
      digitsLength_append digits hhead
    have hafter : (ds ++ '.' :: (fs ++ rest)).drop (ds.length + 1) = fs ++ rest := by
      rw [← List.drop_drop, List.drop_left]
      rfl
    rw [List.append_assoc, List.cons_append, hwhole, List.drop_left, hafter,
      if_pos (show atPoint ('.' :: (fs ++ rest)) = true from rfl), List.length_append,
      List.length_cons]
    have hle := le_digitsLength fraction rest
    omega

theorem length_take_reached (cs : List Char) :
    (cs.take (reached (mantissaLength cs))).length = reached (mantissaLength cs) := by
  rw [List.length_take, Nat.min_eq_left (plain_mantissaLength cs).1]

/-- **What is measured first is the longest mantissa.** -/
theorem isLongest_mantissa (begins : starts cs = true) :
    IsLongest Mantissa (cs.take (reached (mantissaLength cs))) cs where
  isPrefix := List.take_prefix _ _
  isKind := by
    cases hm : mantissaLength cs with
    | ok m => exact mantissa_of_mantissaLength begins hm
    | error fault =>
      simp only [mantissaLength] at hm
      split at hm
      · rename_i hpoint
        split at hm <;> cases hm
        exact mantissa_of_atPoint begins hpoint
      · cases hm
  length_le := by
    rintro q ⟨rest, rfl⟩ hq
    rw [length_take_reached]
    exact hq.length_le_reached rest

/-- A literal begins with a mantissa. -/
theorem Literal.exists_mantissa (h : Literal p) : ∃ m rest, p = m ++ rest ∧ Mantissa m := by
  cases h with
  | plain mantissa => exact ⟨p, [], (List.append_nil p).symm, mantissa⟩
  | scaled mantissa => exact ⟨_, _, rfl, mantissa⟩

theorem Literal.starts_append (h : Literal p) (rest : List Char) : starts (p ++ rest) = true := by
  obtain ⟨m, more, rfl, hm⟩ := h.exists_mantissa
  rw [List.append_assoc]
  exact hm.starts_append _

/-- A numeral begins where a literal does. -/
theorem starts_iff : starts cs = true ↔ ∃ p, p <+: cs ∧ Literal p := by
  constructor
  · intro begins
    have hlongest := isLongest_mantissa begins
    exact ⟨_, hlongest.isPrefix, .plain hlongest.isKind⟩
  · rintro ⟨p, ⟨rest, rfl⟩, hp⟩
    exact hp.starts_append rest

/-! ## Exponents -/

/-- A sign in front of a text, or none if the text does not begin with one. -/
def SignBefore (sign tail : List Char) : Prop :=
  sign = ['+'] ∨ sign = ['-'] ∨ sign = [] ∧ ∀ c ∈ tail.head?, c ≠ '+' ∧ c ≠ '-'

theorem SignBefore.signLength {sign tail : List Char} (h : SignBefore sign tail) :
    signLength (sign ++ tail) = sign.length := by
  rcases h with rfl | rfl | ⟨rfl, hne⟩
  · rfl
  · rfl
  · cases tail with
    | nil => rfl
    | cons c tail =>
      obtain ⟨hplus, hminus⟩ := hne c rfl
      simp [Numeral.signLength, hplus, hminus]

/-- What a text begins with, up to its sign. -/
theorem signBefore_take (cs : List Char) :
    SignBefore (cs.take (signLength cs)) (cs.drop (signLength cs)) := by
  rcases take_signLength cs with hnil | hsign
  · refine .inr (.inr ⟨hnil, ?_⟩)
    rcases List.take_eq_nil_iff.mp hnil with hzero | rfl
    · rw [hzero, List.drop_zero]
      rintro c hc
      constructor <;> rintro rfl <;> simp [signLength, Option.mem_def.mp hc] at hzero
    · simp
  · exact hsign.imp_right .inl

theorem signBefore_digits {sign : List Char} (isSign : sign = [] ∨ sign = ['+'] ∨ sign = ['-'])
    (digits : Digits ds) (nonempty : ds ≠ []) (rest : List Char) :
    SignBefore sign (ds ++ rest) := by
  rcases isSign with rfl | rfl | rfl
  · refine .inr (.inr ⟨rfl, fun c hc => ?_⟩)
    rw [List.head?_append_of_ne_nil _ nonempty] at hc
    have hne := ne_of_isDigit (digits c (List.mem_of_mem_head? hc))
    exact ⟨hne.2.2, hne.2.1⟩
  · exact .inl rfl
  · exact .inr (.inl rfl)

/-- Measuring an exponent, from its mark on. -/
theorem withExponent_of_mark {m sign tail : List Char} {mark : Char}
    (isMark : mark = 'e' ∨ mark = 'E') (isSign : SignBefore sign tail) :
    withExponent (m ++ mark :: (sign ++ tail)) m.length =
      if digitsLength tail = 0 then .error (m.length + 1 + sign.length, .emptyExponent)
      else if atPoint (tail.drop (digitsLength tail)) then
        .error (m.length + 1 + sign.length + digitsLength tail, .pointInExponent)
      else .ok (m.length + 1 + sign.length + digitsLength tail) := by
  have hmark : atMark (mark :: (sign ++ tail)) = true := by simpa [atMark] using isMark
  have hafter : (m ++ mark :: (sign ++ tail)).drop (m.length + 1) = sign ++ tail := by
    rw [← List.drop_drop, List.drop_left]
    rfl
  have htail : (m ++ mark :: (sign ++ tail)).drop (m.length + 1 + sign.length) = tail := by
    rw [← List.drop_drop, hafter, List.drop_left]
  have hend : ∀ k, (m ++ mark :: (sign ++ tail)).drop (m.length + 1 + sign.length + k) =
      tail.drop k := fun k => by rw [← List.drop_drop, htail]
  simp only [withExponent, List.drop_left, hmark, if_true, hafter, isSign.signLength, htail, hend,
    beq_iff_eq]

theorem ne_mark {mark : Char} (h : mark = 'e' ∨ mark = 'E') :
    Text.isDigit mark = false ∧ mark ≠ '.' := by
  rcases h with rfl | rfl <;> decide

/-- In front of a mark, a mantissa is measured. -/
theorem Mantissa.mantissaLength_of_mark {m : List Char} {mark : Char} (hm : Mantissa m)
    (isMark : mark = 'e' ∨ mark = 'E') (tail : List Char) :
    mantissaLength (m ++ mark :: tail) = .ok m.length :=
  hm.mantissaLength_append fun c hc => by
    obtain rfl : mark = c := by simpa using hc
    exact ne_mark isMark

/-! ## The three answers -/

theorem length?_eq_none_iff : length? cs = .ok none ↔ ∀ p, p <+: cs → ¬ Literal p := by
  have hstarts : length? cs = .ok none ↔ ¬ starts cs = true := by
    unfold length?
    split
    · rename_i begins
      refine ⟨fun h => ?_, fun h => absurd begins h⟩
      split at h
      · cases h
      · rename_i m hm
        cases hx : withExponent cs m with
        | error fault => rw [hx] at h; cases h
        | ok n => rw [hx] at h; cases h
    · rename_i begins
      exact ⟨fun _ => begins, fun _ => rfl⟩
  rw [hstarts, starts_iff]
  exact ⟨fun h p hp hl => h ⟨p, hp, hl⟩, fun h ⟨p, hp, hl⟩ => h p hp hl⟩

/-- What was measured, taken apart. -/
theorem exists_mantissaLength (h : length? cs = .ok (some n)) :
    ∃ m, mantissaLength cs = .ok m ∧ withExponent cs m = .ok n := by
  unfold length? at h
  split at h
  · split at h
    · cases h
    · rename_i m hm
      cases hx : withExponent cs m with
      | error fault => rw [hx] at h; cases h
      | ok k =>
        rw [hx] at h
        cases h
        exact ⟨m, hm, hx⟩
  · cases h

theorem length_le_of_length? (h : length? cs = .ok (some n)) : n ≤ cs.length := by
  obtain ⟨m, hm, hx⟩ := exists_mantissaLength h
  have hmantissa := plain_mantissaLength cs
  rw [hm] at hmantissa
  have hall := plain_withExponent (show Plain cs m from hmantissa)
  rw [hx] at hall
  exact hall.1

/-- **A numeral is the longest literal.** -/
theorem isLongest_of_length? (h : length? cs = .ok (some n)) :
    IsLongest Literal (cs.take n) cs where
  isPrefix := List.take_prefix _ _
  isKind := literal_of_length? h
  length_le := by
    rw [List.length_take, Nat.min_eq_left (length_le_of_length? h)]
    obtain ⟨k, hk, hx⟩ := exists_mantissaLength h
    rintro q ⟨rest, rfl⟩ hq
    cases hq with
    | plain mantissa =>
      have hle := mantissa.length_le_reached rest
      rw [hk] at hle
      exact Nat.le_trans hle (le_withExponent hx)
    | @scaled m sign ds mark mantissa isMark isSign digits nonempty =>
      rw [List.append_assoc, List.cons_append, List.append_assoc] at hk hx
      rw [mantissa.mantissaLength_of_mark isMark] at hk
      cases hk
      rw [withExponent_of_mark isMark (signBefore_digits isSign digits nonempty rest)] at hx
      have hle := le_digitsLength digits rest
      split at hx
      · cases hx
      · split at hx
        · cases hx
        · cases hx
          simp only [List.length_append, List.length_cons]
          omega

/-- A text that begins like a literal and goes on wrongly, with the place where it does and the
reason. -/
inductive Malformed (cs : List Char) : Nat → Cause → Prop
  /-- a point after the mantissa -/
  | secondPoint {m rest : List Char} (longest : IsLongest Mantissa m cs)
      (text : cs = m ++ '.' :: rest) : Malformed cs m.length .secondPoint
  /-- no digit after the mark and the sign, if there is one -/
  | emptyExponent {m sign rest : List Char} {mark : Char} (longest : IsLongest Mantissa m cs)
      (isMark : mark = 'e' ∨ mark = 'E') (isSign : SignBefore sign rest)
      (noDigit : ∀ c ∈ rest.head?, Text.isDigit c = false)
      (text : cs = m ++ mark :: (sign ++ rest)) :
      Malformed cs (m.length + 1 + sign.length) .emptyExponent
  /-- a point after the digits of the exponent -/
  | pointInExponent {m sign ds rest : List Char} {mark : Char} (longest : IsLongest Mantissa m cs)
      (isMark : mark = 'e' ∨ mark = 'E') (isSign : sign = [] ∨ sign = ['+'] ∨ sign = ['-'])
      (digits : Digits ds) (nonempty : ds ≠ [])
      (text : cs = m ++ mark :: (sign ++ (ds ++ '.' :: rest))) :
      Malformed cs (m.length + 1 + sign.length + ds.length) .pointInExponent

theorem digitsLength_eq_zero_iff :
    digitsLength cs = 0 ↔ ∀ c ∈ cs.head?, Text.isDigit c = false := by
  cases cs with
  | nil => simp [digitsLength]
  | cons c cs => cases hc : Text.isDigit c <;> simp [digitsLength, hc]

/-- Why measuring fails, taken apart. -/
theorem starts_of_error {fault : Fault} (h : length? cs = .error fault) :
    starts cs = true ∧ (mantissaLength cs = .error fault ∨
      ∃ m, mantissaLength cs = .ok m ∧ withExponent cs m = .error fault) := by
  unfold length? at h
  split at h
  · rename_i begins
    refine ⟨begins, ?_⟩
    split at h
    · rename_i hm
      cases h
      exact .inl hm
    · rename_i m hm
      cases hx : withExponent cs m with
      | ok n => rw [hx] at h; cases h
      | error fault' =>
        rw [hx] at h
        cases h
        exact .inr ⟨m, hm, hx⟩
  · cases h

theorem malformed_of_mantissaLength {distance : Nat} {cause : Cause} (begins : starts cs = true)
    (h : mantissaLength cs = .error (distance, cause)) : Malformed cs distance cause := by
  have hlongest := isLongest_mantissa begins
  have hlength := length_take_reached cs
  simp only [h, reached_error] at hlongest hlength
  have hpoint : atPoint (cs.drop distance) = true ∧ cause = .secondPoint := by
    simp only [mantissaLength] at h
    split at h
    · split at h <;> cases h
      rename_i hpoint
      exact ⟨hpoint, rfl⟩
    · cases h
  have htext : cs = cs.take distance ++ '.' :: cs.drop (distance + 1) := by
    rw [← drop_of_atPoint hpoint.1, List.take_append_drop]
  have hfault := Malformed.secondPoint hlongest htext
  rwa [hlength, ← hpoint.2] at hfault

theorem malformed_of_withExponent {distance : Nat} {cause : Cause} (begins : starts cs = true)
    (hm : mantissaLength cs = .ok n) (h : withExponent cs n = .error (distance, cause)) :
    Malformed cs distance cause := by
  have hlongest := isLongest_mantissa begins
  have hlength := length_take_reached cs
  have hsplit : cs.take n ++ cs.drop n = cs := List.take_append_drop n cs
  simp only [hm, reached_ok] at hlongest hlength
  generalize cs.take n = m at hlongest hlength hsplit
  -- there is a mark, because otherwise the mantissa is all there is
  have hmark : atMark (cs.drop n) = true := by
    simp only [withExponent] at h
    split at h
    · assumption
    · cases h
  obtain ⟨mark, tail, htail⟩ : ∃ mark tail, cs.drop n = mark :: tail := by
    cases hd : cs.drop n with
    | nil => rw [hd] at hmark; cases hmark
    | cons mark tail => exact ⟨mark, tail, rfl⟩
  have isMark : mark = 'e' ∨ mark = 'E' := by simpa [htail, atMark] using hmark
  have hsign := signBefore_take tail
  generalize hs : tail.take (signLength tail) = sign at hsign
  generalize hr : tail.drop (signLength tail) = rest at hsign
  have htext : cs = m ++ mark :: (sign ++ rest) := by
    rw [← hs, ← hr, List.take_append_drop, ← htail, hsplit]
  rw [htext, ← hlength, withExponent_of_mark isMark hsign] at h
  split at h
  · rename_i hzero
    cases h
    exact .emptyExponent hlongest isMark hsign (digitsLength_eq_zero_iff.mp hzero) htext
  · rename_i hpos
    split at h <;> cases h
    rename_i hpoint
    have hdigits : (rest.take (digitsLength rest)).length = digitsLength rest := by
      rw [List.length_take, Nat.min_eq_left (plain_digits rest).1]
    have hnonempty : rest.take (digitsLength rest) ≠ [] := by
      rw [← List.length_pos_iff, hdigits]
      omega
    have hexponent : cs = m ++ mark :: (sign ++ (rest.take (digitsLength rest) ++
        '.' :: rest.drop (digitsLength rest + 1))) := by
      rw [← drop_of_atPoint hpoint, List.take_append_drop]
      exact htext
    have hfault := Malformed.pointInExponent hlongest isMark (hs ▸ take_signLength tail)
      (digits_take rest) hnonempty hexponent
    rwa [hdigits] at hfault

/-- **Where and why measuring fails.** -/
theorem length?_eq_error_iff {distance : Nat} {cause : Cause} :
    length? cs = .error (distance, cause) ↔ Malformed cs distance cause := by
  constructor
  · intro h
    obtain ⟨begins, hm | ⟨m, hm, hx⟩⟩ := starts_of_error h
    · exact malformed_of_mantissaLength begins hm
    · exact malformed_of_withExponent begins hm hx
  · intro h
    -- a mantissa is there, so that the longest one is measured
    have hbegins : ∀ {m : List Char}, IsLongest Mantissa m cs → starts cs = true := by
      rintro m ⟨⟨rest, rfl⟩, hm, -⟩
      exact hm.starts_append rest
    cases h with
    | @secondPoint m rest longest text =>
      have begins := hbegins longest
      have hlength := longest.length_eq (isLongest_mantissa begins)
      rw [length_take_reached] at hlength
      simp only [length?, begins, if_true]
      cases hm : mantissaLength cs with
      | ok k =>
        have hk : m.length = k := by rwa [hm] at hlength
        have hhalts := halts_of_mantissaLength hm
        rw [← hk, text, List.drop_left] at hhalts
        exact absurd rfl (hhalts '.' rfl).2
      | error fault =>
        have hfault : fault.2 = .secondPoint := by
          simp only [mantissaLength] at hm
          split at hm
          · split at hm <;> cases hm
            rfl
          · cases hm
        have hdistance : m.length = fault.1 := by rwa [hm] at hlength
        rw [hdistance, ← hfault]
    | emptyExponent longest isMark isSign noDigit text =>
      have begins := hbegins longest
      have hm := longest.isKind.mantissaLength_of_mark isMark
      rw [text] at begins ⊢
      simp only [length?, begins, if_true, hm, withExponent_of_mark isMark isSign,
        if_pos (digitsLength_eq_zero_iff.mpr noDigit)]
      rfl
    | @pointInExponent m sign ds rest mark longest isMark isSign digits nonempty text =>
      have begins := hbegins longest
      have hm := longest.isKind.mantissaLength_of_mark isMark
      have hhead : ∀ c ∈ ('.' :: rest).head?, Text.isDigit c = false := by
        simp only [List.head?_cons, Option.mem_some_iff, forall_eq']
        decide
      have hdigits : digitsLength (ds ++ '.' :: rest) = ds.length :=
        digitsLength_append digits hhead
      have hpos : ¬ ds.length = 0 := fun h => nonempty (List.length_eq_zero_iff.mp h)
      rw [text] at begins ⊢
      simp only [length?, begins, if_true, hm,
        withExponent_of_mark isMark (signBefore_digits isSign digits nonempty _), hdigits,
        if_neg hpos, List.drop_left]
      rfl

/-! ## Measuring bytes -/

section SameStart

/-- Texts that begin alike have the same digits in front, and go on alike. -/
theorem digits_of_sameStart (h : SameStart cs ds) :
    digitsLength cs = digitsLength ds ∧
      SameStart (cs.drop (digitsLength cs)) (ds.drop (digitsLength cs)) := by
  have hzero : ∀ {l : List Char}, (∀ c ∈ l.head?, Foreign c) → digitsLength l = 0 := fun hl =>
    digitsLength_eq_zero_iff.mpr fun c hc => isDigit_of_foreign (hl c hc)
  induction h with
  | foreign left right =>
    rw [hzero left, hzero right]
    exact ⟨rfl, .foreign left right⟩
  | @cons c cs ds rest ih =>
    by_cases hc : Text.isDigit c = true
    · have hsucc : ∀ l : List Char, digitsLength (c :: l) = digitsLength l + 1 := fun l => by
        simp [digitsLength, hc]
      rw [hsucc, hsucc, ← ih.1]
      exact ⟨rfl, ih.2⟩
    · have hnone : ∀ l : List Char, digitsLength (c :: l) = 0 := fun l => by
        simp [digitsLength, hc]
      rw [hnone, hnone]
      exact ⟨rfl, .cons c rest⟩

/-- And so it is with a sign in front. -/
theorem sign_of_sameStart (h : SameStart cs ds) :
    signLength cs = signLength ds ∧
      SameStart (cs.drop (signLength cs)) (ds.drop (signLength cs)) := by
  refine ⟨?_, ?_⟩
  · rw [signLength, signLength, h.head?_beq (by decide), h.head?_beq (by decide)]
  · unfold signLength
    split
    · rename_i hs
      rcases Bool.or_eq_true_iff.mp hs with hs | hs <;>
        exact h.drop_one (by decide) (eq_of_beq hs)
    · exact h

theorem atPoint_of_sameStart (h : SameStart cs ds) : atPoint cs = atPoint ds :=
  h.head?_beq (by decide)

theorem starts_of_sameStart (h : SameStart cs ds) : starts cs = starts ds := by
  have hhead : ∀ l : List Char, (l.head?.map Text.isDigit).getD false = !(digitsLength l == 0) := by
    intro l
    cases l with
    | nil => rfl
    | cons c l => cases hc : Text.isDigit c <;> simp [digitsLength, hc]
  have hforeign : ∀ {l : List Char}, (∀ c ∈ l.head?, Foreign c) → starts l = false := by
    intro l hl
    cases l with
    | nil => rfl
    | cons c l =>
      have hc := hl c rfl
      have hpoint : c ≠ '.' := by
        rintro rfl
        exact absurd hc (by decide)
      simp [starts, isDigit_of_foreign hc, hpoint]
  cases h with
  | foreign left right => rw [hforeign left, hforeign right]
  | cons c rest => rw [starts, starts, hhead, hhead, (digits_of_sameStart rest).1]

theorem mantissaLength_of_sameStart (h : SameStart cs ds) :
    mantissaLength cs = mantissaLength ds ∧
      ∀ m, mantissaLength cs = .ok m → SameStart (cs.drop m) (ds.drop m) := by
  obtain ⟨hwhole, hafter⟩ := digits_of_sameStart h
  have hpoint := atPoint_of_sameStart hafter
  simp only [mantissaLength, ← hwhole, ← hpoint]
  split
  · rename_i hat
    have hfraction := hafter.drop_one (by decide) (eq_of_beq hat)
    rw [List.drop_drop, List.drop_drop] at hfraction
    obtain ⟨hdigits, hend⟩ := digits_of_sameStart hfraction
    rw [List.drop_drop, List.drop_drop] at hend
    rw [← hdigits, ← atPoint_of_sameStart hend]
    refine ⟨rfl, fun m hm => ?_⟩
    split at hm <;> cases hm
    exact hend
  · refine ⟨rfl, fun m hm => ?_⟩
    cases hm
    exact hafter

theorem withExponent_of_sameStart (h : SameStart (cs.drop m) (ds.drop m)) :
    withExponent cs m = withExponent ds m := by
  have hmark : atMark (cs.drop m) = atMark (ds.drop m) := by
    rw [atMark, atMark, h.head?_beq (by decide), h.head?_beq (by decide)]
  simp only [withExponent, ← hmark]
  split
  · rename_i hat
    have hsigned : SameStart (cs.drop (m + 1)) (ds.drop (m + 1)) := by
      rw [← List.drop_drop, ← List.drop_drop]
      rcases Bool.or_eq_true_iff.mp hat with hat | hat <;>
        exact h.drop_one (by decide) (eq_of_beq hat)
    obtain ⟨hsign, hstart⟩ := sign_of_sameStart hsigned
    rw [List.drop_drop, List.drop_drop] at hstart
    obtain ⟨hdigits, hend⟩ := digits_of_sameStart hstart
    rw [List.drop_drop, List.drop_drop] at hend
    rw [← hsign, ← hdigits, ← atPoint_of_sameStart hend]
  · rfl

/-- Texts that begin alike have the same numeral in front. -/
theorem length?_of_sameStart (h : SameStart cs ds) : length? cs = length? ds := by
  obtain ⟨hmantissa, hafter⟩ := mantissaLength_of_sameStart h
  rw [length?, length?, ← starts_of_sameStart h, ← hmantissa]
  split
  · cases hm : mantissaLength cs with
    | error fault => rfl
    | ok m => simp only [withExponent_of_sameStart (hafter m hm)]
  · rfl

end SameStart

/-- **Measuring from an offset on is measuring the bytes from there on,** wherever the offset is. -/
theorem stop?_eq_octets (source : String) (start : Nat) :
    stop? source start =
      match length? ((octets source).drop start) with
      | .error (distance, cause) => .error ⟨start + distance, cause⟩
      | .ok length => .ok (length.map (start + ·)) := by
  rw [stop?, octets_eq_spread]
  cases hsplit : splitAtByte? source.toList start with
  | none =>
    have hforeign := foreign_of_splitAtByte? hsplit
    have hnil : length? [] = .ok none := rfl
    have hnone : length? ((spread source.toList).drop start) = .ok none :=
      (length?_of_sameStart (.foreign hforeign (by simp))).trans hnil
    simp only [hnone, Option.map_none]
  | some cut =>
    obtain ⟨before, after⟩ := cut
    have hbytes : length? ((spread source.toList).drop start) = length? after := by
      rw [drop_spread hsplit, ← length?_of_sameStart (sameStart_spread after)]
    rcases hlength : length? after with ⟨distance, cause⟩ | length <;>
      simp only [hbytes, hlength]

/-- A numeral that is found is what stands between its ends. -/
theorem slice?_of_stop? {source : String} {start stop : Nat}
    (h : stop? source start = .ok (some stop)) :
    ∃ text rest, Text.slice? source.toList start stop = some text ∧
      (octets source).drop start = text ++ rest ∧ stop = start + text.length ∧
      length? (text ++ rest) = .ok (some text.length) := by
  unfold stop? at h
  cases hsplit : splitAtByte? source.toList start with
  | none => simp [hsplit] at h
  | some cut =>
    obtain ⟨before, after⟩ := cut
    simp only [hsplit] at h
    obtain ⟨n, hn, rfl⟩ : ∃ n, length? after = .ok (some n) ∧ start + n = stop := by
      split at h
      · cases h
      · rename_i length hlength
        obtain ⟨n, rfl, hstop⟩ := Option.map_eq_some_iff.mp (Except.ok.inj h)
        exact ⟨n, hlength, hstop⟩
    obtain ⟨htext, hbytes⟩ := splitAtByte?_eq_some hsplit
    have hplain := Lexeme.utf8Size_of_mem_literal (literal_of_length? hn)
    have hlength : (after.take n).length = n := by
      rw [List.length_take, Nat.min_eq_left (length_le_of_length? hn)]
    have hoctets : spread after = after.take n ++ spread (after.drop n) := by
      conv_lhs => rw [← List.take_append_drop n after]
      rw [spread_append, spread_of_plain hplain]
    have hslice := Text.slice?_append before (after.take n) (after.drop n)
    rw [List.take_append_drop, ← htext, hbytes, byteLength_eq_length hplain, hlength] at hslice
    refine ⟨after.take n, spread (after.drop n), hslice, ?_, by rw [hlength], ?_⟩
    · rw [octets_eq_spread, drop_spread hsplit, hoctets]
    · rw [← hoctets, ← length?_of_sameStart (sameStart_spread after), hn, hlength]

theorem getElem?_of_drop {cs text rest : List Char} {start : Nat}
    (h : cs.drop start = text ++ rest) : cs[start + text.length]? = rest.head? := by
  rw [← List.getElem?_drop, h, List.getElem?_append_right (Nat.le_refl _), Nat.sub_self,
    List.head?_eq_getElem?]

/-- **The end of a numeral.**  In any text and at any byte, also past the end or inside of a
character, in this order:

* there is no numeral exactly if no beginning of the bytes from there on is a literal,
* a numeral that is found is what stands between its ends, and it is the longest beginning that is a
  literal; no point follows it, nor does a mark if it has no exponent,
* there is an error exactly if the longest mantissa is followed by a point, or by a mark, perhaps a
  sign and no digit, or by an exponent with a point after it.  The error is at that point, or right
  after the mark or the sign. -/
theorem stop?_decides (source : String) (start : Nat) :
    (stop? source start = .ok none ↔
      ∀ p, p <+: (octets source).drop start → p ≠ [] → ¬ Literal p) ∧
    (∀ stop, stop? source start = .ok (some stop) →
      ∃ text, Text.slice? source.toList start stop = some text ∧ stop = start + text.length ∧
        IsLongest Literal text ((octets source).drop start) ∧
        (octets source)[stop]? ≠ some '.' ∧
        (Mantissa text → (octets source)[stop]? ≠ some 'e' ∧ (octets source)[stop]? ≠ some 'E')) ∧
    ∀ position cause, stop? source start = .error ⟨position, cause⟩ ↔
      ∃ distance, position = start + distance ∧
        Malformed ((octets source).drop start) distance cause := by
  refine ⟨?_, fun stop h => ?_, fun position cause => ?_⟩
  · have hnone : stop? source start = .ok none ↔
        length? ((octets source).drop start) = .ok none := by
      rw [stop?_eq_octets]
      split
      · simp_all
      · rename_i hlength
        simp [hlength]
    rw [hnone, length?_eq_none_iff]
    exact ⟨fun h p hp _ => h p hp, fun h p hp hl => h p hp hl.getLast.1 hl⟩
  · obtain ⟨text, rest, hslice, hoctets, rfl, hlength⟩ := slice?_of_stop? h
    have hlongest := isLongest_of_length? hlength
    have hends := ends_of_length? hlength
    rw [List.take_left] at hlongest hends
    rw [List.drop_left] at hends
    rw [getElem?_of_drop hoctets]
    refine ⟨text, hslice, rfl, hoctets ▸ hlongest, fun hpoint => (hends.halts '.' hpoint).2 rfl, ?_⟩
    intro hm
    constructor <;> intro hmark
    · obtain ⟨d, hd, hd'⟩ := hends.marked 'e' hmark (.inl rfl)
      exact hm.unmarked d hd hd'
    · obtain ⟨d, hd, hd'⟩ := hends.marked 'E' hmark (.inr rfl)
      exact hm.unmarked d hd hd'
  · rw [stop?_eq_octets]
    constructor
    · intro h
      split at h
      · rename_i distance _ hlength
        cases h
        exact ⟨distance, rfl, length?_eq_error_iff.mp hlength⟩
      · cases h
    · rintro ⟨distance, rfl, hmalformed⟩
      simp only [length?_eq_error_iff.mpr hmalformed]

end Numeral
end Formula
