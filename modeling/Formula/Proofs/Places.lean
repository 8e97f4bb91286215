import Formula.Proofs.ViablePrefix

/-!
# Where tokens stand

A token carries a byte offset, and an error of the scanner a byte position.  The scanner works on
characters and only counts bytes.  Here the offsets are read back into the text.

* `slice?_token`: the text between the two ends of a token is the spelling of its lexeme.  Both ends
  lie between two characters, which a slice of bytes needs.
* `ofOffset?_token`: how a sign is read at the offset of a token, looked up in the characters before
  it, is what the scanner recorded when it passed.
* `scan_error`: where a text stops being scanned, everything before is spelled by the tokens, and
  each of them ends at or before the position of the error.  Where nothing is wrong, the end of the
  text is reached (`offset_of_scan`).
-/

namespace Formula

/-! ## Slices -/

namespace Text

/-- The characters between two byte offsets.  There is a slice only if both offsets are inside the
text and between two characters, and in order. -/
def slice? (cs : List Char) (start stop : Nat) : Option (List Char) :=
  match splitAtByte? cs start with
  | none => none
  | some (_, rest) =>
    if start ≤ stop then (splitAtByte? rest (stop - start)).map Prod.fst else none

theorem slice?_append (before middle after : List Char) :
    slice? (before ++ (middle ++ after)) (byteLength before)
      (byteLength before + byteLength middle) = some middle := by
  simp only [slice?, splitAtByte?_append, if_pos (Nat.le_add_right _ _), Nat.add_sub_cancel_left,
    Option.map_some]

end Text

variable {source : String} {u v : List Token} {t : Token}

/-- The text of a token, with what stands before and after it. -/
theorem exists_text_of_mem (ht : t ∈ (scan source).tokens) :
    ∃ before after, source.toList = before ++ (t.text.toList ++ after) ∧
      t.offset = Text.byteLength before ∧ t.stop = Text.byteLength before +
        Text.byteLength t.text.toList := by
  obtain ⟨u, v, htokens⟩ := List.append_of_mem ht
  obtain ⟨cs, after, htext, hspells, hoffset, -⟩ := scan_split htokens
  have hbytes : t.offset = Text.byteLength cs := hoffset.trans hspells.byteLength.symm
  exact ⟨cs, after, htext, hbytes, by rw [Token.stop, hbytes, Text.utf8ByteSize_eq]⟩

/-- **Between the ends of a token stands its lexeme.** -/
theorem slice?_token (ht : t ∈ (scan source).tokens) :
    Text.slice? source.toList t.offset t.stop = some t.text.toList := by
  obtain ⟨before, after, htext, hoffset, hstop⟩ := exists_text_of_mem ht
  rw [htext, hoffset, hstop]
  exact Text.slice?_append before _ after

/-! ## How a sign is read -/

theorem Lexeme.not_separates_of_mem {l : Lexeme} {s : String} {c : Char}
    (h : l.Stands none) (hl : l = .number s ∨ l = .name s) (hc : l.text.toList.getLast? = some c) :
    Lexeme.separates c = false := by
  have hoperand : ∀ {d : Char}, Text.isNameChar d = true ∨ d = '.' → separates d = false := by
    rintro d (hd | rfl)
    · simp [separates, hd]
    · decide
  rcases hl with rfl | rfl
  · have hliteral : Numeral.Literal s.toList := h.literal
    exact hoperand ((hliteral.getLast.2 c hc).imp_left Text.isNameChar_of_isDigit)
  · obtain ⟨hname, -⟩ := h
    have hmem : c ∈ s.toList := List.mem_of_mem_getLast? hc
    cases hs : s.toList with
    | nil => rw [hs] at hmem; cases hmem
    | cons d ds =>
      rw [hs] at hname hmem
      obtain ⟨halpha, hall⟩ := Bool.and_eq_true_iff.mp hname
      refine hoperand (.inl ?_)
      rcases List.mem_cons.mp hmem with rfl | hm
      · simp [Text.isNameChar, Char.isAlphanum, halpha]
      · exact List.all_eq_true.mp hall c hm

/-- The last character of a lexeme is not blank. -/
theorem Lexeme.isBlank_of_getLast {l : Lexeme} {c : Char} (h : l.Stands none)
    (hc : l.text.toList.getLast? = some c) : Text.isBlank c = false := by
  have hsingle : ∀ d : Char, [d].getLast? = some c → Text.isBlank d = false →
      Text.isBlank c = false := by
    rintro d hd hblank
    cases hd
    exact hblank
  have hoperand : separates c = false → Text.isBlank c = false := by
    intro hsep
    rw [Bool.eq_false_iff]
    intro hblank
    rw [separates_of_isBlank hblank] at hsep
    cases hsep
  cases l with
  | number s => exact hoperand (not_separates_of_mem h (.inl rfl) hc)
  | name s => exact hoperand (not_separates_of_mem h (.inr rfl) hc)
  | operator op => exact hsingle op.symbol (by cases op <;> exact hc) (by cases op <;> decide)
  | openParen => exact hsingle '(' hc (by decide)
  | closeParen => exact hsingle ')' hc (by decide)
  | comma => exact hsingle ',' hc (by decide)

/-- The last character of a lexeme decides how a sign is read after it. -/
theorem Lexeme.after_getLast {l : Lexeme} (h : l.Stands none) :
    ∃ c, l.text.toList.getLast? = some c ∧ Text.isBlank c = false ∧
      SignContext.after (some c) = .afterLexeme (some l) := by
  have hnone : l.Stands ([] : List Char).head? := h
  obtain ⟨c, cs, htext, hread⟩ := read_text hnone
  have hafter := after_of_read hread
  rw [List.append_nil, List.take_length, ← htext] at hafter
  obtain ⟨d, hd⟩ : ∃ d, l.text.toList.getLast? = some d :=
    ⟨_, List.getLast?_eq_some_getLast (by rw [htext]; exact List.cons_ne_nil c cs)⟩
  rw [hd] at hafter
  exact ⟨d, hd, isBlank_of_getLast h hd, hafter⟩

/-- The nearest character that is not blank, looking back from a place. -/
def nearest? (before : List Char) : Option Char := before.reverse.find? fun c => !Text.isBlank c

theorem nearest?_append (u w : List Char) : nearest? (u ++ w) = (nearest? w).or (nearest? u) := by
  rw [nearest?, List.reverse_append, List.find?_append]
  rfl

theorem nearest?_of_getLast {cs : List Char} {c : Char} (hc : cs.getLast? = some c)
    (hblank : Text.isBlank c = false) : nearest? cs = some c := by
  obtain ⟨init, rfl⟩ := List.getLast?_eq_some_iff.mp hc
  simp [nearest?, hblank]

/-- Looking back from the end of spelled lexemes, the nearest character is that of the last lexeme,
if there is one. -/
theorem Spells.nearest? {cs rest : List Char} {ls : List Lexeme} (h : Spells cs ls rest) :
    (ls = [] → nearest? cs = none) ∧ ∀ l, ls.getLast? = some l →
      ∃ c, nearest? cs = some c ∧ SignContext.after (some c) = .afterLexeme (some l) := by
  induction h with
  | nil => exact ⟨fun _ => rfl, by simp⟩
  | @blank c cs ls rest isBlank more ih =>
    have hskip : Formula.nearest? (c :: cs) = Formula.nearest? cs := by
      rw [← List.singleton_append, nearest?_append]
      simp [Formula.nearest?, isBlank]
    rw [hskip]
    exact ih
  | @lexeme l cs ls rest stands more ih =>
    refine ⟨fun hnil => absurd hnil (List.cons_ne_nil l ls), fun m hm => ?_⟩
    rw [nearest?_append]
    cases ls with
    | nil =>
      cases hm
      obtain ⟨c, hc, hblank, hafter⟩ := Lexeme.after_getLast stands.none
      rw [ih.1 rfl, nearest?_of_getLast hc hblank]
      exact ⟨c, rfl, hafter⟩
    | cons l' ls =>
      rw [List.getLast?_cons_cons] at hm
      obtain ⟨c, hc, hafter⟩ := ih.2 m hm
      rw [hc]
      exact ⟨c, rfl, hafter⟩

/-- How a sign is read at a token is decided by the last lexeme before it. -/
theorem Token.Signed.sign_eq {previous : Option Lexeme} (h : Token.Signed previous (u ++ t :: v)) :
    t.sign = .afterLexeme ((u.map (·.lexeme)).getLast?.or previous) := by
  induction u generalizing previous with
  | nil => exact h.1
  | cons t₀ u ih =>
    rw [ih h.2, List.map_cons, List.getLast?_cons]
    cases (u.map (·.lexeme)).getLast? <;> rfl

/-- **How a sign is read at a token can be looked up in the text before it.** -/
theorem ofOffset?_token (ht : t ∈ (scan source).tokens) :
    SignContext.ofOffset? source t.offset = some t.sign := by
  obtain ⟨u, v, htokens⟩ := List.append_of_mem ht
  obtain ⟨cs, after, htext, hspells, hoffset, -⟩ := scan_split htokens
  have hsign : t.sign = .afterLexeme (u.map (·.lexeme)).getLast? := by
    have hsigned := scan_signed source
    rw [htokens] at hsigned
    rw [hsigned.sign_eq, Option.or_none]
  have hafter : SignContext.after (nearest? cs) = t.sign := by
    obtain ⟨hnone, hsome⟩ := hspells.nearest?
    rw [hsign]
    cases hlast : (u.map (·.lexeme)).getLast? with
    | none =>
      rw [hnone (List.getLast?_eq_none_iff.mp hlast)]
      rfl
    | some l =>
      obtain ⟨c, hc, hl⟩ := hsome l hlast
      rw [hc, hl]
  unfold SignContext.ofOffset?
  rw [htext, hoffset, ← hspells.byteLength, Text.splitAtByte?_append]
  exact congrArg some hafter

/-! ## Where scanning stops -/

theorem Token.stop_eq {next : Option Char} (h : t.lexeme.Stands next) :
    t.stop = t.offset + t.text.toList.length := by
  have hbytes : Text.byteLength t.text.toList = t.text.toList.length :=
    Text.byteLength_eq_length h.utf8Size
  rw [Token.stop, Text.utf8ByteSize_eq, hbytes]

namespace Cursor

/-- A text that stops being scanned is spelled up to the lexeme that cannot be read. -/
theorem scanOnto_error {k : Cursor} {seen ts : List Token} {e : SourceError}
    (h : (k.scanOnto seen).tokens = seen.reverse ++ ts)
    (hend : (k.scanOnto seen).ending = .error e) :
    ∃ cs c after distance, k.rest = cs ++ c :: after ∧
      Spells cs (ts.map (·.lexeme)) (c :: after) ∧
      Lexeme.read c after = .error (distance, e.cause) ∧
      e.position = k.offset + cs.length + distance ∧ ∀ t ∈ ts, t.stop ≤ k.offset + cs.length := by
  induction k, seen using scanOnto.induct generalizing ts with
  | case1 k seen e' hk =>
    rw [scanOnto_of_error hk] at h hend
    obtain rfl : ts = [] := by simpa using h
    cases hend
    have hsplit : k.rest.takeWhile Text.isBlank ++ k.skipBlanks.rest = k.rest :=
      List.takeWhile_append_dropWhile
    simp only [next] at hk
    split at hk
    · cases hk
    · rename_i c after hrest
      split at hk
      · rename_i distance cause hread
        cases hk
        rw [hrest] at hsplit
        exact ⟨_, c, after, distance, hsplit.symm,
          .blanks (fun c hc => List.mem_takeWhile_imp hc) _, hread, rfl, by simp⟩
      · cases hk
  | case2 k seen hk => simp [scanOnto_of_none hk] at hend
  | case3 k seen t k' hk ih =>
    rw [scanOnto_of_some hk] at h hend
    obtain ⟨us, hus⟩ := exists_tokens k' (t :: seen)
    obtain ⟨bs, -, hbs, hrest, hstands, hoffset, hoffset'⟩ := spells_of_next hk
    obtain ⟨cs, c, after, distance, hrest', hspells, hread, hposition, hstops⟩ := ih hus hend
    rw [hus, List.reverse_cons, List.append_assoc] at h
    obtain rfl : ts = t :: us := (List.append_cancel_left h).symm
    have hlength : k'.offset + cs.length = k.offset + (bs ++ (t.text.toList ++ cs)).length := by
      rw [hoffset', hoffset]
      simp only [List.length_append]
      omega
    refine ⟨bs ++ (t.text.toList ++ cs), c, after, distance, ?_, ?_, hread, ?_, ?_⟩
    · rw [hrest, hrest']
      simp
    · refine Spells.trans (Spells.blanks hbs _) (.lexeme ?_ hspells)
      rwa [← hrest']
    · rw [hposition, hlength]
    · rw [← hlength]
      refine List.forall_mem_cons.mpr ⟨?_, hstops⟩
      rw [Token.stop_eq hstands]
      omega

end Cursor

/-- **Where scanning stops.**  The text before is spelled by the tokens, which end there at the
latest, and no lexeme can be read. -/
theorem scan_error {e : SourceError} (h : (scan source).ending = .error e) :
    ∃ cs c after distance, source.toList = cs ++ c :: after ∧
      Spells cs (lexemes source) (c :: after) ∧ Lexeme.read c after = .error (distance, e.cause) ∧
      e.position = cs.length + distance ∧ ∀ t ∈ (scan source).tokens, t.stop ≤ cs.length := by
  have htokens : ((Cursor.start source).scanOnto []).tokens =
      [].reverse ++ (scan source).tokens := rfl
  obtain ⟨cs, c, after, distance, htext, hspells, hread, hposition, hstops⟩ :=
    Cursor.scanOnto_error htokens h
  simp only [Cursor.start, Nat.zero_add] at hposition hstops
  exact ⟨cs, c, after, distance, htext, hspells, hread, hposition, hstops⟩

/-- Scanning ends at the end of the text. -/
theorem offset_of_scan {offset : Nat} (h : (scan source).ending = .ok offset) :
    offset = source.utf8ByteSize := by
  obtain ⟨hspells, hoffset⟩ := spells_of_scan h
  rw [Text.utf8ByteSize_eq, hspells.byteLength, hoffset]

/-- The slice at the end of a text exists, and nothing stands there. -/
theorem slice?_end (source : String) :
    Text.slice? source.toList source.utf8ByteSize source.utf8ByteSize = some [] := by
  have hslice := Text.slice?_append source.toList [] []
  rwa [List.append_nil, List.append_nil, Text.byteLength, Nat.add_zero,
    ← Text.utf8ByteSize_eq] at hslice

/-- A character that no lexeme begins with is the one at the position of the error. -/
theorem splitAtByte?_illegal {position : Nat} {c : Char}
    (h : (scan source).ending = .error ⟨position, .illegalCharacter c⟩) :
    ∃ before after, Text.splitAtByte? source.toList position = some (before, c :: after) := by
  obtain ⟨cs, d, after, distance, htext, hspells, hread, hposition, -⟩ := scan_error h
  have hillegal : distance = 0 ∧ d = c := by
    simp only [Lexeme.read] at hread
    split at hread
    · rename_i hn
      cases hread
      simpa using Numeral.cause_of_length? hn
    · cases hread
    · split at hread
      · cases hread
      · split at hread <;> cases hread
        exact ⟨rfl, rfl⟩
  obtain ⟨rfl, rfl⟩ := hillegal
  have hplace : position = Text.byteLength cs := hposition.trans hspells.byteLength.symm
  exact ⟨cs, after, by rw [htext, hplace, Text.splitAtByte?_append]⟩

end Formula
