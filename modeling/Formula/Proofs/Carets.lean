import Formula.CommandLine
import Formula.Proofs.Refusals

/-!
# Errors point into the text

An error carries a byte position.  The command line shows it by a caret under a character, for which
the text is cut at the position; a cut past the end or inside a character would fail.

Positions come from three sources.

* Errors of the parser are at the ends of tokens, or at the end of the text.  There the text is cut
  into spelled lexemes (`exists_text_of_mem`).
* An illegal character is reported where it begins, after spelled lexemes.
* A malformed numeral is reported at a distance from its start.  `Text.Plain` says that the
  characters on the way there exist and have one byte each, so that counting characters comes to the
  same as counting bytes.  It is enough to see it of each part that is measured.

That a position is between two characters is the library's `String.Pos.Raw.IsValid`.
-/

namespace Formula

/-! ## Characters of one byte -/

namespace Text

/-- A text begins with `n` characters of one byte each. -/
def Plain (cs : List Char) (n : Nat) : Prop := n ≤ cs.length ∧ ∀ c ∈ cs.take n, c.utf8Size = 1

theorem plain_zero (cs : List Char) : Plain cs 0 := ⟨Nat.zero_le _, by simp⟩

/-- One part after another. -/
theorem Plain.add {cs : List Char} {m n : Nat} (h : Plain cs m) (h' : Plain (cs.drop m) n) :
    Plain cs (m + n) := by
  have hlength := h'.1
  rw [List.length_drop] at hlength
  refine ⟨by have := h.1; omega, fun c hc => ?_⟩
  rw [List.take_add] at hc
  rcases List.mem_append.mp hc with hc | hc
  · exact h.2 c hc
  · exact h'.2 c hc

theorem Plain.byteLength {cs : List Char} {n : Nat} (h : Plain cs n) :
    byteLength (cs.take n) = n := by
  rw [byteLength_eq_length h.2, List.length_take, Nat.min_eq_left h.1]

/-- One character. -/
theorem plain_one {cs : List Char} {c : Char} (h : cs.head? = some c) (hc : c.utf8Size = 1) :
    Plain cs 1 := by
  cases cs with
  | nil => cases h
  | cons d cs =>
    cases h
    exact ⟨Nat.le_add_left 1 _, by simpa using hc⟩

end Text

namespace Numeral

open Text

theorem plain_digits (cs : List Char) : Plain cs (digitsLength cs) :=
  ⟨(List.takeWhile_prefix Text.isDigit).length_le,
    fun d hd => Lexeme.utf8Size_of_isDigit (digits_take cs d hd)⟩

theorem plain_point {cs : List Char} (h : atPoint cs = true) : Plain cs 1 :=
  plain_one (eq_of_beq h) (by decide)

theorem plain_mark {cs : List Char} (h : atMark cs = true) : Plain cs 1 := by
  rcases Bool.or_eq_true_iff.mp h with h | h <;> exact plain_one (eq_of_beq h) (by decide)

theorem plain_sign (cs : List Char) : Plain cs (signLength cs) := by
  unfold signLength
  split
  · rename_i h
    rcases Bool.or_eq_true_iff.mp h with h | h <;> exact plain_one (eq_of_beq h) (by decide)
  · exact plain_zero cs

/-- How far a numeral is measured, to its end or to a fault. -/
def reached : Except Fault Nat → Nat
  | .ok n => n
  | .error fault => fault.1

theorem plain_mantissaLength (cs : List Char) : Plain cs (reached (mantissaLength cs)) := by
  have hwhole := plain_digits cs
  simp only [mantissaLength]
  split
  · rename_i hpoint
    have hlength := (hwhole.add (plain_point hpoint)).add (plain_digits _)
    split <;> exact hlength
  · exact hwhole

theorem plain_withExponent {cs : List Char} {m : Nat} (hm : Plain cs m) :
    Plain cs (reached (withExponent cs m)) := by
  simp only [withExponent]
  split
  · rename_i hmark
    have hstart := (hm.add (plain_mark hmark)).add (plain_sign _)
    have hdigits := hstart.add (plain_digits _)
    split
    · exact hstart
    · split <;> exact hdigits
  · exact hm

/-- A fault in a numeral is found behind characters of one byte. -/
theorem plain_of_length? {cs : List Char} {distance : Nat} {cause : Cause}
    (h : length? cs = .error (distance, cause)) : Plain cs distance := by
  have hmantissa := plain_mantissaLength cs
  unfold length? at h
  split at h
  · split at h
    · rename_i fault hm
      cases h
      rwa [hm] at hmantissa
    · rename_i m hm
      have hmeasured : Plain cs m := by rwa [hm] at hmantissa
      have hexponent := plain_withExponent hmeasured
      cases hx : withExponent cs m with
      | ok n =>
        rw [hx] at h
        cases h
      | error fault =>
        rw [hx] at h hexponent
        cases h
        exact hexponent
  · cases h

end Numeral

/-- What cannot be read as a lexeme is reported behind characters of one byte. -/
theorem Lexeme.plain_of_read {c : Char} {cs : List Char} {distance : Nat} {cause : Cause}
    (h : read c cs = .error (distance, cause)) : Text.Plain (c :: cs) distance := by
  unfold read at h
  split at h
  · rename_i hn
    cases h
    exact Numeral.plain_of_length? hn
  · cases h
  · split at h
    · cases h
    · split at h <;> cases h
      exact Text.plain_zero _

/-! ## Places between characters -/

namespace Text

theorem byteLength_append (cs ds : List Char) :
    byteLength (cs ++ ds) = byteLength cs + byteLength ds := by
  induction cs with
  | nil => exact (Nat.zero_add _).symm
  | cons c cs ih => rw [List.cons_append, byteLength, byteLength, ih, Nat.add_assoc]

/-- A byte position of a text that is between two characters, or at one of its ends. -/
def Cut (cs : List Char) (position : Nat) : Prop :=
  ∃ before after, cs = before ++ after ∧ byteLength before = position

theorem cut_zero (cs : List Char) : Cut cs 0 := ⟨[], cs, rfl, rfl⟩

theorem cut_end (source : String) : Cut source.toList source.utf8ByteSize :=
  ⟨source.toList, [], (List.append_nil _).symm, (utf8ByteSize_eq source).symm⟩

theorem utf8ByteSize_ofList (cs : List Char) :
    (String.ofList cs).utf8ByteSize = byteLength cs := by
  rw [utf8ByteSize_eq, String.toList_ofList]

theorem eq_append_of_toList {source : String} {before after : List Char}
    (h : source.toList = before ++ after) : source = .ofList before ++ .ofList after := by
  rw [← String.ofList_append, ← h, String.ofList_toList]

/-- The library's notion of a position that is valid. -/
theorem Cut.isValid {source : String} {position : Nat} (h : Cut source.toList position) :
    String.Pos.Raw.IsValid source ⟨position⟩ := by
  obtain ⟨before, after, htext, hbytes⟩ := h
  refine String.Pos.Raw.isValid_iff_exists_append.mpr
    ⟨.ofList before, .ofList after, eq_append_of_toList htext, ?_⟩
  rw [String.Pos.Raw.ext_iff]
  show position = (String.ofList before).utf8ByteSize
  rw [utf8ByteSize_ofList, hbytes]

end Text

open Text

variable {scope : Scope} {source : String} {e : SourceError}

/-- Both ends of a token are between characters. -/
theorem cut_of_mem_scan {t : Token} (ht : t ∈ (scan source).tokens) :
    Cut source.toList t.offset ∧ Cut source.toList t.stop := by
  obtain ⟨before, after, htext, hoffset, hstop⟩ := exists_text_of_mem ht
  refine ⟨⟨before, _, htext, hoffset.symm⟩, ⟨before ++ t.text.toList, after, ?_, ?_⟩⟩
  · rw [htext, List.append_assoc]
  · rw [byteLength_append, hstop]

/-- What the scanner reports is between characters. -/
theorem cut_of_scan_error (h : (scan source).ending = .error e) :
    Cut source.toList e.position := by
  obtain ⟨cs, c, after, distance, htext, hspells, hread, hposition, -⟩ := scan_error h
  have hplain := Lexeme.plain_of_read hread
  refine ⟨cs ++ (c :: after).take distance, (c :: after).drop distance, ?_, ?_⟩
  · rw [htext, List.append_assoc, List.take_append_drop]
  · rw [byteLength_append, hspells.byteLength, hplain.byteLength, hposition]

/-- A place of the parser is between characters, if the place that it has come to is. -/
theorem cut_of_site {u v : List Token} {s : Parser.State} {o : Outline} {here position : Nat}
    (htokens : (scan source).tokens = u ++ v) (hrun : Parser.State.start.run scope u = .ok s)
    (hhere : Cut source.toList here) (hsite : Parser.State.Site scope s o here position) :
    Cut source.toList position := by
  rcases position_of_site htokens hrun hsite with rfl | ⟨t, ht, hplace⟩
  · exact hhere
  · have hmem : t ∈ (scan source).tokens := htokens ▸ List.mem_append_left v ht
    obtain ⟨hoffset, hstop⟩ := cut_of_mem_scan hmem
    rcases hplace with rfl | rfl
    · exact hoffset
    · exact hstop

/-- **However a text is rejected, the error is between characters.** -/
theorem cut_of_rejects (h : Rejects scope source (.rejected e)) : Cut source.toList e.position := by
  generalize hfailure : Failure.rejected e = failure at h
  cases h with
  | empty _ =>
    cases hfailure
    exact cut_zero _
  | @token u v t s _ tokens run refused =>
    subst hfailure
    obtain ⟨o, hfollows, -, -⟩ := Parser.State.follows_of_tokens tokens run
    have hmem : t ∈ (scan source).tokens := by simp [tokens]
    exact cut_of_site tokens run (cut_of_mem_scan hmem).1
      (Parser.State.site_of_step hfollows refused)
  | lexical ending =>
    cases hfailure
    exact cut_of_scan_error ending
  | ending run ending refused =>
    subst hfailure
    have htokens : (scan source).tokens = (scan source).tokens ++ [] := (List.append_nil _).symm
    obtain ⟨o, hfollows, -, -⟩ := Parser.State.follows_of_tokens htokens run
    have hend : Cut source.toList _ := cut_end source
    rw [← offset_of_scan ending] at hend
    exact cut_of_site htokens run hend (Parser.State.site_of_finish hfollows refused)

/-! ## The caret -/

/-- The errors that are found in a text: by the parser in any scope, and on the two ways from a text
to a program. -/
inductive ErrorIn (source : String) (e : SourceError) : Prop
  | parsed (scope : Scope) (error : parse scope source = .error (.rejected e))
  | numbered (inputs : Nat) (error : Program.ofFormula source inputs = .error (.rejected e))
  | named (names : List String)
      (error : Program.ofNamedFormula source names = .error (.failed (.rejected e)))

theorem cut_of_ofScope (h : Program.ofScope scope source = .error (.rejected e)) :
    Cut source.toList e.position := by
  unfold Program.ofScope at h
  split at h
  · cases h
    exact cut_zero _
  · exact cut_of_rejects (rejects_of_parse h)

theorem cut_of_errorIn (h : ErrorIn source e) : Cut source.toList e.position := by
  cases h with
  | parsed scope error => exact cut_of_rejects (rejects_of_parse error)
  | numbered inputs error => exact cut_of_ofScope error
  | named names error =>
    unfold Program.ofNamedFormula at error
    split at error
    · cases error
    · cases hscope : Program.ofScope (.named names) source with
      | ok p =>
        rw [hscope] at error
        cases error
      | error failure =>
        rw [hscope] at error
        cases error
        exact cut_of_ofScope hscope

/-- The text is cut where the error is, and the caret stands under the first character after. -/
theorem column_of_cut {before after : List Char} (htext : source.toList = before ++ after) :
    splitAtByte? source.toList (min (byteLength before) source.utf8ByteSize) =
        some (before, after) ∧
      CommandLine.column source (byteLength before) = before.length := by
  have hle : byteLength before ≤ source.utf8ByteSize := by
    rw [utf8ByteSize_eq, htext, byteLength_append]
    exact Nat.le_add_right _ _
  have hsplit : splitAtByte? source.toList (min (byteLength before) source.utf8ByteSize) =
      some (before, after) := by
    rw [Nat.min_eq_left hle, htext, splitAtByte?_append]
  exact ⟨hsplit, by rw [CommandLine.column, hsplit]⟩

/-- **Every error points into the text.**  It is at most at the end of the text and between two
characters.  So the text is in two parts there, cutting it succeeds, and the caret under the text
comes after as many blanks as there are characters before the error. -/
theorem position_of_errorIn {source : String} {e : SourceError} (h : ErrorIn source e) :
    e.position ≤ source.utf8ByteSize ∧ String.Pos.Raw.IsValid source ⟨e.position⟩ ∧
    ∃ before after : String, source = before ++ after ∧ before.utf8ByteSize = e.position ∧
      splitAtByte? source.toList (min e.position source.utf8ByteSize) =
        some (before.toList, after.toList) ∧
      CommandLine.column source e.position = before.length ∧
      CommandLine.sourceReport source e = "error: " ++ e.text ++ "\n  " ++ source ++ "\n  " ++
        String.ofList (List.replicate before.length ' ') ++ "^\n" := by
  have hcut := cut_of_errorIn h
  have hvalid := hcut.isValid
  refine ⟨hvalid.le_utf8ByteSize, hvalid, ?_⟩
  obtain ⟨before, after, htext, hbytes⟩ := hcut
  obtain ⟨hsplit, hcolumn⟩ := column_of_cut htext
  rw [hbytes] at hsplit hcolumn
  refine ⟨.ofList before, .ofList after, eq_append_of_toList htext, ?_, ?_, ?_, ?_⟩
  · rw [utf8ByteSize_ofList, hbytes]
  · rw [String.toList_ofList, String.toList_ofList, hsplit]
  · rw [String.length_ofList, hcolumn]
  · rw [String.length_ofList, CommandLine.sourceReport, hcolumn]

/-- An exponent with a letter of two bytes in the place of its digits. -/
theorem position_of_errorIn_exponent :
    ErrorIn "x0*(1e+é)" ⟨7, .emptyExponent⟩ ∧ String.Pos.Raw.IsValid "x0*(1e+é)" ⟨7⟩ ∧
      CommandLine.sourceReport "x0*(1e+é)" ⟨7, .emptyExponent⟩ =
        "error: lexical error at 7: malformed number: exponent has no digits\n" ++
          "  x0*(1e+é)\n         ^\n" := by
  have herror : ErrorIn "x0*(1e+é)" ⟨7, .emptyExponent⟩ := by
    have hfailure : (match Program.ofFormula "x0*(1e+é)" 1 with
        | .ok _ => none
        | .error e => some e) = some (.rejected ⟨7, .emptyExponent⟩) := by
      decide +kernel
    refine .numbered 1 ?_
    generalize Program.ofFormula "x0*(1e+é)" 1 = r at hfailure ⊢
    cases r with
    | ok p => cases hfailure
    | error e => rw [Option.some.inj hfailure]
  obtain ⟨-, hvalid, before, after, -, -, hsplit, -, hreport⟩ := position_of_errorIn herror
  have hcut : splitAtByte? "x0*(1e+é)".toList (min 7 "x0*(1e+é)".utf8ByteSize) =
      some ("x0*(1e+".toList, "é)".toList) := by decide +kernel
  have hbefore : before.toList = "x0*(1e+".toList :=
    congrArg Prod.fst (Option.some.inj (hsplit.symm.trans hcut))
  rw [String.toList_inj.mp hbefore] at hreport
  exact ⟨herror, hvalid, hreport.trans (by decide +kernel)⟩

end Formula
