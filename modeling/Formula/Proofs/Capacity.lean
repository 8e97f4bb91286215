import Formula.Proofs.Interning
import Formula.Proofs.LongestMatch
import Formula.Proofs.Tokenisation

/-!
# Only a full pool refuses a literal

A literal passes through two grammars: the scanner measures it, and the pool reads its number.  If
the second were narrower anywhere, a formula with such a literal would be called too large, which is
all that the parser can say about a spelling that the pool does not take.

* **Scanner.**  The numeral at an offset is a literal (`Numeral.exists_literal`), and the number of
  a token is the numeral at the offset of the token (`Numeral.stop?_of_number`).
* **Pool.**  A literal denotes a number and is not `E` or `PI`, so that the pool takes it unless it
  is new and the pool is full (`Pool.Records.refuses_literal_iff`).
* **Parser.**  Its pool records the constants that it has written, so that the same holds of it at
  every place of a run.  The other tokens that are called too large are names, and they stand at
  other places (`Parser.State.loads_of_tooLarge`).
-/

namespace Formula

/-! ## The scanner -/

namespace Numeral

/-- A literal begins with a digit or a point, and so it is no named constant. -/
theorem Literal.named?_eq_none {text : String} (h : Literal text.toList) :
    Pool.named? text = none := by
  rw [← Option.not_isSome_iff_eq_none, Scope.named?_isSome_iff]
  rintro (rfl | rfl)
  · exact absurd (h.head 'E' rfl) (by decide)
  · exact absurd (h.head 'P' rfl) (by decide)

/-- A numeral that is found is a literal. -/
theorem exists_literal {source : String} {start stop : Nat}
    (h : stop? source start = .ok (some stop)) :
    ∃ text : String, Text.slice? source.toList start stop = some text.toList ∧
      Literal text.toList := by
  obtain ⟨cs, rest, hslice, -, -, hlength⟩ := slice?_of_stop? h
  have hliteral := literal_of_length? hlength
  rw [List.take_left] at hliteral
  exact ⟨.ofList cs, by rw [String.toList_ofList, hslice], by rwa [String.toList_ofList]⟩

/-- The number of a token is the numeral at its offset. -/
theorem stop?_of_number {source text : String} {t : Token} (ht : t ∈ (scan source).tokens)
    (hnumber : t.lexeme = .number text) :
    stop? source t.offset = .ok (some t.stop) ∧ Literal text.toList := by
  obtain ⟨u, v, htokens⟩ := List.append_of_mem ht
  obtain ⟨cs, after, htext, hspells, hoffset, hstands⟩ := scan_split htokens
  have htoken : t.text = text := by rw [Token.text, hnumber, Lexeme.text]
  have hends : Ends text.toList after.head? := by rwa [hnumber] at hstands
  have hcut : Text.splitAtByte? source.toList t.offset = some (cs, t.text.toList ++ after) := by
    rw [htext, hoffset, ← hspells.byteLength, Text.splitAtByte?_append]
  refine ⟨?_, hends.literal⟩
  rw [htoken] at hcut
  simp only [stop?, hcut, hends.length?_append, Option.map_some, Token.stop_eq hstands, htoken]

end Numeral

open Numeral

/-! ## The pool -/

/-- **A pool refuses a literal exactly if it is new and the pool is full.** -/
theorem Pool.Records.refuses_literal_iff {p : Pool} {keys : List String} {text : String}
    (h : p.Records keys) (hliteral : Literal text.toList) :
    (p.intern text).1 = none ↔ text ∉ p.places ∧ p.places.size = 65536 := by
  have hvalue := hliteral.value?_isSome
  rw [String.ofList_toList] at hvalue
  exact h.intern_eq_none_iff_full hvalue

theorem Draft.loadConstant?_eq_none_iff {d : Draft} {text : String} :
    d.loadConstant? text = none ↔ (d.pool.intern text).1 = none := by
  obtain ⟨pool, functions, code, depth, peak⟩ := d
  simp only [loadConstant?]
  generalize pool.intern text = answer
  obtain ⟨_ | entry, pool⟩ := answer <;> simp

/-! ## The parser -/

/-- The wording for what is too large belongs to two causes, and one of them is never reported. -/
theorem Cause.tooLarge_of_message {cause : Cause}
    (hcause : cause.isReported = true ∨ cause.kind = .lexical)
    (h : cause.message = "expression too large") : cause = .tooLarge := by
  have hunquoted : cause ∈ unquoted := by
    refine mem_unquoted ?_
    rw [h]
    decide +kernel
  have hworded : ∀ c ∈ unquoted, c.message = "expression too large" →
      c = .tooLarge ∨ c = .functionTableFull := by decide +kernel
  rcases hworded cause hunquoted h with rfl | rfl
  · rfl
  · rcases hcause with hcause | hcause <;> cases hcause

namespace Parser.State

variable {scope : Scope} {source text : String} {s : State} {o : Outline} {u v : List Token}
  {t n : Token}

/-- The pool of the parser records the constants that it has written. -/
theorem Follows.records (h : s.Follows o) :
    s.draft.pool.Records (Mnemonic.spellings o.emitted) :=
  h.draft.pool.records (nodup_eraseDups _)

/-- Where an operand is expected, a number is too large exactly if the pool refuses it. -/
theorem step_of_number (hexpecting : s.expecting = .operand) (hnumber : t.lexeme = .number text) :
    s.step scope t = .error (.of t.offset .tooLarge) ↔ (s.draft.pool.intern text).1 = none := by
  obtain ⟨draft, waiting, frames, expecting⟩ := s
  obtain rfl : expecting = .operand := hexpecting
  rw [← Draft.loadConstant?_eq_none_iff]
  simp only [step, operand, hnumber, loadConstant]
  cases draft.loadConstant? text <;> simp

/-- After an operand, a number lacks an operator. -/
theorem operator_of_number (hnumber : t.lexeme = .number text) :
    s.operator t = .error (.of t.offset (.missingOperatorBefore t.text)) := by
  simp only [operator, hnumber]

/-- A name that is too large is reported where it begins, and no number stands there. -/
theorem loadName_ne_tooLarge {name : String} {place : Nat}
    (htokens : (scan source).tokens = u ++ v) (hrun : start.run scope u = .ok s)
    (hexpecting : s.expecting = .afterName name place) (hn : n ∈ (scan source).tokens)
    (hnumber : n.lexeme = .number text) :
    s.loadName scope name place ≠ .error (.of n.offset .tooLarge) := by
  obtain ⟨u', t, -, rfl, hname, rfl, -⟩ := exists_name_of_run htokens hrun hexpecting
  have ht : t ∈ (scan source).tokens := by simp [htokens]
  intro h
  have hplace : t.offset = n.offset := by
    unfold loadName at h
    split at h
    · simp [Failure.of] at h
    · split at h
      · simp only [Failure.of, Except.error.injEq, Failure.rejected.injEq,
          SourceError.mk.injEq] at h
        exact h.1
      · cases h
      · exact (position_of_loadConstant h).symm
  rw [eq_of_offset_eq ht hn hplace, hnumber] at hname
  cases hname

/-- **A number that is too large is one that the parser was to load.**  Let `n` be a number of the
text.  If a token is refused as too large at the place of `n`, the token is `n`, and it stands where
an operand is expected. -/
theorem loads_of_tooLarge (htokens : (scan source).tokens = u ++ t :: v)
    (hrun : start.run scope u = .ok s) (hn : n ∈ (scan source).tokens)
    (hnumber : n.lexeme = .number text)
    (hrefused : s.step scope t = .error (.of n.offset .tooLarge)) :
    t = n ∧ s.expecting = .operand := by
  obtain ⟨o, hfollows, -, -⟩ := follows_of_tokens htokens hrun
  have ht : t ∈ (scan source).tokens := by simp [htokens]
  -- after an operand the token would be `n` as well, and then an operator is missing
  have hoperator : ∀ {s' : State} {o' : Outline} {x : Tree}, s'.Follows o' → o'.focus = .tree x →
      s'.operator t ≠ .error (.of n.offset .tooLarge) := by
    intro s' o' x hfollows' hfocus he
    have hsettles := operator_settles hfollows' hfocus t
    rw [he] at hsettles
    obtain rfl := eq_of_offset_eq hn ht hsettles.position_eq
    rw [operator_of_number hnumber] at he
    cases he
  obtain ⟨focus, hs, es⟩ := o
  have hexpects := hfollows.expecting
  unfold step at hrefused
  generalize hexpecting : s.expecting = expecting at hexpects hrefused
  cases focus with
  | operand =>
    cases hexpects
    exact ⟨eq_of_offset_eq ht hn (position_of_operand hrefused).symm, rfl⟩
  | tree x =>
    cases hexpects
    exact absurd hrefused (hoperator hfollows rfl)
  | name name =>
    cases hexpects with
    | afterName _ place =>
      simp only at hrefused
      split at hrefused
      · -- a parenthesis opens a call, or is refused for its name or its depth
        unfold openCall enter at hrefused
        split at hrefused
        · simp [Failure.of] at hrefused
        · split at hrefused <;> simp [Failure.of] at hrefused
      · split at hrefused
        · rename_i hload
          rw [Except.error.inj hrefused] at hload
          exact absurd hload (loadName_ne_tooLarge htokens hrun hexpecting hn hnumber)
        · rename_i hload
          obtain ⟨x, -, hfollows'⟩ := settled_of_loadName hfollows rfl hload
          exact absurd hrefused (hoperator hfollows' rfl)

/-- At the end of the text no number is too large: it stands before the end. -/
theorem finish_ne_tooLarge {offset : Nat}
    (hrun : start.run scope (scan source).tokens = .ok s)
    (hend : (scan source).ending = .ok offset) (hn : n ∈ (scan source).tokens)
    (hnumber : n.lexeme = .number text) :
    s.finish scope offset ≠ .error (.of n.offset .tooLarge) := by
  have htokens : (scan source).tokens = (scan source).tokens ++ [] := (List.append_nil _).symm
  obtain ⟨o, hfollows, -, -⟩ := follows_of_tokens htokens hrun
  have hoperand : ∀ {s' : State} {o' : Outline} {x : Tree}, s'.Follows o' → o'.focus = .tree x →
      s'.finishOperand offset ≠ .error (.of n.offset .tooLarge) := by
    intro s' o' x hfollows' hfocus he
    have hsettles := finishOperand_settles scope hfollows' hfocus offset
    rw [he] at hsettles
    have hplace : n.offset = offset := hsettles.position_eq
    have hbefore := offset_lt_of_mem_scan hn
    rw [offset_of_scan hend] at hplace
    omega
  intro h
  obtain ⟨focus, hs, es⟩ := o
  have hexpects := hfollows.expecting
  unfold finish at h
  generalize hexpecting : s.expecting = expecting at hexpects h
  cases focus with
  | operand =>
    cases hexpects
    simp [Failure.of] at h
  | tree x =>
    cases hexpects
    exact hoperand hfollows rfl h
  | name name =>
    cases hexpects with
    | afterName _ place =>
      simp only at h
      split at h
      · rename_i hload
        rw [Except.error.inj h] at hload
        exact loadName_ne_tooLarge htokens hrun hexpecting hn hnumber hload
      · rename_i hload
        obtain ⟨x, -, hfollows'⟩ := settled_of_loadName hfollows rfl hload
        exact hoperand hfollows' rfl h

end Parser.State

/-! ## A text -/

variable {scope : Scope} {source text : String} {t : Token}

/-- **A number is too large exactly if its spelling is new where the parser loads it,** and the pool
is full there. -/
theorem parse_tooLarge_iff (ht : t ∈ (scan source).tokens) (hnumber : t.lexeme = .number text) :
    parse scope source = .error (.of t.offset .tooLarge) ↔
      ∃ u v s, (scan source).tokens = u ++ t :: v ∧ Parser.State.start.run scope u = .ok s ∧
        s.expecting = .operand ∧ text ∉ s.draft.pool.places ∧
        s.draft.pool.places.size = 65536 := by
  have hliteral := (stop?_of_number ht hnumber).2
  constructor
  · intro h
    have hrejects := rejects_of_parse h
    generalize hfailure : Failure.of t.offset .tooLarge = e at hrejects
    cases hrejects with
    | empty => simp [Failure.of] at hfailure
    | @token u v t' s _ tokens run refused =>
      subst hfailure
      obtain ⟨rfl, hexpecting⟩ :=
        Parser.State.loads_of_tooLarge tokens run ht hnumber refused
      obtain ⟨o, hfollows, -, -⟩ := Parser.State.follows_of_tokens tokens run
      have hnone := (Parser.State.step_of_number hexpecting hnumber).mp refused
      obtain ⟨hnew, hfull⟩ := (hfollows.records.refuses_literal_iff hliteral).mp hnone
      exact ⟨u, v, s, tokens, run, hexpecting, hnew, hfull⟩
    | lexical ending =>
      have hkind := Cursor.kind_of_scanOnto ending
      cases hfailure
      cases hkind
    | ending run ending refused =>
      subst hfailure
      exact absurd refused (Parser.State.finish_ne_tooLarge run ending ht hnumber)
  · rintro ⟨u, v, s, htokens, hrun, hexpecting, hnew, hfull⟩
    obtain ⟨o, hfollows, -, -⟩ := Parser.State.follows_of_tokens htokens hrun
    have hnone := (hfollows.records.refuses_literal_iff hliteral).mpr ⟨hnew, hfull⟩
    exact parse_of_refused htokens hrun
      ((Parser.State.step_of_number hexpecting hnumber).mpr hnone)

/-- Among the errors of the parser, the wording tells which are too large. -/
theorem exists_message_iff {position : Nat} :
    (∃ cause, parse scope source = .error (.of position cause) ∧
        cause.message = "expression too large") ↔
      parse scope source = .error (.of position .tooLarge) := by
  constructor
  · rintro ⟨cause, herror, hmessage⟩
    have hcause : cause.isReported = true ∨ cause.kind = .lexical := by
      rcases reported_or_lexical (rejects_of_parse herror) with ⟨_, _, he, hreported⟩ |
        ⟨fault, hfault, he⟩
      · cases he
        exact .inl hreported
      · cases he
        exact .inr (Cursor.kind_of_scanOnto hfault)
    rw [herror, Cause.tooLarge_of_message hcause hmessage]
  · exact fun h => ⟨_, h, rfl⟩

/-- **Only a full pool refuses a literal.**  In any text, in this order:

* a numeral that is found at an offset is what stands between its ends; it denotes a number, which
  is read from it, and is no named constant; whatever texts have been put to a new pool, there is no
  constant for the numeral exactly if it has no place there yet and 65536 others have,
* the number of a token is the numeral at the offset of the token; in any scope the parser calls the
  formula too large at that offset exactly if it comes to the token where it expects an operand, and
  then its pool has no place for the number and 65536 others. -/
theorem literal_refused_iff_full (source : String) :
    (∀ start stop, Numeral.stop? source start = .ok (some stop) →
      ∃ text : String, Text.slice? source.toList start stop = some text.toList ∧
        Decimal.Denotes text.toList ∧ (Decimal.parse? text).isSome = true ∧
        Pool.named? text = none ∧
        ∀ texts, ((Pool.empty.internAll texts).intern text).1 = none ↔
          text ∉ (Pool.empty.internAll texts).places ∧
            (Pool.empty.internAll texts).places.size = 65536) ∧
    ∀ t ∈ (scan source).tokens, ∀ text, t.lexeme = .number text →
      Numeral.stop? source t.offset = .ok (some t.stop) ∧
      Text.slice? source.toList t.offset t.stop = some text.toList ∧
      ∀ scope, (∃ cause, parse scope source = .error (.rejected ⟨t.offset, cause⟩) ∧
          cause.message = "expression too large") ↔
        ∃ u v s, (scan source).tokens = u ++ t :: v ∧ Parser.State.start.run scope u = .ok s ∧
          s.expecting = .operand ∧ text ∉ s.draft.pool.places ∧
          s.draft.pool.places.size = 65536 := by
  refine ⟨fun start stop h => ?_, fun t ht text hnumber => ⟨(stop?_of_number ht hnumber).1, ?_, ?_⟩⟩
  · obtain ⟨text, hslice, hliteral⟩ := exists_literal h
    exact ⟨text, hslice, hliteral.denotes, Decimal.parse?_isSome_iff.mpr hliteral.denotes,
      hliteral.named?_eq_none,
      fun texts => (Pool.records_internAll texts).refuses_literal_iff hliteral⟩
  · have hslice := slice?_token ht
    rwa [Token.text, hnumber] at hslice
  · exact fun scope => exists_message_iff.trans (parse_tooLarge_iff ht hnumber)

/-- A point with digits on one side, and an exponent with a sign and zeros in front. -/
example : Numeral.stop? "x0+1.e+007" 3 = .ok (some 10) ∧
    (Decimal.parse? "1.e+007").isSome = true := by
  decide +kernel

end Formula
