import Formula.Proofs.Places

/-!
# What is reported when a text is no formula

A text is rejected by the scanner or by the parser.  The two never report the same causes, and the
parser has four causes and one failure that it never reports at all: each of them would mean that it
has lost track of what it reads.

* An operator or a call that does not find its operands, or a formula that leaves more than one
  value (`countMismatch`, and `brokenCall` for a call).  What is on the stack is known at every
  place of a run: it is `Draft.Encodes` of what the outline has written.
* A token that ends a part of a formula and is none of those that do (`unexpectedToken`).
* A sign in the place of an operand that comes right after an operand (`signAfterOperand`).  The
  scanner calls a sign binary after an operand only, and there no operand is expected.
* A table of functions without room (`functionTableFull`).  There are fewer functions than places.

`Rejects` lists the ways in which a text is rejected.  From it follows what becomes of an error of
the scanner, and that the parser never breaks.
-/

namespace Formula

open Mnemonic

/-! ## Causes -/

/-- The causes with which the parser itself rejects a text. -/
def Cause.isReported : Cause → Bool
  -- these are of the scanner
  | illegalCharacter _ | secondPoint | emptyExponent | pointInExponent => false
  -- and these would be mistakes of the parser
  | countMismatch | unexpectedToken | signAfterOperand _ | functionTableFull => false
  | _ => true

theorem Cause.kind_of_isReported {cause : Cause} (h : cause.isReported = true) :
    cause.kind ≠ .lexical := by
  cases cause <;> first | exact absurd h Bool.false_ne_true | nofun

/-- The causes whose wording quotes nothing of the text. -/
def Cause.unquoted : List Cause :=
  [secondPoint, emptyExponent, pointInExponent, emptyFormula, tooLarge, functionTableFull,
    missingOperandAtEnd, emptyParentheses, tooManyArguments, tooFewArguments, unexpectedToken,
    nestedTooDeeply, countMismatch]

/-- A wording without a quotation mark leaves finitely many causes. -/
theorem Cause.mem_unquoted {cause : Cause} (h : '\'' ∉ cause.message.toList) :
    cause ∈ unquoted := by
  cases cause
  all_goals
    delta message at h
    first
    | decide
    | simp [String.toList_append] at h

/-- Two wordings belong to one cause each. -/
theorem Cause.eq_of_message {cause : Cause}
    (h : cause.message = "operand/operator count mismatch" ∨ cause.message = "unexpected token") :
    cause = .countMismatch ∨ cause = .unexpectedToken := by
  have hunquoted : cause ∈ unquoted := by
    refine mem_unquoted ?_
    rcases h with h | h <;> rw [h] <;> decide +kernel
  have hworded : ∀ c ∈ unquoted,
      c.message = "operand/operator count mismatch" ∨ c.message = "unexpected token" →
      c = .countMismatch ∨ c = .unexpectedToken := by decide +kernel
  exact hworded cause hunquoted h

/-- Neither the causes that the parser reports nor the lexical ones are mistakes of the parser. -/
theorem Cause.not_mistake {cause : Cause} (h : cause.isReported = true ∨ cause.kind = .lexical) :
    cause.message ≠ "operand/operator count mismatch" ∧ cause.message ≠ "unexpected token" ∧
      (∀ op, cause ≠ .signAfterOperand op) ∧ cause ≠ .functionTableFull := by
  have hworded : ¬ (cause = .countMismatch ∨ cause = .unexpectedToken) := by
    rintro (rfl | rfl) <;> rcases h with h | h <;> cases h
  refine ⟨fun hm => hworded (eq_of_message (.inl hm)), fun hm => hworded (eq_of_message (.inr hm)),
    fun op => ?_, ?_⟩ <;> rintro rfl <;> rcases h with h | h <;> cases h

/-- A rejection with a cause that the parser reports. -/
def Failure.Reported (e : Failure) : Prop :=
  ∃ position cause, e = .of position cause ∧ cause.isReported = true

theorem Failure.reported_of {α : Type} {position : Nat} {cause : Cause} {e : Failure}
    (h : (.error (.of position cause) : Except Failure α) = .error e)
    (hcause : cause.isReported = true) : e.Reported := by
  cases h
  exact ⟨position, cause, rfl, hcause⟩

/-- What ends a part of a formula wrongly is reported as what it is. -/
theorem Context.isReported_refusal {c : Context} {found : Option Lexeme}
    (hfound : found = none ∨ found = some .closeParen ∨ found = some .comma)
    (h : c.ending ≠ found) : (c.refusal found).isReported = true := by
  rcases hfound with rfl | rfl | rfl
  · cases c <;> rfl
  · cases c with
    | formula => rfl
    | group => exact absurd rfl h
    | argument last =>
      cases last with
      | false => rfl
      | true => exact absurd rfl h
  · cases c with
    | formula | group => rfl
    | argument last =>
      cases last with
      | false => exact absurd rfl h
      | true => rfl

/-- Why a name has no meaning. -/
theorem Scope.cause_of_resolve {scope : Scope} {name : String} {cause : Cause}
    (h : scope.resolve name = .error cause) :
    cause = .undeclaredInput name scope.inputs ∨ cause = .tooLarge ∨
      cause = .malformedIndex name ∨ cause = .unknownName name := by
  have hinput : ∀ slot, scope.input name slot = .error cause →
      cause = .undeclaredInput name scope.inputs ∨ cause = .tooLarge := by
    intro slot hs
    unfold input at hs
    split at hs
    · cases hs
      exact .inl rfl
    · split at hs <;> cases hs
      exact .inr rfl
  unfold resolve at h
  split at h
  · exact (hinput _ h).imp_right .inl
  · split at h
    · cases h
    · split at h
      · cases h; simp
      · split at h
        · unfold indexed at h
          split at h
          · split at h
            · exact (hinput _ h).imp_right .inl
            · cases h; simp
          · split at h <;> cases h <;> simp
        · cases h; simp

theorem Scope.isReported_of_resolve {scope : Scope} {name : String} {cause : Cause}
    (h : scope.resolve name = .error cause) : cause.isReported = true := by
  rcases cause_of_resolve h with rfl | rfl | rfl | rfl <;> rfl

/-! ## One token -/

namespace Parser.State

variable {scope : Scope} {s s' : State} {o : Outline} {t : Token} {e : Failure}

theorem reported_of_loadConstant {text : String} {offset : Nat}
    (h : s.loadConstant text offset = .error e) : e.Reported := by
  simp only [loadConstant] at h
  split at h
  · cases h
  · exact Failure.reported_of h rfl

theorem reported_of_enter {opening : Opening} {offset : Nat}
    (h : s.enter offset opening = .error e) : e.Reported := by
  unfold enter at h
  split at h
  · cases h
  · exact Failure.reported_of h rfl

theorem reported_of_loadName {name : String} {offset : Nat}
    (h : s.loadName scope name offset = .error e) : e.Reported := by
  unfold loadName at h
  split at h
  · exact Failure.reported_of h rfl
  · split at h
    · rename_i hresolve
      exact Failure.reported_of h (Scope.isReported_of_resolve hresolve)
    · cases h
    · exact reported_of_loadConstant h

/-- In the place of an operand, a sign is unary or doubled. -/
theorem reported_of_operand (hsign : t.sign ≠ .binary) (h : s.operand t = .error e) :
    e.Reported := by
  have hsigned : ∀ op, s.sign op t = .error e → e.Reported := by
    intro op h
    unfold sign at h
    split at h
    · cases h
    · exact Failure.reported_of h rfl
    · rename_i hbinary
      exact absurd hbinary hsign
  unfold operand at h
  split at h
  · exact reported_of_loadConstant h
  · cases h
  · exact reported_of_enter h
  · exact hsigned _ h
  · exact hsigned _ h
  · exact Failure.reported_of h rfl
  · split at h <;> exact Failure.reported_of h rfl
  · exact Failure.reported_of h rfl

/-- A part that has ended as it has to is left.  The arguments of a call are all on the stack. -/
theorem exists_resume {d : Draft} {x : Tree} {frame : Frame} {frames : List Frame}
    {es : List Enclosure} (hframes : Frames (frame :: frames) es)
    (henc : d.Encodes (emittedEnclosures es ++ x.postorder)) :
    ∃ s', resume d frame frames = .ok s' := by
  cases hframes with
  | group waits rest => exact ⟨_, rfl⟩
  | @call ws hs fs es place f waits rest =>
    -- the first argument is the only one, or another is to come
    by_cases harity : 0 + 1 = f.arity
    · have hheight : heightFrom 0 (emittedEnclosures (.call f none hs :: es) ++ x.postorder) =
          heightFrom 0 (emittedEnclosures es ++ emittedHoles hs) + f.arity := by
        simp [emittedEnclosures, Enclosure.emitted, ← harity]
      obtain ⟨d', hd', -⟩ := henc.emitCall place hheight
      simp only [resume, if_pos harity, hd']
      exact ⟨_, rfl⟩
    · simp only [resume, if_neg harity]
      exact ⟨_, rfl⟩
  | @argument ws hs fs es place f pair y waits rest =>
    have hheight : heightFrom 0 (emittedEnclosures (.call f (some y) hs :: es) ++ x.postorder) =
        heightFrom 0 (emittedEnclosures es ++ emittedHoles hs) + f.arity := by
      simp [emittedEnclosures, Enclosure.emitted, pair]
    obtain ⟨d', hd', -⟩ := henc.emitCall place hheight
    simp only [resume, pair, hd']
    exact ⟨_, rfl⟩

/-- What has been written when an operand has been read. -/
theorem encodes_of_tree {x : Tree} (h : s.Follows o) (hf : o.focus = .tree x) :
    s.draft.Encodes (emittedEnclosures o.enclosures ++ emittedHoles o.holes ++ x.postorder) := by
  have hdraft := h.draft
  rwa [Outline.emitted, hf] at hdraft

/-- A closing parenthesis or a comma is refused for the part that it should end, and for nothing
else. -/
theorem reported_of_leave {x : Tree} {found : Lexeme} {offset : Nat} (h : s.Follows o)
    (hf : o.focus = .tree x) (hfound : found = .closeParen ∨ found = .comma)
    (he : s.leave found offset = .error e) : e.Reported := by
  obtain ⟨d, hd, henc⟩ := (encodes_of_tree h hf).emitAll h.waiting
  have hends : some found = none ∨ some found = some .closeParen ∨ some found = some .comma :=
    .inr (hfound.imp (congrArg some) (congrArg some))
  have hframes := h.frames
  unfold leave at he
  simp only [hd] at he
  generalize s.frames = frames at hframes he
  cases frames with
  | nil => exact Failure.reported_of he (Context.isReported_refusal hends nofun)
  | cons frame frames =>
    simp only at he
    split at he
    · obtain ⟨s', hs'⟩ := exists_resume hframes henc
      rw [hs'] at he
      cases he
    · rename_i hending
      exact Failure.reported_of he (Context.isReported_refusal hends hending)

theorem reported_of_operator {x : Tree} (h : s.Follows o) (hf : o.focus = .tree x)
    (he : s.operator t = .error e) : e.Reported := by
  unfold operator at he
  split at he
  · rename_i op _
    obtain ⟨d, ws, hd, -⟩ :=
      (encodes_of_tree h hf).emitAbove (WaitingOp.binary op).level h.waiting
    simp [binary, hd] at he
  · exact reported_of_leave h hf (.inl rfl) he
  · exact reported_of_leave h hf (.inr rfl) he
  all_goals exact Failure.reported_of he rfl

/-- **A token is refused with a cause that is reported.** -/
theorem reported_of_step (h : s.Follows o) (hsign : o.focus = .operand → t.sign ≠ .binary)
    (he : s.step scope t = .error e) : e.Reported := by
  obtain ⟨focus, hs, es⟩ := o
  have hexpects := h.expecting
  unfold step at he
  generalize s.expecting = expecting at hexpects he
  cases focus with
  | operand =>
    cases hexpects
    exact reported_of_operand (hsign rfl) he
  | tree x =>
    cases hexpects
    exact reported_of_operator h rfl he
  | name name =>
    cases hexpects with
    | afterName _ place =>
      simp only at he
      split at he
      · unfold openCall at he
        split at he
        · exact Failure.reported_of he rfl
        · exact reported_of_enter he
      · split at he
        · rename_i hload
          cases he
          exact reported_of_loadName hload
        · rename_i hload
          obtain ⟨x, -, hfollows⟩ := settled_of_loadName h rfl hload
          exact reported_of_operator hfollows rfl he

/-- The end of the text is refused because a part is still open. -/
theorem reported_of_finishOperand {x : Tree} {offset : Nat} (h : s.Follows o)
    (hf : o.focus = .tree x) (he : s.finishOperand offset = .error e) : e.Reported := by
  obtain ⟨d, hd, henc⟩ := (encodes_of_tree h hf).emitAll h.waiting
  have hframes := h.frames
  unfold finishOperand context at he
  simp only [hd] at he
  generalize s.frames = frames at hframes he
  generalize o.enclosures = es at hframes henc
  cases frames with
  | nil =>
    cases hframes
    have hdepth : d.depth = 1 := by
      rw [henc.depth, emittedEnclosures, List.nil_append, Tree.heightFrom_postorder]
    simp [Context.ending, hdepth] at he
  | cons frame frames =>
    simp only [if_neg frame.ending_ne_none] at he
    exact Failure.reported_of he (Context.isReported_refusal (.inl rfl) frame.ending_ne_none)

/-- **The end of the text is refused with a cause that is reported.** -/
theorem reported_of_finish {offset : Nat} (h : s.Follows o)
    (he : s.finish scope offset = .error e) : e.Reported := by
  obtain ⟨focus, hs, es⟩ := o
  have hexpects := h.expecting
  unfold finish at he
  generalize s.expecting = expecting at hexpects he
  cases focus with
  | operand =>
    cases hexpects
    exact Failure.reported_of he rfl
  | tree x =>
    cases hexpects
    exact reported_of_finishOperand h rfl he
  | name name =>
    cases hexpects with
    | afterName _ place =>
      simp only at he
      split at he
      · rename_i hload
        cases he
        exact reported_of_loadName hload
      · rename_i hload
        obtain ⟨x, -, hfollows⟩ := settled_of_loadName h rfl hload
        exact reported_of_finishOperand hfollows rfl he

theorem frames_of_loadName {name : String} {offset : Nat}
    (h : s.loadName scope name offset = .ok s') : s'.frames = s.frames := by
  unfold loadName at h
  split at h
  · cases h
  · split at h
    · cases h
    · cases h
      rfl
    · simp only [loadConstant] at h
      split at h <;> cases h
      rfl

theorem frames_of_finishOperand {offset : Nat} {d : Draft} (h : s.finishOperand offset = .ok d) :
    s.frames = [] := by
  unfold finishOperand context at h
  split at h
  · cases h
  · cases hframes : s.frames with
    | nil => rfl
    | cons frame frames =>
      simp only [hframes, if_neg frame.ending_ne_none] at h
      cases h

/-- The end of the text is accepted only where no parenthesis is open. -/
theorem frames_of_finish {offset : Nat} {d : Draft} (h : s.finish scope offset = .ok d) :
    s.frames = [] := by
  unfold finish at h
  split at h
  · cases h
  · exact frames_of_finishOperand h
  · split at h
    · cases h
    · rename_i hload
      rw [← frames_of_loadName hload]
      exact frames_of_finishOperand h

end Parser.State

/-! ## A text -/

/-- The ways in which a text is no formula. -/
inductive Rejects (scope : Scope) (source : String) : Failure → Prop
  | empty (white : source.toList.all Text.isWhite = true) :
      Rejects scope source (.of 0 .emptyFormula)
  | token {u v : List Token} {t : Token} {s : Parser.State} {e : Failure}
      (tokens : (scan source).tokens = u ++ t :: v) (run : Parser.State.start.run scope u = .ok s)
      (refused : s.step scope t = .error e) : Rejects scope source e
  | lexical {e : SourceError} (ending : (scan source).ending = .error e) :
      Rejects scope source (.rejected e)
  | ending {s : Parser.State} {offset : Nat} {e : Failure}
      (run : Parser.State.start.run scope (scan source).tokens = .ok s)
      (ending : (scan source).ending = .ok offset) (refused : s.finish scope offset = .error e) :
      Rejects scope source e

variable {scope : Scope} {source : String} {e : Failure}

theorem rejects_of_parse (h : parse scope source = .error e) : Rejects scope source e := by
  unfold parse at h
  split at h
  · rename_i hwhite
    cases h
    exact .empty hwhite
  · simp only at h
    split at h
    · rename_i hrun
      cases h
      obtain ⟨u, t, v, s, htokens, hrun, hstep⟩ := Parser.State.exists_step_of_run hrun
      exact .token htokens hrun hstep
    · rename_i s hrun
      split at h
      · rename_i hend
        cases h
        exact .lexical hend
      · rename_i offset hend
        split at h
        · rename_i hfinish
          cases h
          exact .ending hrun hend hfinish
        · cases h

/-- A text is rejected with the first token that is refused. -/
theorem parse_of_refused {u v : List Token} {t : Token} {s : Parser.State}
    (htokens : (scan source).tokens = u ++ t :: v) (hrun : Parser.State.start.run scope u = .ok s)
    (hrefused : s.step scope t = .error e) : parse scope source = .error e := by
  have hwhite : ¬ source.toList.all Text.isWhite = true := fun h => by
    rw [scan_of_white h] at htokens
    simp at htokens
  have hfails : Parser.State.start.run scope (scan source).tokens = .error e := by
    rw [htokens]
    exact Parser.State.run_of_refused hrun hrefused
  simp only [parse, if_neg hwhite, hfails]

/-- An accepted text is read to its end, and no parenthesis is open there. -/
theorem exists_run_of_parse {p : Program} (h : parse scope source = .ok p) :
    ∃ s, Parser.State.start.run scope (scan source).tokens = .ok s ∧ s.frames = [] ∧
      (scan source).ending = .ok source.utf8ByteSize := by
  unfold parse at h
  split at h
  · cases h
  · simp only at h
    split at h
    · cases h
    · rename_i s hrun
      split at h
      · cases h
      · rename_i offset hend
        split at h
        · cases h
        · rename_i d hfinish
          refine ⟨s, hrun, Parser.State.frames_of_finish hfinish, ?_⟩
          rw [hend, offset_of_scan hend]

/-- Where an operand is expected the scanner does not call a sign binary. -/
theorem sign_ne_binary {u v : List Token} {t : Token} {o : Outline}
    (htokens : (scan source).tokens = u ++ t :: v)
    (hr : (u.map (·.lexeme)).foldlM (Outline.step scope) .start = some o)
    (hf : o.focus = .operand) : t.sign ≠ .binary := by
  have hsigned := scan_signed source
  rw [htokens] at hsigned
  have hsign : t.sign = .afterLexeme (u.map (·.lexeme)).getLast? := by
    rw [hsigned.sign_eq, Option.or_none]
  have hafter : o.After (u.map (·.lexeme)).getLast? := by
    rcases List.eq_nil_or_concat (u.map (·.lexeme)) with hnil | ⟨w, l, hw⟩
    · rw [hnil] at hr ⊢
      cases hr
      exact Outline.after_start
    · rw [List.concat_eq_append] at hw
      rw [hw, List.foldlM_append] at hr
      obtain ⟨o₁, -, hlast⟩ := Option.bind_eq_some_iff.mp hr
      have hstep : o₁.step scope l = some o := by simpa using hlast
      rw [hw, List.getLast?_concat]
      exact Outline.after_step hstep
  rw [hsign, hafter hf]
  split <;> nofun

/-- **The parser rejects a text with a cause that it reports, or else with the error of the
scanner.** -/
theorem reported_or_lexical (h : Rejects scope source e) :
    e.Reported ∨ ∃ fault, (scan source).ending = .error fault ∧ e = .rejected fault := by
  cases h with
  | empty white => exact .inl ⟨0, .emptyFormula, rfl, rfl⟩
  | token tokens run refused =>
    obtain ⟨o, hfollows, hr, -⟩ := Parser.State.follows_of_tokens tokens run
    exact .inl (Parser.State.reported_of_step hfollows (sign_ne_binary tokens hr) refused)
  | lexical ending => exact .inr ⟨_, ending, rfl⟩
  | ending run ending refused =>
    have htokens : (scan source).tokens = (scan source).tokens ++ [] := (List.append_nil _).symm
    obtain ⟨o, hfollows, -, -⟩ := Parser.State.follows_of_tokens htokens run
    exact .inl (Parser.State.reported_of_finish hfollows refused)

/-! ## Errors of the scanner -/

/-- An error of the parser is reported at the token that it has come to, or else at the start or the
end of one before. -/
theorem position_of_site {u v : List Token} {s : Parser.State} {o : Outline} {here position : Nat}
    (htokens : (scan source).tokens = u ++ v) (hrun : Parser.State.start.run scope u = .ok s)
    (hsite : Parser.State.Site scope s o here position) :
    position = here ∨ ∃ t ∈ u, position = t.offset ∨ position = t.stop := by
  cases hsite with
  | operand _ | settled _ _ | deep _ => exact .inl rfl
  | pending expecting =>
    obtain ⟨u', t, -, rfl, -, rfl, -⟩ := Parser.State.exists_name_of_run htokens hrun expecting
    exact .inr ⟨t, List.mem_append_right _ List.mem_cons_self, .inl rfl⟩
  | uncalled expecting function =>
    obtain ⟨u', t, -, rfl, hname, rfl, -⟩ := Parser.State.exists_name_of_run htokens hrun expecting
    refine .inr ⟨t, List.mem_append_right _ List.mem_cons_self, .inr ?_⟩
    rw [Token.stop, Token.text, hname]
    rfl

/-- Where scanning stops with an error, the parser has stopped at the latest. -/
theorem position_le_of_rejects {e fault : SourceError} (h : Rejects scope source (.rejected e))
    (hend : (scan source).ending = .error fault) : e.position ≤ fault.position := by
  obtain ⟨cs, -, -, distance, -, -, -, hposition, hstops⟩ := scan_error hend
  have hlimit : cs.length ≤ fault.position := hposition ▸ Nat.le_add_right _ _
  have hoffset : ∀ t ∈ (scan source).tokens, t.offset ≤ cs.length := fun t ht =>
    (Nat.le_add_right _ _).trans (hstops t ht)
  generalize hfailure : Failure.rejected e = failure at h
  cases h with
  | empty _ =>
    cases hfailure
    exact Nat.zero_le _
  | token tokens run refused =>
    subst hfailure
    obtain ⟨o, hfollows, -, -⟩ := Parser.State.follows_of_tokens tokens run
    refine Nat.le_trans ?_ hlimit
    rcases position_of_site tokens run (Parser.State.site_of_step hfollows refused) with
      hhere | ⟨t, ht, hbefore⟩
    · rw [hhere]
      exact hoffset _ (by simp [tokens])
    · have hmem : t ∈ (scan source).tokens := tokens ▸ List.mem_append_left _ ht
      rcases hbefore with hstart | hstop
      · exact hstart ▸ hoffset t hmem
      · exact hstop ▸ hstops t hmem
  | lexical ending =>
    cases hfailure
    cases hend.symm.trans ending
    exact Nat.le_refl _
  | ending _ ending _ => cases hend.symm.trans ending

/-- **Lexical errors are those of the scanner.**  If a text scans to its end, no error of the parser
is lexical.  If scanning stops with an error, the parser fails too, at or before the position of
that error, and if its error is lexical it is the same. -/
theorem lexical_of_parse (scope : Scope) (source : String) :
    match (scan source).ending with
    | .ok _ => ∀ e, parse scope source = .error (.rejected e) → e.cause.kind ≠ .lexical
    | .error fault => ∃ e, parse scope source = .error (.rejected e) ∧
        e.position ≤ fault.position ∧ (e.cause.kind = .lexical → e = fault) := by
  cases hend : (scan source).ending with
  | ok offset =>
    intro e he
    rcases reported_or_lexical (rejects_of_parse he) with ⟨position, cause, hcause, hreported⟩ |
      ⟨fault, hfault, -⟩
    · cases hcause
      exact Cause.kind_of_isReported hreported
    · cases hend.symm.trans hfault
  | error fault =>
    cases hparse : parse scope source with
    | ok p =>
      obtain ⟨offset, -, -, hok, -⟩ := encodes_of_parse hparse
      cases hend.symm.trans hok
    | error failure =>
      have hrejects := rejects_of_parse hparse
      rcases reported_or_lexical hrejects with ⟨position, cause, rfl, hreported⟩ |
        ⟨fault', hfault, rfl⟩
      · refine ⟨⟨position, cause⟩, rfl, position_le_of_rejects hrejects hend, fun hkind => ?_⟩
        exact absurd hkind (Cause.kind_of_isReported hreported)
      · cases hend.symm.trans hfault
        exact ⟨fault, rfl, Nat.le_refl _, fun _ => rfl⟩

/-! ## What never happens -/

/-- A sign pops one value and a binary operator does not. -/
theorem WaitingOp.arity_eq_one_iff {op : WaitingOp} {i : Instruction} {arity : Nat}
    (h : op.instruction? = some (i, arity)) : arity = 1 ↔ ∃ negative, op = .sign negative := by
  cases op with
  | sign negative =>
    cases negative <;> cases h
    exact ⟨fun _ => ⟨true, rfl⟩, fun _ => rfl⟩
  | binary op =>
    cases h
    exact ⟨nofun, nofun⟩

/-- **The parser never breaks.**  On any text and in any scope, in this order:

* there is a program, or else an error that is not one of those which would mean that the parser has
  lost track: no operator or call misses its operands, no call finds another number of values than
  its function takes, no part ends with a token that ends nothing, no sign in the place of an
  operand follows an operand, and the table of functions is never full,
* an accepted text is read to its end with no parenthesis left open,
* an operator pops one value exactly if it is a sign,
* the slices that are taken of the text exist: for each token between its ends, and before it to
  read a sign, at the end of the text, and in front of a character that begins no lexeme. -/
theorem parse_never_breaks (scope : Scope) (source : String) :
    ((∃ p, parse scope source = .ok p) ∨
      ∃ position cause, parse scope source = .error (.rejected ⟨position, cause⟩) ∧
        cause.message ≠ "operand/operator count mismatch" ∧ cause.message ≠ "unexpected token" ∧
        (∀ op, cause ≠ .signAfterOperand op) ∧ cause ≠ .functionTableFull) ∧
    (∀ p, parse scope source = .ok p →
      ∃ s, Parser.State.start.run scope (scan source).tokens = .ok s ∧ s.frames = [] ∧
        (scan source).ending = .ok source.utf8ByteSize) ∧
    (∀ op i arity, WaitingOp.instruction? op = some (i, arity) →
      (arity = 1 ↔ ∃ negative, op = .sign negative)) ∧
    (∀ t ∈ (scan source).tokens,
      Text.slice? source.toList t.offset t.stop = some t.text.toList ∧
        SignContext.ofOffset? source t.offset = some t.sign) ∧
    (∀ offset, (scan source).ending = .ok offset →
      Text.slice? source.toList offset offset = some []) ∧
    (∀ position c, (scan source).ending = .error ⟨position, .illegalCharacter c⟩ →
      ∃ before after, Text.splitAtByte? source.toList position = some (before, c :: after)) := by
  refine ⟨?_, fun p hp => exists_run_of_parse hp, fun op i arity h => WaitingOp.arity_eq_one_iff h,
    fun t ht => ⟨slice?_token ht, ofOffset?_token ht⟩,
    fun offset hend => offset_of_scan hend ▸ slice?_end source,
    fun position c hend => splitAtByte?_illegal hend⟩
  cases hparse : parse scope source with
  | ok p => exact .inl ⟨p, rfl⟩
  | error e =>
    right
    rcases reported_or_lexical (rejects_of_parse hparse) with ⟨position, cause, rfl, hreported⟩ |
      ⟨fault, hfault, rfl⟩
    · exact ⟨position, cause, rfl, Cause.not_mistake (.inl hreported)⟩
    · have hlexical := Cursor.kind_of_scanOnto hfault
      exact ⟨fault.position, fault.cause, rfl, Cause.not_mistake (.inr hlexical)⟩

end Formula
