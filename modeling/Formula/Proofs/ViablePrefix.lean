import Formula.Proofs.Completion

/-!
# Errors are reported at once

When a text is no formula, the error names a position.  The main statement is that what stands
before the position is the beginning of a formula: the parser never reads on past a token after
which nothing could be right again.  It holds of every error that is not lexical, with one
exception.  If 256 parentheses are open and the name of a function comes next, the name is taken
before its parenthesis is refused.

## Where errors are

`State.Site` lists the places at which one token can be refused: in front of the token, or in front
of the name before it, or right after that name.  The name before is the only token that is acted on
late.  In the first case the outline expects an operand or has one, in the second it expected one,
and in the third the name is that of a function.  Each of them can be completed
(`Outline.Open.exists_completion`).

`Cuts` ties tokens to text: the tokens before a position are spelled by the text before it.
-/

namespace Formula

open Mnemonic

/-! ## Errors of the scanner -/

/-- What can be wrong with a numeral. -/
theorem Numeral.cause_of_length? {cs : List Char} {fault : Numeral.Fault}
    (h : Numeral.length? cs = .error fault) :
    fault.2 = .secondPoint ∨ fault.2 = .emptyExponent ∨ fault.2 = .pointInExponent := by
  simp only [length?] at h
  split at h
  · split at h
    · rename_i hm
      cases h
      simp only [mantissaLength] at hm
      split at hm
      · split at hm <;> cases hm
        exact .inl rfl
      · cases hm
    · rename_i m _
      cases hx : withExponent cs m with
      | ok n => rw [hx] at h; cases h
      | error fault' =>
        rw [hx] at h
        cases h
        simp only [withExponent] at hx
        split at hx
        · split at hx
          · cases hx; exact .inr (.inl rfl)
          · split at hx <;> cases hx
            exact .inr (.inr rfl)
        · cases hx
  · cases h

theorem Numeral.kind_of_length? {cs : List Char} {fault : Numeral.Fault}
    (h : Numeral.length? cs = .error fault) : fault.2.kind = .lexical := by
  rcases cause_of_length? h with hcause | hcause | hcause <;> rw [hcause] <;> rfl

theorem Lexeme.kind_of_read {c : Char} {cs : List Char} {fault : Numeral.Fault}
    (h : Lexeme.read c cs = .error fault) : fault.2.kind = .lexical := by
  simp only [read] at h
  split at h
  · rename_i hn
    cases h
    exact Numeral.kind_of_length? hn
  · cases h
  · split at h
    · cases h
    · split at h <;> cases h
      rfl

theorem Cursor.kind_of_next {k : Cursor} {e : SourceError} (h : k.next = .error e) :
    e.cause.kind = .lexical := by
  simp only [next] at h
  split at h
  · cases h
  · split at h
    · rename_i hread
      cases h
      exact Lexeme.kind_of_read hread
    · cases h

/-- The scanner has lexical errors only. -/
theorem Cursor.kind_of_scanOnto {k : Cursor} {seen : List Token} {e : SourceError}
    (h : (k.scanOnto seen).ending = .error e) : e.cause.kind = .lexical := by
  induction k, seen using scanOnto.induct with
  | case1 k seen e' hk =>
    rw [scanOnto_of_error hk] at h
    cases h
    exact kind_of_next hk
  | case2 k seen hk =>
    rw [scanOnto_of_none hk] at h
    cases h
  | case3 k seen t k' hk ih =>
    rw [scanOnto_of_some hk] at h
    exact ih h

/-! ## Errors of the parser -/

theorem Settles.position_eq {σ τ : Type} {F : σ → τ → Prop} {place position : Nat} {cause : Cause}
    {q : Option τ} (h : Settles F place (.error (.rejected ⟨position, cause⟩)) q) :
    position = place := by
  cases h
  rfl

namespace Parser.State

variable {scope : Scope} {s s' : State} {o : Outline} {t : Token} {position : Nat} {cause : Cause}

theorem position_of_loadConstant {text : String} {offset : Nat}
    (h : s.loadConstant text offset = .error (.rejected ⟨position, cause⟩)) :
    position = offset := by
  simp only [loadConstant] at h
  split at h <;> cases h
  rfl

/-- A parenthesis is refused where it stands, if there are too many. -/
theorem position_of_enter {opening : Opening} {offset : Nat}
    (h : s.enter offset opening = .error (.rejected ⟨position, cause⟩)) :
    position = offset ∧ maxNesting ≤ s.frames.length := by
  unfold enter at h
  split at h
  · cases h
  · rename_i hlt
    cases h
    exact ⟨rfl, Nat.not_lt.mp hlt⟩

/-- A token in the place of an operand is refused where it stands. -/
theorem position_of_operand (h : s.operand t = .error (.rejected ⟨position, cause⟩)) :
    position = t.offset := by
  have hsign : ∀ op, s.sign op t = .error (.rejected ⟨position, cause⟩) → position = t.offset := by
    intro op h
    unfold sign at h
    split at h <;> cases h <;> rfl
  unfold operand at h
  split at h
  · exact position_of_loadConstant h
  · cases h
  · exact (position_of_enter h).1
  · exact hsign _ h
  · exact hsign _ h
  · cases h; rfl
  · split at h <;> cases h <;> rfl
  · cases h; rfl

/-- The places at which a token is refused that comes after what an outline has read.  The token
stands at `here`, and so does the end of a text. -/
inductive Site (scope : Scope) (s : State) (o : Outline) (here : Nat) : Nat → Prop
  | operand (expected : o.focus = .operand) : Site scope s o here here
  | settled {x : Tree} (settled : o.focus.settle? scope = some x)
      (fits : Fits (Outline.emitted { o with focus := .tree x })) : Site scope s o here here
  /-- the parenthesis after the name of a function -/
  | deep (full : maxNesting ≤ o.enclosures.length) : Site scope s o here here
  /-- the name before -/
  | pending {name : String} {place : Nat} (expecting : s.expecting = .afterName name place) :
      Site scope s o here place
  /-- the end of the name before, which is that of a function -/
  | uncalled {name : String} {place : Nat} (expecting : s.expecting = .afterName name place)
      {f : FunctionName} (function : FunctionName.ofSpelling? name = some f) :
      Site scope s o here (place + name.utf8ByteSize)

/-- A name is refused at its start or, for a function, at its end. -/
theorem site_of_loadName {name : String} {place here : Nat}
    (hexpecting : s.expecting = .afterName name place)
    (h : s.loadName scope name place = .error (.rejected ⟨position, cause⟩)) :
    Site scope s o here position := by
  unfold loadName at h
  split at h
  · rename_i f hf
    cases h
    exact .uncalled hexpecting hf
  · split at h
    · cases h
      exact .pending hexpecting
    · cases h
    · rw [position_of_loadConstant h]
      exact .pending hexpecting

/-- A name that was loaded stands for an operand that fits. -/
theorem settled_of_loadName {name : String} {place : Nat} (h : s.Follows o)
    (hf : o.focus = .name name) (hload : s.loadName scope name place = .ok s') :
    ∃ x, o.focus.settle? scope = some x ∧ s'.Follows { o with focus := .tree x } := by
  have hagrees := loadName_agrees scope h (by rw [hf]; rfl) name place
  rw [hload] at hagrees
  cases hx : nameTree? scope name with
  | none =>
    rw [hx] at hagrees
    cases hagrees
  | some x =>
    rw [hx] at hagrees
    cases hagrees with
    | follows hfollows => exact ⟨x, by rw [hf]; exact hx, hfollows⟩

/-- After an operand, a refusal that needs no room is at the token. -/
theorem site_of_settles {σ τ : Type} {F : σ → τ → Prop} {here : Nat} {q : Option τ} {x : Tree}
    (hx : o.focus.settle? scope = some x) (hfollows : s'.Follows { o with focus := .tree x })
    (h : Settles F here (.error (.rejected ⟨position, cause⟩)) q) :
    Site scope s o here position := by
  rw [h.position_eq]
  exact .settled hx hfollows.draft.fits

/-- **Where a token is refused.** -/
theorem site_of_step (h : s.Follows o)
    (he : s.step scope t = .error (.rejected ⟨position, cause⟩)) :
    Site scope s o t.offset position := by
  obtain ⟨focus, hs, es⟩ := o
  have hexpects := h.expecting
  unfold step at he
  generalize hexpecting : s.expecting = expecting at hexpects he
  cases focus with
  | operand =>
    cases hexpects
    rw [position_of_operand he]
    exact .operand rfl
  | tree x =>
    cases hexpects
    have hsettles := operator_settles h rfl t
    have herror : s.operator t = .error (.rejected ⟨position, cause⟩) := he
    rw [herror] at hsettles
    exact site_of_settles rfl h hsettles
  | name name =>
    cases hexpects with
    | afterName _ place =>
      simp only at he
      split at he
      · unfold openCall at he
        split at he
        · cases he
          exact .pending hexpecting
        · obtain ⟨rfl, hfull⟩ := position_of_enter he
          exact .deep (h.frames.length_eq ▸ hfull)
      · split at he
        · rename_i e hload
          cases he
          exact site_of_loadName hexpecting hload
        · rename_i s' hload
          obtain ⟨x, hx, hfollows⟩ := settled_of_loadName h rfl hload
          have hsettles := operator_settles hfollows rfl t
          rw [he] at hsettles
          exact site_of_settles hx hfollows hsettles

/-- **Where the end of the text is refused.** -/
theorem site_of_finish {offset : Nat} (h : s.Follows o)
    (he : s.finish scope offset = .error (.rejected ⟨position, cause⟩)) :
    Site scope s o offset position := by
  obtain ⟨focus, hs, es⟩ := o
  have hexpects := h.expecting
  unfold finish at he
  generalize hexpecting : s.expecting = expecting at hexpects he
  cases focus with
  | operand =>
    cases hexpects
    cases he
    exact .operand rfl
  | tree x =>
    cases hexpects
    have hsettles := finishOperand_settles scope h rfl offset
    have herror : s.finishOperand offset = .error (.rejected ⟨position, cause⟩) := he
    rw [herror] at hsettles
    exact site_of_settles rfl h hsettles
  | name name =>
    cases hexpects with
    | afterName _ place =>
      simp only at he
      split at he
      · rename_i e hload
        cases he
        exact site_of_loadName hexpecting hload
      · rename_i s' hload
        obtain ⟨x, hx, hfollows⟩ := settled_of_loadName h rfl hload
        have hsettles := finishOperand_settles scope hfollows rfl offset
        rw [he] at hsettles
        exact site_of_settles hx hfollows hsettles

/-! ## The name before -/

/-- A run that is refused, up to the token that is. -/
theorem exists_step_of_run {ts : List Token} {e : Failure} (h : s.run scope ts = .error e) :
    ∃ u t v s', ts = u ++ t :: v ∧ s.run scope u = .ok s' ∧ s'.step scope t = .error e := by
  induction ts generalizing s with
  | nil => cases h
  | cons t ts ih =>
    unfold run at h
    cases hs : s.step scope t with
    | error e' =>
      rw [hs] at h
      cases h
      exact ⟨[], t, ts, s, rfl, rfl, hs⟩
    | ok s₁ =>
      rw [hs] at h
      obtain ⟨u, t', v, s', rfl, hu, hstep⟩ := ih h
      refine ⟨t :: u, t', v, s', rfl, ?_, hstep⟩
      simp only [run, hs, hu]

/-- A run stops at the first token that is refused. -/
theorem run_of_refused {u v : List Token} {e : Failure} (hrun : s.run scope u = .ok s')
    (hrefused : s'.step scope t = .error e) : s.run scope (u ++ t :: v) = .error e := by
  induction u generalizing s with
  | nil =>
    cases hrun
    simp only [List.nil_append, run, hrefused]
  | cons t₀ u ih =>
    rw [List.cons_append]
    unfold run at hrun ⊢
    cases hs : s.step scope t₀ with
    | error e' =>
      rw [hs] at hrun
      cases hrun
    | ok s₁ =>
      rw [hs] at hrun
      exact ih hrun

/-- A run in two parts. -/
theorem run_append {u v : List Token} (h : s.run scope (u ++ v) = .ok s') :
    ∃ s₁, s.run scope u = .ok s₁ ∧ s₁.run scope v = .ok s' := by
  induction u generalizing s with
  | nil => exact ⟨s, rfl, h⟩
  | cons t u ih =>
    rw [List.cons_append] at h
    unfold run at h
    cases hs : s.step scope t with
    | error e => rw [hs] at h; cases h
    | ok s₂ =>
      rw [hs] at h
      obtain ⟨s₁, hu, hv⟩ := ih h
      refine ⟨s₁, ?_, hv⟩
      simp only [run, hs, hu]

/-- The tokens of a text, up to a place that the parser reaches, and an outline of them. -/
theorem follows_of_tokens {source : String} {u v : List Token}
    (htokens : (scan source).tokens = u ++ v) (hrun : start.run scope u = .ok s) :
    ∃ o, s.Follows o ∧ (u.map (·.lexeme)).foldlM (Outline.step scope) .start = some o ∧
      NestsWithin 256 (u.map (·.lexeme)) := by
  have hsigned : Token.Signed none u := by
    have hall := scan_signed source
    rw [htokens] at hall
    exact hall.of_append
  obtain ⟨o, hr, hfollows, hnests⟩ := follows_of_run follows_start Outline.after_start hsigned hrun
  exact ⟨o, hfollows, hr, nestsFrom_zero.mp hnests⟩

/-- **A pending name is the last token,** and it stands where an operand was expected. -/
theorem exists_name_of_run {source name : String} {u v : List Token} {place : Nat}
    (htokens : (scan source).tokens = u ++ v) (hrun : start.run scope u = .ok s)
    (hexpecting : s.expecting = .afterName name place) :
    ∃ u' t s', u = u' ++ [t] ∧ t.lexeme = .name name ∧ t.offset = place ∧
      start.run scope u' = .ok s' ∧ s'.expecting = .operand := by
  rcases List.eq_nil_or_concat u with rfl | ⟨u', t, rfl⟩
  · cases hrun
    cases hexpecting
  rw [List.concat_eq_append] at htokens hrun ⊢
  obtain ⟨s₁, hrun₁, hlast⟩ := run_append hrun
  obtain ⟨o, hfollows, hr, -⟩ := follows_of_tokens htokens hrun
  obtain ⟨o₁, hfollows₁, hr₁, -⟩ := follows_of_tokens (by rw [htokens, List.append_assoc]) hrun₁
  -- the outline says that the last token was a name, and the parser where it stands
  have hstep : s₁.step scope t = .ok s := by
    cases hs : s₁.step scope t with
    | error e => simp [run, hs] at hlast
    | ok s₂ => simpa [run, hs] using hlast
  have hmove : o₁.step scope t.lexeme = some o := by
    rw [List.map_append, List.foldlM_append, hr₁] at hr
    simpa using hr
  have hfocus : o.focus = .name name := by
    have hexpects := hfollows.expecting
    rw [hexpecting] at hexpects
    generalize o.focus = focus at hexpects
    cases hexpects
    rfl
  have hexpects₁ := hfollows₁.expecting
  generalize hl : t.lexeme = l at hmove
  cases Outline.moves_of_step hmove with
  | name spelling hs es =>
    cases hfocus
    generalize hs₁ : s₁.expecting = expecting at hexpects₁
    cases hexpects₁
    have hoperand : s₁.operand t = .ok s := by
      simpa only [step, hs₁] using hstep
    simp only [operand, hl] at hoperand
    cases hoperand
    cases hexpecting
    exact ⟨u', t, s₁, rfl, hl, rfl, hrun₁, hs₁⟩
  | _ => cases hfocus

end Parser.State

/-! ## Places in the text -/

namespace Text

theorem splitOnto_append (seen cs after : List Char) :
    splitOnto seen (cs ++ after) (byteLength cs) = some (seen.reverse ++ cs, after) := by
  induction cs generalizing seen with
  | nil => simp [splitOnto, byteLength]
  | cons c cs ih =>
    have hpos := c.utf8Size_pos
    obtain ⟨n, hn⟩ : ∃ n, byteLength (c :: cs) = n + 1 :=
      ⟨c.utf8Size + byteLength cs - 1, by rw [byteLength]; omega⟩
    have hsize : c.utf8Size + byteLength cs = n + 1 := hn
    rw [hn, List.cons_append, splitOnto, if_pos (by omega)]
    have hrest : n + 1 - c.utf8Size = byteLength cs := by omega
    rw [hrest, ih]
    simp

/-- A text is cut after any of its characters. -/
theorem splitAtByte?_append (cs after : List Char) :
    splitAtByte? (cs ++ after) (byteLength cs) = some (cs, after) := splitOnto_append [] cs after

theorem utf8ByteSize_eq (s : String) : s.utf8ByteSize = byteLength s.toList := by
  obtain ⟨cs, rfl⟩ : ∃ cs, s = String.ofList cs := ⟨s.toList, String.ofList_toList.symm⟩
  rw [String.toList_ofList]
  induction cs with
  | nil => rfl
  | cons c cs ih =>
    rw [String.ofList_cons, String.utf8ByteSize_append, String.utf8ByteSize_singleton, ih,
      byteLength]

end Text

/-- The text before a position is spelled by tokens. -/
def Cuts (source : String) (u : List Token) (position : Nat) : Prop :=
  ∃ cs after, source.toList = cs ++ after ∧ Spells cs (u.map (·.lexeme)) after ∧
    position = cs.length

section Cuts

variable {source : String} {u v : List Token} {t : Token}

/-- In front of a token. -/
theorem cuts_offset (h : (scan source).tokens = u ++ t :: v) : Cuts source u t.offset := by
  obtain ⟨cs, after, htext, hspells, hoffset, -⟩ := scan_split h
  exact ⟨cs, _, htext, hspells, hoffset⟩

/-- Right after a token. -/
theorem cuts_stop (h : (scan source).tokens = u ++ t :: v) : Cuts source (u ++ [t]) t.stop := by
  obtain ⟨cs, after, htext, hspells, hoffset, hstands⟩ := scan_split h
  refine ⟨cs ++ t.text.toList, after, by rw [htext, List.append_assoc], ?_, ?_⟩
  · have hlast : Spells (t.text.toList ++ []) [t.lexeme] after := .lexeme hstands (.nil after)
    rw [List.append_nil] at hlast
    rw [List.map_append]
    exact hspells.trans hlast
  · have hbytes : Text.byteLength t.text.toList = t.text.toList.length :=
      Text.byteLength_eq_length hstands.utf8Size
    rw [Token.stop, hoffset, Text.utf8ByteSize_eq, hbytes, List.length_append]

/-- At the end of the text. -/
theorem cuts_end {offset : Nat} (h : (scan source).ending = .ok offset) :
    Cuts source (scan source).tokens offset := by
  obtain ⟨hspells, hoffset⟩ := spells_of_scan h
  exact ⟨source.toList, [], (List.append_nil _).symm, hspells, hoffset⟩

end Cuts

/-! ## The text before an error -/

/-- How many parentheses a text leaves open. -/
def openParens (text : String) : Nat :=
  (lexemes text).count .openParen - (lexemes text).count .closeParen

/-- A text can be cut at a position, and what stands before is the beginning of a formula unless 256
parentheses are open. -/
def ViableAt (scope : Scope) (source : String) (position : Nat) : Prop :=
  ∃ before after, Text.splitAtByte? source.toList position = some (before, after) ∧
    (openParens (String.ofList before) < 256 →
      ∃ t p, parse scope (String.ofList before ++ t) = .ok p)

/-- Where a text is cut and the outline can be completed, the text before is viable. -/
theorem viableAt_of_cuts {scope : Scope} {source : String} {u : List Token} {position : Nat}
    {o : Outline} (hcut : Cuts source u position)
    (hrun : (u.map (·.lexeme)).foldlM (Outline.step scope) .start = some o)
    (hnests : NestsWithin 256 (u.map (·.lexeme))) (hsound : ∀ e ∈ o.enclosures, e.Sound)
    (hopen : o.enclosures.length < 256 → ∃ ms, o.Open scope ms ∧ Fits ms) :
    ViableAt scope source position := by
  obtain ⟨cs, after, htext, hspells, rfl⟩ := hcut
  refine ⟨cs, after, ?_, fun hparens => ?_⟩
  · rw [htext, ← hspells.byteLength]
    exact Text.splitAtByte?_append cs after
  · have hlexemes : lexemes (String.ofList cs) = u.map (·.lexeme) := by
      refine (scan_of_spells ?_).1
      rw [String.toList_ofList]
      exact hspells.replace fun l hl => hl.none
    rw [openParens, hlexemes] at hparens
    have hlength : o.enclosures.length + (u.map (·.lexeme)).count .closeParen =
        0 + (u.map (·.lexeme)).count .openParen := Outline.length_run hrun
    obtain ⟨ms, hms, hfits⟩ := hopen (by omega)
    exact exists_parse_of_open hspells hrun hnests hms hsound hfits

/-- **Every place of an error is viable.** -/
theorem viableAt_of_site {scope : Scope} {source : String} {u v : List Token} {s : Parser.State}
    {o : Outline} {here position : Nat} (htokens : (scan source).tokens = u ++ v)
    (hrun : Parser.State.start.run scope u = .ok s) (hfollows : s.Follows o)
    (hr : (u.map (·.lexeme)).foldlM (Outline.step scope) .start = some o)
    (hnests : NestsWithin 256 (u.map (·.lexeme))) (hhere : Cuts source u here)
    (hsite : Parser.State.Site scope s o here position) : ViableAt scope source position := by
  cases hsite with
  | operand expected =>
    refine viableAt_of_cuts hhere hr hnests hfollows.frames.sound fun _ => ?_
    obtain ⟨focus, hs, es⟩ := o
    cases expected
    exact ⟨_, .operand hs es, hfollows.draft.fits⟩
  | settled settled fits =>
    refine viableAt_of_cuts hhere hr hnests hfollows.frames.sound fun _ => ?_
    exact ⟨_, .settled settled o.holes o.enclosures, fits⟩
  | deep full =>
    -- the one place where nothing helps, which the bound on open parentheses leaves out
    refine viableAt_of_cuts hhere hr hnests hfollows.frames.sound fun hlt => ?_
    exact absurd full (Nat.not_le.mpr hlt)
  | pending expecting =>
    obtain ⟨u', t, s', rfl, -, rfl, hrun', hoperand⟩ :=
      Parser.State.exists_name_of_run htokens hrun expecting
    have htokens' : (scan source).tokens = u' ++ t :: v := by rw [htokens]; simp
    obtain ⟨⟨focus, hs, es⟩, hfollows', hr', hnests'⟩ :=
      Parser.State.follows_of_tokens htokens' hrun'
    refine viableAt_of_cuts (cuts_offset htokens') hr' hnests' hfollows'.frames.sound fun _ => ?_
    have hexpects := hfollows'.expecting
    rw [hoperand] at hexpects
    cases hexpects
    exact ⟨_, .operand hs es, hfollows'.draft.fits⟩
  | @uncalled name place expecting f function =>
    obtain ⟨u', t, s', rfl, hname, rfl, -, -⟩ :=
      Parser.State.exists_name_of_run htokens hrun expecting
    have htokens' : (scan source).tokens = u' ++ t :: v := by rw [htokens]; simp
    have hstop : t.offset + name.utf8ByteSize = t.stop := by rw [Token.stop, Token.text, hname]; rfl
    rw [hstop]
    refine viableAt_of_cuts (cuts_stop htokens') hr hnests hfollows.frames.sound fun hlt => ?_
    have hexpects := hfollows.expecting
    obtain ⟨focus, hs, es⟩ := o
    rw [expecting, ← FunctionName.spelling_of_ofSpelling? function] at hexpects
    cases hexpects
    exact ⟨_, .function f hs es hlt, hfollows.draft.fits⟩

/-- **Errors are reported at once.**  The position of an error that is not lexical lies in the text
and between two characters.  Unless 256 parentheses are open there, some text can be put after what
stands before the position such that the parser accepts the whole, with the same inputs. -/
theorem viable_of_rejected {scope : Scope} {source : String} {position : Nat} {cause : Cause}
    (h : parse scope source = .error (.rejected ⟨position, cause⟩))
    (hkind : cause.kind = .syntactic ∨ cause.kind = .semantic) :
    ∃ before after, Text.splitAtByte? source.toList position = some (before, after) ∧
      (openParens (String.ofList before) < 256 →
        ∃ t p, parse scope (String.ofList before ++ t) = .ok p) := by
  show ViableAt scope source position
  unfold parse at h
  split at h
  · cases h
    have hcut : Cuts source [] 0 := ⟨[], source.toList, rfl, .nil _, rfl⟩
    exact viableAt_of_site (v := (scan source).tokens) rfl rfl Parser.State.follows_start rfl
      (fun u hu => by simp [List.prefix_nil.mp hu]) hcut (.operand rfl)
  · simp only at h
    split at h
    · rename_i e hrun
      cases h
      obtain ⟨u, t, v, s, htokens, hrun, hstep⟩ := Parser.State.exists_step_of_run hrun
      obtain ⟨o, hfollows, hr, hnests⟩ := Parser.State.follows_of_tokens htokens hrun
      exact viableAt_of_site htokens hrun hfollows hr hnests (cuts_offset htokens)
        (Parser.State.site_of_step hfollows hstep)
    · rename_i s hrun
      split at h
      · rename_i e hend
        cases h
        have hlexical := Cursor.kind_of_scanOnto hend
        simp [hlexical] at hkind
      · rename_i offset hend
        split at h
        · rename_i e hfinish
          cases h
          have htokens : (scan source).tokens = (scan source).tokens ++ [] :=
            (List.append_nil _).symm
          obtain ⟨o, hfollows, hr, hnests⟩ := Parser.State.follows_of_tokens htokens hrun
          exact viableAt_of_site htokens hrun hfollows hr hnests (cuts_end hend)
            (Parser.State.site_of_finish hfollows hfinish)
        · cases h

/-- The name of a function without its parenthesis, as the second argument of a call. -/
theorem viable_of_rejected_uncalled :
    parse ⟨1, []⟩ "max(x0, sin x0)" = .error (.rejected ⟨11, .callWithoutParentheses "sin"⟩) ∧
      openParens "max(x0, sin" < 256 ∧
      ∃ t p, parse ⟨1, []⟩ ("max(x0, sin" ++ t) = .ok p := by
  have hrejected : parse ⟨1, []⟩ "max(x0, sin x0)" =
      .error (.rejected ⟨11, .callWithoutParentheses "sin"⟩) := by
    have herror : (match parse ⟨1, []⟩ "max(x0, sin x0)" with
        | .ok _ => none
        | .error e => some e) = some (.rejected ⟨11, .callWithoutParentheses "sin"⟩) := by
      decide +kernel
    generalize parse ⟨1, []⟩ "max(x0, sin x0)" = r at herror ⊢
    cases r with
    | ok p => cases herror
    | error e => rw [Option.some.inj herror]
  obtain ⟨before, after, hsplit, hviable⟩ := viable_of_rejected hrejected (.inl rfl)
  have hbefore : Text.splitAtByte? "max(x0, sin x0)".toList 11 =
      some ("max(x0, sin".toList, " x0)".toList) := by decide +kernel
  rw [hbefore] at hsplit
  cases hsplit
  have hparens : openParens "max(x0, sin" < 256 := by decide +kernel
  rw [String.ofList_toList] at hviable
  exact ⟨hrejected, hparens, hviable hparens⟩

end Formula
