import Formula.Proofs.Descent

/-!
# What the parser answers from a place on

`Parser.State.answer` is what the machine answers when it goes on from a state and a cursor to the
end of the text, and `parse` is what it answers from the start (`parse_eq`).

* **Tokens.**  `answer_of_ok` and `answer_of_error` take one token from the text; `answerTo` is what
  is answered when the token has been taken and the machine has not looked at it yet.
* **The end of a part.**  The machine does in one step what the loop, the part and the parenthesis
  around it do one after another: operators that wait are written (`answerTo_emitAll`), then the
  token is compared with the one that has to end the part, then the text outside is read on
  (`answerTo_inside`, `answerTo_whole`).
* **Names.**  The machine waits after a name for the next token, which only matters where that is an
  opening parenthesis (`answer_afterName`).
-/

namespace Formula

open Cursor (Reply)

/-! ## The machine, from a place of the text on -/

/-- What a scan finds does not depend on the tokens seen before. -/
theorem Cursor.scanOnto_eq (k : Cursor) (seen : List Token) :
    k.scanOnto seen = ⟨seen.reverse ++ (k.scanOnto []).tokens, (k.scanOnto []).ending⟩ := by
  suffices h : ∃ scanned : Scanned, ∀ seen,
      k.scanOnto seen = ⟨seen.reverse ++ scanned.tokens, scanned.ending⟩ by
    obtain ⟨scanned, h⟩ := h
    rw [h seen, h [], List.reverse_nil, List.nil_append]
  induction k, seen using scanOnto.induct with
  | case1 k seen e h => exact ⟨⟨[], .error e⟩, fun seen => by simp [scanOnto_of_error h]⟩
  | case2 k seen h => exact ⟨⟨[], .ok _⟩, fun seen => by simp [scanOnto_of_none h]; rfl⟩
  | case3 k seen t k' h ih =>
    obtain ⟨scanned, hscan⟩ := ih
    exact ⟨⟨t :: scanned.tokens, scanned.ending⟩, fun seen => by simp [scanOnto_of_some h, hscan]⟩

namespace Parser.State

variable {scope : Scope} {s : State} {k k' : Cursor} {found : Reply}

/-- What the machine answers, from a state and a place of the text on. -/
def answer (scope : Scope) (s : State) (k : Cursor) : Except Failure Draft :=
  match s.run scope (k.scanOnto []).tokens with
  | .error e => .error e
  | .ok s =>
    match (k.scanOnto []).ending with
    | .error e => .error (.rejected e)
    | .ok offset => s.finish scope offset

/-- What it answers after a step. -/
def answerAfter (scope : Scope) (r : Except Failure State) (k : Cursor) : Except Failure Draft :=
  match r with
  | .error e => .error e
  | .ok s => s.answer scope k

/-- What it answers when the next token, or the end of the text, has been taken. -/
def answerTo (scope : Scope) (s : State) (found : Reply) (k : Cursor) : Except Failure Draft :=
  match found with
  | .token t => answerAfter scope (s.step scope t) k
  | .ending offset => s.finish scope offset

theorem answer_of_error {e : SourceError} (h : k.take.1 = .error e) :
    s.answer scope k = .error (.rejected e) := by
  unfold Cursor.take at h
  split at h <;> cases h
  rename_i h
  simp only [answer, Cursor.scanOnto_of_error h, List.reverse_nil, run]

theorem answer_of_ok (h : k.take = (.ok found, k')) :
    s.answer scope k = s.answerTo scope found k' := by
  unfold Cursor.take at h
  split at h <;> cases h
  · rename_i h
    simp only [answer, Cursor.scanOnto_of_none h, List.reverse_nil, run, answerTo]
  · rename_i t h
    have hscan := Cursor.scanOnto_of_some h []
    rw [Cursor.scanOnto_eq k' [t]] at hscan
    simp only [answer, hscan, List.reverse_singleton, List.singleton_append, run, answerTo]
    cases s.step scope t <;> rfl

end Parser.State

/-- Parsing a text that is not blank is what the machine answers from the start on. -/
theorem parse_eq (scope : Scope) (source : String) :
    parse scope source = if source.toList.all Text.isWhite = true then .error (.of 0 .emptyFormula)
      else (Parser.State.start.answer scope (.start source)).map
        (·.toProgram source scope.inputs) := by
  unfold parse Parser.State.answer scan
  split
  · rfl
  · dsimp only
    cases Parser.State.start.run scope ((Cursor.start source).scanOnto []).tokens with
    | error e => rfl
    | ok s =>
      dsimp only
      cases ((Cursor.start source).scanOnto []).ending with
      | error e => rfl
      | ok offset =>
        dsimp only
        cases s.finish scope offset <;> rfl

/-! ## The machine at the end of a part -/

/-- The part inside of some open parentheses. -/
def Context.inside : List Frame → Context
  | [] => .formula
  | frame :: _ => frame.context

theorem Frame.context_ne_formula (frame : Frame) : frame.context ≠ .formula := by
  unfold context
  split <;> nofun

/-- An argument of a call is the last one if no more come after it. -/
theorem Frame.context_call {place complete depth more : Nat} {f : FunctionName}
    (h : complete + 1 + more = f.arity) (outside : List Waiting) :
    (Frame.mk (.call place f complete depth) outside).context = .argument (more == 0) := by
  show Context.argument (complete + 1 == f.arity) = _
  rw [← h]
  simp

namespace Parser.State

variable {scope : Scope} {d : Draft} {frame : Frame} {frames : List Frame} {waiting : List Waiting}
  {found : Reply} {k : Cursor}

/-- A token that ends a part is taken as its end. -/
theorem step_of_endsPart {t : Token} (h : (Reply.token t).endsPart = true) (d : Draft)
    (waiting : List Waiting) (frames : List Frame) :
    (State.mk d waiting frames .operator).step scope t =
      (State.mk d waiting frames .operator).leave t.lexeme t.offset := by
  simp only [Reply.endsPart, Reply.lexeme?] at h
  simp only [step, operator]
  split <;> simp_all [close, comma]

/-- At the end of a part the operators that wait are written first. -/
theorem answerTo_emitAll (h : found.endsPart = true) :
    (State.mk d waiting frames .operator).answerTo scope found k =
      match d.emitAll waiting with
      | .error e => .error e
      | .ok d => (State.mk d [] frames .operator).answerTo scope found k := by
  cases found with
  | ending offset =>
    simp only [answerTo, finish, finishOperand, Draft.emitAll, context]
    cases d.emitAll waiting <;> rfl
  | token t =>
    simp only [answerTo, step_of_endsPart h, leave, Draft.emitAll]
    cases d.emitAll waiting <;> rfl

/-- A part inside of a parenthesis has to end as the parenthesis says. -/
theorem answerTo_inside (h : found.endsPart = true) :
    (State.mk d [] (frame :: frames) .operator).answerTo scope found k =
      if frame.context.ending = found.lexeme? then
        answerAfter scope (resume d frame frames) k
      else .error (.of found.offset (frame.context.refusal found.lexeme?)) := by
  cases found with
  | ending offset =>
    have hnone : frame.context.ending ≠ (Reply.ending offset).lexeme? := frame.ending_ne_none
    rw [if_neg hnone]
    exact if_neg hnone
  | token t =>
    simp only [answerTo, step_of_endsPart h, leave, Draft.emitAll]
    by_cases hending : frame.context.ending = (Reply.token t).lexeme?
    · have hlexeme : frame.context.ending = some t.lexeme := hending
      rw [if_pos hending, if_pos hlexeme]
    · have hlexeme : frame.context.ending ≠ some t.lexeme := hending
      rw [if_neg hending, if_neg hlexeme]
      rfl

/-- The whole formula has to end with the text. -/
theorem answerTo_whole (h : found.endsPart = true) :
    (State.mk d [] [] .operator).answerTo scope found k =
      if found.lexeme? = none then
        if d.depth = 1 then .ok d else .error (.of found.offset .countMismatch)
      else .error (.of found.offset (Context.formula.refusal found.lexeme?)) := by
  cases found with
  | ending offset => rfl
  | token t =>
    simp only [answerTo, step_of_endsPart h, leave, Draft.emitAll]
    rfl

theorem loadConstant_eq (expecting : Expecting) (text : String) (offset : Nat) :
    (State.mk d waiting frames expecting).loadConstant text offset =
      (d.loadConstant text offset).map fun d => ⟨d, waiting, frames, .operator⟩ := by
  simp only [loadConstant, Draft.loadConstant]
  cases d.loadConstant? text <;> rfl

theorem loadName_eq (expecting : Expecting) (name : String) (offset : Nat) :
    (State.mk d waiting frames expecting).loadName scope name offset =
      (d.loadName scope name offset).map fun d => ⟨d, waiting, frames, .operator⟩ := by
  simp only [loadName, Draft.loadName, loadConstant_eq]
  cases FunctionName.ofSpelling? name with
  | some f => rfl
  | none =>
    cases scope.resolve name with
    | error cause => rfl
    | ok operand => cases operand <;> rfl

/-- Nothing has been read in a group. -/
theorem inEmptyGroup_context (expecting : Expecting) :
    (State.mk d waiting frames expecting).inEmptyGroup =
      (waiting.isEmpty && Context.inside frames == .group) := by
  unfold inEmptyGroup
  cases frames with
  | nil => rfl
  | cons frame frames =>
    obtain ⟨opening, outside⟩ := frame
    cases opening <;> rfl

/-- A name that no parenthesis follows is loaded. -/
theorem answer_afterName {name : String} {offset : Nat} (htake : k.take.1 = .ok found)
    (h : found.lexeme? ≠ some .openParen) :
    (State.mk d waiting frames (.afterName name offset)).answer scope k =
      match d.loadName scope name offset with
      | .error e => .error e
      | .ok d => (State.mk d waiting frames .operator).answer scope k := by
  have hcall : k.take = (.ok found, k.take.2) := Prod.ext htake rfl
  simp only [answer_of_ok hcall]
  cases found with
  | ending stop =>
    simp only [answerTo, finish, loadName_eq]
    cases d.loadName scope name offset <;> rfl
  | token t =>
    have hparen : t.lexeme ≠ .openParen := fun heq => h (congrArg some heq)
    simp only [answerTo, step, if_neg hparen, loadName_eq]
    cases d.loadName scope name offset <;> rfl

end Parser.State

end Formula
