import Formula.Proofs.Refusals
import Mathlib.Data.List.Forall2

/-!
# Blanks do not matter

Two texts with the same lexemes differ in their blanks only, and with them in the places of their
tokens.  The parser reads lexemes.  It carries places along, and what it does never depends on them:
they come back in its errors and nowhere else.

So the two texts are parsed side by side, a token of one with the token of the same index of the
other, and `Alike` says of two tokens, two waiting operators, two frames or two states that they are
the same up to their places.  Which places belong together is a parameter, one relation for the
starts of tokens and one for their ends.  `Parallel` says it of two answers.  A step takes states
that are alike to answers that are parallel (`step_parallel`), and so does a run (`run_parallel`).

Two things that look at the text itself have to be shown to look at lexemes only.  How a sign is
read was recorded by the scanner from the characters before it (`scan_signed`).  And a text is empty
if all of its characters are white, of which there are more than blanks: where the scanner reaches
the end, this is to have no lexemes (`white_iff`).
-/

namespace Formula

/-! ## What belongs together -/

/-- How the places of one error in two texts belong together.  An error is at the start of a token,
but for a function that is not called, which is reported at its end, and for an empty formula. -/
def Cause.Places (starts stops : Nat → Nat → Prop) (cause : Cause) (p q : Nat) : Prop :=
  match cause with
  | .emptyFormula => p = 0 ∧ q = 0
  | .callWithoutParentheses _ => stops p q
  | _ => starts p q

section Alike

variable (starts stops : Nat → Nat → Prop)

/-- Two tokens of one lexeme. -/
structure Token.Alike (t t' : Token) : Prop where
  lexeme : t.lexeme = t'.lexeme
  sign : t.sign = t'.sign
  start : starts t.offset t'.offset
  stop : stops t.stop t'.stop

/-- Two places of one waiting operator. -/
structure Waiting.Alike (w w' : Waiting) : Prop where
  op : w.op = w'.op
  start : starts w.offset w'.offset

/-- Two parentheses that were opened by the same. -/
inductive Opening.Alike : Opening → Opening → Prop
  | group : Alike .group .group
  | call {p q : Nat} (start : starts p q) (f : FunctionName) (complete depth : Nat) :
      Alike (.call p f complete depth) (.call q f complete depth)

/-- Two frames that are the same up to places. -/
inductive Frame.Alike : Frame → Frame → Prop
  | intro {o o' : Opening} {ws ws' : List Waiting} (opening : o.Alike starts o')
      (outside : List.Forall₂ (Waiting.Alike starts) ws ws') : Alike ⟨o, ws⟩ ⟨o', ws'⟩

/-- The same is expected, after a name that both texts have. -/
inductive Expecting.Alike : Expecting → Expecting → Prop
  | operand : Alike .operand .operand
  | operator : Alike .operator .operator
  | afterName {p q : Nat} (name : String) (start : starts p q)
      (stop : stops (p + name.utf8ByteSize) (q + name.utf8ByteSize)) :
      Alike (.afterName name p) (.afterName name q)

/-- Two states that are the same up to places. -/
inductive Parser.State.Alike : State → State → Prop
  | intro (d : Draft) {ws ws' : List Waiting} {fs fs' : List Frame} {x x' : Expecting}
      (waiting : List.Forall₂ (Waiting.Alike starts) ws ws')
      (frames : List.Forall₂ (Frame.Alike starts) fs fs') (expecting : x.Alike starts stops x') :
      Alike ⟨d, ws, fs, x⟩ ⟨d, ws', fs', x'⟩

/-- Two failures that are the same up to places. -/
inductive Failure.Alike : Failure → Failure → Prop
  | rejected {cause : Cause} {p q : Nat} (h : cause.Places starts stops p q) :
      Alike (.of p cause) (.of q cause)
  | brokenCall : Alike .brokenCall .brokenCall

/-- Two answers that are the same up to places. -/
inductive Parallel {σ : Type} (alike : σ → σ → Prop) : Except Failure σ → Except Failure σ → Prop
  | ok {x y : σ} (h : alike x y) : Parallel alike (.ok x) (.ok y)
  | error {e e' : Failure} (h : e.Alike starts stops e') : Parallel alike (.error e) (.error e')

end Alike

variable {starts stops : Nat → Nat → Prop}

theorem Parallel.refused {σ : Type} {alike : σ → σ → Prop} {cause : Cause} {p q : Nat}
    (h : cause.Places starts stops p q) :
    Parallel starts stops alike (.error (.of p cause)) (.error (.of q cause)) :=
  .error (.rejected h)

/-- What a frame encloses depends on no place. -/
theorem Frame.Alike.context {frame frame' : Frame} (h : frame.Alike starts frame') :
    frame.context = frame'.context := by
  obtain ⟨opening, outside⟩ := h
  cases opening <;> rfl

/-- A name without a meaning is refused at its start. -/
theorem Scope.places_of_resolve {scope : Scope} {name : String} {cause : Cause} {p q : Nat}
    (h : scope.resolve name = .error cause) (hstart : starts p q) :
    cause.Places starts stops p q := by
  rcases cause_of_resolve h with rfl | rfl | rfl | rfl <;> exact hstart

/-- A part that ends wrongly is refused at the start of what was found. -/
theorem Context.places_refusal (c : Context) (found : Option Lexeme) {p q : Nat}
    (hstart : starts p q) : (c.refusal found).Places starts stops p q := by
  unfold refusal
  split <;> exact hstart

/-! ## Writing code -/

namespace Draft

variable {w w' : Waiting} {ws ws' : List Waiting}

theorem emit_parallel (d : Draft) (h : w.Alike starts w') :
    Parallel starts stops Eq (d.emit w) (d.emit w') := by
  unfold emit
  rw [h.op]
  split
  · exact .ok rfl
  · split
    · exact .ok rfl
    · exact .refused h.start

theorem emitAll_parallel (d : Draft) (h : List.Forall₂ (Waiting.Alike starts) ws ws') :
    Parallel starts stops Eq (d.emitAll ws) (d.emitAll ws') := by
  induction h generalizing d with
  | nil => exact .ok rfl
  | @cons w w' _ _ hw _ ih =>
    have hemit : Parallel starts stops Eq _ _ := emit_parallel d hw
    unfold emitAll
    generalize d.emit w = r, d.emit w' = r' at hemit
    cases hemit with
    | ok h => exact h ▸ ih _
    | error h => exact .error h

theorem emitAbove_parallel (d : Draft) (level : Nat)
    (h : List.Forall₂ (Waiting.Alike starts) ws ws') :
    Parallel starts stops (fun x y => x.1 = y.1 ∧ List.Forall₂ (Waiting.Alike starts) x.2 y.2)
      (d.emitAbove level ws) (d.emitAbove level ws') := by
  induction h generalizing d with
  | nil => exact .ok ⟨rfl, .nil⟩
  | @cons w w' _ _ hw hws ih =>
    have hemit : Parallel starts stops Eq _ _ := emit_parallel d hw
    unfold emitAbove
    rw [hw.op]
    split
    · generalize d.emit w = r, d.emit w' = r' at hemit
      cases hemit with
      | ok h => exact h ▸ ih _
      | error h => exact .error h
    · exact .ok ⟨rfl, .cons hw hws⟩

theorem emitCall_parallel (d : Draft) {p q : Nat} (f : FunctionName) (depth : Nat)
    (h : starts p q) : Parallel starts stops Eq (d.emitCall p f depth) (d.emitCall q f depth) := by
  unfold emitCall
  split
  · split
    · exact .refused h
    · split
      · exact .ok rfl
      · exact .refused h
  · exact .error .brokenCall

end Draft

/-! ## One token -/

namespace Parser.State

variable {s s' : State} {t t' : Token} {p q : Nat}

theorem enter_parallel (h : s.Alike starts stops s') (hstart : starts p q)
    {opening opening' : Opening} (hopening : opening.Alike starts opening') :
    Parallel starts stops (Alike starts stops) (s.enter p opening) (s'.enter q opening') := by
  obtain ⟨draft, waiting, frames, -⟩ := h
  simp only [enter, frames.length_eq]
  split
  · exact .ok ⟨draft, .nil, .cons ⟨hopening, waiting⟩ frames, .operand⟩
  · exact .refused hstart

theorem loadConstant_parallel (h : s.Alike starts stops s') (hstart : starts p q)
    (text : String) :
    Parallel starts stops (Alike starts stops) (s.loadConstant text p)
      (s'.loadConstant text q) := by
  obtain ⟨draft, waiting, frames, -⟩ := h
  simp only [loadConstant]
  split
  · exact .ok ⟨_, waiting, frames, .operator⟩
  · exact .refused hstart

/-- The end of a name matters only if it is that of a function. -/
theorem loadName_parallel (scope : Scope) (h : s.Alike starts stops s') {name : String}
    (hstart : starts p q)
    (hstop : stops (p + name.utf8ByteSize) (q + name.utf8ByteSize)) :
    Parallel starts stops (Alike starts stops) (s.loadName scope name p)
      (s'.loadName scope name q) := by
  unfold loadName
  split
  · exact .refused hstop
  · split
    · rename_i hresolve
      exact .refused (Scope.places_of_resolve hresolve hstart)
    · obtain ⟨draft, waiting, frames, -⟩ := h
      exact .ok ⟨_, waiting, frames, .operator⟩
    · exact loadConstant_parallel h hstart name

theorem sign_parallel (h : s.Alike starts stops s') (ht : t.Alike starts stops t')
    (op : Operator) :
    Parallel starts stops (Alike starts stops) (s.sign op t) (s'.sign op t') := by
  obtain ⟨draft, waiting, frames, expecting⟩ := h
  unfold sign
  rw [ht.sign]
  split
  · exact .ok ⟨draft, .cons ⟨rfl, ht.start⟩ waiting, frames, expecting⟩
  · exact .refused ht.start
  · exact .refused ht.start

theorem inEmptyGroup_eq (h : s.Alike starts stops s') : s.inEmptyGroup = s'.inEmptyGroup := by
  obtain ⟨draft, waiting, frames, -⟩ := h
  have hgroup : ∀ {o o' : Opening}, o.Alike starts o' → (o == .group) = (o' == .group) := by
    intro o o' ho
    cases ho <;> rfl
  cases waiting with
  | nil =>
    cases frames with
    | nil => rfl
    | cons hframe _ =>
      obtain ⟨opening, -⟩ := hframe
      simp [inEmptyGroup, hgroup opening]
  | cons _ _ => simp [inEmptyGroup]

theorem operand_parallel (h : s.Alike starts stops s') (ht : t.Alike starts stops t') :
    Parallel starts stops (Alike starts stops) (s.operand t) (s'.operand t') := by
  unfold operand
  rw [← ht.lexeme]
  split
  · exact loadConstant_parallel h ht.start _
  · rename_i name hname
    -- the end of the name is known now, and is needed if no parenthesis follows
    have hstop := ht.stop
    simp only [Token.stop, Token.text, ← ht.lexeme, hname] at hstop
    obtain ⟨draft, waiting, frames, -⟩ := h
    exact .ok ⟨draft, waiting, frames, .afterName name ht.start hstop⟩
  · exact enter_parallel h ht.start .group
  · exact sign_parallel h ht .plus
  · exact sign_parallel h ht .minus
  · exact .refused ht.start
  · rw [inEmptyGroup_eq h]
    split <;> exact .refused ht.start
  · exact .refused ht.start

theorem binary_parallel (h : s.Alike starts stops s') (hstart : starts p q) (op : Operator) :
    Parallel starts stops (Alike starts stops) (s.binary op p) (s'.binary op q) := by
  obtain @⟨draft, ws, ws', _, _, _, _, waiting, frames, -⟩ := h
  have hemit : Parallel starts stops _ _ _ :=
    draft.emitAbove_parallel (WaitingOp.binary op).level waiting
  simp only [binary]
  generalize draft.emitAbove _ ws = r, draft.emitAbove _ ws' = r' at hemit
  cases hemit with
  | @ok x y hrest =>
    obtain ⟨d, rest⟩ := x
    obtain ⟨_, rest'⟩ := y
    obtain ⟨rfl, hrest⟩ := hrest
    exact .ok ⟨_, .cons ⟨rfl, hstart⟩ hrest, frames, .operand⟩
  | error h => exact .error h

theorem resume_parallel (draft : Draft) {frame frame' : Frame} {frames frames' : List Frame}
    (hframe : frame.Alike starts frame')
    (hframes : List.Forall₂ (Frame.Alike starts) frames frames') :
    Parallel starts stops (Alike starts stops) (resume draft frame frames)
      (resume draft frame' frames') := by
  obtain ⟨opening, outside⟩ := hframe
  cases opening with
  | group => exact .ok ⟨draft, outside, hframes, .operator⟩
  | @call p q start f complete depth =>
    simp only [resume]
    split
    · have hcall : Parallel starts stops _ _ _ := draft.emitCall_parallel f depth start
      generalize draft.emitCall p f depth = r, draft.emitCall q f depth = r' at hcall
      cases hcall with
      | ok h => exact h ▸ .ok ⟨_, outside, hframes, .operator⟩
      | error h => exact .error h
    · exact .ok ⟨draft, .nil, .cons ⟨.call start f _ depth, outside⟩ hframes, .operand⟩

theorem leave_parallel (h : s.Alike starts stops s') (found : Lexeme) (hstart : starts p q) :
    Parallel starts stops (Alike starts stops) (s.leave found p) (s'.leave found q) := by
  obtain @⟨draft, ws, ws', _, _, _, _, waiting, frames, -⟩ := h
  have hemit : Parallel starts stops _ _ _ := draft.emitAll_parallel waiting
  simp only [leave]
  generalize draft.emitAll ws = r, draft.emitAll ws' = r' at hemit
  cases hemit with
  | error h => exact .error h
  | @ok draft _ h =>
    cases h
    cases frames with
    | nil => exact .refused (Context.places_refusal _ _ hstart)
    | cons hframe hframes =>
      simp only [hframe.context]
      split
      · exact resume_parallel draft hframe hframes
      · exact .refused (Context.places_refusal _ _ hstart)

theorem operator_parallel (h : s.Alike starts stops s') (ht : t.Alike starts stops t') :
    Parallel starts stops (Alike starts stops) (s.operator t) (s'.operator t') := by
  have htext : t.text = t'.text := congrArg Lexeme.text ht.lexeme
  unfold operator
  rw [← ht.lexeme, htext]
  split
  · exact binary_parallel h ht.start _
  · exact leave_parallel h .closeParen ht.start
  · exact leave_parallel h .comma ht.start
  all_goals exact .refused ht.start

/-- **Tokens that are alike are treated alike.** -/
theorem step_parallel (scope : Scope) (h : s.Alike starts stops s')
    (ht : t.Alike starts stops t') :
    Parallel starts stops (Alike starts stops) (s.step scope t) (s'.step scope t') := by
  have halike := h
  obtain ⟨draft, waiting, frames, expecting⟩ := h
  cases expecting with
  | operand => exact operand_parallel halike ht
  | operator => exact operator_parallel halike ht
  | @afterName p q name start stop =>
    simp only [step, ht.lexeme]
    split
    · unfold openCall
      split
      · exact .refused start
      · exact enter_parallel halike ht.start (.call start _ _ _)
    · have hload := loadName_parallel scope halike start stop
      generalize loadName scope _ name p = r, loadName scope _ name q = r' at hload
      cases hload with
      | ok h => exact operator_parallel h ht
      | error h => exact .error h

theorem Alike.context (h : s.Alike starts stops s') : s.context = s'.context := by
  obtain ⟨draft, -, frames, -⟩ := h
  cases frames with
  | nil => rfl
  | cons hframe _ => exact hframe.context

theorem finishOperand_parallel (h : s.Alike starts stops s') (hstart : starts p q) :
    Parallel starts stops Eq (s.finishOperand p) (s'.finishOperand q) := by
  rw [finishOperand, finishOperand, h.context]
  obtain @⟨draft, ws, ws', _, _, _, _, waiting, -, -⟩ := h
  have hemit : Parallel starts stops _ _ _ := draft.emitAll_parallel waiting
  simp only
  generalize draft.emitAll ws = r, draft.emitAll ws' = r' at hemit
  cases hemit with
  | error h => exact .error h
  | ok h =>
    cases h
    simp only
    split
    · split
      · exact .ok rfl
      · exact .refused hstart
    · exact .refused (Context.places_refusal _ _ hstart)

theorem finish_parallel (scope : Scope) (h : s.Alike starts stops s') (hstart : starts p q) :
    Parallel starts stops Eq (s.finish scope p) (s'.finish scope q) := by
  have halike := h
  obtain ⟨draft, waiting, frames, expecting⟩ := h
  cases expecting with
  | operand => exact .refused hstart
  | operator => exact finishOperand_parallel halike hstart
  | @afterName i j name start stop =>
    have hload := loadName_parallel scope halike start stop
    simp only [finish]
    generalize loadName scope _ name i = r, loadName scope _ name j = r' at hload
    cases hload with
    | ok h => exact finishOperand_parallel h hstart
    | error h => exact .error h

theorem alike_start : start.Alike starts stops start := ⟨.empty, .nil, .nil, .operand⟩

/-- **Texts that are alike are read alike.** -/
theorem run_parallel (scope : Scope) {ts ts' : List Token} (h : s.Alike starts stops s')
    (hts : List.Forall₂ (Token.Alike starts stops) ts ts') :
    Parallel starts stops (Alike starts stops) (s.run scope ts) (s'.run scope ts') := by
  induction hts generalizing s s' with
  | nil => exact .ok h
  | @cons t t' _ _ ht _ ih =>
    have hstep := step_parallel scope h ht
    unfold run
    generalize s.step scope t = r, s'.step scope t' = r' at hstep
    cases hstep with
    | ok h => exact ih h
    | error h => exact .error h

end Parser.State

/-! ## Two texts -/

theorem Spells.white {cs rest : List Char} {ls : List Lexeme} (h : Spells cs ls rest)
    (hnil : ls = []) : cs.all Text.isWhite = true := by
  induction h with
  | nil => rfl
  | blank isBlank _ ih => simp [Text.isWhite_of_isBlank isBlank, ih hnil]
  | lexeme _ _ => cases hnil

/-- Where scanning reaches the end, a text is white exactly if it has no lexemes. -/
theorem white_iff {source : String} {offset : Nat} (h : (scan source).ending = .ok offset) :
    source.toList.all Text.isWhite = true ↔ lexemes source = [] := by
  constructor
  · intro hwhite
    rw [lexemes, scan_of_white hwhite]
    rfl
  · exact (spells_of_scan h).1.white

/-- How signs are read depends on the lexemes only. -/
theorem Token.Signed.map_sign_eq {previous : Option Lexeme} {u v : List Token}
    (hu : Signed previous u) (hv : Signed previous v)
    (h : u.map (·.lexeme) = v.map (·.lexeme)) : u.map (·.sign) = v.map (·.sign) := by
  induction u generalizing previous v with
  | nil =>
    rw [List.map_eq_nil_iff.mp h.symm]
  | cons t u ih =>
    obtain ⟨t', v, rfl, hlexeme, hrest⟩ := List.map_eq_cons_iff.mp h.symm
    obtain ⟨hsign, hsigned⟩ := hv
    rw [hlexeme] at hsigned
    rw [List.map_cons, List.map_cons, hu.1, hsign, ih hu.2 hsigned hrest.symm]

/-- Where the tokens of a text start and, after them, where the text ends. -/
def tokenStarts (source : String) : List Nat :=
  (scan source).tokens.map (·.offset) ++ [source.utf8ByteSize]

/-- Where the tokens of a text end. -/
def tokenStops (source : String) : List Nat := (scan source).tokens.map (·.stop)

/-- Two places that stand at the same index. -/
def Aligned (xs ys : List Nat) (p q : Nat) : Prop :=
  ∃ i : Nat, xs[i]? = some p ∧ ys[i]? = some q

theorem length_tokens_eq {a b : String} (h : lexemes a = lexemes b) :
    (scan a).tokens.length = (scan b).tokens.length := by
  simpa [lexemes] using congrArg List.length h

/-- Two texts of the same lexemes have tokens that are alike. -/
theorem tokens_alike {a b : String} (h : lexemes a = lexemes b) :
    List.Forall₂ (Token.Alike (Aligned (tokenStarts a) (tokenStarts b))
      (Aligned (tokenStops a) (tokenStops b))) (scan a).tokens (scan b).tokens := by
  have hsigns := (scan_signed a).map_sign_eq (scan_signed b) h
  refine List.forall₂_iff_get.mpr ⟨length_tokens_eq h, fun i hi hi' => ?_⟩
  constructor
  · simpa [lexemes, hi, hi'] using congrArg (fun l => l[i]?) h
  · simpa [hi, hi'] using congrArg (fun l => l[i]?) hsigns
  · exact ⟨i, by simp [tokenStarts, List.getElem?_append, hi],
      by simp [tokenStarts, List.getElem?_append, hi']⟩
  · exact ⟨i, by simp [tokenStops, hi], by simp [tokenStops, hi']⟩

/-- The ends of two texts of the same lexemes are alike. -/
theorem aligned_end {a b : String} {m n : Nat} (ha : (scan a).ending = .ok m)
    (hb : (scan b).ending = .ok n) (h : lexemes a = lexemes b) :
    Aligned (tokenStarts a) (tokenStarts b) m n := by
  refine ⟨(scan a).tokens.length, ?_, ?_⟩
  · simp [tokenStarts, offset_of_scan ha]
  · simp [tokenStarts, offset_of_scan hb, length_tokens_eq h]

/-- Two texts of the same lexemes are parsed in parallel. -/
theorem parse_parallel (scope : Scope) {a b : String} {m n : Nat} (ha : (scan a).ending = .ok m)
    (hb : (scan b).ending = .ok n) (h : lexemes a = lexemes b) :
    Parallel (Aligned (tokenStarts a) (tokenStarts b)) (Aligned (tokenStops a) (tokenStops b))
      (fun p q => q = { p with source := b }) (parse scope a) (parse scope b) := by
  have hrun := Parser.State.run_parallel scope Parser.State.alike_start (tokens_alike h)
  unfold parse
  rw [if_congr ((white_iff ha).trans (h ▸ (white_iff hb).symm)) rfl rfl]
  split
  · exact .refused ⟨rfl, rfl⟩
  · simp only [ha, hb]
    generalize Parser.State.start.run scope (scan a).tokens = r,
      Parser.State.start.run scope (scan b).tokens = r' at hrun
    cases hrun with
    | error h => exact .error h
    | @ok s s' hs =>
      have hfinish := Parser.State.finish_parallel scope hs (aligned_end ha hb h)
      simp only
      generalize s.finish scope m = r, s'.finish scope n = r' at hfinish
      cases hfinish with
      | error h => exact .error h
      | ok h =>
        cases h
        exact .ok rfl

/-- **Blanks do not matter.**  Two texts that scan to their ends with the same lexemes have the same
program, up to the text that goes along with it, or they are rejected for the same cause.  The
places of the two errors are the starts of the tokens of one index, where the end of the text counts
as a token.  Where a function is not called they are the ends of these tokens, and for an empty
formula both are 0. -/
theorem parse_of_lexemes_eq (scope : Scope) {a b : String} {m n : Nat}
    (ha : (scan a).ending = .ok m) (hb : (scan b).ending = .ok n) (h : lexemes a = lexemes b) :
    (∃ p, parse scope a = .ok p ∧ parse scope b = .ok { p with source := b }) ∨
      ∃ cause i j, parse scope a = .error (.rejected ⟨i, cause⟩) ∧
        parse scope b = .error (.rejected ⟨j, cause⟩) ∧
        match cause with
        | .emptyFormula => i = 0 ∧ j = 0
        | .callWithoutParentheses _ => Aligned (tokenStops a) (tokenStops b) i j
        | _ => Aligned (tokenStarts a) (tokenStarts b) i j := by
  have hunbroken : parse scope a ≠ .error .brokenCall := by
    intro hbroken
    rcases reported_or_lexical (rejects_of_parse hbroken) with ⟨_, _, he, -⟩ | ⟨_, -, he⟩ <;>
      cases he
  have hparallel := parse_parallel scope ha hb h
  generalize parse scope a = r, parse scope b = r' at hparallel hunbroken
  cases hparallel with
  | @ok p q h => exact .inl ⟨p, rfl, h ▸ rfl⟩
  | error h =>
    cases h with
    | @rejected cause i j h => exact .inr ⟨cause, i, j, rfl, rfl, h⟩
    | brokenCall => exact absurd rfl hunbroken

/-- A function that is not called, as the fifth token of two texts. -/
theorem parse_of_lexemes_eq_uncalled :
    lexemes "max(x0, sin x0)" = lexemes "max ( x0\t,sin x0 )" ∧
      parse ⟨1, []⟩ "max(x0, sin x0)" = .error (.rejected ⟨11, .callWithoutParentheses "sin"⟩) ∧
      ∃ j, parse ⟨1, []⟩ "max ( x0\t,sin x0 )" =
          .error (.rejected ⟨j, .callWithoutParentheses "sin"⟩) ∧
        Aligned (tokenStops "max(x0, sin x0)") (tokenStops "max ( x0\t,sin x0 )") 11 j := by
  have hends : (scan "max(x0, sin x0)").ending = .ok 15 ∧
      (scan "max ( x0\t,sin x0 )").ending = .ok 18 := by decide +kernel
  have hlexemes : lexemes "max(x0, sin x0)" = lexemes "max ( x0\t,sin x0 )" := by decide +kernel
  have hrejected : parse ⟨1, []⟩ "max(x0, sin x0)" =
      .error (.rejected ⟨11, .callWithoutParentheses "sin"⟩) := by with_unfolding_all rfl
  refine ⟨hlexemes, hrejected, ?_⟩
  rcases parse_of_lexemes_eq ⟨1, []⟩ hends.1 hends.2 hlexemes with ⟨p, hp, -⟩ |
    ⟨cause, i, j, hi, hj, hplaces⟩
  · rw [hrejected] at hp
    cases hp
  · rw [hrejected] at hi
    cases hi
    exact ⟨j, hj, hplaces⟩

end Formula
