import Formula.Proofs.Answers

/-!
# Recursive descent answers what the machine does

A reading that stands between two tokens has a state of the machine that belongs to it: its draft,
the operators that wait in the loop, and for every part around it the operators that wait there.
`Stands` says that this state answers `m`, and `Took`, `Ended` and `Left` say it in the middle of a
round, at the end of a part and behind it.

* **The parts of a round.**  Each function keeps that the machine answers `m`, if reading a part
  does (`PartKeeps`).  Where it goes into another part it has taken a token before.
* **Rounds.**  A loop comes to an end and keeps the answer when it may go round more often than
  there are characters left (`loopKeeps`).  Nesting does not enter into it: a part inside of another
  one is read from a shorter text, too.
-/

namespace Formula

open Cursor (Reply)

namespace Descent

variable {scope : Scope} {source : String} {m : Except Failure Draft} {frames : List Frame}
  {waiting : List Waiting} {expecting : Expecting} {found : Reply} {s : Session} {n : Nat}

/-! ## Where a reading stands -/

theorem Session.admits_of_last {e e' : Mark} (hlast : s.log.head? = some e) (h : Leads e e') :
    s.Admits e' := by
  obtain ⟨es, hes⟩ := List.head?_eq_some_iff.mp hlast
  rw [Admits, hes]
  exact h

/-- Between two rounds.  The machine answers `m` from here on. -/
structure Stands (scope : Scope) (source : String) (m : Except Failure Draft)
    (frames : List Frame) (waiting : List Waiting) (expecting : Expecting) (s : Session) :
    Prop where
  sound : s.Sound source (frames.length + 1)
  admits : s.Admits .round
  answer : (Parser.State.mk s.draft waiting frames expecting).answer scope s.cursor = m

/-- In a round, after the token has been taken. -/
structure Took (scope : Scope) (source : String) (m : Except Failure Draft)
    (frames : List Frame) (waiting : List Waiting) (expecting : Expecting) (found : Reply)
    (s : Session) : Prop where
  sound : s.Sound source (frames.length + 1)
  last : s.log.head? = some (.ask .take (.ok found))
  answer : (Parser.State.mk s.draft waiting frames expecting).answerTo scope found s.cursor = m

/-- At the end of a part, whose operators have been written. -/
structure Ended (scope : Scope) (source : String) (m : Except Failure Draft)
    (frames : List Frame) (found : Reply) (s : Session) : Prop
    extends Took scope source m frames [] .operator found s where
  ends : found.endsPart = true
  whole : frames = [] → found.lexeme? = none

/-- After a part. -/
structure Left (scope : Scope) (source : String) (m : Except Failure Draft)
    (frames : List Frame) (found : Reply) (s : Session) : Prop where
  sound : s.Sound source frames.length
  last : s.log.head? = some (.leave found)
  ends : found.endsPart = true
  whole : frames = [] → found.lexeme? = none
  answer : (Parser.State.mk s.draft [] frames .operator).answerTo scope found s.cursor = m

theorem Took.rests (h : Took scope source m frames waiting expecting found s) :
    s.Rests source (frames.length + 1) := h.sound.rests h.last rfl

theorem Left.rests (h : Left scope source m frames found s) : s.Rests source frames.length :=
  h.sound.rests h.last rfl

/-- The text that is left does not get longer. -/
theorem length_rest_take (k : Cursor) : k.take.2.rest.length ≤ k.rest.length := by
  unfold Cursor.take
  split
  · exact Cursor.length_dropWhile_le ..
  · exact Cursor.length_dropWhile_le ..
  · rename_i h
    exact Nat.le_of_lt (Cursor.next_rest_lt h)

theorem length_rest_token {k k' : Cursor} {t : Token} (h : k.take = (.ok (.token t), k')) :
    k'.rest.length < k.rest.length := by
  unfold Cursor.take at h
  split at h <;> cases h
  rename_i h
  exact Cursor.next_rest_lt h

/-! ## The parts of a round -/

/-- Taking a token. -/
theorem keeps_take {expecting : Expecting}
    (hs : s.Sound source (frames.length + 1)) (hadmits : s.Admits (.ask .take s.cursor.take.1))
    (hanswer : (Parser.State.mk s.draft waiting frames expecting).answer scope s.cursor = m) :
    Keeps source m (ask .take) s fun found s' =>
      Took scope source m frames waiting expecting found s' ∧ s'.cursor = s.cursor.take.2 ∧
        s.cursor.take.1 = .ok found ∧ s'.draft = s.draft := by
  refine .ask hs hadmits (fun e he => ?_) fun found k hcall hsound => ?_
  · rw [← hanswer]
    exact Parser.State.answer_of_error he
  · have htake : s.cursor.take = (.ok found, k) := hcall
    refine ⟨⟨hsound.toSound, rfl, ?_⟩, ?_, ?_, rfl⟩
    · rw [← hanswer]
      exact (Parser.State.answer_of_ok htake).symm
    · rw [htake]
    · rw [htake]

/-- The end of a part. -/
theorem keeps_conclude (h : Took scope source m frames waiting .operator found s)
    (hends : found.endsPart = true) :
    Keeps source m (conclude (.inside frames) waiting found) s fun r s' =>
      r = none ∧ s'.cursor = s.cursor ∧ Ended scope source m frames found s' := by
  have hanswer := h.answer
  rw [Parser.State.answerTo_emitAll hends] at hanswer
  unfold conclude
  refine (Keeps.write (Q := fun _ s' => s'.cursor = s.cursor ∧
    Took scope source m frames [] .operator found s') h.rests (fun e he => ?_)
    fun d hd => ⟨rfl, ?_⟩).bind fun _ s' ⟨hcursor, htook⟩ => ?_
  · rw [← hanswer, he]
  · simp only [hd] at hanswer
    exact ⟨h.sound.draft d, h.last, hanswer⟩
  · have hfinish : ∀ h : frames = [] → found.lexeme? = none,
        Keeps source m (pure none : Reading (Option (List Waiting))) s' fun r s'' =>
          r = none ∧ s''.cursor = s.cursor ∧ Ended scope source m frames found s'' :=
      fun h => .pure ⟨rfl, hcursor, htook, hends, h⟩
    -- only the whole formula looks at what it ends with; of the others the parenthesis does
    cases frames with
    | cons frame frames =>
      have hcontext : Context.inside (frame :: frames) ≠ .formula := frame.context_ne_formula
      rw [if_neg hcontext]
      exact hfinish nofun
    | nil =>
      rw [if_pos (show Context.inside [] = .formula from rfl)]
      have hwhole := htook.answer
      rw [Parser.State.answerTo_whole hends] at hwhole
      refine (Keeps.expectEnd (Q := fun _ s'' => s'' = s' ∧ found.lexeme? = none) htook.rests
        (fun hne => ?_) fun heq => ⟨rfl, heq.symm⟩).bind fun _ s'' hs => ?_
      · have hsome : found.lexeme? ≠ none := Ne.symm hne
        rw [← hwhole, if_neg hsome]
        rfl
      · obtain ⟨rfl, hnone⟩ := hs
        exact hfinish fun _ => hnone

/-- After what comes after an operand. -/
def AfterOperator (scope : Scope) (source : String) (m : Except Failure Draft) (n : Nat)
    (frames : List Frame) (found : Reply) (k : Cursor) : Option (List Waiting) → Session → Prop
  | some waiting, s => s.cursor.rest.length < n ∧ waiting ≠ [] ∧
      Stands scope source m frames waiting .operand s
  | none, s => s.cursor = k ∧ Ended scope source m frames found s

/-- What comes after an operand. -/
theorem keeps_operator (h : Took scope source m frames waiting .operator found s)
    (hn : ∀ t, found = .token t → s.cursor.rest.length < n) :
    Keeps source m (operator (.inside frames) waiting found) s
      (AfterOperator scope source m n frames found s.cursor) := by
  have hconclude : found.endsPart = true →
      Keeps source m (conclude (.inside frames) waiting found) s
        (AfterOperator scope source m n frames found s.cursor) := by
    intro hends
    refine (keeps_conclude h hends).mono ?_
    rintro _ s' ⟨rfl, hended⟩
    exact hended
  unfold operator
  cases found with
  | ending offset => exact hconclude rfl
  | token t =>
    have hanswer := h.answer
    simp only [Parser.State.answerTo, Parser.State.step, Parser.State.operator] at hanswer
    dsimp only
    cases hl : t.lexeme with
    | operator op =>
      rw [hl] at hanswer
      simp only [Parser.State.binary] at hanswer
      refine (Keeps.edit (Q := fun waiting' s' => s'.cursor = s.cursor ∧
        Stands scope source m frames (⟨.binary op, t.offset⟩ :: waiting') .operand s') h.rests
        (fun e he => ?_) fun d waiting' hd => ⟨rfl, h.sound.draft d, ?_, ?_⟩).bind ?_
      · rw [← hanswer, he]
        rfl
      · exact Session.admits_of_last h.last (.operator (congrArg some hl))
      · simp only [hd] at hanswer
        exact hanswer
      · rintro waiting' s' ⟨hcursor, hstands⟩
        exact .pure ⟨hcursor ▸ hn t rfl, List.cons_ne_nil _ _, hstands⟩
    | closeParen | comma => exact hconclude (by simp [Reply.endsPart, Reply.lexeme?, hl])
    | number | name | openParen =>
      rw [hl] at hanswer
      exact .throw h.rests hanswer.symm

/-! ## Operands -/

/-- The loop keeps what it should where less than `n` characters are left. -/
def LoopKeeps (scope : Scope) (source : String) (m : Except Failure Draft) (n : Nat) : Prop :=
  ∀ (s : Session) (frames : List Frame) (waiting : List Waiting) (expectOperand seenOperand : Bool),
    s.cursor.rest.length < n → (expectOperand = true → waiting = [] → seenOperand = false) →
    Stands scope source m frames waiting (if expectOperand then .operand else .operator) s →
    Keeps source m
      (loop scope n (.inside frames) frames.length waiting expectOperand seenOperand) s
      fun found s' => s'.cursor.rest.length < n ∧ Ended scope source m frames found s'

/-- So does what reads a part. -/
def PartKeeps (scope : Scope) (source : String) (m : Except Failure Draft) (n : Nat)
    (inner : Context → Nat → Reading Reply) : Prop :=
  ∀ (s : Session) (frames : List Frame), s.cursor.rest.length < n →
    s.Sound source frames.length → s.Admits (.enter (.inside frames)) →
    frames.length ≤ Parser.maxNesting →
    (Parser.State.mk s.draft [] frames .operand).answer scope s.cursor = m →
    Keeps source m (inner (.inside frames) frames.length) s fun found s' =>
      s'.cursor.rest.length < n ∧ Left scope source m frames found s'

/-- A part is read by its loop. -/
theorem keeps_part (hloop : LoopKeeps scope source m n) :
    PartKeeps scope source m n fun context nesting =>
      part context (loop scope n context nesting [] true false) := by
  intro s frames hn hs hadmits hroom hanswer
  refine .record ?_
  have hentered : (s.note (.enter (.inside frames))).Sound source (frames.length + 1) :=
    hs.note hadmits rfl rfl (Nat.succ_le_succ hroom) s.draft
  refine (hloop (s.note (.enter (.inside frames))) frames [] true false hn (fun _ _ => rfl)
    ⟨hentered, Session.admits_of_last rfl (.begun _), hanswer⟩).bind ?_
  rintro found s' ⟨hn', hended⟩
  refine .record (.pure ⟨hn', ?_, rfl, hended.ends, hended.whole, hended.answer⟩)
  exact hended.sound.note (Session.admits_of_last hended.last (.ended hended.ends)) rfl rfl
    (Nat.le_succ_of_le hroom) s'.draft

variable {inner : Context → Nat → Reading Reply}

/-- The end of a part inside of a parenthesis, where the machine goes on. -/
theorem keeps_expectEnd {frame : Frame} (h : Left scope source m (frame :: frames) found s) :
    Keeps source m (expectEnd frame.context found) s fun _ s' =>
      s' = s ∧ frame.context.ending = found.lexeme? ∧
        Parser.State.answerAfter scope (Parser.State.resume s.draft frame frames) s.cursor = m := by
  have hanswer := h.answer
  rw [Parser.State.answerTo_inside h.ends] at hanswer
  refine .expectEnd h.rests (fun hne => ?_) fun heq => ⟨rfl, heq, ?_⟩
  · rw [← hanswer, if_neg hne]
  · rwa [if_pos heq] at hanswer

/-- What is written for an operand, after which an operator has to come. -/
theorem keeps_load {f : Draft → Except Failure Draft} (hn : s.cursor.rest.length < n)
    (hs : s.Rests source (frames.length + 1)) (hadmits : s.Admits .round)
    (hanswer : (match f s.draft with
      | .error e => .error e
      | .ok d => (Parser.State.mk d waiting frames .operator).answer scope s.cursor) = m) :
    Keeps source m (write f) s fun _ s' =>
      s'.cursor.rest.length < n ∧ Stands scope source m frames waiting .operator s' := by
  refine .write hs (fun e he => ?_) fun d hd => ⟨hn, hs.toSound.draft d, hadmits, ?_⟩
  · rw [← hanswer, he]
  · rw [← hanswer, hd]

/-- A parenthesis, unless too many of them are open. -/
theorem keeps_checkNesting {expecting : Expecting} {offset : Nat} {opening : Opening}
    (hs : s.Rests source (frames.length + 1))
    (hanswer : Parser.State.answerAfter scope
      ((Parser.State.mk s.draft waiting frames expecting).enter offset opening) s.cursor = m) :
    Keeps source m (checkNesting offset frames.length) s fun _ s' =>
      s' = s ∧ frames.length < Parser.maxNesting ∧
        (Parser.State.mk s.draft [] (⟨opening, waiting⟩ :: frames) .operand).answer scope
          s.cursor = m := by
  unfold Parser.State.enter at hanswer
  refine .checkNesting hs (fun hfull => ?_) fun hroom => ⟨rfl, hroom, ?_⟩
  · rw [if_neg (Nat.not_lt.mpr hfull)] at hanswer
    exact hanswer.symm
  · rwa [if_pos hroom] at hanswer

/-- One argument, and then the others. -/
theorem keeps_argument (hinner : PartKeeps scope source m n inner) {frame : Frame} {more : Nat}
    (hcontext : frame.context = .argument (more == 0)) (hn : s.cursor.rest.length < n)
    (hs : s.Sound source (frames.length + 1))
    (hadmits : s.Admits (.enter (.argument (more == 0))))
    (hroom : frames.length < Parser.maxNesting)
    (hanswer : (Parser.State.mk s.draft [] (frame :: frames) .operand).answer scope s.cursor = m)
    {Q : Unit → Session → Prop}
    (hnext : ∀ found s', s'.cursor.rest.length < n →
      Left scope source m (frame :: frames) found s' → frame.context.ending = found.lexeme? →
      Parser.State.answerAfter scope (Parser.State.resume s'.draft frame frames) s'.cursor = m →
      Keeps source m (arguments inner frames.length more) s' Q) :
    Keeps source m (arguments inner frames.length (more + 1)) s Q := by
  rw [← hcontext] at hadmits
  rw [arguments, ← hcontext]
  refine (hinner s (frame :: frames) hn hs hadmits hroom hanswer).bind ?_
  rintro found s' ⟨hn', hleft⟩
  refine (keeps_expectEnd hleft).bind ?_
  rintro _ s'' ⟨rfl, hending, hresume⟩
  exact hnext found s'' hn' hleft hending hresume

/-- The arguments of a call, after some that are complete. -/
theorem keeps_arguments (hinner : PartKeeps scope source m n inner) {place depth complete : Nat}
    {f : FunctionName} {more : Nat} (hmore : complete + 1 + more = f.arity)
    (hn : s.cursor.rest.length < n) (hs : s.Sound source (frames.length + 1))
    (hadmits : s.Admits (.enter (.argument (more == 0))))
    (hroom : frames.length < Parser.maxNesting)
    (hanswer : (Parser.State.mk s.draft [] (⟨.call place f complete depth, waiting⟩ :: frames)
      .operand).answer scope s.cursor = m) :
    Keeps source m (arguments inner frames.length (more + 1)) s fun _ s' =>
      s'.cursor.rest.length < n ∧ s'.Rests source (frames.length + 1) ∧ s'.Admits .round ∧
        (match s'.draft.emitCall place f depth with
          | .error e => .error e
          | .ok d => (Parser.State.mk d waiting frames .operator).answer scope s'.cursor) = m := by
  induction more generalizing complete s with
  | zero =>
    refine keeps_argument hinner (Frame.context_call hmore _) hn hs hadmits hroom hanswer ?_
    intro found s' hn' hleft hending hresume
    have hclosed : found.lexeme? = some .closeParen := by
      rw [← hending, Frame.context_call hmore]
      rfl
    simp only [Parser.State.resume, if_pos hmore] at hresume
    refine .pure ⟨hn', hleft.rests, Session.admits_of_last hleft.last (.closed hclosed), ?_⟩
    rw [← hresume]
    cases s'.draft.emitCall place f depth <;> rfl
  | succ more ih =>
    refine keeps_argument hinner (Frame.context_call hmore _) hn hs hadmits hroom hanswer ?_
    intro found s' hn' hleft hending hresume
    have hcomma : found.lexeme? = some .comma := by
      rw [← hending, Frame.context_call hmore]
      rfl
    have hother : complete + 1 ≠ f.arity := by omega
    simp only [Parser.State.resume, if_neg hother] at hresume
    have hnext : Session.Admits s' (.enter (.argument (more == 0))) :=
      Session.admits_of_last hleft.last (.next hcomma _)
    exact ih (by omega) hn' hleft.sound hnext hresume

/-- A call. -/
theorem keeps_call (hinner : PartKeeps scope source m n inner) {name : String} {place : Nat}
    (hn : s.cursor.rest.length < n) (hs : s.Rests source (frames.length + 1))
    (hlast : s.log.head? = some (.ask .peek (.ok found))) (hnext : s.cursor.take.1 = .ok found)
    (hopen : found.lexeme? = some .openParen)
    (hanswer : (Parser.State.mk s.draft waiting frames (.afterName name place)).answer scope
      s.cursor = m) :
    Keeps source m (call inner frames.length name place) s fun _ s' =>
      s'.cursor.rest.length < n ∧ Stands scope source m frames waiting .operator s' := by
  have htake : s.cursor.take = (.ok found, s.cursor.take.2) := Prod.ext hnext rfl
  obtain ⟨t, rfl, hparen⟩ := Reply.exists_token hopen
  rw [call]
  have hopened := hanswer
  rw [Parser.State.answer_of_ok htake] at hopened
  simp only [Parser.State.answerTo, Parser.State.step, if_pos hparen, Parser.State.openCall]
    at hopened
  cases hf : FunctionName.ofSpelling? name with
  | none =>
    rw [hf] at hopened
    exact .throw hs hopened.symm
  | some f =>
    rw [hf] at hopened
    dsimp only at hopened ⊢
    have hadmits : s.Admits (.ask .take s.cursor.take.1) := by
      rw [hnext]
      exact Session.admits_of_last hlast (.called hopen)
    refine (keeps_take hs.toSound hadmits hanswer).bind ?_
    rintro opening s' ⟨htook, hcursor, hfound, hdraft⟩
    -- the token is the one that has been looked at
    obtain rfl : opening = .token t := by
      rw [hnext] at hfound
      exact (Except.ok.inj hfound).symm
    have hn' : s'.cursor.rest.length < n := by
      rw [hcursor]
      exact Nat.lt_of_le_of_lt (length_rest_take _) hn
    rw [← hdraft, ← hcursor] at hopened
    refine (keeps_checkNesting htook.rests hopened).bind ?_
    rintro _ s'' ⟨rfl, hroom, hfirst⟩
    refine (Keeps.edit (Q := fun depth s' => depth = s''.draft.depth ∧ s' = s'') htook.rests
      (fun e he => by cases he) fun d depth hd => by cases hd; exact ⟨rfl, rfl⟩).bind ?_
    rintro depth s' ⟨rfl, rfl⟩
    obtain ⟨more, hmore⟩ := Nat.exists_eq_add_of_le f.arity_pos
    have hbegin : Session.Admits s' (.enter (.argument (more == 0))) :=
      Session.admits_of_last htook.last (.opened hopen _)
    rw [hmore, Nat.add_comm 1 more]
    refine (keeps_arguments hinner hmore.symm hn' htook.sound hbegin hroom hfirst).bind ?_
    rintro _ s'' ⟨hn'', hsound, hround, hemit⟩
    exact keeps_load hn'' hsound hround hemit

/-- A name. -/
theorem keeps_name (hinner : PartKeeps scope source m n inner) {spelling : String} {place : Nat}
    (hn : s.cursor.rest.length < n) (hs : s.Sound source (frames.length + 1))
    (hadmits : ∀ reply, s.Admits (.ask .peek reply))
    (hanswer : (Parser.State.mk s.draft waiting frames (.afterName spelling place)).answer scope
      s.cursor = m) :
    Keeps source m (name inner scope frames.length spelling place) s fun _ s' =>
      s'.cursor.rest.length < n ∧ Stands scope source m frames waiting .operator s' := by
  rw [name]
  refine (Keeps.ask (Q := fun next s' => s'.cursor = s.cursor ∧ s'.draft = s.draft ∧
    s'.Rests source (frames.length + 1) ∧ s'.log.head? = some (.ask .peek (.ok next)) ∧
    s.cursor.take.1 = .ok next) hs (hadmits _) (fun e he => ?_)
    fun next k hcall hsound => ?_).bind ?_
  · rw [← hanswer]
    exact Parser.State.answer_of_error he
  · obtain ⟨hreply, rfl⟩ := Prod.mk.inj hcall
    exact ⟨rfl, rfl, hsound, rfl, hreply⟩
  rintro next s' ⟨hcursor, hdraft, hsound, hlast, hnext⟩
  rw [← hcursor] at hn hanswer hnext
  rw [← hdraft] at hanswer
  split
  · rename_i hopen
    exact keeps_call hinner hn hsound hlast hnext hopen hanswer
  · rename_i hother
    rw [Parser.State.answer_afterName hnext hother] at hanswer
    exact keeps_load hn hsound (Session.admits_of_last hlast (.named hother)) hanswer

/-- A group. -/
theorem keeps_group (hinner : PartKeeps scope source m n inner) {offset : Nat}
    (hn : s.cursor.rest.length < n) (hs : s.Rests source (frames.length + 1))
    (hadmits : ∀ context, s.Admits (.enter context))
    (hanswer : Parser.State.answerAfter scope
      ((Parser.State.mk s.draft waiting frames .operand).enter offset .group) s.cursor = m) :
    Keeps source m (group inner frames.length offset) s fun _ s' =>
      s'.cursor.rest.length < n ∧ Stands scope source m frames waiting .operator s' := by
  rw [group]
  refine (keeps_checkNesting hs hanswer).bind ?_
  rintro _ s' ⟨rfl, hroom, hfirst⟩
  refine (hinner s' (⟨.group, waiting⟩ :: frames) hn hs.toSound (hadmits _) hroom hfirst).bind ?_
  rintro found s'' ⟨hn', hleft⟩
  refine (keeps_expectEnd hleft).mono ?_
  rintro _ s₁ ⟨rfl, hending, hresume⟩
  exact ⟨hn', hleft.sound, Session.admits_of_last hleft.last (.closed hending.symm), hresume⟩

/-- After an operand, or a sign in front of one. -/
def AfterOperand (scope : Scope) (source : String) (m : Except Failure Draft) (n : Nat)
    (frames : List Frame) (waiting : List Waiting) (r : Option Waiting) (s : Session) : Prop :=
  s.cursor.rest.length < n ∧
    match r with
    | some sign => Stands scope source m frames (sign :: waiting) .operand s
    | none => Stands scope source m frames waiting .operator s

/-- A sign. -/
theorem keeps_sign {op : Operator} {t : Token} (hn : s.cursor.rest.length < n)
    (hs : s.Rests source (frames.length + 1))
    (hlast : s.log.head? = some (.ask .take (.ok (.token t))))
    (hlexeme : (Reply.token t).lexeme? = some (.operator op))
    (hanswer : Parser.State.answerAfter scope
      ((Parser.State.mk s.draft waiting frames .operand).sign op t) s.cursor = m) :
    Keeps source m (sign op t) s (AfterOperand scope source m n frames waiting) := by
  unfold Parser.State.sign at hanswer
  unfold sign
  cases hsign : t.sign with
  | unary =>
    rw [hsign] at hanswer
    exact .pure ⟨hn, hs.toSound, Session.admits_of_last hlast (.operator hlexeme), hanswer⟩
  | doubled | binary =>
    rw [hsign] at hanswer
    exact .throw hs hanswer.symm

/-- An operand, or a sign in front of one. -/
theorem keeps_operand (hinner : PartKeeps scope source m n inner) {first : Bool}
    (h : Took scope source m frames waiting .operand found s)
    (hfirst : first = waiting.isEmpty)
    (hn : ∀ t, found = .token t → s.cursor.rest.length < n) :
    Keeps source m (operand inner scope (.inside frames) frames.length first found) s
      (AfterOperand scope source m n frames waiting) := by
  have hanswer := h.answer
  rw [operand.eq_def]
  cases found with
  | ending offset => exact .throw h.rests hanswer.symm
  | token t =>
    have hlength := hn t rfl
    simp only [Parser.State.answerTo, Parser.State.step, Parser.State.operand] at hanswer
    dsimp only
    cases hl : t.lexeme with
    | number spelling =>
      rw [hl] at hanswer
      simp only [Parser.State.loadConstant_eq] at hanswer
      have hround : s.Admits .round := Session.admits_of_last h.last (.number (congrArg some hl))
      refine (keeps_load hlength h.rests hround ?_).bind fun _ s' hs' => .pure hs'
      rw [← hanswer]
      cases s.draft.loadConstant spelling t.offset <;> rfl
    | name spelling =>
      rw [hl] at hanswer
      refine (keeps_name hinner hlength h.sound (fun reply => ?_) hanswer).bind
        fun _ s' hs' => .pure hs'
      have hname : (Reply.token t).lexeme? = some (.name spelling) := congrArg some hl
      exact Session.admits_of_last h.last (.name hname reply)
    | openParen =>
      rw [hl] at hanswer
      refine (keeps_group hinner hlength h.rests (fun context => ?_) hanswer).bind
        fun _ s' hs' => .pure hs'
      have hopen : (Reply.token t).lexeme? = some .openParen := congrArg some hl
      exact Session.admits_of_last h.last (.opened hopen context)
    | operator op =>
      rw [hl] at hanswer
      cases op with
      | plus | minus => exact keeps_sign hlength h.rests h.last (congrArg some hl) hanswer
      | star | slash | caret => exact .throw h.rests hanswer.symm
    | closeParen =>
      rw [hl] at hanswer
      simp only [Parser.State.inEmptyGroup_context, ← hfirst] at hanswer
      dsimp only
      by_cases hgroup : (first && Context.inside frames == .group) = true
      · rw [if_pos hgroup] at hanswer ⊢
        exact .throw h.rests hanswer.symm
      · rw [if_neg hgroup] at hanswer ⊢
        exact .throw h.rests hanswer.symm
    | comma =>
      rw [hl] at hanswer
      exact .throw h.rests hanswer.symm

/-- **The loop.**  By induction on the number of rounds: each of them takes a token, so that for the
parts inside of it and for the rounds after it less of the text is left. -/
theorem loopKeeps (scope : Scope) (source : String) (m : Except Failure Draft) (n : Nat) :
    LoopKeeps scope source m n := by
  induction n with
  | zero => exact fun _ _ _ _ _ hn => absurd hn (Nat.not_lt_zero _)
  | succ n ih =>
    intro s frames waiting expectOperand seenOperand hn hseen h
    rw [loop]
    refine .record ?_
    have hround : (s.note .round).Sound source (frames.length + 1) :=
      h.sound.note h.admits rfl rfl h.sound.live_le s.draft
    have hadmits : (s.note .round).Admits (.ask .take (s.note .round).cursor.take.1) :=
      Session.admits_of_last rfl (.taken _)
    refine (keeps_take hround hadmits h.answer).bind ?_
    rintro found s' ⟨htook, hcursor, hfound, -⟩
    have hle : s'.cursor.rest.length < n + 1 := by
      rw [hcursor]
      exact Nat.lt_of_le_of_lt (length_rest_take _) hn
    have hlt : ∀ t, found = .token t → s'.cursor.rest.length < n := by
      rintro t rfl
      have hshorter := length_rest_token (Prod.ext hfound hcursor.symm)
      exact Nat.lt_of_lt_of_le hshorter (Nat.le_of_lt_succ hn)
    -- the rest of the part, on a shorter text
    have hrest : ∀ (s₁ : Session) (waiting : List Waiting) (expectOperand seenOperand : Bool),
        s₁.cursor.rest.length < n → (expectOperand = true → waiting = [] → seenOperand = false) →
        Stands scope source m frames waiting (if expectOperand then .operand else .operator) s₁ →
        Keeps source m
          (loop scope n (.inside frames) frames.length waiting expectOperand seenOperand) s₁
          fun found s' => s'.cursor.rest.length < n + 1 ∧ Ended scope source m frames found s' :=
      fun s₁ waiting expectOperand seenOperand hn₁ hseen₁ h₁ =>
        (ih s₁ frames waiting expectOperand seenOperand hn₁ hseen₁ h₁).mono
          fun _ _ ⟨hn', hended⟩ => ⟨Nat.lt_succ_of_lt hn', hended⟩
    cases expectOperand with
    | true =>
      have hfirst : (!seenOperand && waiting.isEmpty) = waiting.isEmpty := by
        cases waiting with
        | nil => rw [hseen rfl rfl]; rfl
        | cons => exact Bool.and_false _
      refine (keeps_operand (keeps_part ih) htook hfirst hlt).bind ?_
      rintro (_ | sign) s₁ ⟨hn₁, h₁⟩
      · exact hrest s₁ waiting false true hn₁ nofun h₁
      · exact hrest s₁ (sign :: waiting) true seenOperand hn₁ nofun h₁
    | false =>
      refine (keeps_operator htook hlt).bind ?_
      rintro (_ | waiting') s₁ h₁
      · obtain ⟨hcursor₁, hended⟩ := h₁
        exact .pure ⟨hcursor₁ ▸ hle, hended⟩
      · obtain ⟨hn₁, hne, h₁⟩ := h₁
        exact hrest s₁ waiting' true seenOperand hn₁ (fun _ heq => absurd heq hne) h₁

/-- The whole formula. -/
theorem keeps_formula (scope : Scope) {m : Except Failure Draft} {rounds : Nat}
    (hrounds : source.toList.length < rounds) (hblack : ¬ source.toList.all Text.isWhite = true)
    (hanswer : Parser.State.start.answer scope (.start source) = m) :
    Keeps source m (formula scope source rounds) (.start source) fun program s =>
      (∃ d, m = .ok d ∧ program = d.toProgram source scope.inputs) ∧
        s.Rests source 0 ∧ ∃ offset, s.log.head? = some (.leave (.ending offset)) := by
  unfold formula
  rw [if_neg hblack]
  have hadmits : Session.Admits (.start source) (.enter (.inside [])) := rfl
  refine (keeps_part (loopKeeps scope source m rounds) (.start source) [] hrounds
    (Session.sound_start source) hadmits (Nat.zero_le _) hanswer).bind ?_
  rintro found s ⟨-, hleft⟩
  have hended := hleft.answer
  rw [Parser.State.answerTo_whole hleft.ends, if_pos (hleft.whole rfl)] at hended
  obtain ⟨offset, rfl⟩ : ∃ offset, found = .ending offset := by
    cases found with
    | ending offset => exact ⟨offset, rfl⟩
    | token => cases hleft.whole rfl
  refine Keeps.edit hleft.rests (fun e he => ?_) fun d program hd => ?_
  · split at he <;> cases he
    rename_i hdepth
    rw [← hended, if_neg hdepth]
  · split at hd <;> cases hd
    rename_i hdepth
    refine ⟨⟨s.draft, ?_, rfl⟩, hleft.rests.draft _, offset, hleft.last⟩
    rw [← hended, if_pos hdepth]

end Descent

end Formula
