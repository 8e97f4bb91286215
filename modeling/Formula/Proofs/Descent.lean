import Mathlib.Data.List.Chain
import Formula.Proofs.Tokenisation

/-!
# Reading by recursive descent

The parser of `Formula.Parser` is a machine: it takes one token after another, and what is open is a
list of frames.  Here a formula is read by functions that call one another, and what is open are the
calls that have not returned: `part` reads what stands between parentheses, or an argument, or the
whole formula; `loop` takes the tokens of a part; `operand` and `name` look into a single token, and
`group` and `call` go into the next part.

Nothing in these functions says that they come to an end.  A loop goes round at most as often as it
is allowed to, and `none` stands for a reading that has not come to an end by then.  More rounds do
not change a reading that has (`Extends.formula`).

* **The log.**  A reading notes where a part is begun, where its loop goes round, what the scanner
  is asked for, and where a part is over.
* **Order.**  `Leads` says which mark comes right after another.  `Session.Sound` says it of a whole
  log, with the number of parts that are being read, and `Session.Sound.note` adds one mark.
* **Contracts.**  `Keeps` is total correctness: a reading comes to an end, its failure is the one
  that has been announced, and its result satisfies a postcondition.  There is one rule for each of
  the primitive readings, and one for sequences.
-/

namespace Formula

open Cursor (Request Reply)

namespace Cursor.Reply

/-- Where an answer stands. -/
def offset : Reply → Nat
  | token t => t.offset
  | ending offset => offset

/-- The lexeme of an answer, `none` at the end of the text. -/
def lexeme? : Reply → Option Lexeme
  | token t => some t.lexeme
  | ending _ => none

/-- Whether an answer ends a part of a formula when it comes after an operand. -/
def endsPart (found : Reply) : Bool :=
  found.lexeme? = none || found.lexeme? = some .closeParen || found.lexeme? = some .comma

/-- Only a token has a lexeme. -/
theorem exists_token {found : Reply} {l : Lexeme} (h : found.lexeme? = some l) :
    ∃ t, found = .token t ∧ t.lexeme = l := by
  cases found with
  | token t => exact ⟨t, rfl, Option.some.inj h⟩
  | ending => cases h

end Cursor.Reply

namespace Draft

/-- Loads a constant, by its spelling. -/
def loadConstant (d : Draft) (text : String) (offset : Nat) : Except Failure Draft :=
  match d.loadConstant? text with
  | some d => .ok d
  | none => .error (.of offset .tooLarge)

/-- Loads what a name stands for. -/
def loadName (scope : Scope) (d : Draft) (name : String) (offset : Nat) : Except Failure Draft :=
  match FunctionName.ofSpelling? name with
  | some f => .error (.of (offset + name.utf8ByteSize) (.callWithoutParentheses f.spelling))
  | none =>
    match scope.resolve name with
    | .error cause => .error (.of offset cause)
    | .ok (.input slot) => .ok (d.loadInput slot)
    | .ok .constant => d.loadConstant name offset

end Draft

namespace Descent

/-- What is noted while a formula is read. -/
inductive Mark where
  /-- a part of the formula is begun -/
  | enter (context : Context)
  /-- the loop over the tokens of the innermost part goes round -/
  | round
  /-- the scanner is asked for a token -/
  | ask (request : Request) (reply : Except SourceError Reply)
  /-- a part is over, with what it ended at -/
  | leave (found : Reply)

/-- Where a reading stands. -/
structure Session where
  cursor : Cursor
  draft : Draft
  /-- the latest mark first -/
  log : List Mark

/-- Before the first token. -/
def Session.start (source : String) : Session := ⟨.start source, .empty, []⟩

/-- Notes a mark. -/
def Session.note (s : Session) (e : Mark) : Session := { s with log := e :: s.log }

/-- A reading: `none` if it does not come to an end, else a result or a failure. -/
abbrev Reading (α : Type) := ExceptT Failure (StateT Session Option) α

/-- The reading that notes a mark. -/
def record (e : Mark) : Reading Unit := fun s => some (.ok (), s.note e)

/-- Asks the scanner for a token. -/
def ask (request : Request) : Reading Reply := fun s =>
  let (reply, cursor) := s.cursor.call request
  some (reply.mapError .rejected, { s.note (.ask request reply) with cursor := cursor })

/-- Changes what has been written. -/
def edit {α : Type} (f : Draft → Except Failure (Draft × α)) : Reading α := fun s =>
  match f s.draft with
  | .error e => some (.error e, s)
  | .ok (draft, a) => some (.ok a, { s with draft := draft })

/-- Writes more, with no result. -/
def write (f : Draft → Except Failure Draft) : Reading Unit := edit fun d => (f d).map (·, ())

/-- Checks that a part has ended as it has to. -/
def expectEnd (context : Context) (found : Reply) : Reading Unit :=
  if context.ending = found.lexeme? then return ()
  else throw (.of found.offset (context.refusal found.lexeme?))

/-- Checks that one more parenthesis may be open. -/
def checkNesting (offset nesting : Nat) : Reading Unit :=
  if Parser.maxNesting ≤ nesting then throw (.of offset .nestedTooDeeply) else return ()

/-- A sign where an operand should be. -/
def sign (op : Operator) (t : Token) : Reading (Option Waiting) :=
  match t.sign with
  | .unary => return some ⟨.sign (op == .minus), t.offset⟩
  | .doubled => throw (.of t.offset (.doubledSign op))
  | .binary => throw (.of t.offset (.signAfterOperand op))

/-- The end of a part. -/
def conclude (context : Context) (waiting : List Waiting) (found : Reply) :
    Reading (Option (List Waiting)) := do
  write (·.emitAll waiting)
  if context = .formula then expectEnd context found
  return none

/-- What comes after an operand: a binary operator, and then there are operators that wait, or the
end of the part. -/
def operator (context : Context) (waiting : List Waiting) (found : Reply) :
    Reading (Option (List Waiting)) :=
  match found with
  | .ending _ => conclude context waiting found
  | .token t =>
    match t.lexeme with
    | .operator op => do
      let waiting ← edit (·.emitAbove (WaitingOp.binary op).level waiting)
      return some (⟨.binary op, t.offset⟩ :: waiting)
    | .closeParen | .comma => conclude context waiting found
    | .number _ | .name _ | .openParen => throw (.of t.offset (.missingOperatorBefore t.text))

/-- Reads a part of a formula, with a loop that goes up to what ends it. -/
def part (context : Context) (loop : Reading Reply) : Reading Reply := do
  record (.enter context)
  let found ← loop
  record (.leave found)
  return found

section

-- how a part is read inside of this one, from its context and the number of open parentheses
variable (inner : Context → Nat → Reading Reply)

/-- A parenthesised part, after its parenthesis. -/
def group (nesting offset : Nat) : Reading Unit := do
  checkNesting offset nesting
  let found ← inner .group (nesting + 1)
  expectEnd .group found

/-- The last arguments of a call, so many of them. -/
def arguments (nesting : Nat) : Nat → Reading Unit
  | 0 => return ()
  | more + 1 => do
    let found ← inner (.argument (more == 0)) (nesting + 1)
    expectEnd (.argument (more == 0)) found
    arguments nesting more

/-- A call, after the name of the function. -/
def call (nesting : Nat) (spelling : String) (offset : Nat) : Reading Unit :=
  match FunctionName.ofSpelling? spelling with
  | none => throw (.of offset (.unknownFunction spelling))
  | some f => do
    let opening ← ask .take
    checkNesting opening.offset nesting
    let depth ← edit fun d => .ok (d, d.depth)
    arguments inner nesting f.arity
    write (·.emitCall offset f depth)

/-- What a name stands for: the next token shows whether it is a call. -/
def name (scope : Scope) (nesting : Nat) (spelling : String) (offset : Nat) : Reading Unit := do
  let next ← ask .peek
  if next.lexeme? = some .openParen then call inner nesting spelling offset
  else write fun d => d.loadName scope spelling offset

/-- An operand, or a sign in front of one. -/
def operand (scope : Scope) (context : Context) (nesting : Nat) (first : Bool) (found : Reply) :
    Reading (Option Waiting) :=
  match found with
  | .ending offset => throw (.of offset .missingOperandAtEnd)
  | .token t =>
    match t.lexeme with
    | .number spelling => do
      write (·.loadConstant spelling t.offset)
      return none
    | .name spelling => do
      name inner scope nesting spelling t.offset
      return none
    | .openParen => do
      group inner nesting t.offset
      return none
    | .operator .plus => sign .plus t
    | .operator .minus => sign .minus t
    | .operator op => throw (.of t.offset (.missingOperandBefore op.symbol))
    | .closeParen =>
      if first && context == .group then throw (.of t.offset .emptyParentheses)
      else throw (.of t.offset (.missingOperandBefore ')'))
    | .comma => throw (.of t.offset (.missingOperandBefore ','))

end

/-- The loop over the tokens of a part.  It may go round so many times, and so may the loops of the
parts inside. -/
def loop (scope : Scope) :
    (rounds : Nat) → Context → (nesting : Nat) → List Waiting → (expectOperand : Bool) →
      (seenOperand : Bool) → Reading Reply
  | 0, _, _, _, _, _ => fun _ => none
  | rounds + 1, context, nesting, waiting, expectOperand, seenOperand => do
    record .round
    let found ← ask .take
    if expectOperand then
      let inner := fun context nesting =>
        part context (loop scope rounds context nesting [] true false)
      match ← operand inner scope context nesting (!seenOperand && waiting.isEmpty) found with
      | some sign => loop scope rounds context nesting (sign :: waiting) true seenOperand
      | none => loop scope rounds context nesting waiting false true
    else
      match ← operator context waiting found with
      | some waiting => loop scope rounds context nesting waiting true seenOperand
      | none => return found

/-- Reads a formula, if so many rounds are enough. -/
def formula (scope : Scope) (source : String) (rounds : Nat) : Reading Program := do
  if source.toList.all Text.isWhite then throw (.of 0 .emptyFormula)
  let found ← part .formula (loop scope rounds .formula 0 [] true false)
  edit fun d =>
    if d.depth = 1 then .ok (d, d.toProgram source scope.inputs)
    else .error (.of found.offset .countMismatch)

/-! ## More rounds -/

/-- Where one reading comes to an end, another one comes to the same. -/
def Extends {α : Type} (x y : Reading α) : Prop := ∀ s r, x s = some r → y s = some r

namespace Extends

variable {α β : Type} {x y : Reading α} {f g : α → Reading β}

theorem refl (x : Reading α) : Extends x x := fun _ _ h => h

theorem bind (h : Extends x y) (hnext : ∀ a, Extends (f a) (g a)) :
    Extends (x >>= f) (y >>= g) := by
  intro s r hr
  obtain ⟨⟨found, s'⟩, hx, hr⟩ := Option.bind_eq_some_iff.mp hr
  refine Option.bind_eq_some_iff.mpr ⟨(found, s'), h s _ hx, ?_⟩
  cases found with
  | error e => exact hr
  | ok a => exact hnext a s' r hr

/-- Only what comes after differs. -/
theorem andThen (x : Reading α) (hnext : ∀ a, Extends (f a) (g a)) :
    Extends (x >>= f) (x >>= g) := (refl x).bind hnext

theorem part (context : Context) {loop loop' : Reading Reply} (h : Extends loop loop') :
    Extends (part context loop) (part context loop') :=
  andThen _ fun _ => h.bind fun _ => refl _

section

variable {inner inner' : Context → Nat → Reading Reply}
  (h : ∀ context nesting, Extends (inner context nesting) (inner' context nesting))

include h

theorem group (nesting offset : Nat) :
    Extends (group inner nesting offset) (group inner' nesting offset) :=
  andThen _ fun _ => (h _ _).bind fun _ => refl _

theorem arguments (nesting more : Nat) :
    Extends (arguments inner nesting more) (arguments inner' nesting more) := by
  induction more with
  | zero => exact refl _
  | succ more ih => exact (h _ _).bind fun _ => andThen _ fun _ => ih

theorem call (nesting : Nat) (spelling : String) (offset : Nat) :
    Extends (call inner nesting spelling offset) (call inner' nesting spelling offset) := by
  unfold Descent.call
  split
  · exact refl _
  · exact andThen _ fun _ => andThen _ fun _ => andThen _ fun _ =>
      (arguments h nesting _).bind fun _ => refl _

theorem name (scope : Scope) (nesting : Nat) (spelling : String) (offset : Nat) :
    Extends (name inner scope nesting spelling offset)
      (name inner' scope nesting spelling offset) := by
  refine andThen _ fun next => ?_
  split
  · exact call h nesting spelling offset
  · exact refl _

theorem operand (scope : Scope) (context : Context) (nesting : Nat) (first : Bool) (found : Reply) :
    Extends (operand inner scope context nesting first found)
      (operand inner' scope context nesting first found) := by
  unfold Descent.operand
  split
  · exact refl _
  · split
    · exact refl _
    · exact (name h scope nesting _ _).bind fun _ => refl _
    · exact (group h nesting _).bind fun _ => refl _
    all_goals exact refl _

end

/-- **One round more.** -/
theorem loop (scope : Scope) (rounds : Nat) (context : Context) (nesting : Nat)
    (waiting : List Waiting) (expectOperand seenOperand : Bool) :
    Extends (loop scope rounds context nesting waiting expectOperand seenOperand)
      (loop scope (rounds + 1) context nesting waiting expectOperand seenOperand) := by
  induction rounds generalizing context nesting waiting expectOperand seenOperand with
  | zero => exact fun _ _ h => nomatch h
  | succ rounds ih =>
    refine andThen _ fun _ => andThen _ fun found => ?_
    split
    · have hinner := fun context nesting => part context (ih context nesting [] true false)
      refine (operand hinner scope context nesting _ found).bind fun r => ?_
      cases r with
      | none => exact ih _ _ _ _ _
      | some => exact ih _ _ _ _ _
    · refine andThen _ fun r => ?_
      cases r with
      | none => exact refl _
      | some => exact ih _ _ _ _ _

/-- **More rounds.**  Nothing changes when they have been enough. -/
theorem formula (scope : Scope) (source : String) (rounds spare : Nat) :
    Extends (formula scope source rounds) (formula scope source (rounds + spare)) := by
  induction spare with
  | zero => exact refl _
  | succ spare ih =>
    have hmore : Extends (Descent.formula scope source (rounds + spare))
        (Descent.formula scope source (rounds + spare + 1)) := by
      unfold Descent.formula
      split
      · exact refl _
      · exact (part _ (loop scope _ _ _ _ _ _)).bind fun _ => refl _
    exact fun s r h => hmore s r (ih s r h)

end Extends

/-! ## Marks -/

namespace Mark

/-- What the scanner is asked for. -/
def request? : Mark → Option Request
  | ask request _ => some request
  | _ => none

/-- What the scanner answers. -/
def reply? : Mark → Option (Except SourceError Reply)
  | ask _ reply => some reply
  | _ => none

/-- The token that is taken. -/
def token? : Mark → Option Token
  | ask .take (.ok (.token t)) => some t
  | _ => none

/-- Whether a part is begun. -/
def isEnter : Mark → Bool
  | enter _ => true
  | _ => false

/-- Whether more has to come at once: a part is begun with a round, and a round with a token. -/
def isStart : Mark → Bool
  | enter _ | round => true
  | _ => false

/-- Whether a part is over. -/
def isLeave : Mark → Bool
  | leave _ => true
  | _ => false

end Mark

theorem filterMap_cons_toList {β : Type} (f : Mark → Option β) (e : Mark) (es : List Mark) :
    (e :: es).filterMap f = (f e).toList ++ es.filterMap f := by
  rw [List.filterMap_eq_flatMap_toList, List.flatMap_cons, List.filterMap_eq_flatMap_toList]

/-- A mark comes right after another. -/
inductive Leads : Mark → Mark → Prop
  | begun (context : Context) : Leads (.enter context) .round
  | taken (reply : Except SourceError Reply) : Leads .round (.ask .take reply)
  | number {found : Reply} {s : String} (h : found.lexeme? = some (.number s)) :
      Leads (.ask .take (.ok found)) .round
  | operator {found : Reply} {op : Operator} (h : found.lexeme? = some (.operator op)) :
      Leads (.ask .take (.ok found)) .round
  | name {found : Reply} {s : String} (h : found.lexeme? = some (.name s))
      (reply : Except SourceError Reply) : Leads (.ask .take (.ok found)) (.ask .peek reply)
  | named {found : Reply} (h : found.lexeme? ≠ some .openParen) :
      Leads (.ask .peek (.ok found)) .round
  | called {found : Reply} (h : found.lexeme? = some .openParen) :
      Leads (.ask .peek (.ok found)) (.ask .take (.ok found))
  | opened {found : Reply} (h : found.lexeme? = some .openParen) (context : Context) :
      Leads (.ask .take (.ok found)) (.enter context)
  | ended {found : Reply} (h : found.endsPart = true) :
      Leads (.ask .take (.ok found)) (.leave found)
  | closed {found : Reply} (h : found.lexeme? = some .closeParen) : Leads (.leave found) .round
  | next {found : Reply} (h : found.lexeme? = some .comma) (last : Bool) :
      Leads (.leave found) (.enter (.argument last))

/-- The log is in order, and so many parts are being read. -/
structure Session.Sound (source : String) (live : Nat) (s : Session) : Prop where
  asked : (Cursor.start source).perform (s.log.reverse.filterMap Mark.request?) =
    (s.log.reverse.filterMap Mark.reply?, s.cursor)
  begun : ∀ e ∈ s.log.getLast?, e = .enter .formula
  chain : s.log.IsChain fun later earlier => Leads earlier later
  live : s.log.countP Mark.isEnter = s.log.countP Mark.isLeave + live
  nested : ∀ u, u <:+ s.log →
    u.countP Mark.isEnter ≤ u.countP Mark.isLeave + (Parser.maxNesting + 1)

/-- Nothing has to come at once. -/
structure Session.Rests (source : String) (live : Nat) (s : Session) : Prop
    extends s.Sound source live where
  settled : ∀ e ∈ s.log.head?, e.isStart = false

/-- A mark may come next. -/
def Session.Admits (s : Session) (e : Mark) : Prop :=
  match s.log with
  | [] => e = .enter .formula
  | e' :: _ => Leads e' e

namespace Session

variable {source : String} {live : Nat} {s : Session}

theorem sound_start (source : String) : (start source).Sound source 0 where
  asked := rfl
  begun := nofun
  chain := .nil
  live := rfl
  nested u h := by
    rw [List.suffix_nil.mp h]
    exact Nat.zero_le _

theorem Sound.live_le (h : s.Sound source live) : live ≤ Parser.maxNesting + 1 := by
  have hnested := h.nested s.log List.suffix_rfl
  have hlive := h.live
  omega

theorem Sound.draft (h : s.Sound source live) (d : Draft) :
    Sound source live { s with draft := d } := ⟨h.asked, h.begun, h.chain, h.live, h.nested⟩

theorem Rests.draft (h : s.Rests source live) (d : Draft) :
    Rests source live { s with draft := d } := ⟨h.toSound.draft d, h.settled⟩

theorem Sound.rests {e : Mark} (h : s.Sound source live) (hlast : s.log.head? = some e)
    (he : e.isStart = false) : s.Rests source live := by
  refine ⟨h, fun e' he' => ?_⟩
  rw [hlast] at he'
  cases he'
  exact he

/-- **One mark more.** -/
theorem Sound.note (h : s.Sound source live) {e : Mark} {k : Cursor} {live' : Nat}
    (hadmits : s.Admits e)
    (hcall : s.cursor.perform e.request?.toList = (e.reply?.toList, k))
    (hlive : live' + [e].countP Mark.isLeave = live + [e].countP Mark.isEnter)
    (hroom : live' ≤ Parser.maxNesting + 1) (d : Draft) :
    Sound source live' ⟨k, d, e :: s.log⟩ := by
  have hcons : ∀ p : Mark → Bool, (e :: s.log).countP p = s.log.countP p + [e].countP p :=
    fun p => by rw [List.countP_cons, List.countP_cons, List.countP_nil, Nat.zero_add]
  have hold := h.live
  have hnew : (e :: s.log).countP Mark.isEnter = (e :: s.log).countP Mark.isLeave + live' := by
    rw [hcons, hcons]
    omega
  have hplace : (∀ e' ∈ (e :: s.log).getLast?, e' = .enter .formula) ∧
      ∀ e' ∈ s.log.head?, Leads e' e := by
    unfold Session.Admits at hadmits
    cases hlog : s.log with
    | nil =>
      rw [hlog] at hadmits
      refine ⟨?_, nofun⟩
      rintro e' ⟨⟩
      exact hadmits
    | cons e₀ es =>
      rw [hlog] at hadmits
      refine ⟨?_, ?_⟩
      · rw [List.getLast?_cons_cons, ← hlog]
        exact h.begun
      · rintro e' ⟨⟩
        exact hadmits
  refine ⟨?_, hplace.1, List.isChain_cons.mpr ⟨hplace.2, h.chain⟩, hnew, fun u hu => ?_⟩
  · show (Cursor.start source).perform ((e :: s.log).reverse.filterMap Mark.request?) =
      ((e :: s.log).reverse.filterMap Mark.reply?, k)
    rw [List.reverse_cons, List.filterMap_append, List.filterMap_append, Cursor.perform_append,
      h.asked, filterMap_cons_toList, filterMap_cons_toList, List.filterMap_nil, List.append_nil,
      List.filterMap_nil, List.append_nil, hcall]
  · rcases List.suffix_cons_iff.mp hu with rfl | hu
    · omega
    · exact h.nested u hu

end Session

variable {source : String} {m : Except Failure Draft}

/-! ## What readings keep -/

/-- A reading comes to an end.  Its failure is `m`, and after its result something holds. -/
def Keeps {α : Type} (source : String) (m : Except Failure Draft) (x : Reading α) (s : Session)
    (Q : α → Session → Prop) : Prop :=
  ∃ r s', x s = some (r, s') ∧
    match r with
    | .error e => m = .error e ∧ ∃ live, s'.Rests source live
    | .ok a => Q a s'

namespace Keeps

variable {α β : Type} {s : Session} {Q R : α → Session → Prop} {live : Nat}

theorem pure {a : α} (h : Q a s) : Keeps source m (Pure.pure a) s Q := ⟨.ok a, s, rfl, h⟩

theorem throw {e : Failure} (hs : s.Rests source live) (h : m = .error e) :
    Keeps source m (MonadExcept.throw e) s Q := ⟨.error e, s, rfl, h, live, hs⟩

theorem bind {x : Reading α} {f : α → Reading β} {R : β → Session → Prop}
    (h : Keeps source m x s Q) (hnext : ∀ a s', Q a s' → Keeps source m (f a) s' R) :
    Keeps source m (x >>= f) s R := by
  obtain ⟨r, s', hx, hr⟩ := h
  cases r with
  | error e => exact ⟨.error e, s', Option.bind_eq_some_iff.mpr ⟨(.error e, s'), hx, rfl⟩, hr⟩
  | ok a =>
    obtain ⟨r, s'', hf, hr'⟩ := hnext a s' hr
    exact ⟨r, s'', Option.bind_eq_some_iff.mpr ⟨(.ok a, s'), hx, hf⟩, hr'⟩

theorem mono {x : Reading α} (h : Keeps source m x s Q) (hnext : ∀ a s', Q a s' → R a s') :
    Keeps source m x s R := by
  obtain ⟨r, s', hx, hr⟩ := h
  refine ⟨r, s', hx, ?_⟩
  cases r with
  | error e => exact hr
  | ok a => exact hnext a s' hr

theorem record {e : Mark} {f : Unit → Reading β} {R : β → Session → Prop}
    (h : Keeps source m (f ()) (s.note e) R) : Keeps source m (record e >>= f) s R := h

/-- Asking the scanner.  An error that it answers is the failure that has been announced. -/
theorem ask {request : Request} {Q : Reply → Session → Prop} (hs : s.Sound source live)
    (hadmits : s.Admits (.ask request (s.cursor.call request).1))
    (herror : ∀ e, (s.cursor.call request).1 = .error e → m = .error (.rejected e))
    (hok : ∀ found k, s.cursor.call request = (.ok found, k) →
      Session.Rests source live ⟨k, s.draft, .ask request (.ok found) :: s.log⟩ →
      Q found ⟨k, s.draft, .ask request (.ok found) :: s.log⟩) :
    Keeps source m (ask request) s Q := by
  have hcalled : s.cursor.perform [request] =
      ([(s.cursor.call request).1], (s.cursor.call request).2) := rfl
  have hsound := (hs.note hadmits hcalled rfl hs.live_le s.draft).rests rfl rfl
  rcases hcall : s.cursor.call request with ⟨reply, k⟩
  rw [hcall] at hsound herror
  have hask : Descent.ask request s =
      some (reply.mapError .rejected, ⟨k, s.draft, .ask request reply :: s.log⟩) := by
    simp only [Descent.ask, hcall, Session.note]
  cases reply with
  | error e => exact ⟨_, _, hask, herror e rfl, live, hsound⟩
  | ok found => exact ⟨_, _, hask, hok found k hcall hsound⟩

theorem edit {f : Draft → Except Failure (Draft × α)} (hs : s.Rests source live)
    (herror : ∀ e, f s.draft = .error e → m = .error e)
    (hok : ∀ d a, f s.draft = .ok (d, a) → Q a { s with draft := d }) :
    Keeps source m (edit f) s Q := by
  cases hf : f s.draft with
  | error e => exact ⟨.error e, s, by simp only [Descent.edit, hf], herror e hf, live, hs⟩
  | ok r => exact ⟨.ok r.2, _, by simp only [Descent.edit, hf], hok r.1 r.2 hf⟩

theorem write {f : Draft → Except Failure Draft} {Q : Unit → Session → Prop}
    (hs : s.Rests source live) (herror : ∀ e, f s.draft = .error e → m = .error e)
    (hok : ∀ d, f s.draft = .ok d → Q () { s with draft := d }) :
    Keeps source m (write f) s Q := by
  refine edit hs (fun e he => ?_) fun d _ hd => ?_
  · cases hf : f s.draft with
    | error e' =>
      rw [hf] at he
      cases he
      exact herror _ hf
    | ok d => rw [hf] at he; cases he
  · cases hf : f s.draft with
    | error e => rw [hf] at hd; cases hd
    | ok d' =>
      rw [hf] at hd
      cases hd
      exact hok _ hf

theorem expectEnd {context : Context} {found : Reply} {Q : Unit → Session → Prop}
    (hs : s.Rests source live)
    (herror : context.ending ≠ found.lexeme? →
      m = .error (.of found.offset (context.refusal found.lexeme?)))
    (hok : context.ending = found.lexeme? → Q () s) :
    Keeps source m (expectEnd context found) s Q := by
  unfold Descent.expectEnd
  split
  · rename_i h
    exact pure (hok h)
  · rename_i h
    exact throw hs (herror h)

theorem checkNesting {offset nesting : Nat} {Q : Unit → Session → Prop}
    (hs : s.Rests source live)
    (herror : Parser.maxNesting ≤ nesting → m = .error (.of offset .nestedTooDeeply))
    (hok : nesting < Parser.maxNesting → Q () s) :
    Keeps source m (checkNesting offset nesting) s Q := by
  unfold Descent.checkNesting
  split
  · rename_i h
    exact throw hs (herror h)
  · rename_i h
    exact pure (hok (Nat.lt_of_not_le h))

end Keeps

end Descent

end Formula
