import Formula.Parser.Draft
import Formula.Parser.Scope
import Formula.Token.Scan

/-!
# Parsing a formula into a program

The parser reads the tokens from left to right and writes code as soon as the operands of an
operator are complete.  No tree is built.  Operators whose right operand is still to come wait on a
stack; an incoming binary operator first writes out the waiting ones that bind at least as tightly.

| operator        | level | associates |
|-----------------|-------|------------|
| binary `^`      | 4     | left       |
| unary `-`, `+`  | 3     |            |
| `*`, `/`        | 2     | left       |
| binary `+`, `-` | 1     | left       |

A sign never writes anything out when it is stacked.  So `-2^2` is `-(2^2)`, and a sign in an
exponent takes the whole power that follows it.

## One step per token

A parenthesis or an argument list opens a frame that sets the waiting operators aside, and its end
takes them up again.  With the frames on an explicit stack the parser is a machine that takes one
token per step, `State.step`, and the whole of a formula is a fold of it over the tokens followed by
`State.finish`.  A name is the one token that cannot be acted on at once: whether it is a call shows
in the next token, so the state remembers it.

## Parts and their ends

The whole formula, a group and an argument are read alike and differ in how they have to end, which
is what `Context` says.  `State.leave` ends a part with a token and `State.finishOperand` the whole
formula with the end of the text.

## Failures

A formula that is wrong is `rejected` with its first error.  `brokenCall` would mean that the parser
lost count of the operands of a call.
-/

namespace Formula

/-- Why there is no program. -/
inductive Failure where
  /-- the text is no formula -/
  | rejected (error : SourceError)
  /-- the arguments of a call left another number of values than the function takes -/
  | brokenCall
  deriving DecidableEq, Repr

/-- The failure with a cause at a position. -/
def Failure.of (position : Nat) (cause : Cause) : Failure := .rejected ⟨position, cause⟩

/-- An operator that waits for its right operand. -/
inductive WaitingOp where
  | sign (negative : Bool)
  | binary (op : Operator)
  deriving DecidableEq, Repr

namespace WaitingOp

/-- How tightly an operator binds. -/
def level : WaitingOp → Nat
  | binary .plus | binary .minus => 1
  | binary .star | binary .slash => 2
  | sign _ => 3
  | binary .caret => 4

/-- The instruction of an operator with the number of values it pops.  A plus sign has none. -/
def instruction? : WaitingOp → Option (Instruction × Nat)
  | sign false => none
  | sign true => some (.neg, 1)
  | binary op => some (.ofOperator op, 2)

end WaitingOp

/-- A waiting operator and where it stands. -/
structure Waiting where
  op : WaitingOp
  offset : Nat
  deriving DecidableEq, Repr

/-- What a parenthesis opened. -/
inductive Opening where
  | group
  /-- the argument list of a function: where its name stands, how many arguments are complete and
  how deep the stack was before them -/
  | call (offset : Nat) (function : FunctionName) (complete depth : Nat)
  deriving DecidableEq, Repr

/-- An open parenthesis, with the operators that wait outside of it. -/
structure Frame where
  opening : Opening
  outside : List Waiting
  deriving DecidableEq, Repr

/-- What a part of a formula is, which decides how it has to end. -/
inductive Context where
  /-- the whole formula -/
  | formula
  | group
  | argument (last : Bool)
  deriving DecidableEq, Repr

namespace Context

/-- The token that a part has to end with, `none` for the end of the text. -/
def ending : Context → Option Lexeme
  | formula => none
  | group | argument true => some .closeParen
  | argument false => some .comma

/-- Why a part must not end with what was found instead. -/
def refusal (c : Context) (found : Option Lexeme) : Cause :=
  match found, c with
  | some .closeParen, formula => .unmatchedClose
  | none, _ => .missingClose
  | some .comma, argument true => .tooManyArguments
  | some .closeParen, argument false => .tooFewArguments
  | some .comma, _ => .strayComma
  | _, _ => .unexpectedToken

end Context

/-- What is inside of an open parenthesis. -/
def Frame.context (frame : Frame) : Context :=
  match frame.opening with
  | .group => .group
  | .call _ f complete _ => .argument (complete + 1 == f.arity)

/-- What is inside of a parenthesis does not end with the text. -/
theorem Frame.ending_ne_none (frame : Frame) : frame.context.ending ≠ none := by
  unfold context
  split
  · simp [Context.ending]
  · rename_i f complete _ _
    cases complete + 1 == f.arity <;> simp [Context.ending]

/-- What the parser is about to see. -/
inductive Expecting where
  | operand
  | operator
  /-- after a name, which is a call if a parenthesis follows -/
  | afterName (name : String) (offset : Nat)
  deriving DecidableEq, Repr

namespace Draft

/-- Writes a waiting operator. -/
def emit (d : Draft) (w : Waiting) : Except Failure Draft :=
  match w.op.instruction? with
  | none => .ok d
  | some (i, arity) =>
    match d.reduce? i arity with
    | some d => .ok d
    | none => .error (.of w.offset .countMismatch)

/-- Writes waiting operators, the latest first. -/
def emitAll (d : Draft) : List Waiting → Except Failure Draft
  | [] => .ok d
  | w :: waiting =>
    match d.emit w with
    | .error e => .error e
    | .ok d => d.emitAll waiting

/-- Writes the waiting operators that bind at least as tightly as a level, and gives the others. -/
def emitAbove (d : Draft) (level : Nat) : List Waiting → Except Failure (Draft × List Waiting)
  | [] => .ok (d, [])
  | w :: waiting =>
    if level ≤ w.op.level then
      match d.emit w with
      | .error e => .error e
      | .ok d => d.emitAbove level waiting
    else .ok (d, w :: waiting)

/-- Writes the call of a function whose arguments are complete. -/
def emitCall (d : Draft) (offset : Nat) (f : FunctionName) (depth : Nat) : Except Failure Draft :=
  if d.depth = depth + f.arity then
    match d.functions.intern f with
    | none => .error (.of offset .functionTableFull)
    | some (index, functions) =>
      match { d with functions := functions }.reduce? (.call index) f.arity with
      | some d => .ok d
      | none => .error (.of offset .countMismatch)
  else .error .brokenCall

end Draft

namespace Parser

/-- The greatest number of parentheses that may be open at once. -/
def maxNesting : Nat := 256

/-- The parser between two tokens. -/
structure State where
  draft : Draft
  /-- operators of the innermost open parenthesis, the latest first -/
  waiting : List Waiting
  /-- open parentheses, the innermost first -/
  frames : List Frame
  expecting : Expecting

namespace State

/-- Before the first token. -/
def start : State := ⟨.empty, [], [], .operand⟩

/-- Opens a parenthesis. -/
def enter (s : State) (offset : Nat) (opening : Opening) : Except Failure State :=
  if s.frames.length < maxNesting then
    .ok { s with waiting := [], frames := ⟨opening, s.waiting⟩ :: s.frames, expecting := .operand }
  else .error (.of offset .nestedTooDeeply)

/-- Loads a constant, by its spelling. -/
def loadConstant (s : State) (text : String) (offset : Nat) : Except Failure State :=
  match s with
  | ⟨draft, waiting, frames, _⟩ =>
    match draft.loadConstant? text with
    | some draft => .ok ⟨draft, waiting, frames, .operator⟩
    | none => .error (.of offset .tooLarge)

/-- Loads what a name stands for. -/
def loadName (scope : Scope) (s : State) (name : String) (offset : Nat) : Except Failure State :=
  match FunctionName.ofSpelling? name with
  | some f => .error (.of (offset + name.utf8ByteSize) (.callWithoutParentheses f.spelling))
  | none =>
    match scope.resolve name with
    | .error cause => .error (.of offset cause)
    | .ok (.input slot) => .ok { s with draft := s.draft.loadInput slot, expecting := .operator }
    | .ok .constant => s.loadConstant name offset

/-- Whether the innermost open parenthesis is a group with nothing in it yet. -/
def inEmptyGroup (s : State) : Bool :=
  s.waiting.isEmpty && (s.frames.head?.map (·.opening == .group)).getD false

/-- A sign where an operand should be. -/
def sign (s : State) (op : Operator) (t : Token) : Except Failure State :=
  match t.sign with
  | .unary => .ok { s with waiting := ⟨.sign (op == .minus), t.offset⟩ :: s.waiting }
  | .doubled => .error (.of t.offset (.doubledSign op))
  | .binary => .error (.of t.offset (.signAfterOperand op))

/-- A token where an operand should be. -/
def operand (s : State) (t : Token) : Except Failure State :=
  match t.lexeme with
  | .number spelling => s.loadConstant spelling t.offset
  | .name spelling => .ok { s with expecting := .afterName spelling t.offset }
  | .openParen => s.enter t.offset .group
  | .operator .plus => s.sign .plus t
  | .operator .minus => s.sign .minus t
  | .operator op => .error (.of t.offset (.missingOperandBefore op.symbol))
  | .closeParen =>
    if s.inEmptyGroup then .error (.of t.offset .emptyParentheses)
    else .error (.of t.offset (.missingOperandBefore ')'))
  | .comma => .error (.of t.offset (.missingOperandBefore ','))

/-- A binary operator after an operand. -/
def binary (s : State) (op : Operator) (offset : Nat) : Except Failure State :=
  match s with
  | ⟨draft, waiting, frames, _⟩ =>
    match draft.emitAbove (WaitingOp.binary op).level waiting with
    | .error e => .error e
    | .ok (draft, waiting) => .ok ⟨draft, ⟨.binary op, offset⟩ :: waiting, frames, .operand⟩

/-- Goes on after a part that has ended as it has to: after a group, with the next argument, or with
the call that the last argument completes. -/
def resume (draft : Draft) (frame : Frame) (frames : List Frame) : Except Failure State :=
  match frame with
  | ⟨.group, outside⟩ => .ok ⟨draft, outside, frames, .operator⟩
  | ⟨.call place f complete depth, outside⟩ =>
    if complete + 1 = f.arity then
      match draft.emitCall place f depth with
      | .error e => .error e
      | .ok draft => .ok ⟨draft, outside, frames, .operator⟩
    else .ok ⟨draft, [], ⟨.call place f (complete + 1) depth, outside⟩ :: frames, .operand⟩

/-- The end of the innermost part, found after an operand. -/
def leave (s : State) (found : Lexeme) (offset : Nat) : Except Failure State :=
  match s with
  | ⟨draft, waiting, frames, _⟩ =>
    match draft.emitAll waiting with
    | .error e => .error e
    | .ok draft =>
      match frames with
      -- no token ends the whole formula
      | [] => .error (.of offset (Context.formula.refusal (some found)))
      | frame :: frames =>
        if frame.context.ending = some found then resume draft frame frames
        else .error (.of offset (frame.context.refusal (some found)))

/-- A closing parenthesis after an operand. -/
def close (s : State) (offset : Nat) : Except Failure State := s.leave .closeParen offset

/-- A comma after an operand. -/
def comma (s : State) (offset : Nat) : Except Failure State := s.leave .comma offset

/-- A token after an operand. -/
def operator (s : State) (t : Token) : Except Failure State :=
  match t.lexeme with
  | .operator op => s.binary op t.offset
  | .closeParen => s.close t.offset
  | .comma => s.comma t.offset
  | .number _ | .name _ | .openParen => .error (.of t.offset (.missingOperatorBefore t.text))

/-- The argument list of a name. -/
def openCall (s : State) (name : String) (offset : Nat) (t : Token) : Except Failure State :=
  match FunctionName.ofSpelling? name with
  | none => .error (.of offset (.unknownFunction name))
  | some f => s.enter t.offset (.call offset f 0 s.draft.depth)

/-- One token. -/
def step (scope : Scope) (s : State) (t : Token) : Except Failure State :=
  match s.expecting with
  | .operand => s.operand t
  | .operator => s.operator t
  | .afterName name offset =>
    if t.lexeme = .openParen then s.openCall name offset t
    else
      match s.loadName scope name offset with
      | .error e => .error e
      | .ok s => s.operator t

/-- The part of a formula that is being read. -/
def context (s : State) : Context :=
  match s.frames with
  | [] => .formula
  | frame :: _ => frame.context

/-- The end of the text after an operand. -/
def finishOperand (s : State) (offset : Nat) : Except Failure Draft :=
  match s.draft.emitAll s.waiting with
  | .error e => .error e
  | .ok draft =>
    if s.context.ending = none then
      if draft.depth = 1 then .ok draft else .error (.of offset .countMismatch)
    else .error (.of offset (s.context.refusal none))

/-- The end of the text. -/
def finish (scope : Scope) (s : State) (offset : Nat) : Except Failure Draft :=
  match s.expecting with
  | .operand => .error (.of offset .missingOperandAtEnd)
  | .operator => s.finishOperand offset
  | .afterName name place =>
    match s.loadName scope name place with
    | .error e => .error e
    | .ok s => s.finishOperand offset

/-- Tokens in order, up to the first failure. -/
def run (scope : Scope) (s : State) : List Token → Except Failure State
  | [] => .ok s
  | t :: tokens =>
    match s.step scope t with
    | .error e => .error e
    | .ok s => run scope s tokens

end State
end Parser

/-- The program of a formula in a scope. -/
def parse (scope : Scope) (source : String) : Except Failure Program :=
  if source.toList.all Text.isWhite then .error (.of 0 .emptyFormula)
  else
    let scanned := scan source
    match Parser.State.start.run scope scanned.tokens with
    | .error e => .error e
    | .ok state =>
      match scanned.ending with
      | .error e => .error (.rejected e)
      | .ok offset =>
        match state.finish scope offset with
        | .error e => .error e
        | .ok draft => .ok (draft.toProgram source scope.inputs)

end Formula
