import Formula.Decimal.Reading
import Formula.Options

/-!
# Reading command-line arguments

One argument is the formula; the others choose its inputs, what to show and where to evaluate it.

* `-n N`, `-nN`, `-n=N`, `--inputs N`, `--inputs=N`: the number of inputs
* `--names A,B`, `--at V,W`: input names and a point; both add up when repeated
* `--backend B`, `--opt-level O`: options
* `--clif`: show straight-line code
* `--version`, `-V` and `--help`, `-h`: say that and do nothing else
* `--`: everything after it is no option, whatever it begins with

Arguments are read one at a time, so `State.step` is a fold.  An option without an attached value
makes the next argument its value.  Only the values of `--at` may begin with a hyphen there, since
they may be negative numbers.
-/

namespace Formula
namespace CommandLine

/-- Options that take a value. -/
inductive Setting where
  | inputs
  | names
  | backend
  | optLevel
  | point
  deriving DecidableEq, Repr

/-- What the arguments ask for. -/
structure Arguments where
  formula : Option String := none
  inputs : Option Nat := none
  names : List String := []
  backend : Option Backend := none
  optLevel : Option OptLevel := none
  showCode : Bool := false
  point : Option (List Binary64) := none

/-- Why no formula is compiled. -/
inductive Stop where
  | usage
  | version
  | help
  deriving DecidableEq, Repr

/-- Numbers of inputs are below this. -/
def countLimit : Nat := 0x10000000000000000

/-- A number of inputs: digits, with an optional plus sign, of at most 64 bits. -/
def count? (text : String) : Option Nat :=
  let digits :=
    match text.toList with
    | '+' :: digits => digits
    | digits => digits
  match Decimal.digits? digits with
  | some n => if n < countLimit then some n else none
  | none => none

/-- The pieces of a text between commas. -/
def pieces (text : String) : List String :=
  (text.toList.splitOn ',').map String.ofList

namespace Arguments

/-- Gives a setting its value.  Settings of one value cannot be given twice. -/
def set (a : Arguments) (setting : Setting) (text : String) : Option Arguments :=
  match setting with
  | .inputs =>
    match a.inputs, count? text with
    | none, some n => some { a with inputs := some n }
    | _, _ => none
  | .names => some { a with names := a.names ++ pieces text }
  | .backend =>
    match a.backend, Backend.parse text with
    | none, .ok backend => some { a with backend := some backend }
    | _, _ => none
  | .optLevel =>
    match a.optLevel, OptLevel.parse text with
    | none, .ok level => some { a with optLevel := some level }
    | _, _ => none
  | .point =>
    match (pieces text).mapM Decimal.parse? with
    | some values => some { a with point := some (a.point.getD [] ++ values) }
    | none => none

/-- The formula, which can be given once. -/
def setFormula (a : Arguments) (text : String) : Option Arguments :=
  match a.formula with
  | none => some { a with formula := some text }
  | some _ => none

end Arguments

/-- Arguments read so far, the setting that waits for its value, and whether options are over. -/
structure State where
  arguments : Arguments := {}
  awaiting : Option Setting := none
  optionsOver : Bool := false

namespace State

/-- Goes on with changed arguments, or stops if there are none. -/
def withArguments (s : State) (arguments : Option Arguments) : Except Stop State :=
  match arguments with
  | some arguments => .ok { s with arguments, awaiting := none }
  | none => .error .usage

/-- A setting with the value attached to it, if any. -/
def setting (s : State) (setting : Setting) (attached : Option String) : Except Stop State :=
  match attached with
  | some text => s.withArguments (s.arguments.set setting text)
  | none => .ok { s with awaiting := some setting }

/-- The name of a long option and the value after an equals sign. -/
def splitLong (cs : List Char) : String × Option String :=
  let name := cs.takeWhile (· != '=')
  match cs.dropWhile (· != '=') with
  | _ :: value => (String.ofList name, some (String.ofList value))
  | [] => (String.ofList name, none)

/-- An option of two hyphens. -/
def long (s : State) (cs : List Char) : Except Stop State :=
  match splitLong cs with
  | ("inputs", attached) => s.setting .inputs attached
  | ("names", attached) => s.setting .names attached
  | ("backend", attached) => s.setting .backend attached
  | ("opt-level", attached) => s.setting .optLevel attached
  | ("at", attached) => s.setting .point attached
  | ("clif", none) =>
    if s.arguments.showCode then .error .usage
    else .ok { s with arguments := { s.arguments with showCode := true } }
  | ("version", none) => .error .version
  | ("help", none) => .error .help
  | _ => .error .usage

/-- An option of one hyphen. -/
def short (s : State) : List Char → Except Stop State
  | ['n'] => s.setting .inputs none
  | 'n' :: '=' :: value => s.setting .inputs (some (String.ofList value))
  | 'n' :: value => s.setting .inputs (some (String.ofList value))
  | 'V' :: _ => .error .version
  | 'h' :: _ => .error .help
  | _ => .error .usage

/-- Whether an argument has the form of an option.  A single hyphen has not. -/
def isOption : List Char → Bool
  | '-' :: _ :: _ => true
  | _ => false

/-- One argument. -/
def step (s : State) (text : String) : Except Stop State :=
  if s.optionsOver then s.withArguments (s.arguments.setFormula text)
  else
    match s.awaiting with
    | some setting =>
      if setting == .point || !isOption text.toList then
        s.withArguments (s.arguments.set setting text)
      else .error .usage
    | none =>
      match text.toList with
      | ['-', '-'] => .ok { s with optionsOver := true }
      | '-' :: '-' :: cs => s.long cs
      | '-' :: c :: cs => s.short (c :: cs)
      | _ => s.withArguments (s.arguments.setFormula text)

/-- After the last argument: nothing may be missing, and inputs are either counted or named. -/
def finish (s : State) : Except Stop (Arguments × String) :=
  match s.awaiting, s.arguments.formula with
  | none, some formula =>
    if s.arguments.inputs.isSome && !s.arguments.names.isEmpty then .error .usage
    else .ok (s.arguments, formula)
  | _, _ => .error .usage

end State

/-- What a command line asks for, with the formula. -/
def parse (arguments : List String) : Except Stop (Arguments × String) :=
  match arguments.foldlM State.step {} with
  | .error stop => .error stop
  | .ok s => s.finish

end CommandLine
end Formula
