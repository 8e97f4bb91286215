/-!
# Options

How a program is made callable.  Option values are read from text without regard to the case of
ASCII letters; a value that is not known is reported as it was given.
-/

namespace Formula

/-- An option value that is not known. -/
inductive OptionError where
  | backend (text : String)
  | optLevel (text : String)
  deriving DecidableEq, Repr

/-- The wording of an unknown option value. -/
def OptionError.message : OptionError → String
  | backend text => "unknown option: backend '" ++ text ++ "'"
  | optLevel text => "unknown option: opt level '" ++ text ++ "'"

/-- What runs a program. -/
inductive Backend where
  /-- straight-line code -/
  | jit
  /-- the stack machine -/
  | interpreter
  deriving DecidableEq, Repr

namespace Backend

/-- The backend's name. -/
def name : Backend → String
  | jit => "jit"
  | interpreter => "interpreter"

/-- The backend's name in descriptions. -/
def title : Backend → String
  | jit => "Jit"
  | interpreter => "Interpreter"

/-- Reads a backend. -/
def parse (text : String) : Except OptionError Backend :=
  match text.toLower with
  | "jit" => .ok jit
  | "interpreter" => .ok interpreter
  | "interp" => .ok interpreter
  | "vm" => .ok interpreter
  | _ => .error (.backend text)

end Backend

/-- How hard straight-line code is optimised.  It changes no result. -/
inductive OptLevel where
  | none
  | speed
  | speedAndSize
  deriving DecidableEq, Repr

namespace OptLevel

/-- The level's name. -/
def name : OptLevel → String
  | none => "none"
  | speed => "speed"
  | speedAndSize => "speed_and_size"

/-- The level's name in descriptions. -/
def title : OptLevel → String
  | none => "None"
  | speed => "Speed"
  | speedAndSize => "SpeedAndSize"

/-- Reads a level. -/
def parse (text : String) : Except OptionError OptLevel :=
  match text.toLower with
  | "none" => .ok none
  | "speed" => .ok speed
  | "speed_and_size" => .ok speedAndSize
  | "speed-and-size" => .ok speedAndSize
  | _ => .error (.optLevel text)

end OptLevel

/-- Everything that can be chosen about making a program callable. -/
structure Options where
  backend : Backend := .jit
  optLevel : OptLevel := .speed
  /-- check the straight-line code before it is used -/
  verify : Bool := true
  /-- use the stack machine where straight-line code cannot run -/
  fallback : Bool := true
  deriving DecidableEq, Repr

/-- Option values in text, each of them optional. -/
structure OptionTexts where
  backend : Option String := none
  optLevel : Option String := none
  verify : Option Bool := none
  fallback : Option Bool := none

/-- The options that texts ask for, the defaults where they are silent.  The backend is read first.
-/
def Options.ofTexts (texts : OptionTexts) : Except OptionError Options := do
  let defaults : Options := {}
  let backend ← (texts.backend.map Backend.parse).getD (.ok defaults.backend)
  let optLevel ← (texts.optLevel.map OptLevel.parse).getD (.ok defaults.optLevel)
  return {
    backend, optLevel
    verify := texts.verify.getD defaults.verify
    fallback := texts.fallback.getD defaults.fallback }

/-- A description of options. -/
def Options.describe (o : Options) : String :=
  "CompileOptions \x7b backend: " ++ o.backend.title ++ ", opt_level: " ++ o.optLevel.title ++
    ", verify: " ++ toString o.verify ++ ", fallback: " ++ toString o.fallback ++ " \x7d"

end Formula
