import Formula.Compiled
import Formula.Text.Layout

/-!
# Descriptions of compiled functions

One description is a block of lines for people, the other a single line with the fields of the
function. Input names are shown when there are any.
-/

namespace Formula
namespace Compiled

/-- A block of lines between braces. -/
def block (f : Compiled) : String :=
  let names := if f.names.isEmpty then [] else ["Names: " ++ Text.quotedList f.names]
  let fields :=
    ["Expression: " ++ f.source, "Inputs: " ++ toString f.inputs] ++ names ++
      ["Backend: " ++ f.backend.name, "Max stack: " ++ toString f.maxStack]
  "\x7b\n" ++ String.join (fields.map fun field => "    " ++ field ++ "\n") ++ "\x7d\n"

/-- One line with all fields but the code. -/
def line (f : Compiled) : String :=
  "CompiledFunction \x7b source: " ++ Text.quoted f.source ++ ", n_inputs: " ++
    toString f.inputs ++ ", max_stack: " ++ toString f.maxStack ++ ", backend: " ++
    f.backend.title ++ ", names: " ++ Text.quotedList f.names ++ ", .. \x7d"

end Compiled
end Formula
