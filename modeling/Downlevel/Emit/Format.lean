import Downlevel.Fault
import Downlevel.Log
import Downlevel.Tree.Basic

/-!
# `Emit.Format`: formatting

The beautifier is not part of this library. A `Beautifier` is any function that answers, for a text and the
options in force, with a text or with a message, and it comes with the options that it knows. Options are
given by name, with dashes or underscores; unknown names are ignored and noted.
-/

namespace Downlevel.Emit

open Tree

/-- A beautifier: its options with their default values, and what it makes of a text. -/
structure Beautifier where
  defaults : List (String × Tree)
  beautify : String → List (String × Tree) → Except String String

/-- An option's name with underscores. -/
def optionName (key : String) : String :=
  String.ofList (key.toList.map fun c => if c = '-' then '_' else c)

/-- The options in force, and what was noted about unknown ones. -/
def choose : List (String × Tree) → List (String × Tree) →
    List (String × Tree) × List LogRecord
  | [], chosen => (chosen, [])
  | (key, value) :: rest, chosen =>
    if (lookup (optionName key) chosen).isSome then
      choose rest (insert (optionName key) value chosen)
    else
      let (chosen, logs) := choose rest chosen
      (chosen,
        .debug .output ("Ignoring unknown formatter option " ++ Text.shown key) :: logs)

/-- A text formatted with some options. -/
def format (b : Beautifier) (text : String) (options : List (String × Tree)) :
    Except Fault (String × List LogRecord) :=
  let (chosen, logs) := choose options b.defaults
  match b.beautify text chosen with
  | .ok text => .ok (text, logs)
  | .error message => .error (.unformatted message)

end Downlevel.Emit
