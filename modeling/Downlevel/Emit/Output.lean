import Downlevel.Emit.Format
import Downlevel.Emit.Program

/-!
# `Emit.Output`: programs as text

The text of a program ends in exactly one line break, or in none if that is wanted or the text is empty.
-/

namespace Downlevel.Emit

/-- How a program is written. Without formatting options the text is not formatted. -/
structure OutputOptions where
  formatter : Option (List (String × Tree)) := none
  indent : String := "  "
  trailingNewline : Bool := true

/-- A written program. -/
structure Output where
  text : String
  formatted : Bool

/-- The text without line breaks at its end. -/
def trimBreaks (text : String) : String :=
  String.ofList ((text.toList.reverse.dropWhile (· == '\n')).reverse)

/-- The text with the right line break at its end. -/
def finish (trailingNewline : Bool) (text : String) : String :=
  let text := trimBreaks text
  if trailingNewline && !text.isEmpty then text ++ "\n" else text

/-- Writes a program with the comments and blank lines of its source text. -/
def emit (b : Beautifier) (t : Tree) (source : String) (comments tokens : List Tree)
    (options : OutputOptions) : Except Fault (Output × List LogRecord) := do
  let text ← generate t (.ofTables comments tokens source) options.indent
  let (text, logs) ← match options.formatter with
    | some chosen => format b text chosen
    | none => pure (text, [])
  let text := finish options.trailingNewline text
  let formatted := options.formatter.isSome
  let answer := (Tree.bool formatted).shown
  let note := LogRecord.debug .output
    s!"Emitted {text.length} characters (formatted={answer})"
  return (⟨text, formatted⟩, logs ++ [note])

end Downlevel.Emit
