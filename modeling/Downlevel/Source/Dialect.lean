import Downlevel.Fault
import Downlevel.Log

/-!
# `Source.Dialect`: languages that are compiled first

A program may be written in CoffeeScript. Its compiler is any function from text to text that may fail
with a message.
-/

namespace Downlevel.Source

/-- The languages a program may be written in. -/
inductive Dialect where
  | es6
  | coffee
  deriving DecidableEq

namespace Dialect

def text : Dialect → String
  | .es6 => "es6"
  | .coffee => "coffee"

def ofText? : String → Option Dialect
  | "es6" => some .es6
  | "coffee" => some .coffee
  | _ => none

/-- The dialect that has a name. -/
def read (name : String) : Except Fault Dialect :=
  match ofText? name with
  | some d => .ok d
  | none => .error (.unknownDialect name)

/-- The dialect of a file, by the ending of its name. -/
def ofPath (p : Files.Path) : Dialect := if p.suffix == ".coffee" then .coffee else .es6

@[simp] theorem ofText?_text (d : Dialect) : ofText? d.text = some d := by cases d <;> rfl

@[simp] theorem read_text (d : Dialect) : read d.text = .ok d := by cases d <;> rfl

end Dialect

/-- A compiler: the program a text stands for, or a message. -/
abbrev Compiler := String → Except String String

/-- The compiler when none is installed. -/
def noCompiler : Compiler := fun _ => .error "No module named 'coffeescript'"

/-- The program that a text of a dialect stands for. -/
def compile (compiler : Compiler) (d : Dialect) (text sourceName : String) : Except Fault String :=
  match d with
  | .es6 => .ok text
  | .coffee =>
    match compiler text with
    | .ok program => .ok program
    | .error message => .error (.unparsable
        { description := s!"{d.text} compilation failed: {message}", sourceName := sourceName })

/-- What is noted when a text is compiled. -/
def compileNotes (d : Dialect) (sourceName : String) : List LogRecord :=
  match d with
  | .es6 => []
  | .coffee => [.debug .frontEnd s!"Compiling {sourceName} from the {d.text} dialect"]

end Downlevel.Source
