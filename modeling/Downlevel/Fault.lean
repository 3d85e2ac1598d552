import Downlevel.Files.Basic

/-!
# `Fault`: what can go wrong

Every failure of the library is one of the causes below; `Fault.message` is the one place that words
them.
-/

namespace Downlevel

open Text

/-- A text that is no program, and where reading it stopped. Lines count from one. -/
structure SyntaxFault where
  description : String
  sourceName : String := "<input>"
  line : Option Int := none
  column : Option Int := none
  index : Option Int := none
  deriving DecidableEq

namespace SyntaxFault

/-- The place, as messages show it: `name:line:column`, as much of it as is known. -/
def message (f : SyntaxFault) : String :=
  match f.line, f.column with
  | some l, some c => s!"{f.sourceName}:{l}:{c}: {f.description}"
  | some l, none => s!"{f.sourceName}:{l}: {f.description}"
  | none, _ => s!"{f.sourceName}: {f.description}"

end SyntaxFault

/-- The causes of failure. -/
inductive Fault where
  /-- A text does not parse. -/
  | unparsable (fault : SyntaxFault)
  /-- A node lacks a field it must have. -/
  | missingField (key : String)
  /-- The type of a node is a list or an object. -/
  | structuredType
  /-- An operator has no precedence; the operator as messages show it. -/
  | unknownOperator (operator : String)
  /-- A statement of a type that cannot be written; the type as messages show it. -/
  | unprintableStatement (type : String)
  /-- An expression of a type that cannot be written; the type as messages show it. -/
  | unprintableExpression (type : String)
  /-- No lowering has the name. -/
  | unknownPass (name : String)
  /-- No dialect has the name. -/
  | unknownDialect (name : String)
  /-- There is no such kind of program text. -/
  | unknownSourceType (name : String)
  /-- A configuration asks for a kind of program text that there is not. -/
  | badSourceType (value : String)
  /-- Options are given as a list, of which one item is no pair. -/
  | unpaired (index length : Nat)
  /-- A session is not ready for an operation. -/
  | outOfOrder (operation : String) (expected : List String) (actual : String)
  /-- A file could not be read. -/
  | unreadable (path : String) (cause : Files.ReadFault)
  /-- A file could not be written. -/
  | unwritable (path : String) (cause : Files.FileFault)
  /-- A session has no program to work on. -/
  | noProgram
  /-- The beautifier gave up on a text. -/
  | unformatted (message : String)
  /-- The result of reading a program could not be kept. -/
  | uncached (cause : Files.FileFault)
  deriving DecidableEq

namespace Fault

/-- The wording of a failure. -/
def message : Fault → String
  | .unparsable fault => fault.message
  | .missingField key => shown key
  | .structuredType => "A type cannot be a list or an object"
  | .unknownOperator operator => operator
  | .unprintableStatement type => s!"Cannot print statement of type {type}"
  | .unprintableExpression type => s!"Cannot print expression of type {type}"
  | .unknownPass name =>
    let name := shown name
    s!"Unknown lowering pass: {name}"
  | .unknownDialect name =>
    let name := shown name
    s!"Unknown dialect: {name}"
  | .unknownSourceType name =>
    let name := shown name
    s!"Unknown source type: {name}"
  | .badSourceType value => s!"source_type must be one of ('script', 'module'), got {value}"
  | .unpaired index length =>
    s!"dictionary update sequence element #{index} has length {length}; 2 is required"
  | .outOfOrder operation expected actual =>
    let states := joinWith " or " expected
    s!"{operation}() requires state {states}, pipeline is {actual}"
  | .unreadable path cause => s!"Failed to read {path}: {cause.message}"
  | .unwritable path cause => s!"Failed to write {path}: {cause.message}"
  | .noProgram => "There is no program"
  | .unformatted message => message
  | .uncached cause => cause.message

end Fault
end Downlevel
