import Downlevel.Text.Sha256
import Downlevel.Tree.Json

/-!
# `Source.Parse`: program texts and their trees

The grammar is not part of this library. A `Grammar` is any function that answers, for a text and the kind
of program it is to be read as, with a syntax tree or with a refusal. `parse` asks it, takes the tables of
comments and tokens out of the tree, and gives a refusal the name of the source.
-/

namespace Downlevel.Source

open Text

/-! ## Kinds of program -/

/-- The kinds of program: scripts, and modules with imports and exports. -/
inductive SourceType where
  | script
  | module
  deriving DecidableEq

namespace SourceType

def text : SourceType → String
  | .script => "script"
  | .module => "module"

def ofText? : String → Option SourceType
  | "script" => some .script
  | "module" => some .module
  | _ => none

/-- The kind of program that has a name. -/
def read (name : String) : Except Fault SourceType :=
  match ofText? name with
  | some t => .ok t
  | none => .error (.unknownSourceType name)

@[simp] theorem ofText?_text (t : SourceType) : ofText? t.text = some t := by cases t <;> rfl

@[simp] theorem read_text (t : SourceType) : read t.text = .ok t := by cases t <;> rfl

end SourceType

/-! ## Grammars -/

/-- What a grammar says of a text that is no program. -/
structure Refusal where
  text : String := ""
  description : Option String := none
  line : Option Int := none
  column : Option Int := none
  index : Option Int := none

/-- The fault for a refusal of a source. The whole text of the refusal describes it if nothing shorter
does. -/
def Refusal.fault (r : Refusal) (sourceName : String) : SyntaxFault where
  description := match r.description with
    | some d => if d.isEmpty then r.text else d
    | none => r.text
  sourceName := sourceName
  line := r.line
  column := r.column
  index := r.index

/-- A grammar: the tree of a text, or a refusal. -/
abbrev Grammar := String → SourceType → Except Refusal Tree

/-! ## Parsing -/

/-- A program: its text and tree, and beside the tree the tables of comments and tokens. -/
structure Parsed where
  tree : Tree
  text : String
  sourceName : String
  comments : List Tree
  tokens : List Tree

/-- The digest of the text, which names the program in a cache. -/
def Parsed.digest (p : Parsed) : String := Text.digest p.text

/-- A tree with the tables taken out of it. -/
def Parsed.ofProgram (program : Tree) (text sourceName : String) : Parsed where
  tree := (program.erase "comments").erase "tokens"
  text := text
  sourceName := sourceName
  comments := program.children "comments"
  tokens := program.children "tokens"

/-- Parses a text. -/
def parse (grammar : Grammar) (text sourceName : String) (type : SourceType) :
    Except Fault Parsed :=
  match grammar text type with
  | .ok program => .ok (.ofProgram program text sourceName)
  | .error refusal => .error (.unparsable (refusal.fault sourceName))

/-- A program as a document. -/
def Parsed.toJson (p : Parsed) : String :=
  (Tree.record [("ast", p.tree), ("comments", .list p.comments), ("tokens", .list p.tokens),
    ("source_hash", .str p.digest), ("source_name", .str p.sourceName)]).renderIndented .plain 0

end Downlevel.Source
