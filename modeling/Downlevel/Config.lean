import Downlevel.Log
import Downlevel.Lower.Pass
import Downlevel.Source.Parse

/-!
# `Config`: what a run does

A configuration says which lowerings are applied, how the output is formatted, and which kind of program
is read. It is built from a document, from named fields, or from a list of lowerings; each way checks what
it is given.
-/

namespace Downlevel

open Tree Lower Source

/-- What a run does. Without formatting options the output is not formatted. -/
structure Config where
  enabled : Pass → Bool := fun _ => true
  formatter : Option (List (String × Tree)) := none
  sourceType : SourceType := .script

namespace Config

/-- The lowerings that are applied, in their order. -/
def passes (c : Config) : List Pass := Pass.all.filter c.enabled

/-! ## Values -/

/-- The kind of program that a value names. -/
def sourceTypeOf (value : Tree) : Except Fault SourceType :=
  match value.str?.bind SourceType.ofText? with
  | some t => .ok t
  | none => .error (.badSourceType value.shown)

/-- The values that a value holds in order: items, characters or keys. -/
def sequence : Tree → List Tree
  | .list xs => xs
  | .str s => s.toList.map fun c => .str (String.ofList [c])
  | .obj _ fs => fs.map fun f => .str f.1
  | _ => []

/-- Options from a list of pairs, the first of them at an index. A repeated key keeps its place and takes
the later value. -/
def ofPairs (index : Nat) (options : List (String × Tree)) : List Tree →
    Except Fault (List (String × Tree))
  | [] => .ok options
  | item :: rest =>
    match sequence item with
    | [key, value] => ofPairs (index + 1) (Tree.insert key.plain value options) rest
    | xs => .error (.unpaired index xs.length)

/-- Options from a value that holds some: fields, or a list of pairs. -/
def optionsOf (value : Tree) : Except Fault (List (String × Tree)) :=
  match value with
  | .obj _ fs => .ok fs
  | value => ofPairs 0 [] (sequence value)

/-! ## Named fields -/

/-- A configuration from its parts, of which formatter and kind of program are given as named fields. -/
def build (enabled : Pass → Bool) (fields : Tree) : Except Fault Config := do
  let formatter ← match fields.get "formatter" with
    | .null => pure none
    | value => some <$> optionsOf value
  let sourceType ← match fields.get? "source_type" with
    | none => pure .script
    | some value => sourceTypeOf value
  return { enabled := enabled, formatter := formatter, sourceType := sourceType }

/-- Flags with some of them set by name. -/
def setFlags (enabled : Pass → Bool) (fields : Tree) : Pass → Bool := fun p =>
  match fields.get? p.name with
  | some value => value.isSet
  | none => enabled p

/-- A configuration from named fields. -/
def ofFields (fields : Tree) : Except Fault Config := build (setFlags (fun _ => true) fields) fields

/-- The first, in the order of their characters, of the names that no lowering has. -/
def unknownName? (names : List String) : Option String :=
  ((names.filter fun n => (Pass.ofName? n).isNone).mergeSort fun a b => decide (a ≤ b)).head?

/-- A configuration with just the named lowerings. -/
def only (names : List String) (fields : Tree) : Except Fault Config :=
  match unknownName? names with
  | some name => .error (.unknownPass name)
  | none => build (fun p => names.contains p.name) fields

/-- The configuration with some lowerings switched on or off by name. -/
def withPasses (c : Config) (flags : Tree) : Except Fault Config :=
  match unknownName? (flags.fields.map (·.1)) with
  | some name => .error (.unknownPass name)
  | none => .ok { c with enabled := setFlags c.enabled flags }

/-! ## Documents -/

/-- The keys that switch a lowering in a document, the one that counts first before the others. -/
def keysOf : Pass → List String
  | .classes => ["classes"]
  | .stringTemplates => ["stringTemplates", "string_templates"]
  | .arrowFunctions => ["arrowFunctions", "arrow_functions"]
  | .blockScopedBindings => ["blockScopedBindings", "block_scoped_bindings", "let"]
  | .defaultArguments => ["defaultArguments", "default_arguments"]
  | .objectMethods => ["objectMethods", "object_methods"]

/-- Is the lowering switched on in a document? -/
def isOn (switches : Tree) (p : Pass) : Bool :=
  match (keysOf p).findSome? switches.get? with
  | some value => value.isSet
  | none => true

/-- What is noted about keys that switch nothing. -/
def documentNotes (document : Tree) : List LogRecord :=
  let keys := (document.get "transformers").fields.map (·.1)
  (keys.filter fun k => !(Pass.all.flatMap keysOf).contains k).map fun k =>
    let name := Text.shown k
    .debug .config s!"Ignoring unknown transformer key {name}"

/-- A configuration from a document. What it leaves out has its default. -/
def ofDocument (document : Tree) : Except Fault Config := do
  let formatter ← match document.get "formatter" with
    | .null | .bool false => pure none
    | .bool true => pure (some [])
    | value => some <$> optionsOf value
  let sourceType ← match (document.get? "sourceType").or (document.get? "source_type") with
    | none => pure .script
    | some value => sourceTypeOf value
  return { enabled := isOn (document.get "transformers"), formatter := formatter,
           sourceType := sourceType }

end Config
end Downlevel
