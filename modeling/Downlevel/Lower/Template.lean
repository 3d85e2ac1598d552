import Downlevel.Lower.Diagnostic

/-!
# `Lower.Template`: template literals become concatenations

The cooked segments of a template and its expressions are chained with `+`, left to right. Empty
segments are dropped, and the chain starts with `""` where it would otherwise start with two operands
that are no strings, so that every `+` joins strings. A tagged template needs the raw segments and is
left alone; templates inside its expressions are lowered.
-/

namespace Downlevel.Lower.Template

open Tree Node

def pass : String := "string_templates"

/-- A string literal. -/
def isStringLiteral (t : Tree) : Bool := t.isType "Literal" && (t.get "value").str?.isSome

/-- The literal of a segment, unless it is empty. -/
def segment (quasi : Tree) : List Tree :=
  let cooked := (quasi.get "value").get "cooked"
  if cooked.isSet then [literal cooked quasi] else []

/-- The operands of a template: segments and expressions in turn. -/
def operands : List Tree → List Tree → List Tree
  | [], _ => []
  | q :: qs, [] => segment q ++ operands qs []
  | q :: qs, e :: es => segment q ++ e :: operands qs es

/-- The operands with a string among the first two. -/
def startWithString : List Tree → List Tree
  | [] => []
  | [a] => if isStringLiteral a then [a] else [literal (.str ""), a]
  | a :: b :: rest =>
    if isStringLiteral a || isStringLiteral b then a :: b :: rest
    else literal (.str "") :: a :: b :: rest

/-- The operands joined with `+`, from the left. -/
def chain : List Tree → Option Tree
  | [] => none
  | first :: rest => some (rest.foldl (fun sum t => binary "+" sum t) first)

/-- The concatenation that a template literal stands for. -/
def concatenation (t : Tree) : Tree :=
  match chain (startWithString (operands (t.children "quasis") (t.children "expressions"))) with
  | some sum => located sum t
  | none => literal (.str "") t

/-- Where a node stands: the template of a tagged template is only searched. -/
inductive Position where
  | anywhere
  | tagged

def handle : Handler Position Work := fun position t parts =>
  match position with
  | .tagged =>
    Outcome.keep <$> parts.descend fun key => if key = "expressions" then some .anywhere else none
  | .anywhere =>
    match t.type? with
    | some "TaggedTemplateExpression" => do
        let _ ← require t "tag"
        let tag ← parts.field "tag" .anywhere
        let quasi ← parts.field "quasi" .tagged
        let t := t.set "tag" tag.value
        let t := if t.has "quasi" then t.set "quasi" quasi.value else t
        decline pass "Tagged template literal left untouched." t
        return .keep t
    | some "TemplateLiteral" =>
      (fun t => .keep (concatenation t)) <$> parts.descend fun _ => some .anywhere
    | _ => passOver .anywhere parts

/-- Lowers the template literals of a program. -/
def lower (t : Tree) : Except Fault Lowered := run handle .anywhere t

end Downlevel.Lower.Template
