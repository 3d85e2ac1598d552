import Downlevel.Lower.Diagnostic
import Downlevel.Tree.Query

/-!
# `Lower.Default`: default arguments become checks

`function f(a, b = a + 1) { … }` becomes `function f(a, b) { if (b === void 0) { b = a + 1; } … }`. The
checks stand in the order of the parameters, after the prologue of the body, so a default can use the
parameters before it. Left alone are defaults of patterns, and defaults that mention a name which the
body declares, since they would then read the wrong variable.
-/

namespace Downlevel.Lower.Default

open Tree Node

def pass : String := "default_arguments"

/-- An identifier with the name of another one. -/
def sameName (target : Tree) : Tree := make "Identifier" [("name", target.get "name")]

/-- `if (x === void 0) { x = value; }`. -/
def check (target value : Tree) : Tree :=
  ifStatement (binary "===" (sameName target) voidZero)
    (block [expressionStatement (assign (sameName target) value)])

/-- Is it a parameter with a default? -/
def isDefaulted (param : Tree) : Bool := param.isType "AssignmentPattern"

/-- The function with a body that holds statements: an expression body is returned. -/
def withStatements (t : Tree) : Tree :=
  let body := t.get "body"
  if body.isType "BlockStatement" then
    if body.has "body" then t else t.set "body" (body.set "body" (.list []))
  else
    let body := if body.isSet then body else record []
    (t.set "body" (block [returnStatement (some body) body] body)).set "expression" (.bool false)

/-- The least of the names. -/
def leastName (names : List (Option String)) : String :=
  match (names.filterMap id).mergeSort (fun a b => decide (a ≤ b)) with
  | name :: _ => name
  | [] => "None"

/-- The first parameter whose default mentions a name that the body declares, with the least such
name. -/
def clash? (params statements : List Tree) : Option (Tree × String) :=
  let declared := (Tree.list statements).declaredVarNames
  (params.filter isDefaulted).findSome? fun param =>
    match (param.get "right").referencedNames.filter declared.contains with
    | [] => none
    | names => some (param, leastName names)

/-- The parameters without their defaults, and the checks for them. -/
def splitDefaults : List Tree → Except Fault (List Tree × List Tree)
  | [] => .ok ([], [])
  | param :: rest =>
    if isDefaulted param then do
      let target ← param.need "left"
      let value ← param.need "right"
      let (params, checks) ← splitDefaults rest
      return (target :: params, check target value :: checks)
    else do
      let (params, checks) ← splitDefaults rest
      return (param :: params, checks)

/-- One function, its parts already lowered. -/
def function (t : Tree) : Visit Work Tree := do
  let params := t.children "params"
  let defaulted := params.filter isDefaulted
  if defaulted.isEmpty then return t
  if defaulted.any fun p => !(p.get "left").isType "Identifier" then
    decline pass "Destructured parameter with a default value left untouched." t
    return t
  let t := withStatements t
  let body := t.get "body"
  let statements := body.children "body"
  match clash? params statements with
  | some (param, name) =>
    decline pass s!"Default value refers to `{name}`, which the body redeclares." param
    return t
  | none =>
    let (params, checks) ← liftM (splitDefaults params)
    let n := prologueLength statements true
    let statements := statements.take n ++ checks ++ statements.drop n
    return (t.set "params" (.list params)).set "body" (body.set "body" (.list statements))

def handle : Handler Unit Work := fun _ t parts => do
  let t' ← parts.descend fun _ => some ()
  if t.isTypeIn functionTypes then return .keep (← function t')
  return .keep t'

/-- Lowers the default arguments of a program. -/
def lower (t : Tree) : Except Fault Lowered := run handle () t

end Downlevel.Lower.Default
