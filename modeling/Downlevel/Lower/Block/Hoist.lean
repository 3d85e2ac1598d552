import Downlevel.Lower.Diagnostic
import Downlevel.Tree.Query

/-!
# `Lower.Block.Hoist`: `var` declarations of a moved body

When the body of a loop moves into a function, its `var` declarations have to stay outside. They become
assignments (or nothing, without an initial value), and their names are collected, each once, so that
they can be declared in front of the loop. Nested functions and classes are not entered.
-/

namespace Downlevel.Lower.Block

open Tree Node

/-- Where a node stands. -/
inductive Seat where
  /-- In a list, where a statement can vanish. -/
  | inList
  /-- Alone in a field, where an empty statement has to stay. -/
  | alone
  /-- Among the declarators of a `var` declaration. -/
  | declarator
  /-- In the head of a `for` loop. -/
  | loopHead

/-- A declaration with `var`. -/
def isVarDeclaration (t : Tree) : Bool :=
  t.isType "VariableDeclaration" && (t.get "kind").isStr "var"

/-- The seat of the value of a field. -/
def seatOf (t : Tree) (key : String) : Seat := if (t.get key).isList then .inList else .alone

/-- Adds the names that are not there yet. -/
def addNames (names new : List (Option String)) : List (Option String) :=
  new.foldl (fun names n => if names.contains n then names else names ++ [n]) names

/-- Several assignments as one expression. -/
def sequence : List Tree → Option Tree
  | [] => none
  | [a] => some a
  | as => some (make "SequenceExpression" [("expressions", .list as)])

/-- The assignments that a `var` declaration leaves, as one expression. -/
def collect (parts : Parts Seat (List (Option String))) :
    Visit (List (Option String)) (Option Tree) := do
  let assignments ← parts.field "declarations" .declarator
  return sequence assignments.value.items

/-- One declarator: its names are collected, its initial value is assigned. -/
def declaratorAssignment (t : Tree) (parts : Parts Seat (List (Option String))) :
    Visit (List (Option String)) Outcome := do
  modify fun names => addNames names (t.get "id").patternNames
  if (t.get "init").isNull then return .remove
  let value ← parts.field "init" .alone
  return .keep (assign (← require t "id") value.value t)

/-- The pattern that a loop over a collection assigns to, its `var` left out. -/
def loopTarget (left : Tree) : Except Fault Tree := do
  let declarations ← left.need "declarations"
  (declarations.items.headD .null).need "id"

/-- What the `var` declaration in the head of a `for` loop leaves. -/
def headAssignment (parts : Parts Seat (List (Option String))) :
    Visit (List (Option String)) Outcome := do
  match ← collect parts with
  | some e => return .keep e
  | none => return .remove

/-- What a `var` declaration among statements leaves. -/
def statementAssignment (seat : Seat) (t : Tree) (parts : Parts Seat (List (Option String))) :
    Visit (List (Option String)) Outcome := do
  match ← collect parts, seat with
  | some e, _ => return .keep (expressionStatement e t)
  | none, .inList => return .remove
  | none, _ => return .keep emptyStatement

/-- A `for` loop with a `var` declaration in its head. -/
def forLoop (t : Tree) (parts : Parts Seat (List (Option String))) :
    Visit (List (Option String)) Outcome := do
  let init ← parts.field "init" .loopHead
  let t' ← parts.descend fun key => if key = "init" then none else some (seatOf t key)
  match init with
  | .remove => return .keep (t'.erase "init")
  | _ => return .keep (t'.set "init" init.value)

/-- A loop over a collection with a `var` declaration in its head. -/
def collectionLoop (t : Tree) (parts : Parts Seat (List (Option String))) :
    Visit (List (Option String)) Outcome := do
  let _ ← parts.field "left" .loopHead
  let left ← liftM (loopTarget (t.get "left"))
  let t' ← parts.descend fun key => if key = "left" then none else some (seatOf t key)
  return .keep (t'.set "left" left)

/-- A node in a list or alone in a field. -/
def hoistNode (seat : Seat) (t : Tree) (parts : Parts Seat (List (Option String))) :
    Visit (List (Option String)) Outcome :=
  if t.isTypeIn (functionTypes ++ classTypes) then pure (.keep t)
  else if isVarDeclaration t then statementAssignment seat t parts
  else if t.isType "ForStatement" && isVarDeclaration (t.get "init") then forLoop t parts
  else if t.isTypeIn ["ForInStatement", "ForOfStatement"] && isVarDeclaration (t.get "left") then
    collectionLoop t parts
  else Outcome.keep <$> parts.descend fun key => some (seatOf t key)

def hoistHandle : Handler Seat (List (Option String)) := fun seat t parts =>
  match seat with
  | .declarator => declaratorAssignment t parts
  | .loopHead => headAssignment parts
  | seat => hoistNode seat t parts

/-- The statements without their `var` declarations, and the names these declared. -/
def hoist (statements : List Tree) : Except Fault (List Tree × List (Option String)) :=
  (visitItems hoistHandle .inList statements).run []

end Downlevel.Lower.Block
