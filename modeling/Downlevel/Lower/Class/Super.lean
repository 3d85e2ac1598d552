import Downlevel.Lower.Diagnostic
import Downlevel.Tree.Query

/-!
# `Lower.Class.Super`: `super` without `super`

Inside a method of a lowered class, `super(…)` and `super.m(…)` become calls through the variable that
holds the superclass, with `this` passed along, and `super.p` becomes a property of its prototype (of
the superclass itself in a static method). Ordinary functions and classes nested in the method have a
`super` of their own and are not entered.

Some uses cannot be expressed that way; `problem?` names the first one.
-/

namespace Downlevel.Lower.Class

open Tree Node

/-- `super.p` or `super[p]`. -/
def isSuperMember (t : Tree) : Bool :=
  t.isType "MemberExpression" && (t.get "object").isType "Super"

/-- Nodes with a `super` of their own. -/
def ownSuperTypes : List String := ordinaryFunctionTypes ++ classTypes

/-! ## Uses that cannot be expressed -/

/-- What is wrong with one node of a method, if anything. -/
def problemAt? (hasSuperclass : Bool) (t : Tree) : Option String :=
  let callee := t.get "callee"
  if t.isType "Super" && !hasSuperclass then
    some "`super` used in a class without a superclass."
  else if t.isType "CallExpression" && (callee.isType "Super" || isSuperMember callee) &&
      (t.children "arguments").any (·.isType "SpreadElement") then
    some "`super` call with spread arguments left untouched."
  else if t.isType "AssignmentExpression" && isSuperMember (t.get "left") then
    some "Assignment to a `super` property left untouched."
  else if t.isType "UpdateExpression" && isSuperMember (t.get "argument") then
    some "Update of a `super` property left untouched."
  else none

/-- The first problem in the methods of a class. -/
def problem? (hasSuperclass : Bool) (methods : List Tree) : Option String :=
  methods.findSome? fun m =>
    ((m.get "value").nodes ownSuperTypes).findSome? (problemAt? hasSuperclass)

/-! ## Replacing -/

/-- Where a node stands: the method itself, or inside it. -/
inductive Depth where
  | method
  | inside

/-- The object that `super.p` looks into. -/
def superBase (superName : String) (isStatic : Bool) : Tree :=
  if isStatic then identifier superName else path (identifier superName) ["prototype"]

def replaceHandle (superName : String) (isStatic : Bool) : Handler Depth Unit :=
  fun depth t parts =>
    match depth with
    | .method => passOver .inside parts
    | .inside =>
      if t.isTypeIn ownSuperTypes then pure (.keep t)
      else if t.isType "CallExpression" && (t.get "callee").isType "Super" then do
        let arguments ← parts.field "arguments" .inside
        return .keep (call (path (identifier superName) ["call"])
          (thisExpression :: arguments.value.items) t)
      else if t.isType "CallExpression" && isSuperMember (t.get "callee") then do
        let method ← parts.field "callee" .inside
        let arguments ← parts.field "arguments" .inside
        return .keep (call (dot method.value "call") (thisExpression :: arguments.value.items) t)
      else if isSuperMember t then do
        let prop ← require t "property"
        let isComputed := (t.get "computed").isSet
        let prop ← if isComputed then Outcome.value <$> parts.field "property" .inside
          else pure prop
        return .keep (located (member (superBase superName isStatic) prop isComputed) t)
      else passOver .inside parts

/-- The function of a method, with every `super` that belongs to it replaced. -/
def replace (superName : String) (isStatic : Bool) (function : Tree) : Except Fault Tree := do
  let (outcome, _) ← (visit (replaceHandle superName isStatic) .method function).run ()
  return outcome.value

end Downlevel.Lower.Class
