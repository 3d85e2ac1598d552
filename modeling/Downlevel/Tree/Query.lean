import Downlevel.Tree.Walk

/-!
# `Tree.Query`: questions about programs

What a function body mentions, what a pattern binds, and where the body of a function really begins.
-/

namespace Downlevel.Tree

def functionTypes : List String :=
  ["FunctionDeclaration", "FunctionExpression", "ArrowFunctionExpression"]

/-- Functions with a `this` of their own. -/
def ordinaryFunctionTypes : List String := ["FunctionDeclaration", "FunctionExpression"]

def classTypes : List String := ["ClassDeclaration", "ClassExpression"]

/-! ## Mentions -/

/-- Is `super` mentioned outside ordinary functions and classes nested in the node? -/
def usesSuper (t : Tree) : Bool :=
  (t.nodes (ordinaryFunctionTypes ++ classTypes)).any (·.isType "Super")

/-- Is `this` mentioned outside ordinary functions and classes nested in the node? -/
def usesThis (t : Tree) : Bool :=
  (t.nodes (ordinaryFunctionTypes ++ classTypes)).any (·.isType "ThisExpression")

/-- Is `new.target` mentioned outside ordinary functions nested in the node? -/
def usesNewTarget (t : Tree) : Bool :=
  (t.nodes ordinaryFunctionTypes).any fun n =>
    n.isType "MetaProperty" && ((n.get "meta").get "name").isStr "new"

/-! ## Patterns -/

/-- The ways in which a part of a pattern is read. -/
inductive PatternPart where
  | pattern
  | property
  | elements
  | properties

mutual

/-- The identifiers that a part of a pattern binds, in order. -/
def boundBy (part : PatternPart) : Tree → List Tree
  | .obj m fs =>
    let t := Tree.obj m fs
    match part with
    | .pattern =>
      match t.type? with
      | some "Identifier" => [t]
      | some "ObjectPattern" => boundInField .properties "properties" fs
      | some "ArrayPattern" => boundInField .elements "elements" fs
      | some "AssignmentPattern" => boundInField .pattern "left" fs
      | some "RestElement" => boundInField .pattern "argument" fs
      | _ => []
    | .property =>
      if t.isType "RestElement" then boundInField .pattern "argument" fs
      else boundInField .pattern "value" fs
    | _ => []
  | .list xs =>
    match part with
    | .elements => boundByItems .pattern xs
    | .properties => boundByItems .property xs
    | _ => []
  | _ => []

def boundInField (part : PatternPart) (key : String) : List (String × Tree) → List Tree
  | [] => []
  | (k, v) :: rest => if k = key then boundBy part v else boundInField part key rest

def boundByItems (part : PatternPart) : List Tree → List Tree
  | [] => []
  | t :: rest => boundBy part t ++ boundByItems part rest

end

/-- The identifiers that a declaration or parameter pattern binds, in order. -/
def patternIdentifiers (t : Tree) : List Tree := boundBy .pattern t

/-- The names that a pattern binds. -/
def patternNames (t : Tree) : List (Option String) := t.patternIdentifiers.map name?

/-! ## Names -/

/-- The names that a body declares with `var` or `function`. -/
def declaredVarNames (body : Tree) : List (Option String) :=
  (body.nodes (functionTypes ++ classTypes)).flatMap fun n =>
    if n.isType "VariableDeclaration" && (n.get "kind").isStr "var" then
      (n.children "declarations").flatMap fun d => (d.get "id").patternNames
    else if n.isType "FunctionDeclaration" && (n.get "id").isSet then [(n.get "id").name?]
    else []

/-- The names of all identifiers in a tree. -/
def referencedNames (t : Tree) : List (Option String) :=
  (t.nodes.filter (·.isType "Identifier")).map name?

/-! ## Statements -/

/-- A directive such as `"use strict"`. -/
def isDirective (t : Tree) : Bool := t.isType "ExpressionStatement" && t.has "directive"

/-- A declaration that only captures `this` or `arguments`: `var _this = this;`. -/
def isCaptureAlias (t : Tree) : Bool :=
  t.isType "VariableDeclaration" && (t.get "kind").isStr "var" &&
    !(t.children "declarations").isEmpty &&
    (t.children "declarations").all fun d =>
      let init := d.get "init"
      init.isType "ThisExpression" || (init.isType "Identifier" && (init.get "name").isStr "arguments")

/-- How many leading statements new code has to follow: the directives and, on request, the capture
aliases right after them. -/
def prologueLength (statements : List Tree) (aliases : Bool := false) : Nat :=
  let directives := statements.takeWhile isDirective
  let rest := statements.dropWhile isDirective
  directives.length + (if aliases then (rest.takeWhile isCaptureAlias).length else 0)

end Downlevel.Tree
