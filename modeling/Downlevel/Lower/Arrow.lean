import Downlevel.Lower.Diagnostic
import Downlevel.Tree.Query

/-!
# `Lower.Arrow`: arrow functions become ordinary functions

An arrow function has no `this` and no `arguments` of its own. A **frame** is what provides them: an
ordinary function, or the program (which provides `this` only). Inside an arrow, `this` and `arguments`
become aliases, and the frame declares each alias that it needs once:

    function f() { return () => this.x; }
    function f() { var _this = this; return function () { return _this.x; }; }

The aliases stand after the directives of the frame. In the constructor of a derived class `this` exists
only after `super(…)`, so there they stand right after that call; without such a call at the top level
of the constructor, arrows that use `this` are left alone. So are arrows that use `super` or
`new.target`.
-/

namespace Downlevel.Lower.Arrow

open Tree Node

def pass : String := "arrow_functions"

/-- Where a node stands with respect to a derived class. -/
inductive Place where
  | elsewhere
  /-- The body of a derived class. -/
  | classBody
  /-- A member of a derived class. -/
  | classMember
  /-- The function of a constructor of a derived class. -/
  | constructorFunction
  deriving DecidableEq

/-- What is known on the way down. -/
structure Context where
  /-- Does the frame provide `arguments`? -/
  allowsArguments : Bool := false
  /-- Is there an arrow between here and the frame? -/
  inArrow : Bool := false
  /-- Is the frame a derived constructor without a `super(…)` call at its top level? -/
  superCallMissing : Bool := false
  place : Place := .elsewhere

/-- What the current frame needs, and what has been handed out. -/
structure Aliases where
  names : NameSupply
  thisAlias : Option String := none
  argumentsAlias : Option String := none
  usesThis : Bool := false
  usesArguments : Bool := false
  diagnostics : List Diagnostic := []

/-- Reports that an arrow is left alone. -/
def leave (message : String) (t : Tree) : Visit Aliases Unit :=
  modify fun s => { s with diagnostics := s.diagnostics ++ [.about pass message t] }

/-- The alias of `this`. -/
def thisName : Visit Aliases String := do
  let s ← get
  match s.thisAlias with
  | some name => return name
  | none =>
    let (name, names) := s.names.fresh "this"
    set { s with names := names, thisAlias := some name }
    return name

/-- The alias of `arguments`. -/
def argumentsName : Visit Aliases String := do
  let s ← get
  match s.argumentsAlias with
  | some name => return name
  | none =>
    let (name, names) := s.names.fresh "arguments"
    set { s with names := names, argumentsAlias := some name }
    return name

/-! ## Contexts -/

/-- A node whose constructor runs after that of a superclass. -/
def isDerivedClass (t : Tree) : Bool := t.isTypeIn classTypes && !(t.get "superClass").isNull

/-- Where the value of a field stands. -/
def placeOf (place : Place) (t : Tree) (key : String) : Place :=
  if isDerivedClass t && key = "body" then .classBody
  else match place with
    | .classBody => if key = "body" then .classMember else .elsewhere
    | .classMember =>
      if key = "value" && (t.get "kind").isStr "constructor" then .constructorFunction
      else .elsewhere
    | _ => .elsewhere

/-- The context of a field. -/
def Context.at (c : Context) (t : Tree) (key : String) : Context :=
  { c with place := placeOf c.place t key }

/-! ## Frames -/

/-- `super(…);` as a statement. -/
def isSuperCall (statement : Tree) : Bool :=
  let expression := statement.get "expression"
  statement.isType "ExpressionStatement" && expression.isType "CallExpression" &&
    (expression.get "callee").isType "Super"

/-- The statements of a frame. -/
def statementsOf (t : Tree) : List Tree :=
  if t.isType "Program" then t.children "body" else (t.get "body").children "body"

/-- An object with a list of statements, an empty one if it had none. -/
def withBody (t : Tree) : Tree := if t.has "body" then t else t.set "body" (.list [])

/-- The frame with a list of statements, an empty one if it had none. -/
def withStatements (t : Tree) : Tree :=
  if t.isType "Program" then withBody t
  else if (t.get "body").isSet then t.set "body" (withBody (t.get "body"))
  else t

/-- The frame with other statements. -/
def setStatements (t : Tree) (statements : List Tree) : Tree :=
  if t.isType "Program" then t.set "body" (.list statements)
  else t.set "body" ((t.get "body").set "body" (.list statements))

/-- Where the aliases of a frame stand. -/
def aliasIndex (derived : Bool) (statements : List Tree) : Nat :=
  if derived && statements.any isSuperCall then
    (statements.takeWhile (!isSuperCall ·)).length + 1
  else prologueLength statements

/-- The declarations of the aliases that the current frame needs. -/
def aliasDeclarations : Visit Aliases (List Tree) := do
  let s ← get
  let forThis ← if s.usesThis then do pure [var (← thisName) (some thisExpression)] else pure []
  let forArguments ←
    if s.usesArguments then do pure [var (← argumentsName) (some (identifier "arguments"))]
    else pure []
  return forThis ++ forArguments

/-- A program or an ordinary function. -/
def frame (c : Context) (t : Tree) (parts : Parts Context Aliases) : Visit Aliases Outcome := do
  let derived := c.place = .constructorFunction
  let inner : Context :=
    { allowsArguments := !t.isType "Program"
      superCallMissing := derived && !(statementsOf t).any isSuperCall }
  let outer ← get
  set { outer with usesThis := false, usesArguments := false }
  let t ← parts.descend fun key => some (inner.at t key)
  let t := withStatements t
  let declarations ← aliasDeclarations
  modify fun s => { s with usesThis := outer.usesThis, usesArguments := outer.usesArguments }
  if declarations.isEmpty then return .keep t
  let statements := statementsOf t
  let n := aliasIndex derived statements
  return .keep (setStatements t (statements.take n ++ declarations ++ statements.drop n))

/-! ## Arrows -/

/-- The body of an arrow as a block: an expression is returned. -/
def blockBody (t : Tree) : Tree :=
  let body := t.get "body"
  if (t.get "expression").isSet || !body.isType "BlockStatement" then
    let body := if body.isSet then body else record []
    block [returnStatement (some body) body] body
  else body

/-- An arrow function. -/
def arrow (c : Context) (t : Tree) (parts : Parts Context Aliases) : Visit Aliases Outcome := do
  if c.superCallMissing && t.usesThis then
    leave ("Arrow function using `this` in a derived constructor without a " ++
      "top-level `super()` call left untouched.") t
    return .keep t
  let stays := t.usesSuper || t.usesNewTarget
  let t ← parts.descend fun key => some { c.at t key with inArrow := true }
  if stays then
    leave "Arrow function using `super` or `new.target` left untouched." t
    return .keep t
  return .keep (functionExpression (t.children "params") (blockBody t)
    ⟨none, false, (t.get "async").isSet⟩ t)

/-! ## Other nodes -/

/-- `this`, or its alias inside an arrow. -/
def aliasThis (c : Context) (t : Tree) : Visit Aliases Outcome := do
  if !c.inArrow then return .keep t
  modify fun s => { s with usesThis := true }
  return .keep (identifier (← thisName) t)

/-- An identifier; inside an arrow `arguments` becomes its alias. -/
def aliasArguments (c : Context) (t : Tree) : Visit Aliases Outcome := do
  if !((t.get "name").isStr "arguments" && c.inArrow && c.allowsArguments) then return .keep t
  modify fun s => { s with usesArguments := true }
  return .keep (identifier (← argumentsName) t)

/-- A member expression: a property that is not computed is only a name. -/
def memberExpression (c : Context) (t : Tree) (parts : Parts Context Aliases) :
    Visit Aliases Outcome := do
  let _ ← require t "object"
  let t := t.set "object" (← parts.field "object" (c.at t "object")).value
  if !(t.get "computed").isSet then return .keep t
  let _ ← require t "property"
  return .keep (t.set "property" (← parts.field "property" (c.at t "property")).value)

/-- A property or a method: a key that is not computed is only a name. -/
def keyed (c : Context) (t : Tree) (parts : Parts Context Aliases) : Visit Aliases Outcome := do
  let t ← if (t.get "computed").isSet then do
      let _ ← require t "key"
      pure (t.set "key" (← parts.field "key" (c.at t "key")).value)
    else pure t
  if (t.get "value").isNull then return .keep t
  return .keep (t.set "value" (← parts.field "value" (c.at t "value")).value)

/-! ## The lowering -/

def handle : Handler Context Aliases := fun c t parts =>
  match t.type? with
  | some "Program" | some "FunctionDeclaration" | some "FunctionExpression" => frame c t parts
  | some "ArrowFunctionExpression" => arrow c t parts
  | some "ThisExpression" => aliasThis c t
  | some "Identifier" => aliasArguments c t
  | some "MemberExpression" => memberExpression c t parts
  | some "Property" | some "MethodDefinition" => keyed c t parts
  | _ => Outcome.keep <$> parts.descend fun key => some (c.at t key)

/-- Lowers the arrow functions of a program. -/
def lower (t : Tree) : Except Fault Lowered := do
  let (outcome, s) ← (visit handle {} t).run { names := .ofTree t }
  return ⟨outcome.value, s.diagnostics⟩

end Downlevel.Lower.Arrow
