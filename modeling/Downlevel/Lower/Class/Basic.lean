import Downlevel.Lower.Class.Super
import Downlevel.Tree.Shown

/-!
# `Lower.Class`: classes become constructor functions

`class A extends B { … }` becomes

    let A = (function (_super) {
      function A(…) { … }
      A.prototype = Object.create(_super.prototype, …);
      A.prototype.m = function () { … };
      return A;
    })(B);

The superclass is evaluated once, as the argument, and has to be a name or a dotted name. A declaration
keeps its block scope by becoming a `let`. Accessors of one name share one property definition, in the
place of the first of them.
-/

namespace Downlevel.Lower.Class

open Tree Node

def pass : String := "classes"

/-! ## The superclass -/

mutual

/-- A name or a dotted name. -/
def isReference : Tree → Bool
  | .obj m fs =>
    let t := Tree.obj m fs
    t.isType "Identifier" ||
      (t.isType "MemberExpression" && !(t.get "computed").isSet && isReferenceField "object" fs)
  | _ => false

def isReferenceField (key : String) : List (String × Tree) → Bool
  | [] => false
  | (k, v) :: rest => if k = key then isReference v else isReferenceField key rest

end

/-! ## Members -/

/-- The object that a member is put on: the class if it is static, else its prototype. -/
def owner (className : String) (method : Tree) : Tree :=
  if (method.get "static").isSet then identifier className
  else path (identifier className) ["prototype"]

/-- The name of a key that is written out. -/
def keyName? (method : Tree) : Option String :=
  let key := method.get "key"
  if (method.get "computed").isSet then none
  else if key.isType "Identifier" then key.name?
  else some (key.get "value").plain

/-- A member of a lowered class: a statement, or an accessor that others may join. -/
inductive Member where
  | statement (t : Tree)
  /-- The method that came first, its key, and the getters and setters so far. -/
  | accessor (method key : Tree) (slot : Option (Bool × String)) (properties : List Tree)

/-- An accessor as the property it defines. -/
def accessorProperty (method : Tree) : Except Fault Tree := do
  return property (make "Identifier" [("name", method.get "kind")]) (← method.need "value")

/-- Can accessors with this slot join the member? -/
def Member.joins (slot : Option (Bool × String)) : Member → Bool
  | .accessor _ _ s _ => s.isSome && s == slot
  | .statement _ => false

/-- Adds a getter or setter to the member that it joins. -/
def join (slot : Option (Bool × String)) (prop : Tree) : List Member → List Member
  | [] => []
  | .accessor first key s props :: rest =>
    if Member.joins slot (.accessor first key s props) then
      .accessor first key s (props ++ [prop]) :: rest
    else .accessor first key s props :: join slot prop rest
  | .statement t :: rest => .statement t :: join slot prop rest

/-- One more getter or setter: it joins the first one of its slot, if there is one. -/
def addAccessor (members : List Member) (method : Tree) : Except Fault (List Member) := do
  let slot := (keyName? method).map fun name => ((method.get "static").isSet, name)
  let prop ← accessorProperty method
  if members.any (Member.joins slot) then return join slot prop members
  let key ← if (method.get "computed").isSet then method.need "key"
    else pure (literal (((keyName? method).map Tree.str).getD .null))
  return members ++ [.accessor method key slot [prop]]

/-- `A.prototype.m = function …`. -/
def methodStatement (className : String) (method : Tree) : Except Fault Tree := do
  let key ← method.need "key"
  let target :=
    if (method.get "computed").isSet then member (owner className method) key true
    else if key.isType "Identifier" then
      member (owner className method) (make "Identifier" [("name", key.get "name")])
    else member (owner className method) (literal (key.get "value")) true
  return expressionStatement (assign target (← method.need "value")) method

/-- One more method. -/
def addMember (className : String) (members : List Member) (method : Tree) :
    Except Fault (List Member) := do
  if (method.get "kind").isStr "get" || (method.get "kind").isStr "set" then
    addAccessor members method
  else
    return members ++ [.statement (← methodStatement className method)]

/-- The statement of a member. -/
def Member.toStatement (className : String) : Member → Tree
  | .statement t => t
  | .accessor method key _ properties =>
    let descriptor := objectExpression
      (properties ++ [property (identifier "configurable") (literal (.bool true))])
    expressionStatement
      (call (path (identifier "Object") ["defineProperty"])
        [owner className method, key, descriptor]) method

/-- The statements for the methods of a class. -/
def memberStatements (className : String) (methods : List Tree) : Except Fault (List Tree) := do
  let members ← methods.foldlM (addMember className) []
  return members.map (Member.toStatement className)

/-! ## The constructor -/

/-- The function that becomes the class. Without a constructor of its own, a derived class passes its
arguments on. -/
def constructorFunction (className : String) (constructor? : Option Tree)
    (superName? : Option String) : Except Fault Tree := do
  match constructor? with
  | some method =>
    let function ← method.need "value"
    return functionDeclaration className (function.children "params") (← function.need "body")
      method
  | none =>
    let body := match superName? with
      | some superName =>
        [expressionStatement
          (call (path (identifier superName) ["apply"])
            [thisExpression, identifier "arguments"])]
      | none => []
    return functionDeclaration className [] (block body)

/-- `A.prototype = Object.create(_super.prototype, { constructor: … });`. -/
def inherit (className superName : String) : Tree :=
  let descriptor := objectExpression
    [property (identifier "value") (identifier className),
     property (identifier "writable") (literal (.bool true)),
     property (identifier "configurable") (literal (.bool true))]
  let prototype := call (path (identifier "Object") ["create"])
    [path (identifier superName) ["prototype"],
     objectExpression [property (identifier "constructor") descriptor]]
  expressionStatement (assign (path (identifier className) ["prototype"]) prototype)

def isConstructor (method : Tree) : Bool := (method.get "kind").isStr "constructor"

/-- The methods without the first constructor. -/
def withoutConstructor : List Tree → List Tree
  | [] => []
  | m :: rest => if isConstructor m then rest else m :: withoutConstructor rest

/-- A method with `super` replaced. -/
def replaceSuper (superName : String) (method : Tree) : Except Fault Tree := do
  let function ← method.need "value"
  return method.set "value" (← replace superName (method.get "static").isSet function)

/-! ## The class -/

/-- The name of a class, a new one if it has none. -/
def nameOf (t : Tree) : Visit Work String :=
  if (t.get "id").isSet then Tree.plain <$> require (t.get "id") "name" else freshName "class"

/-- The call that stands for a class: its statements and a `return` in a function. -/
def classCall (className : String) (params statements arguments : List Tree) : Tree :=
  call (functionExpression params
    (block (statements ++ [returnStatement (some (identifier className))]))) arguments

/-- The expression that a class without a superclass becomes. -/
def baseClass (className : String) (methods : List Tree) : Except Fault Tree := do
  let function ← constructorFunction className (methods.find? isConstructor) none
  let statements ← memberStatements className (withoutConstructor methods)
  return classCall className [] (function :: statements) []

/-- The expression that a class with a superclass becomes. -/
def derivedClass (className superName : String) (superClass : Tree) (methods : List Tree) :
    Except Fault Tree := do
  let methods ← methods.mapM (replaceSuper superName)
  let function ← constructorFunction className (methods.find? isConstructor) (some superName)
  let statements ← memberStatements className (withoutConstructor methods)
  return classCall className [identifier superName]
    (function :: inherit className superName :: statements) [superClass]

/-- The expression that a class becomes, its parts already lowered; nothing if it is left alone. -/
def lowerClass (t : Tree) : Visit Work (Option Tree) := do
  let superClass := t.get "superClass"
  if !superClass.isNull && !isReference superClass then
    decline pass "Class with a non-reference superclass expression left untouched." t
    return none
  let methods := (t.get "body").children "body"
  match problem? (!superClass.isNull) methods with
  | some problem =>
    decline pass problem t
    return none
  | none =>
    let className ← nameOf t
    if superClass.isNull then
      return some (← liftM (baseClass className methods))
    else
      let superName ← freshName "super"
      return some (← liftM (derivedClass className superName superClass methods))

/-- `let A = …;` in the place of a declaration. -/
def letBinding (classId value place : Tree) : Except Fault Tree := do
  let name ← classId.need "name"
  return declaration "let" [declarator (identifier name.plain classId) (some value)] place

/-- Where a class stands: behind `export default`, its statement is built around it. -/
inductive Position where
  | anywhere
  | exported

/-- A declared class becomes a variable. -/
def classDeclaration (parts : Parts Position Work) : Visit Work Outcome := do
  let t ← parts.descend fun _ => some .anywhere
  match ← lowerClass t with
  | none => return .keep t
  | some value => return .keep (← liftM (letBinding (← require t "id") value t))

/-- A class in an expression. -/
def classExpression (parts : Parts Position Work) : Visit Work Outcome := do
  let t ← parts.descend fun _ => some .anywhere
  match ← lowerClass t with
  | none => return .keep t
  | some value => return .keep (located value t)

/-- A class behind `export default`: with a name, it becomes a variable that is exported. -/
def exportedClass (t : Tree) (parts : Parts Position Work) : Visit Work Outcome := do
  let visited ← parts.field "declaration" .exported
  let class' := visited.value
  match ← lowerClass class' with
  | none => return .keep (t.set "declaration" class')
  | some value =>
    if (class'.get "id").isNull then
      return .keep (t.set "declaration" (located value class'))
    else do
      let binding ← liftM (letBinding (class'.get "id") value class')
      let name ← require (class'.get "id") "name"
      let export' := located
        (make "ExportDefaultDeclaration" [("declaration", identifier name.plain)]) t
      return .splice [binding, export']

def handle : Handler Position Work := fun position t parts =>
  match t.type?, position with
  | some "ClassDeclaration", .anywhere => classDeclaration parts
  | some "ClassExpression", _ => classExpression parts
  | some "ExportDefaultDeclaration", _ =>
    if (t.get "declaration").isType "ClassDeclaration" then exportedClass t parts
    else passOver .anywhere parts
  | _, _ => passOver .anywhere parts

/-- Lowers the classes of a program. -/
def lower (t : Tree) : Except Fault Lowered := run handle .anywhere t

end Downlevel.Lower.Class
