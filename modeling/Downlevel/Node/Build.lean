import Downlevel.Tree.Basic

/-!
# `Node.Build`: nodes that lowering makes

One function for each kind of node that a lowering puts into a program. Where a function takes a
`place`, the new node takes over the place of that node in the text, so that comments find it.
-/

namespace Downlevel.Node

open Tree

/-- A node of a type, with its other fields. -/
def make (type : String) (fs : List (String × Tree)) : Tree := record (("type", .str type) :: fs)

/-- The node at the place of another one. -/
def located (node place : Tree) : Tree :=
  let node := match place.get? "range" with
    | some r => node.set "range" r
    | none => node
  match place.get? "loc" with
  | some l => node.set "loc" l
  | none => node

/-- A field that is there only when it has a value. -/
def optional (key : String) : Option Tree → List (String × Tree)
  | some v => [(key, v)]
  | none => []

/-! ## Expressions -/

def identifier (name : String) (place : Tree := .null) : Tree :=
  located (make "Identifier" [("name", .str name)]) place

/-- An identifier whose name may be missing. -/
def named (name : Option String) : Tree :=
  make "Identifier" [("name", (name.map Tree.str).getD .null)]

def literal (value : Tree) (place : Tree := .null) : Tree :=
  located (make "Literal" [("value", value)]) place

def unary (operator : String) (argument : Tree) : Tree :=
  make "UnaryExpression"
    [("operator", .str operator), ("prefix", .bool true), ("argument", argument)]

/-- `void 0`. -/
def voidZero : Tree := unary "void" (literal (.int 0))

def thisExpression (place : Tree := .null) : Tree := located (make "ThisExpression" []) place

def member (object property : Tree) (computed : Bool := false) : Tree :=
  make "MemberExpression"
    [("computed", .bool computed), ("object", object), ("property", property)]

/-- `object.name`. -/
def dot (object : Tree) (name : String) : Tree := member object (identifier name)

/-- `root.a.b`, for the names `a`, `b`. -/
def path (root : Tree) (names : List String) : Tree := names.foldl dot root

def call (callee : Tree) (arguments : List Tree := []) (place : Tree := .null) : Tree :=
  located (make "CallExpression" [("callee", callee), ("arguments", .list arguments)]) place

def assign (left right : Tree) (place : Tree := .null) : Tree :=
  located
    (make "AssignmentExpression" [("operator", .str "="), ("left", left), ("right", right)]) place

def binary (operator : String) (left right : Tree) (place : Tree := .null) : Tree :=
  located
    (make "BinaryExpression" [("operator", .str operator), ("left", left), ("right", right)]) place

def objectExpression (properties : List Tree := []) : Tree :=
  make "ObjectExpression" [("properties", .list properties)]

/-- `key: value` in an object. -/
def property (key value : Tree) (place : Tree := .null) : Tree :=
  located
    (make "Property"
      [("key", key), ("computed", .bool false), ("value", value), ("kind", .str "init"),
       ("method", .bool false), ("shorthand", .bool false)]) place

/-! ## Statements -/

def expressionStatement (expression : Tree) (place : Tree := .null) : Tree :=
  located (make "ExpressionStatement" [("expression", expression)]) place

def block (statements : List Tree) (place : Tree := .null) : Tree :=
  located (make "BlockStatement" [("body", .list statements)]) place

def returnStatement (argument : Option Tree := none) (place : Tree := .null) : Tree :=
  located (make "ReturnStatement" (optional "argument" argument)) place

def ifStatement (test consequent : Tree) (alternate : Option Tree := none) : Tree :=
  make "IfStatement" ([("test", test), ("consequent", consequent)] ++ optional "alternate" alternate)

def breakStatement : Tree := make "BreakStatement" []

def emptyStatement (place : Tree := .null) : Tree := located (make "EmptyStatement" []) place

/-! ## Declarations and functions -/

def declarator (target : Tree) (init : Option Tree := none) : Tree :=
  make "VariableDeclarator" (("id", target) :: optional "init" init)

def declaration (kind : String) (declarators : List Tree) (place : Tree := .null) : Tree :=
  located
    (make "VariableDeclaration" [("kind", .str kind), ("declarations", .list declarators)]) place

/-- `var name = init;`. -/
def var (name : String) (init : Option Tree := none) (place : Tree := .null) : Tree :=
  declaration "var" [declarator (identifier name) init] place

/-- What distinguishes one kind of function from another. -/
structure FunctionForm where
  name : Option String := none
  generator : Bool := false
  isAsync : Bool := false

def functionExpression (params : List Tree) (body : Tree) (form : FunctionForm := {})
    (place : Tree := .null) : Tree :=
  located
    (make "FunctionExpression"
      ([("params", .list params), ("body", body), ("generator", .bool form.generator),
        ("expression", .bool false), ("async", .bool form.isAsync)] ++
        optional "id" (form.name.map fun n => identifier n))) place

def functionDeclaration (name : String) (params : List Tree) (body : Tree)
    (place : Tree := .null) : Tree :=
  (functionExpression params body ⟨some name, false, false⟩ place).set "type"
    (.str "FunctionDeclaration")

end Downlevel.Node
