import Downlevel.Tree.Basic

/-!
# `Scope.Outline`: the binding structure of a program

An **outline** is what is left of a program when only names matter: which scopes nest in which, which
identifiers are declared in them, which are read or written, and which constructs make names
unpredictable. Everything the scope analysis answers is a function of the outline.

The parts of a program are read in different roles: an expression, a pattern that declares, a pattern
that is assigned to, and so on. `Role` names them. What a construct does is a list of steps, one entry
of a table: it opens scopes, declares and refers, and reads its fields in some order, each in a role.
-/

namespace Downlevel.Scope

open Tree

inductive ScopeType where
  | global
  | module
  | function
  | block
  | catch
  | ofClass
  deriving DecidableEq, Repr

/-- Scopes that `var` declarations are hoisted to. -/
def ScopeType.isFunction : ScopeType → Bool
  | .global | .module | .function => true
  | _ => false

def ScopeType.text : ScopeType → String
  | .global => "global"
  | .module => "module"
  | .function => "function"
  | .block => "block"
  | .catch => "catch"
  | .ofClass => "class"

inductive BindingKind where
  | var
  | let
  | const
  | function
  | parameter
  | catchParameter
  | ofClass
  | imported
  deriving DecidableEq, Repr

/-- Kinds whose bindings live in a block. -/
def BindingKind.isBlockScoped : BindingKind → Bool
  | .let | .const => true
  | _ => false

def BindingKind.text : BindingKind → String
  | .var => "var"
  | .let => "let"
  | .const => "const"
  | .function => "function"
  | .parameter => "parameter"
  | .catchParameter => "catch_parameter"
  | .ofClass => "class"
  | .imported => "import"

/-- Constructs that make renaming unsafe. -/
inductive IssueCode where
  | evalCall
  | withStatement
  deriving DecidableEq, Repr

def IssueCode.text : IssueCode → String
  | .evalCall => "EVAL_CALL"
  | .withStatement => "WITH_STATEMENT"

def IssueCode.message : IssueCode → String
  | .evalCall => "Use of eval makes static analysis unreliable."
  | .withStatement => "`with` statement changes scope resolution dynamically."

/-! ## Outlines -/

/-- One entry of an outline. -/
inductive Item where
  /-- An identifier is declared, in the current scope or, if hoisted, in its function. -/
  | declare (identifier : Tree) (kind : BindingKind) (hoisted : Bool) (declaration : Tree)
  /-- An identifier is read or written. -/
  | refer (identifier : Tree) (write : Bool)
  /-- A construct makes names unpredictable. -/
  | issue (code : IssueCode) (node : Tree)
  /-- A node opens a scope. -/
  | scope (type : ScopeType) (node : Tree) (items : List Item)
  /-- Part of the construct that opened the current scope, but read outside that scope. -/
  | outside (items : List Item)

/-- How the identifiers of a pattern are declared. -/
structure Binder where
  kind : BindingKind
  hoisted : Bool
  declaration : Tree

/-! ## Roles and steps -/

/-- The ways in which a part of a program is read. -/
inductive Role where
  /-- An expression or a statement, or a list of them. -/
  | visit
  /-- A pattern that declares. -/
  | bind
  /-- The properties of an object pattern that declares. -/
  | bindProperties
  | bindProperty
  /-- The elements of an array pattern, or the parameters of a function. -/
  | bindEach
  /-- A pattern that is assigned to. -/
  | assign
  | assignProperties
  | assignProperty
  | assignEach
  /-- The declarators of a declaration. -/
  | declarators
  | declarator
  /-- The head of a loop over a collection: a declaration or an assignment target. -/
  | loopHead
  /-- The body of a function: a block that opens no scope of its own, or an expression. -/
  | functionBody
  /-- The body of a catch clause. -/
  | catchBody
  /-- A catch clause. -/
  | handler
  /-- Names bound by an import, names listed by an export. -/
  | imported
  | importedEach
  | exported
  | exportedEach
  /-- The name of a JSX element, after a dot or not. -/
  | elementName (dotted : Bool)
  deriving DecidableEq, Repr

/-- The role of the items of a list, where a list can stand in the role. -/
def Role.ofItems? : Role → Option Role
  | .visit => some .visit
  | .functionBody => some .visit
  | .bindProperties => some .bindProperty
  | .bindEach => some .bind
  | .assignProperties => some .assignProperty
  | .assignEach => some .assign
  | .declarators => some .declarator
  | .importedEach => some .imported
  | .exportedEach => some .exported
  | _ => none

/-- How a construct declares names. -/
inductive Manner where
  /-- As the construct around it says. -/
  | inherited
  /-- As names of a kind, in the current scope. -/
  | own (kind : BindingKind)
  /-- As its keyword says: `var` is hoisted, all else stays. -/
  | keyword
  deriving DecidableEq, Repr

/-- How a node declares names, inside a construct that declares them as `b` says. -/
def Manner.binder (t : Tree) (b : Binder) : Manner → Binder
  | .inherited => b
  | .own kind => ⟨kind, false, t⟩
  | .keyword =>
    if (t.get "kind").isStr "var" then ⟨.var, true, t⟩
    else if (t.get "kind").isStr "const" then ⟨.const, false, t⟩
    else ⟨.let, false, t⟩

/-- What a construct can make depend on its fields. -/
inductive Condition where
  | isSet (key : String)
  | isNull (key : String)
  | isObject (key : String)
  | isIdentifier (key : String)
  /-- The node is a call of `eval`. -/
  | callsEval
  /-- The name of an element is that of a variable: `<Panel>` and `<ui.Panel>`, not `<div>`. -/
  | isVariable (dotted : Bool)
  deriving DecidableEq, Repr

def Condition.holds (t : Tree) : Condition → Bool
  | .isSet key => (t.get key).isSet
  | .isNull key => (t.get key).isNull
  | .isObject key => (t.get key).isObject
  | .isIdentifier key => (t.get key).isType "Identifier"
  | .callsEval =>
    (t.get "callee").isType "Identifier" && ((t.get "callee").get "name").isStr "eval"
  | .isVariable dotted =>
    dotted || match ((t.name?).getD "").toList with
      | c :: _ => Text.isCapital c
      | [] => false

/-- What a construct does to the names around it, one thing after the other. -/
inductive Step where
  /-- The node, or what one of its fields holds, is declared. -/
  | declare (key : Option String) (manner : Manner)
  /-- The node is read or written. -/
  | refer (write : Bool)
  /-- Names become unpredictable, because of the node or of one of its fields. -/
  | issue (code : IssueCode) (key : Option String)
  /-- A field is read in a role. -/
  | read (manner : Manner) (role : Role) (key : String)
  /-- All fields are read in order. -/
  | readAll
  /-- The node opens a scope. -/
  | scope (type : ScopeType) (steps : List Step)
  /-- Something is read outside the scope just opened. -/
  | outside (steps : List Step)
  /-- One of two ways to go on. -/
  | choose (condition : Condition) (yes no : List Step)

namespace Step

/-- Reads an expression or a statement. -/
def visit (key : String) : Step := .read .inherited .visit key

/-- Reads a part of what is being declared, or assigned to. -/
def part (role : Role) (key : String) : Step := .read .inherited role key

/-- Goes on only under a condition. -/
def when (condition : Condition) (steps : List Step) : Step := .choose condition steps []

end Step

/-! ### The constructs -/

/-- A function: the body shares the scope of the parameters. -/
def functionSteps : List Step :=
  [.read (.own .parameter) .bindEach "params", .part .functionBody "body"]

/-- A catch clause: the body shares the scope of the parameter. -/
def handlerStep : Step :=
  .scope .catch [.read (.own .catchParameter) .bind "param", .part .catchBody "body"]

/-- What expressions and statements do, by type; all others read their fields in order. -/
def constructs : List (String × List Step) :=
  [("Identifier", [.refer false]),
   ("BlockStatement", [.scope .block [.visit "body"]]),
   ("VariableDeclaration", [.read .keyword .declarators "declarations"]),
   ("FunctionDeclaration",
     [.when (.isIdentifier "id") [.declare (some "id") (.own .function)],
      .scope .function functionSteps]),
   -- A function expression binds its own name inside.
   ("FunctionExpression",
     [.scope .function
       (.when (.isObject "id") [.declare (some "id") (.own .function)] :: functionSteps)]),
   ("ArrowFunctionExpression", [.scope .function functionSteps]),
   ("ClassDeclaration",
     [.when (.isObject "id") [.declare (some "id") (.own .ofClass)],
      .visit "superClass", .visit "body"]),
   ("ClassExpression",
     [.visit "superClass",
      .choose (.isObject "id")
        [.scope .ofClass [.declare (some "id") (.own .ofClass), .visit "body"]]
        [.visit "body"]]),
   ("MethodDefinition", [.when (.isSet "computed") [.visit "key"], .visit "value"]),
   ("Property", [.when (.isSet "computed") [.visit "key"], .visit "value"]),
   ("MemberExpression", [.visit "object", .when (.isSet "computed") [.visit "property"]]),
   ("MetaProperty", []),
   ("JSXOpeningElement", [.part (.elementName false) "name", .visit "attributes"]),
   ("JSXClosingElement", [.part (.elementName false) "name"]),
   ("JSXAttribute", [.visit "value"]),
   ("LabeledStatement", [.visit "body"]),
   ("BreakStatement", []),
   ("ContinueStatement", []),
   ("AssignmentExpression", [.part .assign "left", .visit "right"]),
   ("UpdateExpression", [.part .assign "argument"]),
   ("ForStatement",
     [.scope .block [.visit "init", .visit "test", .visit "update", .visit "body"]]),
   ("ForInStatement",
     [.scope .block [.part .loopHead "left", .outside [.visit "right"], .visit "body"]]),
   ("ForOfStatement",
     [.scope .block [.part .loopHead "left", .outside [.visit "right"], .visit "body"]]),
   ("WhileStatement", [.scope .block [.visit "test", .visit "body"]]),
   ("DoWhileStatement", [.scope .block [.visit "test", .visit "body"]]),
   ("SwitchStatement", [.visit "discriminant", .scope .block [.visit "cases"]]),
   ("CallExpression",
     [.when .callsEval [.issue .evalCall (some "callee")], .visit "callee", .visit "arguments"]),
   ("TryStatement", [.visit "block", .part .handler "handler", .visit "finalizer"]),
   ("CatchClause", [handlerStep]),
   ("WithStatement", [.issue .withStatement none, .visit "object", .visit "body"]),
   ("ImportDeclaration", [.read (.own .imported) .importedEach "specifiers"]),
   ("ExportNamedDeclaration",
     [.visit "declaration", .when (.isNull "source") [.part .exportedEach "specifiers"]]),
   ("ExportAllDeclaration", [])]

/-- What patterns that declare do, by type; all others are read as expressions. -/
def bindPatterns : List (String × List Step) :=
  [("Identifier", [.declare none .inherited]),
   ("ObjectPattern", [.part .bindProperties "properties"]),
   ("ArrayPattern", [.part .bindEach "elements"]),
   ("AssignmentPattern", [.part .bind "left", .visit "right"]),
   ("RestElement", [.part .bind "argument"])]

/-- What patterns that are assigned to do, by type; all others are read as expressions. -/
def assignPatterns : List (String × List Step) :=
  [("Identifier", [.refer true]),
   ("ObjectPattern", [.part .assignProperties "properties"]),
   ("ArrayPattern", [.part .assignEach "elements"]),
   ("AssignmentPattern", [.part .assign "left", .visit "right"]),
   ("RestElement", [.part .assign "argument"])]

/-- An expression or statement of a type. -/
def nodeSteps (type : Option String) : List Step :=
  (type.bind (List.lookup · constructs)).getD [.readAll]

/-- A pattern of a type. -/
def patternSteps (patterns : List (String × List Step)) (type : Option String) : List Step :=
  (type.bind (List.lookup · patterns)).getD (nodeSteps type)

/-- One property of an object pattern: a computed key is read first. -/
def propertySteps (part : Role) (type : Option String) : List Step :=
  if type = some "RestElement" then [.part part "argument"]
  else [.when (.isSet "computed") [.visit "key"], .part part "value"]

/-- The name of a JSX element. -/
def elementNameSteps (dotted : Bool) (type : Option String) : List Step :=
  if type = some "JSXMemberExpression" then [.part (.elementName true) "object"]
  else if type = some "JSXIdentifier" then [.when (.isVariable dotted) [.refer false]]
  else []

/-- What a node of a type does, read in a role. -/
def stepsIn (role : Role) (type : Option String) : List Step :=
  match role with
  | .visit => nodeSteps type
  | .bind => patternSteps bindPatterns type
  | .bindProperty => propertySteps .bind type
  | .assign => patternSteps assignPatterns type
  | .assignProperty => propertySteps .assign type
  | .declarator => [.part .bind "id", .visit "init"]
  | .loopHead =>
    if type = some "VariableDeclaration" then nodeSteps type
    else patternSteps assignPatterns type
  | .functionBody =>
    if type = some "BlockStatement" then [.visit "body"] else nodeSteps type
  | .catchBody => [.visit "body"]
  | .handler => [handlerStep]
  | .imported => [.when (.isObject "local") [.declare (some "local") .inherited]]
  | .exported => [.visit "local"]
  | .elementName dotted => elementNameSteps dotted type
  | _ => []

/-! ## Reading a tree -/

/-- The node, or the value of one of its fields. -/
def partOf (t : Tree) : Option String → Tree
  | none => t
  | some key => t.get key

/-- Reads a field in a role; what it declares, it declares as the binder says. -/
abbrev Reader := Role → Binder → String → List Item

mutual

/-- The outline of a step that a node takes. -/
def Step.items (t : Tree) (b : Binder) (read : Reader) (all : Unit → List Item) : Step → List Item
  | .declare key manner =>
    let b := manner.binder t b
    [.declare (partOf t key) b.kind b.hoisted b.declaration]
  | .refer write => [.refer t write]
  | .issue code key => [.issue code (partOf t key)]
  | .read manner role key => read role (manner.binder t b) key
  | .readAll => all ()
  | .scope type steps => [.scope type t (itemsOf t b read all steps)]
  | .outside steps => [.outside (itemsOf t b read all steps)]
  | .choose condition yes no =>
    if condition.holds t then itemsOf t b read all yes else itemsOf t b read all no

/-- The outline of steps, one after the other. -/
def itemsOf (t : Tree) (b : Binder) (read : Reader) (all : Unit → List Item) :
    List Step → List Item
  | [] => []
  | step :: rest => step.items t b read all ++ itemsOf t b read all rest

end

mutual

/-- The outline of a tree, read in a role. -/
def outline (role : Role) (b : Binder) : Tree → List Item
  | .obj m fs =>
    itemsOf (.obj m fs) b (fun r b key => outlineField r b key fs) (fun _ => outlineFields b fs)
      (stepsIn role (Tree.obj m fs).type?)
  | .list xs =>
    match role.ofItems? with
    | some r => outlineItems r b xs
    | none => []
  | _ => []

/-- The outline of one field. -/
def outlineField (role : Role) (b : Binder) (key : String) : List (String × Tree) → List Item
  | [] => []
  | (k, v) :: rest => if k = key then outline role b v else outlineField role b key rest

/-- The outline of all fields in order, places in the text apart. -/
def outlineFields (b : Binder) : List (String × Tree) → List Item
  | [] => []
  | (k, v) :: rest =>
    (if k = "loc" || k = "range" then [] else outline .visit b v) ++ outlineFields b rest

def outlineItems (role : Role) (b : Binder) : List Tree → List Item
  | [] => []
  | t :: rest => outline role b t ++ outlineItems role b rest

end

/-- The outline of a whole program: one scope that holds all others. -/
def ofProgram (t : Tree) : Item :=
  let type := if (t.get "sourceType").isStr "module" then ScopeType.module else .global
  .scope type t (outlineField .visit ⟨.var, true, t⟩ "body" t.fields)

end Downlevel.Scope
