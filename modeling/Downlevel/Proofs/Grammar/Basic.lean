import Downlevel.Emit.Precedence
import Downlevel.Proofs.Tree.Objects

/-!
# `Proofs.Grammar.Basic`: which trees are programs

A program is a tree that a grammar derives. A symbol of the grammar says what can stand in a place: a
statement, an expression, a pattern, a property, and so on; it admits nodes of certain types. For each
type the rules say what stands in its fields. Fields that no rule mentions hold no syntax: they are
scalars, or records of scalars. No field stands twice, and where a node stands in its text does not
matter.

Some rules depend on other fields of the node: the key of a member is an expression if it is computed,
the value of a property is a function if the property is a method. These fields are its *traits*.

More can be asked of single objects. A *labelling* says of which type the object with a mark is, and a strict
one also that nodes are as a parser writes them. The grammar derives only trees that agree with one.
-/

namespace Downlevel.Grammar

open Tree

/-! ## Symbols -/

/-- What can stand in a place of a program. -/
inductive Symbol where
  | program
  | moduleItem
  | statement
  | block
  | declaration
  | defaultExport
  | importSpecifier
  | exportSpecifier
  | declarator
  | switchCase
  | catchClause
  | forInit
  | forTarget
  | expression
  /-- An expression, or `super`. -/
  | callee
  /-- An expression, possibly spread. -/
  | argument
  | arrowBody
  | function
  | classBody
  | method
  | property
  | patternProperty
  | propertyName
  | pattern
  | identifier
  | literal
  | template
  | templateElement
  | openingTag
  | closingTag
  | tagName
  | tagObject
  | tagIdentifier
  | attribute
  | attributeName
  | attributeValue
  | child
  | contained
  deriving DecidableEq, Repr

def statementTypes : List String :=
  ["ExpressionStatement", "BlockStatement", "EmptyStatement", "DebuggerStatement",
   "VariableDeclaration", "FunctionDeclaration", "ClassDeclaration", "ReturnStatement",
   "ThrowStatement", "BreakStatement", "ContinueStatement", "LabeledStatement", "IfStatement",
   "ForStatement", "ForInStatement", "ForOfStatement", "WhileStatement", "DoWhileStatement",
   "WithStatement", "SwitchStatement", "TryStatement"]

def moduleTypes : List String :=
  ["ImportDeclaration", "ExportNamedDeclaration", "ExportDefaultDeclaration", "ExportAllDeclaration"]

def expressionTypes : List String :=
  ["Identifier", "ThisExpression", "MetaProperty", "Literal", "TemplateLiteral",
   "TaggedTemplateExpression", "ArrayExpression", "ObjectExpression", "FunctionExpression",
   "ArrowFunctionExpression", "ClassExpression", "SequenceExpression", "AssignmentExpression",
   "ConditionalExpression", "BinaryExpression", "LogicalExpression", "UnaryExpression",
   "UpdateExpression", "AwaitExpression", "YieldExpression", "MemberExpression",
   "CallExpression", "NewExpression", "JSXElement"]

def patternTypes : List String :=
  ["Identifier", "MemberExpression", "ObjectPattern", "ArrayPattern", "AssignmentPattern", "RestElement"]

/-- The types of the nodes that a symbol admits. -/
def Symbol.types : Symbol → List String
  | .program => ["Program"]
  | .moduleItem => statementTypes ++ moduleTypes
  | .statement => statementTypes
  | .block => ["BlockStatement"]
  | .declaration => ["VariableDeclaration", "FunctionDeclaration", "ClassDeclaration"]
  | .defaultExport => ["FunctionDeclaration", "ClassDeclaration"] ++ expressionTypes
  | .importSpecifier => ["ImportSpecifier", "ImportDefaultSpecifier", "ImportNamespaceSpecifier"]
  | .exportSpecifier => ["ExportSpecifier"]
  | .declarator => ["VariableDeclarator"]
  | .switchCase => ["SwitchCase"]
  | .catchClause => ["CatchClause"]
  | .forInit => "VariableDeclaration" :: expressionTypes
  | .forTarget => "VariableDeclaration" :: patternTypes
  | .expression => expressionTypes
  | .callee => "Super" :: expressionTypes
  | .argument => "SpreadElement" :: expressionTypes
  | .arrowBody => "BlockStatement" :: expressionTypes
  | .function => ["FunctionExpression"]
  | .classBody => ["ClassBody"]
  | .method => ["MethodDefinition"]
  | .property => ["Property", "SpreadElement"]
  | .patternProperty => ["Property", "RestElement"]
  | .propertyName => ["Identifier", "Literal"]
  | .pattern => patternTypes
  | .identifier => ["Identifier"]
  | .literal => ["Literal"]
  | .template => ["TemplateLiteral"]
  | .templateElement => ["TemplateElement"]
  | .openingTag => ["JSXOpeningElement"]
  | .closingTag => ["JSXClosingElement"]
  | .tagName => ["JSXIdentifier", "JSXMemberExpression", "JSXNamespacedName"]
  | .tagObject => ["JSXIdentifier", "JSXMemberExpression"]
  | .tagIdentifier => ["JSXIdentifier"]
  | .attribute => ["JSXAttribute", "JSXSpreadAttribute"]
  | .attributeName => ["JSXIdentifier", "JSXNamespacedName"]
  | .attributeValue => ["Literal", "JSXExpressionContainer", "JSXElement"]
  | .child => ["JSXText", "JSXExpressionContainer", "JSXElement"]
  | .contained => "JSXEmptyExpression" :: expressionTypes

/-! ## Slots -/

/-- What the rules for a node can depend on. -/
inductive Trait where
  /-- Its key is an expression in brackets. -/
  | computed
  /-- It is an accessor or a method. -/
  | callable
  /-- Its body is an expression. -/
  | concise
  /-- It stands behind `export default`. -/
  | exported
  /-- It stands in a pattern. -/
  | inPattern
  deriving DecidableEq, Repr

/-- Is a property an accessor or a method? -/
def isCallable (t : Tree) : Bool :=
  (t.get "kind").isStr "get" || (t.get "kind").isStr "set" || (t.get "method").isSet

/-- Does a node that stands for a symbol have a trait? -/
def Trait.holds (s : Symbol) (t : Tree) : Trait → Bool
  | .computed => (t.get "computed").isSet
  | .callable => isCallable t
  | .concise => (t.get "expression").isSet
  | .exported => s == .defaultExport
  | .inPattern => s == .patternProperty

/-- What stands in a field. -/
inductive Slot where
  | one (s : Symbol)
  /-- A node, or nothing. -/
  | optional (s : Symbol)
  | many (s : Symbol)
  /-- One node or more. -/
  | several (s : Symbol)
  /-- Nodes and holes. -/
  | sparse (s : Symbol)
  | text
  /-- A text, or nothing. -/
  | optionalText
  /-- A binary operator. -/
  | operator
  /-- The keyword of a declaration. -/
  | keyword
  /-- The raw and the cooked form of a part of a template. -/
  | segment
  | choice (trait : Trait) (yes no : Slot)
  deriving DecidableEq, Repr

/-- The slot that a choice comes to for a node. -/
def Slot.resolve (s : Symbol) (t : Tree) : Slot → Slot
  | .choice trait yes no =>
    if trait.holds s t then Slot.resolve s t yes else Slot.resolve s t no
  | slot => slot

/-- Can the field be missing? -/
def Slot.isOptional : Slot → Bool
  | .optional _ => true
  | .optionalText => true
  | _ => false

/-- The key of a property or a method. -/
def keySlot : Slot := .choice .computed (.one .expression) (.one .propertyName)

/-- The name of a declared function or class. -/
def nameSlot : Slot := .choice .exported (.optional .identifier) (.one .identifier)

/-- The value of a property. -/
def valueSlot : Slot :=
  .choice .callable (.one .function) (.choice .inPattern (.one .pattern) (.one .expression))

/-- The rules: for each type of node, what stands in which field. -/
def rules : List (String × List (String × Slot)) :=
  [("Program", [("body", .many .moduleItem)]),
   -- Statements.
   ("ExpressionStatement", [("expression", .one .expression)]),
   ("BlockStatement", [("body", .many .statement)]),
   ("VariableDeclaration", [("kind", .keyword), ("declarations", .several .declarator)]),
   ("VariableDeclarator", [("id", .one .pattern), ("init", .optional .expression)]),
   ("ReturnStatement", [("argument", .optional .expression)]),
   ("ThrowStatement", [("argument", .one .expression)]),
   ("BreakStatement", [("label", .optional .identifier)]),
   ("ContinueStatement", [("label", .optional .identifier)]),
   ("LabeledStatement", [("label", .one .identifier), ("body", .one .statement)]),
   ("IfStatement",
    [("test", .one .expression), ("consequent", .one .statement), ("alternate", .optional .statement)]),
   ("ForStatement",
    [("init", .optional .forInit), ("test", .optional .expression),
     ("update", .optional .expression), ("body", .one .statement)]),
   ("ForInStatement", [("left", .one .forTarget), ("right", .one .expression), ("body", .one .statement)]),
   ("ForOfStatement", [("left", .one .forTarget), ("right", .one .expression), ("body", .one .statement)]),
   ("WhileStatement", [("test", .one .expression), ("body", .one .statement)]),
   ("DoWhileStatement", [("test", .one .expression), ("body", .one .statement)]),
   ("WithStatement", [("object", .one .expression), ("body", .one .statement)]),
   ("SwitchStatement", [("discriminant", .one .expression), ("cases", .many .switchCase)]),
   ("SwitchCase", [("test", .optional .expression), ("consequent", .many .statement)]),
   ("TryStatement",
    [("block", .one .block), ("handler", .optional .catchClause), ("finalizer", .optional .block)]),
   ("CatchClause", [("param", .optional .pattern), ("body", .one .block)]),
   -- Modules.
   ("ImportDeclaration", [("specifiers", .many .importSpecifier), ("source", .one .literal)]),
   ("ImportSpecifier", [("imported", .one .identifier), ("local", .one .identifier)]),
   ("ImportDefaultSpecifier", [("local", .one .identifier)]),
   ("ImportNamespaceSpecifier", [("local", .one .identifier)]),
   ("ExportNamedDeclaration",
    [("declaration", .optional .declaration), ("specifiers", .many .exportSpecifier),
     ("source", .optional .literal)]),
   ("ExportSpecifier", [("local", .one .identifier), ("exported", .one .identifier)]),
   ("ExportDefaultDeclaration", [("declaration", .one .defaultExport)]),
   ("ExportAllDeclaration", [("source", .one .literal)]),
   -- Functions and classes.
   ("FunctionDeclaration", [("id", nameSlot), ("params", .many .pattern), ("body", .one .block)]),
   ("FunctionExpression",
    [("id", .optional .identifier), ("params", .many .pattern), ("body", .one .block)]),
   ("ArrowFunctionExpression",
    [("id", .optional .identifier), ("params", .many .pattern),
     ("body", .choice .concise (.one .expression) (.one .arrowBody))]),
   ("ClassDeclaration",
    [("id", nameSlot), ("superClass", .optional .expression), ("body", .one .classBody)]),
   ("ClassExpression",
    [("id", .optional .identifier), ("superClass", .optional .expression), ("body", .one .classBody)]),
   ("ClassBody", [("body", .many .method)]),
   ("MethodDefinition", [("key", keySlot), ("value", .one .function), ("kind", .text)]),
   -- Patterns.
   ("ObjectPattern", [("properties", .many .patternProperty)]),
   ("ArrayPattern", [("elements", .sparse .pattern)]),
   ("AssignmentPattern", [("left", .one .pattern), ("right", .one .expression)]),
   ("RestElement", [("argument", .one .pattern)]),
   -- Expressions.
   ("Identifier", [("name", .text)]),
   ("MetaProperty", [("meta", .one .identifier), ("property", .one .identifier)]),
   ("Literal", [("raw", .optionalText)]),
   ("TemplateLiteral", [("quasis", .many .templateElement), ("expressions", .many .expression)]),
   ("TemplateElement", [("value", .segment)]),
   ("TaggedTemplateExpression", [("tag", .one .expression), ("quasi", .one .template)]),
   ("ArrayExpression", [("elements", .sparse .argument)]),
   ("ObjectExpression", [("properties", .many .property)]),
   ("Property",
    [("key", keySlot), ("value", valueSlot)]),
   ("SpreadElement", [("argument", .one .expression)]),
   ("SequenceExpression", [("expressions", .many .expression)]),
   ("AssignmentExpression", [("operator", .text), ("left", .one .pattern), ("right", .one .expression)]),
   ("ConditionalExpression",
    [("test", .one .expression), ("consequent", .one .expression), ("alternate", .one .expression)]),
   ("BinaryExpression", [("operator", .operator), ("left", .one .expression), ("right", .one .expression)]),
   ("LogicalExpression",
    [("operator", .operator), ("left", .one .expression), ("right", .one .expression)]),
   ("UnaryExpression", [("operator", .text), ("argument", .one .expression)]),
   ("UpdateExpression", [("operator", .text), ("argument", .one .expression)]),
   ("AwaitExpression", [("argument", .one .expression)]),
   ("YieldExpression", [("argument", .optional .expression)]),
   ("MemberExpression",
    [("object", .one .callee), ("property", .choice .computed (.one .expression) (.one .identifier))]),
   ("CallExpression", [("callee", .one .callee), ("arguments", .many .argument)]),
   ("NewExpression", [("callee", .one .expression), ("arguments", .many .argument)]),
   -- JSX.
   ("JSXElement",
    [("openingElement", .one .openingTag), ("children", .many .child),
     ("closingElement", .optional .closingTag)]),
   ("JSXOpeningElement", [("name", .one .tagName), ("attributes", .many .attribute)]),
   ("JSXClosingElement", [("name", .one .tagName)]),
   ("JSXIdentifier", [("name", .text)]),
   ("JSXMemberExpression", [("object", .one .tagObject), ("property", .one .tagIdentifier)]),
   ("JSXNamespacedName", [("namespace", .one .tagIdentifier), ("name", .one .tagIdentifier)]),
   ("JSXAttribute", [("name", .one .attributeName), ("value", .optional .attributeValue)]),
   ("JSXSpreadAttribute", [("argument", .one .expression)]),
   ("JSXExpressionContainer", [("expression", .one .contained)]),
   ("JSXText", [("raw", .optionalText), ("value", .optionalText)])]

/-- The rules for nodes of a type. -/
def rulesFor (type : String) : List (String × Slot) := (rules.lookup type).getD []

/-- The rules for a node that stands for a symbol. -/
def rulesOf (t : Tree) : List (String × Slot) := ((t.type?).map rulesFor).getD []

/-- What stands in a field of a node that stands for a symbol, if the field holds syntax. -/
def slot? (s : Symbol) (t : Tree) (key : String) : Option Slot :=
  ((rulesOf t).lookup key).map (Slot.resolve s t)

/-- Does a symbol admit a node? Properties of patterns are neither accessors nor methods. -/
def Symbol.admits (s : Symbol) (t : Tree) : Bool :=
  t.isTypeIn s.types && (s != .patternProperty || !isCallable t)

/-! ## Labels -/

/-- Is a node as a parser writes it? A template has one segment more than expressions, and no constructor
has a key in brackets. -/
def isWritten (t : Tree) : Bool :=
  (!t.isType "TemplateLiteral" || (t.children "quasis").length == (t.children "expressions").length + 1) &&
    (!(t.isType "MethodDefinition" && (t.get "kind").isStr "constructor") || !(t.get "computed").isSet)

/-- The types of the objects with a mark, if marks say something, and whether nodes have to be as a parser
writes them. -/
structure Labelling where
  typeOf : Option (Nat → Option String) := none
  isStrict : Bool := false

namespace Labelling

/-- Nothing is asked of single objects. -/
abbrev any : Labelling := {}

/-- Nodes have to be as a parser writes them. -/
abbrev strict : Labelling := { isStrict := true }

/-- Is an object of the type that its mark stands for, and as it has to be? -/
def agrees (labels : Labelling) (t : Tree) : Bool :=
  (match labels.typeOf, t.mark? with
    | some typeOf, some m => typeOf m == t.type?
    | _, _ => true) && (!labels.isStrict || isWritten t)

end Labelling

/-! ## Values that hold no syntax -/

/-- A scalar, or a record of scalars. -/
def isInert (labels : Labelling) : Tree → Bool
  | .list _ => false
  | .obj m fs => labels.agrees (.obj m fs) && fs.all fun f => f.1 != "type" && isScalar f.2
  | _ => true

/-- A part of a template has a raw text. -/
def isSegment (labels : Labelling) (t : Tree) : Bool :=
  t.isObject && isInert labels t && (t.get "raw").str?.isSome

/-! ## Values in slots -/

/-- Does a text fit in a slot? -/
def Slot.admitsText (text : String) : Slot → Bool
  | .text => true
  | .optionalText => true
  | .operator => (Emit.binaryPrecedence? text).isSome
  | .keyword => ["var", "let", "const"].contains text
  | _ => false

/-- The symbol of a single node. -/
def Slot.symbol? : Slot → Option Symbol
  | .one s => some s
  | .optional s => some s
  | _ => none

/-- The slot of the items of a list, and whether there has to be one. -/
def Slot.items? : Slot → Option (Slot × Bool)
  | .many s => some (.one s, false)
  | .several s => some (.one s, true)
  | .sparse s => some (.optional s, false)
  | _ => none

/-- Does every field stand only once? -/
def hasDistinctKeys (fs : List (String × Tree)) : Bool := decide (fs.map (·.1)).Nodup

mutual

/-- Does a value fit in a slot, and do its marks agree with the labels? -/
def fits (labels : Labelling) (slot : Slot) : Tree → Bool
  | .obj m fs =>
    match slot.symbol? with
    | some s =>
      let t := Tree.obj m fs
      labels.agrees t && s.admits t && hasDistinctKeys fs &&
        (rulesOf t).all (fun rule =>
          (Slot.resolve s t rule.2).isOptional || (lookup rule.1 fs).isSome) &&
        fieldsFit labels (slot? s t) fs
    | none => slot == .segment && isSegment labels (.obj m fs)
  | .list xs =>
    match slot.items? with
    | some (item, isNonempty) => (!isNonempty || !xs.isEmpty) && itemsFit labels item xs
    | none => false
  | .null => slot.isOptional
  | .str s => slot.admitsText s
  | _ => false

/-- Do the fields of a node fit in their slots? -/
def fieldsFit (labels : Labelling) (slotOf : String → Option Slot) : List (String × Tree) → Bool
  | [] => true
  | (k, v) :: rest =>
    (match slotOf k with
      | some slot => fits labels slot v
      | none => isPlaceKey k || isInert labels v) && fieldsFit labels slotOf rest

def itemsFit (labels : Labelling) (slot : Slot) : List Tree → Bool
  | [] => true
  | t :: rest => fits labels slot t && itemsFit labels slot rest

end

/-- Is a tree a program? -/
def isProgram (t : Tree) : Bool := fits .any (.one .program) t

/-- Is a tree a program whose nodes are as a parser writes them? -/
def isWellFormed (t : Tree) : Bool := fits .strict (.one .program) t

end Downlevel.Grammar
