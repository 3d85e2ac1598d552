import Downlevel.Emit.Layout
import Downlevel.Emit.Precedence

/-!
# `Emit.Program`: programs as layouts

Every kind of node has a layout, made from the layouts of its parts. Parts are laid out in roles: an
expression in a place that asks for a precedence, a statement, the body of a loop, a block, and so on.
The parts are looked at in a fixed order, so that of several nodes that cannot be written the first in
that order is reported.
-/

namespace Downlevel.Emit

open Tree

/-- The ways in which a part is laid out. -/
inductive Role where
  /-- An expression in a place that asks for a precedence. -/
  | expr (p : Precedence)
  | stmt
  /-- The body of a loop or an `if`. -/
  | body
  /-- A statement in a block of its own. -/
  | ownBlock
  /-- The statements of a node in braces. -/
  | block
  /-- A declaration without a semicolon. -/
  | declaration
  | declarator
  /-- The head of a loop: a declaration, or an expression. -/
  | loopHead (p : Precedence)
  /-- The parameters and the body of a function. -/
  | functionTail
  /-- The segments and expressions of a template. -/
  | template
  /-- A property of an object or an object pattern. -/
  | property
  /-- An element of an array, possibly missing. -/
  | element
  /-- A catch clause. -/
  | handler
  /-- The closing tag that goes with an opening one. -/
  | tagEnd

/-- Lays out the parts of a node. -/
structure Reader where
  /-- One field; it is a fault if there is none. -/
  field : Role → String → Except Fault Layout
  /-- The items of a field. -/
  each : Role → String → List (Except Fault Layout)

namespace Reader

/-- The items of a field with a separator between them. -/
def join (r : Reader) (role : Role) (key separator : String) : Except Fault Layout := do
  return .join separator (← (r.each role key).mapM id)

/-- A field that may be null or missing. -/
def field? (r : Reader) (t : Tree) (role : Role) (key : String) : Except Fault (Option Layout) :=
  if (t.get key).isNull then pure none else some <$> r.field role key

end Reader

/-- A text field that must be there. -/
def textOf (t : Tree) (key : String) : Except Fault String := Tree.plain <$> t.need key

/-- The name in a node that must be there. -/
def nameIn (t : Tree) (key : String) : Except Fault String := do
  textOf (← t.need key) "name"

/-! ## Literals -/

/-- The text of a literal: as it was written, if that is known. -/
def literalText (t : Tree) : String :=
  let regex := t.get "regex"
  let part (key : String) : String := ((regex.get? key).map Tree.plain).getD ""
  if !(t.get "raw").isNull then (t.get "raw").plain
  else if regex.isSet then "/" ++ part "pattern" ++ "/" ++ part "flags"
  else match t.get "value" with
    | .null => "null"
    | .bool b => if b then "true" else "false"
    | .int n => toString n
    | .real d =>
      match d.integer? with
      | some n => toString n
      | none => d.render
    | .str s => Text.quoteString s
    | v => Text.quoteString v.plain

/-! ## Functions, classes and statement lists -/

/-- Where a list ends: with its node. -/
def closeOf (t : Tree) : Close :=
  match t.range? with
  | some (_, stop) => .before stop
  | none => .nothing

/-- The statements of a field, with their places. -/
def statementLines (t : Tree) (r : Reader) (key : String) (frame : Frame) (close : Close) :
    Except Fault Layout := do
  let parts ← (r.each .stmt key).mapM id
  return .lines frame (((t.children key).map Tree.range?).zip parts) close

/-- The statements of a node in braces. -/
def block (t : Tree) (r : Reader) : Except Fault Layout :=
  statementLines t r "body" .braced (closeOf t)

/-- Parameters in parentheses. -/
def parameters (r : Reader) : Except Fault Layout :=
  Layout.parenthesized <$> r.join (.expr Precedence.assignment) "params" ", "

/-- `(a, b) { … }`. -/
def functionTail (r : Reader) : Except Fault Layout := do
  let params ← parameters r
  let body ← r.field .block "body"
  return .cat [params, .text " ", body]

/-- `function f(a, b) { … }`. -/
def function (t : Tree) (r : Reader) : Except Fault Layout := do
  let word := if (t.get "async").isSet then "async function" else "function"
  let star := if (t.get "generator").isSet then "*" else ""
  let name ← if (t.get "id").isSet then textOf (t.get "id") "name" else pure ""
  return .cat [.text (word ++ star ++ " " ++ name), ← functionTail r]

/-- The words in front of the name of a method. -/
def methodWords (function : Tree) : String :=
  (if (function.get "async").isSet then "async " else "") ++
    (if (function.get "generator").isSet then "*" else "")

/-- A method: words, key and the function behind them. -/
def method (words : String) (key : Layout) (t : Tree) (r : Reader) : Except Fault Layout := do
  if !(t.get "value").isSet then throw (.missingField "body")
  let tail ← r.field .functionTail "value"
  return .cat [.text (words ++ methodWords (t.get "value")), key, tail]

/-- The key of a property. -/
def propertyKey (t : Tree) (r : Reader) : Except Fault Layout := do
  if (t.get "computed").isSet then
    let key ← r.field (.expr Precedence.assignment) "key"
    return .cat [.text "[", key, .text "]"]
  else r.field (.expr Precedence.sequence) "key"

/-- `class A extends B { … }`. -/
def classLayout (t : Tree) (r : Reader) : Except Fault Layout := do
  let name ← if (t.get "id").isSet then (" " ++ ·) <$> textOf (t.get "id") "name" else pure ""
  let heritage ← match ← r.field? t (.expr Precedence.call) "superClass" with
    | some s => pure [Layout.text " extends ", s]
    | none => pure []
  let body ← if (t.get "body").isSet then r.field .block "body"
    else pure (.lines .braced [] .nothing)
  return .cat ([.text ("class" ++ name)] ++ heritage ++ [.text " ", body])

/-! ## Expressions -/

/-- The segments of a template with its expressions between them. -/
def templateParts : List Tree → List (Except Fault Layout) → Except Fault (List Layout)
  | [], _ => pure []
  | quasi :: quasis, [] => do
      let raw ← textOf (← quasi.need "value") "raw"
      let rest ← templateParts quasis []
      return .text raw :: rest
  | quasi :: quasis, e :: es => do
      let raw ← textOf (← quasi.need "value") "raw"
      let e ← e
      let rest ← templateParts quasis es
      return .text raw :: .text "$\x7b" :: e :: .text "\x7d" :: rest

/-- A template. -/
def template (t : Tree) (r : Reader) : Except Fault Layout := do
  let parts ← templateParts (t.children "quasis") (r.each (.expr Precedence.sequence) "expressions")
  return .cat ([.text "`"] ++ parts ++ [.text "`"])

/-- An array or an array pattern; a missing last element needs a comma of its own. -/
def array (t : Tree) (r : Reader) : Except Fault Layout := do
  let elements ← r.join .element "elements" ", "
  let endsInHole := ((t.children "elements").getLast?).any Tree.isNull
  return .cat [.text "[", elements, .text (if endsInHole then ",]" else "]")]

/-- An object, one property a line. -/
def object (t : Tree) (r : Reader) : Except Fault Layout := do
  if (t.children "properties").isEmpty then return .text "\x7b\x7d"
  let properties ← (r.each .property "properties").mapM id
  let separator := Layout.cat [.text ",", .newline]
  return .cat [.text "\x7b", .nest (.cat (.newline :: Layout.between separator properties)),
    .newline, .text "\x7d"]

/-- An object pattern, on one line. -/
def objectPattern (t : Tree) (r : Reader) : Except Fault Layout := do
  if (t.children "properties").isEmpty then return .text "\x7b\x7d"
  let properties ← r.join .property "properties" ", "
  return .cat [.text "\x7b ", properties, .text " \x7d"]

/-- `params => body`. -/
def arrow (t : Tree) (r : Reader) : Except Fault Layout := do
  let params ← match t.children "params" with
    | [p] => if p.isType "Identifier" then Layout.text <$> textOf p "name" else parameters r
    | _ => parameters r
  let body ← t.need "body"
  let body ← if body.isType "BlockStatement" then r.field .block "body"
    else do
      let e ← r.field (.expr Precedence.assignment) "body"
      pure (.wrapIf (.startsWith "\x7b") "(" ")" e)
  return .cat [.text (if (t.get "async").isSet then "async " else ""), params, .text " => ", body]

/-- A binary or logical expression. Only `**` groups to the right, and it takes no unary operand on
its left. -/
def binary (t : Tree) (r : Reader) : Except Fault Layout := do
  let p ← operatorPrecedence t
  let operator ← textOf t "operator"
  let isPower := operator = "**"
  let left ← r.field (.expr (if isPower then p + 1 else p)) "left"
  let right ← r.field (.expr (if isPower then p else p + 1)) "right"
  let isUnary := (t.get "left").isTypeIn ["UnaryExpression", "AwaitExpression"]
  let left := if isPower && isUnary then Layout.wrapIf .bare "(" ")" left else left
  return .cat [left, .text (" " ++ operator ++ " "), right]

/-- A unary expression; a sign before the same sign needs a blank. -/
def unary (t : Tree) (r : Reader) : Except Fault Layout := do
  let operator ← textOf t "operator"
  let argument ← r.field (.expr Precedence.unary) "argument"
  if ["typeof", "void", "delete"].contains operator then
    return .cat [.text (operator ++ " "), argument]
  else if operator = "+" || operator = "-" then
    return .cat [.text operator, .wrapIf (.startsWith operator) " " "" argument]
  else
    return .cat [.text operator, argument]

/-- `object.name` or `object[index]`. -/
def member (t : Tree) (r : Reader) : Except Fault Layout := do
  let object ← r.field (.expr Precedence.call) "object"
  if (t.get "computed").isSet then
    let index ← r.field (.expr Precedence.sequence) "property"
    return .cat [object, .text "[", index, .text "]"]
  else
    let name ← nameIn t "property"
    return .cat [.wrapIf .digits "(" ")" object, .text ("." ++ name)]

/-- Arguments in parentheses. -/
def arguments (r : Reader) : Except Fault Layout :=
  Layout.parenthesized <$> r.join (.expr Precedence.assignment) "arguments" ", "

def callLayout (t : Tree) (r : Reader) : Except Fault Layout := do
  let callee ← r.field (.expr Precedence.call) "callee"
  let callee :=
    if (t.get "callee").isTypeIn ["FunctionExpression", "ClassExpression"] then
      Layout.parenthesized callee
    else callee
  return .cat [callee, ← arguments r]

mutual

/-- Is a call at the root of a chain of members? -/
def rootIsCall : Tree → Bool
  | .obj m fs =>
    let t := Tree.obj m fs
    if t.isType "MemberExpression" then rootIsCallField "object" fs
    else t.isType "CallExpression"
  | _ => false

def rootIsCallField (key : String) : List (String × Tree) → Bool
  | [] => false
  | (k, v) :: rest => if k = key then rootIsCall v else rootIsCallField key rest

end

/-- `new callee(…)`; a call in the callee would take the arguments for its own. -/
def newLayout (t : Tree) (r : Reader) : Except Fault Layout := do
  let callee ← r.field (.expr Precedence.new) "callee"
  let callee := if rootIsCall (t.get "callee") then Layout.wrapIf .bare "(" ")" callee else callee
  return .cat [.text "new ", callee, ← arguments r]

/-! ### JSX -/

/-- An element with its children; the closing tag repeats the name if it is not given. -/
def element (t : Tree) (r : Reader) : Except Fault Layout := do
  let opening ← r.field (.expr Precedence.sequence) "openingElement"
  if ((t.get "openingElement").get "selfClosing").isSet then return opening
  let children ← r.join (.expr Precedence.sequence) "children" ""
  let closing ← if (t.get "closingElement").isSet then
      r.field (.expr Precedence.sequence) "closingElement"
    else r.field .tagEnd "openingElement"
  return .cat [opening, children, closing]

def openingTag (t : Tree) (r : Reader) : Except Fault Layout := do
  let name ← r.field (.expr Precedence.sequence) "name"
  let attributes ← (r.each (.expr Precedence.sequence) "attributes").mapM id
  let stop := if (t.get "selfClosing").isSet then " />" else ">"
  return .cat ([.text "<"] ++ Layout.between (.text " ") (name :: attributes) ++ [.text stop])

def closingTag (r : Reader) : Except Fault Layout := do
  return .cat [.text "</", ← r.field (.expr Precedence.sequence) "name", .text ">"]

def tagAttribute (t : Tree) (r : Reader) : Except Fault Layout := do
  let name ← r.field (.expr Precedence.sequence) "name"
  match ← r.field? t (.expr Precedence.sequence) "value" with
  | some value => return .cat [name, .text "=", value]
  | none => return name

/-- Two parts with a sign between them. -/
def pair (r : Reader) (first sign second : String) : Except Fault Layout := do
  let a ← r.field (.expr Precedence.sequence) first
  let b ← r.field (.expr Precedence.sequence) second
  return .cat [a, .text sign, b]

/-- An expression, without parentheses around it. -/
def expression (t : Tree) (r : Reader) : Except Fault Layout :=
  match t.type? with
  | some "Identifier" | some "JSXIdentifier" => Layout.text <$> textOf t "name"
  | some "ThisExpression" => pure (.text "this")
  | some "Super" => pure (.text "super")
  | some "MetaProperty" => do
      let first ← nameIn t "meta"
      return .text (first ++ "." ++ (← nameIn t "property"))
  | some "Literal" => pure (.text (literalText t))
  | some "TemplateLiteral" => template t r
  | some "TaggedTemplateExpression" => do
      let tag ← r.field (.expr Precedence.call) "tag"
      return .cat [tag, ← r.field .template "quasi"]
  | some "ArrayExpression" | some "ArrayPattern" => array t r
  | some "ObjectExpression" => object t r
  | some "ObjectPattern" => objectPattern t r
  | some "AssignmentPattern" => do
      let left ← r.field (.expr Precedence.sequence) "left"
      return .cat [left, .text " = ", ← r.field (.expr Precedence.assignment) "right"]
  | some "RestElement" | some "SpreadElement" => do
      return .cat [.text "...", ← r.field (.expr Precedence.assignment) "argument"]
  | some "FunctionExpression" => function t r
  | some "ArrowFunctionExpression" => arrow t r
  | some "ClassExpression" => classLayout t r
  | some "SequenceExpression" => r.join (.expr Precedence.assignment) "expressions" ", "
  | some "AssignmentExpression" => do
      let left ← r.field (.expr Precedence.call) "left"
      let right ← r.field (.expr Precedence.assignment) "right"
      return .cat [left, .text (" " ++ (← textOf t "operator") ++ " "), right]
  | some "ConditionalExpression" => do
      let test ← r.field (.expr Precedence.logicalOr) "test"
      let consequent ← r.field (.expr Precedence.assignment) "consequent"
      let alternate ← r.field (.expr Precedence.assignment) "alternate"
      return .cat [test, .text " ? ", consequent, .text " : ", alternate]
  | some "BinaryExpression" | some "LogicalExpression" => binary t r
  | some "UnaryExpression" => unary t r
  | some "UpdateExpression" => do
      let operator ← textOf t "operator"
      if (t.get "prefix").isSet then
        return .cat [.text operator, ← r.field (.expr Precedence.unary) "argument"]
      else
        return .cat [← r.field (.expr Precedence.update) "argument", .text operator]
  | some "AwaitExpression" => do
      return .cat [.text "await ", ← r.field (.expr Precedence.unary) "argument"]
  | some "YieldExpression" => do
      let word := if (t.get "delegate").isSet then "yield*" else "yield"
      match ← r.field? t (.expr Precedence.assignment) "argument" with
      | some argument => return .cat [.text (word ++ " "), argument]
      | none => return .text word
  | some "MemberExpression" => member t r
  | some "CallExpression" => callLayout t r
  | some "NewExpression" => newLayout t r
  | some "JSXElement" => element t r
  | some "JSXOpeningElement" => openingTag t r
  | some "JSXClosingElement" => closingTag r
  | some "JSXAttribute" => tagAttribute t r
  | some "JSXSpreadAttribute" => do
      return .cat
        [.text "\x7b...", ← r.field (.expr Precedence.assignment) "argument", .text "\x7d"]
  | some "JSXExpressionContainer" => do
      return .cat [.text "\x7b", ← r.field (.expr Precedence.sequence) "expression", .text "\x7d"]
  | some "JSXEmptyExpression" => pure (.text "")
  | some "JSXText" =>
    pure (.text (if (t.get "raw").isNull then ((t.get? "value").map Tree.plain).getD ""
      else (t.get "raw").plain))
  | some "JSXNamespacedName" => pair r "namespace" ":" "name"
  | some "JSXMemberExpression" => pair r "object" "." "property"
  | _ => throw (.unprintableExpression (t.get "type").shown)

/-- An expression in a place that asks for a precedence. -/
def expressionIn (p : Precedence) (t : Tree) (r : Reader) : Except Fault Layout := do
  let l ← expression t r
  let own ← precedenceOf t
  return if own < p then Layout.parenthesized l else l

/-! ## Properties -/

/-- A property of an object or an object pattern. -/
def property (t : Tree) (r : Reader) : Except Fault Layout := do
  if !t.isType "Property" then expressionIn Precedence.assignment t r
  else
    let key ← propertyKey t r
    let value := t.get "value"
    let kind := match t.get? "kind" with
      | some k => k
      | none => .str "init"
    if kind.isStr "get" || kind.isStr "set" then
      method (kind.plain ++ " ") key t r
    else if (t.get "method").isSet then method "" key t r
    else
      let isShorthand := (t.get "shorthand").isSet && !(t.get "computed").isSet
      let name := (t.get "key").name?
      if isShorthand && value.isType "Identifier" && value.name? == name then
        return .cat [.silent key, .text (name.getD "")]
      else if isShorthand && value.isType "AssignmentPattern" &&
          (value.get "left").name? == name then
        return .cat [.silent key, ← r.field (.expr Precedence.sequence) "value"]
      else if !value.isSet then throw (.unprintableExpression "None")
      else return .cat [key, .text ": ", ← r.field (.expr Precedence.assignment) "value"]

/-! ## Statements -/

/-- An expression as a statement: what would be read as something else goes in parentheses. -/
def expressionStatement (t : Tree) (r : Reader) : Except Fault Layout := do
  let l ← r.field (.expr Precedence.sequence) "expression"
  let e := t.get "expression"
  let isString := e.isType "Literal" && (e.get "value").str?.isSome
  if isString && !t.has "directive" then return .cat [.parenthesized l, .text ";"]
  else return .cat [.wrapIf .ambiguousStart "(" ")" l, .text ";"]

/-- `let a = 1, b`. -/
def declaration (t : Tree) (r : Reader) : Except Fault Layout := do
  let declarators ← r.join .declarator "declarations" ", "
  return .cat [.text ((← textOf t "kind") ++ " "), declarators]

def declarator (t : Tree) (r : Reader) : Except Fault Layout := do
  let id ← r.field (.expr Precedence.sequence) "id"
  match ← r.field? t (.expr Precedence.assignment) "init" with
  | some init => return .cat [id, .text " = ", init]
  | none => return id

/-- `break;` or `break label;`. -/
def jump (word : String) (t : Tree) : Except Fault Layout := do
  if (t.get "label").isSet then
    return .text (word ++ " " ++ (← textOf (t.get "label") "name") ++ ";")
  else return .text (word ++ ";")

/-- `if … else …`; an `if` before an `else` goes in a block, so that the `else` stays with this one. -/
def ifLayout (t : Tree) (r : Reader) : Except Fault Layout := do
  let consequent ← t.need "consequent"
  let alternate := t.get "alternate"
  let shields := !alternate.isNull && consequent.isType "IfStatement"
  let test ← r.field (.expr Precedence.sequence) "test"
  let body ← r.field (if shields then .ownBlock else .body) "consequent"
  let start := [Layout.text "if (", test, .text ")", body]
  if alternate.isNull then return .cat start
  let word := if shields || consequent.isType "BlockStatement" then [Layout.text " else"]
    else [.newline, .text "else"]
  if alternate.isType "IfStatement" then
    return .cat (start ++ word ++ [.text " ", ← r.field .stmt "alternate"])
  else return .cat (start ++ word ++ [← r.field .body "alternate"])

/-- `for (init; test; update) …`. -/
def forLayout (t : Tree) (r : Reader) : Except Fault Layout := do
  let init ← r.field? t (.loopHead Precedence.sequence) "init"
  let test ← r.field? t (.expr Precedence.sequence) "test"
  let update ← r.field? t (.expr Precedence.sequence) "update"
  let spaced (l : Option Layout) : List Layout := match l with
    | some l => [.text " ", l]
    | none => []
  return .cat ([.text "for ("] ++ init.toList ++ [.text ";"] ++ spaced test ++ [.text ";"] ++
    spaced update ++ [.text ")", ← r.field .body "body"])

/-- `for (left in right) …`. -/
def forEach (word : String) (p : Precedence) (r : Reader) : Except Fault Layout := do
  let left ← r.field (.loopHead Precedence.call) "left"
  let right ← r.field (.expr p) "right"
  return .cat [.text "for (", left, .text (" " ++ word ++ " "), right, .text ")",
    ← r.field .body "body"]

/-- `do … while (…);`; the condition is set before the body. -/
def doWhile (t : Tree) (r : Reader) : Except Fault Layout := do
  let body ← t.need "body"
  let test ← r.field (.expr Precedence.sequence) "test"
  let condition := Layout.cat [.text "while (", test, .text ");"]
  if body.isType "BlockStatement" then
    return .behind (.cat [.text "do ", ← r.field .block "body", .text " "]) condition
  else
    return .behind (.cat [.text "do", ← r.field .body "body", .newline]) condition

/-- `switch (…) { … }`; the cases are set before the value. -/
def switchLayout (t : Tree) (r : Reader) : Except Fault Layout := do
  let cases ← statementLines t r "cases" .braced (closeOf t)
  let value ← r.field (.expr Precedence.sequence) "discriminant"
  return .behind (.cat [.text "switch (", value, .text ") "]) cases

/-- `case …:` and its statements. -/
def switchCase (t : Tree) (r : Reader) : Except Fault Layout := do
  let label ← match ← r.field? t (.expr Precedence.sequence) "test" with
    | some test => pure (Layout.cat [.text "case ", test, .text ":"])
    | none => pure (.text "default:")
  return .cat [label, ← statementLines t r "consequent" .below .nothing]

/-- `catch (…) { … }`. -/
def catchClause (t : Tree) (r : Reader) : Except Fault Layout := do
  let param ← match ← r.field? t (.expr Precedence.sequence) "param" with
    | some p => pure [Layout.text " (", p, .text ")"]
    | none => pure []
  return .cat ([.text " catch"] ++ param ++ [.text " ", ← r.field .block "body"])

def tryLayout (t : Tree) (r : Reader) : Except Fault Layout := do
  let block ← r.field .block "block"
  let handler ← if (t.get "handler").isSet then r.field .handler "handler" else pure (.text "")
  let finalizer ← if (t.get "finalizer").isSet then do
      pure [Layout.text " finally ", ← r.field .block "finalizer"]
    else pure []
  return .cat ([.text "try ", block, handler] ++ finalizer)

/-! ### Modules -/

/-- `a`, or `a as b`. -/
def specifier (first second : Tree) : Except Fault String := do
  let a ← textOf first "name"
  let b ← textOf second "name"
  return if a = b then a else a ++ " as " ++ b

/-- One name of an import: alone, or to be listed in braces. -/
def importSpecifier (t : Tree) : Except Fault (String ⊕ String) := do
  let bound ← nameIn t "local"
  match t.type? with
  | some "ImportDefaultSpecifier" => return .inl bound
  | some "ImportNamespaceSpecifier" => return .inl ("* as " ++ bound)
  | _ => return .inr (← specifier (← t.need "imported") (← t.need "local"))

def importLayout (t : Tree) (r : Reader) : Except Fault Layout := do
  let source ← r.field (.expr Precedence.sequence) "source"
  let specifiers ← (t.children "specifiers").mapM importSpecifier
  if specifiers.isEmpty then return .cat [.text "import ", source, .text ";"]
  let alone := specifiers.filterMap fun | .inl s => some s | .inr _ => none
  let listed := specifiers.filterMap fun | .inr s => some s | .inl _ => none
  let braces := if listed.isEmpty then []
    else ["\x7b " ++ Text.joinWith ", " listed ++ " \x7d"]
  return .cat [.text ("import " ++ Text.joinWith ", " (alone ++ braces) ++ " from "), source,
    .text ";"]

def exportNamed (t : Tree) (r : Reader) : Except Fault Layout := do
  if (t.get "declaration").isSet then
    return .cat [.text "export ", ← r.field .stmt "declaration"]
  let specifiers ← (t.children "specifiers").mapM fun s => do
    specifier (← s.need "local") (← s.need "exported")
  let list := if specifiers.isEmpty then "export \x7b\x7d"
    else "export \x7b " ++ Text.joinWith ", " specifiers ++ " \x7d"
  let source ← if (t.get "source").isSet then do
      pure [Layout.text " from ", ← r.field (.expr Precedence.sequence) "source"]
    else pure []
  return .cat ([.text list] ++ source ++ [.text ";"])

def exportDefault (t : Tree) (r : Reader) : Except Fault Layout := do
  let declaration ← t.need "declaration"
  if declaration.isTypeIn ["FunctionDeclaration", "ClassDeclaration"] then
    return .cat [.text "export default ", ← r.field .stmt "declaration"]
  else
    return .cat
      [.text "export default ", ← r.field (.expr Precedence.assignment) "declaration", .text ";"]

/-- `static get key() { … }`. -/
def methodDefinition (t : Tree) (r : Reader) : Except Fault Layout := do
  let isStatic := if (t.get "static").isSet then "static " else ""
  let kind := t.get "kind"
  let word := if kind.isStr "get" || kind.isStr "set" then kind.plain ++ " " else ""
  let key ← propertyKey t r
  let _ ← t.need "value"
  method (isStatic ++ word) key t r

/-- The types of nodes that are statements. -/
def statementTypes : List String :=
  ["ExpressionStatement", "BlockStatement", "EmptyStatement", "DebuggerStatement",
   "VariableDeclaration", "FunctionDeclaration", "ClassDeclaration", "ReturnStatement",
   "ThrowStatement", "BreakStatement", "ContinueStatement", "LabeledStatement", "IfStatement",
   "ForStatement", "ForInStatement", "ForOfStatement", "WhileStatement", "DoWhileStatement",
   "WithStatement", "SwitchStatement", "SwitchCase", "TryStatement", "ImportDeclaration",
   "ExportNamedDeclaration", "ExportDefaultDeclaration", "ExportAllDeclaration",
   "MethodDefinition"]

/-- A word, an expression in parentheses, and a body. -/
def headed (word key : String) (r : Reader) : Except Fault Layout := do
  let e ← r.field (.expr Precedence.sequence) key
  return .cat [.text (word ++ " ("), e, .text ")", ← r.field .body "body"]

/-- A statement. -/
def statement (t : Tree) (r : Reader) : Except Fault Layout :=
  match t.type? with
  | some "ExpressionStatement" => expressionStatement t r
  | some "BlockStatement" => block t r
  | some "EmptyStatement" => pure (.text ";")
  | some "DebuggerStatement" => pure (.text "debugger;")
  | some "VariableDeclaration" => do return .cat [← declaration t r, .text ";"]
  | some "FunctionDeclaration" => function t r
  | some "ClassDeclaration" => classLayout t r
  | some "ReturnStatement" => do
      match ← r.field? t (.expr Precedence.sequence) "argument" with
      | some e => return .cat [.text "return ", e, .text ";"]
      | none => return .text "return;"
  | some "ThrowStatement" => do
      return .cat [.text "throw ", ← r.field (.expr Precedence.sequence) "argument", .text ";"]
  | some "BreakStatement" => jump "break" t
  | some "ContinueStatement" => jump "continue" t
  | some "LabeledStatement" => do
      let label ← nameIn t "label"
      return .cat [.text (label ++ ": "), ← r.field .stmt "body"]
  | some "IfStatement" => ifLayout t r
  | some "ForStatement" => forLayout t r
  | some "ForInStatement" => forEach "in" Precedence.sequence r
  | some "ForOfStatement" => forEach "of" Precedence.assignment r
  | some "WhileStatement" => headed "while" "test" r
  | some "DoWhileStatement" => doWhile t r
  | some "WithStatement" => headed "with" "object" r
  | some "SwitchStatement" => switchLayout t r
  | some "SwitchCase" => switchCase t r
  | some "TryStatement" => tryLayout t r
  | some "ImportDeclaration" => importLayout t r
  | some "ExportNamedDeclaration" => exportNamed t r
  | some "ExportDefaultDeclaration" => exportDefault t r
  | some "ExportAllDeclaration" => do
      return .cat
        [.text "export * from ", ← r.field (.expr Precedence.sequence) "source", .text ";"]
  | some "MethodDefinition" => methodDefinition t r
  | _ => throw (.unprintableStatement (t.get "type").shown)

/-- A statement as the body of a loop or an `if`: a block stays on the line. -/
def bodyOf (t : Tree) (r : Reader) : Except Fault Layout := do
  if t.isType "BlockStatement" then return .cat [.text " ", ← block t r]
  else if t.isType "EmptyStatement" then return .text ";"
  else return .nest (.cat [.newline, ← statement t r])

/-! ## Whole trees -/

/-- A node in a role. -/
def layoutNode (role : Role) (t : Tree) (r : Reader) : Except Fault Layout :=
  match role with
  | .expr p => expressionIn p t r
  | .element => expressionIn Precedence.assignment t r
  | .stmt => statement t r
  | .body => bodyOf t r
  | .ownBlock => do
      return .cat [.text " ", .lines .braced [(t.range?, ← statement t r)] .nothing]
  | .block => block t r
  | .declaration => declaration t r
  | .declarator => declarator t r
  | .loopHead p =>
    if t.isType "VariableDeclaration" then declaration t r else expressionIn p t r
  | .functionTail => functionTail r
  | .template => template t r
  | .property => property t r
  | .handler => catchClause t r
  | .tagEnd => closingTag r

mutual

/-- The layout of a tree in a role. -/
def layout (role : Role) : Tree → Except Fault Layout
  | .obj m fs =>
    layoutNode role (.obj m fs)
      { field := fun r key => layoutField r key fs
        each := fun r key => layoutEach r key fs }
  | .null =>
    match role with
    | .element => pure (.text "")
    | _ => throw (.unprintableExpression "None")
  | _ => throw (.unprintableExpression "None")

def layoutField (role : Role) (key : String) : List (String × Tree) → Except Fault Layout
  | [] => throw (.missingField key)
  | (k, v) :: rest => if k = key then layout role v else layoutField role key rest

def layoutEach (role : Role) (key : String) :
    List (String × Tree) → List (Except Fault Layout)
  | [] => []
  | (k, v) :: rest => if k = key then layoutEachOf role v else layoutEach role key rest

def layoutEachOf (role : Role) : Tree → List (Except Fault Layout)
  | .list xs => layoutItems role xs
  | _ => []

def layoutItems (role : Role) : List Tree → List (Except Fault Layout)
  | [] => []
  | t :: rest => layout role t :: layoutItems role rest

end

/-- The layout of a whole tree: a program, a statement or an expression. -/
def programLayout (t : Tree) : Except Fault Layout := do
  if t.isType "Program" then
    let parts ← (layoutItems .stmt (t.children "body")).mapM id
    return .lines .plain (((t.children "body").map Tree.range?).zip parts) .rest
  else if t.isTypeIn statementTypes then layout .stmt t
  else layout (.expr Precedence.sequence) t

/-- The text of a tree, with the comments of the queue. -/
def generate (t : Tree) (queue : CommentQueue) (unit : String) : Except Fault String := do
  let l ← programLayout t
  return ((render unit 0 l).run queue).1

end Downlevel.Emit
