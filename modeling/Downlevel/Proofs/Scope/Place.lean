import Downlevel.Scope.Outline
import Downlevel.Tree.Mark
import Downlevel.Tree.Query

/-!
# `Proofs.Scope.Place`: lexical scopes

Where an identifier stands says which scopes are around it, and whether it is declared there. A **place** is
the list of the nodes around a node, each with the field that leads inwards.

A scope belongs to a program, a function (with its parameters, and with its own name if it is an expression),
a block that is not the body of a function or of a catch clause, a loop, the cases of a switch, a catch
clause, and a class expression with a name. Names declared by `var` belong to the function around them, all
other names to the innermost scope around them.
-/

namespace Downlevel.Scope

open Tree

/-! ## Places -/

/-- A node, and one of its fields. -/
structure Frame where
  node : Tree
  key : String

/-- The nodes around a node, innermost first, each with the field that leads inwards. -/
abbrev Place := List Frame

mutual

/-- The objects of a tree, each with its place. -/
def occurrences (place : Place) : Tree → List (Place × Tree)
  | .obj m fs => (place, .obj m fs) :: occurrencesInFields place (.obj m fs) fs
  | .list xs => occurrencesInItems place xs
  | _ => []

def occurrencesInFields (place : Place) (node : Tree) : List (String × Tree) → List (Place × Tree)
  | [] => []
  | (k, v) :: rest =>
    (if isPlaceKey k then [] else occurrences (⟨node, k⟩ :: place) v) ++ occurrencesInFields place node rest

def occurrencesInItems (place : Place) : List Tree → List (Place × Tree)
  | [] => []
  | t :: rest => occurrences place t ++ occurrencesInItems place rest

end

theorem mem_occurrencesInFields {place : Place} {node : Tree} {o : Place × Tree}
    {fs : Fields} : o ∈ occurrencesInFields place node fs ↔
      ∃ f ∈ fs, isPlaceKey f.1 = false ∧ o ∈ occurrences (⟨node, f.1⟩ :: place) f.2 := by
  induction fs with
  | nil => simp [occurrencesInFields]
  | cons f rest ih =>
    obtain ⟨k, v⟩ := f
    rw [occurrencesInFields, List.mem_append, ih]
    cases hplace : isPlaceKey k <;> simp [hplace]

theorem mem_occurrencesInItems {place : Place} {o : Place × Tree} {xs : List Tree} :
    o ∈ occurrencesInItems place xs ↔ ∃ t ∈ xs, o ∈ occurrences place t := by
  induction xs with
  | nil => simp [occurrencesInItems]
  | cons t rest ih => simp [occurrencesInItems, ih]

/-! ## Scopes -/

/-- The nodes that open scopes, with the fields that are inside. -/
def scopeFields : List (String × List String) :=
  [("Program", ["body"]), ("FunctionDeclaration", ["params", "body"]),
   ("FunctionExpression", ["id", "params", "body"]),
   ("ArrowFunctionExpression", ["params", "body"]),
   ("BlockStatement", ["body"]),
   ("ForStatement", ["init", "test", "update", "body"]),
   ("ForInStatement", ["left", "body"]),
   ("ForOfStatement", ["left", "body"]),
   ("WhileStatement", ["test", "body"]),
   ("DoWhileStatement", ["test", "body"]),
   ("SwitchStatement", ["cases"]),
   ("CatchClause", ["param", "body"]),
   ("ClassExpression", ["id", "body"])]

/-- Is the node at a place the body of a function or of a catch clause? -/
def Place.isBody : Place → Bool
  | f :: _ => f.key == "body" && f.node.isTypeIn ("CatchClause" :: functionTypes)
  | [] => false

/-- Does a node open a scope around one of its fields? Bodies share the scope that they are in, and a class
without a name needs none. -/
def Frame.opens (f : Frame) (around : Place) : Bool :=
  ((f.node.type?.bind (List.lookup · scopeFields)).getD []).contains f.key &&
    !(f.node.isType "BlockStatement" && Place.isBody around) &&
    !(f.node.isType "ClassExpression" && !(f.node.get "id").isObject)

/-- The nodes whose scopes are around a place, innermost first. -/
def scopesAt : Place → List Tree
  | [] => []
  | f :: around => if f.opens around then f.node :: scopesAt around else scopesAt around

/-- Does the scope of a node take up the `var` declarations inside? -/
def isFunctionNode (t : Tree) : Bool := t.isTypeIn ("Program" :: functionTypes)

/-! ## Declarations -/

/-- What a field says about the names in it. -/
inductive Passage where
  /-- They are declared as the node around says, if they are. -/
  | through
  | as (kind : BindingKind)
  /-- They are declared as the keyword of the node says. -/
  | keyword
  deriving DecidableEq, Repr

/-- The fields whose names are declared; all others refer. -/
def passages : List ((String × String) × Passage) :=
  [(("VariableDeclaration", "declarations"), .keyword), (("VariableDeclarator", "id"), .through),
   (("FunctionDeclaration", "id"), .as .function),
   (("FunctionDeclaration", "params"), .as .parameter),
   (("FunctionExpression", "id"), .as .function),
   (("FunctionExpression", "params"), .as .parameter),
   (("ArrowFunctionExpression", "params"), .as .parameter),
   (("ClassDeclaration", "id"), .as .ofClass),
   (("ClassExpression", "id"), .as .ofClass),
   (("CatchClause", "param"), .as .catchParameter),
   (("ImportDeclaration", "specifiers"), .as .imported),
   (("ImportSpecifier", "local"), .through),
   (("ImportDefaultSpecifier", "local"), .through),
   (("ImportNamespaceSpecifier", "local"), .through),
   -- Patterns.
   (("ObjectPattern", "properties"), .through),
   (("Property", "value"), .through),
   (("ArrayPattern", "elements"), .through),
   (("AssignmentPattern", "left"), .through),
   (("RestElement", "argument"), .through)]

/-- What a field of a node of some type says about the names in it. -/
def passage? (type : Option String) (key : String) : Option Passage :=
  type.bind fun type => List.lookup (type, key) passages

/-- What the keyword of a declaration declares. -/
def keywordKind (t : Tree) : BindingKind :=
  if (t.get "kind").isStr "var" then .var
  else if (t.get "kind").isStr "const" then .const
  else .let

/-- What an identifier at a place is declared as, if it is declared. -/
def declaredAt : Place → Option BindingKind
  | [] => none
  | f :: around =>
    match passage? f.node.type? f.key with
    | some .through => declaredAt around
    | some (.as kind) => some kind
    | some .keyword => some (keywordKind f.node)
    | none => none

/-- The node whose scope an identifier at a place is declared in. -/
def declaringScope? (place : Place) : Option Tree :=
  (declaredAt place).bind fun kind =>
    if kind = .var then (scopesAt place).find? isFunctionNode else (scopesAt place).head?

/-- The scope of a node declares an identifier of the program. -/
def Declares (program scope identifier : Tree) : Prop :=
  identifier.isType "Identifier" = true ∧
    ∃ place, (place, identifier) ∈ occurrences [] program ∧ declaringScope? place = some scope

end Downlevel.Scope
