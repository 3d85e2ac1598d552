import Downlevel.Scope.Outline
import Downlevel.Tree.Mark

/-!
# `Scope.Analysis`: scopes, bindings and references

The analysis numbers the scopes of an outline in the order in which they open and lists, in the order
of the outline, what is bound, what is referred to, and what makes names unpredictable. References are
resolved once everything is known, so hoisted declarations are found: a name means the last binding of
that name in the nearest scope around it that has one.
-/

namespace Downlevel.Scope

open Tree

/-- A scope. `ancestors` are the numbers of the scopes around it, itself first. -/
structure ScopeInfo where
  id : Nat
  type : ScopeType
  node : Tree
  ancestors : List Nat
  /-- The nearest scope that `var` declarations are hoisted to. -/
  function : Nat

namespace ScopeInfo

/-- Is it a scope that `var` declarations are hoisted to? -/
def isFunction (s : ScopeInfo) : Bool := s.type.isFunction

/-- The scope around this one. -/
def parent? (s : ScopeInfo) : Option Nat := (s.ancestors.drop 1).head?

/-- Is it the other scope, or inside it? -/
def isWithin (s other : ScopeInfo) : Bool := s.ancestors.contains other.id

/-- The name of a scope in reports. -/
def label (s : ScopeInfo) : String := "S" ++ toString s.id

end ScopeInfo

/-- An identifier bound in a scope. -/
structure Binding where
  identifier : Tree
  kind : BindingKind
  declaration : Tree
  scope : Nat

def Binding.name (b : Binding) : Option String := b.identifier.name?

/-- An identifier read or written in a scope. -/
structure Reference where
  identifier : Tree
  scope : Nat
  write : Bool

def Reference.name (r : Reference) : Option String := r.identifier.name?

/-- A construct that makes names unpredictable in a function. -/
structure Issue where
  code : IssueCode
  node : Tree
  function : Nat

/-! ## Events -/

/-- What happens in a program, in order. -/
inductive Event where
  | opened (s : ScopeInfo)
  | bound (b : Binding)
  | referred (r : Reference)
  | noted (i : Issue)

/-- A scope inside a chain of scopes, innermost first. -/
def openScope (chain : List ScopeInfo) (id : Nat) (type : ScopeType) (node : Tree) : ScopeInfo where
  id := id
  type := type
  node := node
  ancestors := id :: chain.map (·.id)
  function :=
    if type.isFunction then id
    else match chain with
      | outer :: _ => outer.function
      | [] => id

/-- The scope that a declaration is made in. -/
def targetScope (chain : List ScopeInfo) (hoisted : Bool) : Nat :=
  match chain with
  | s :: _ => if hoisted then s.function else s.id
  | [] => 0

mutual

/-- The events of an item in a chain of scopes, and the next free scope number. -/
def eventsOf (chain : List ScopeInfo) (next : Nat) : Item → List Event × Nat
  | .declare identifier kind hoisted declaration =>
    ([.bound ⟨identifier, kind, declaration, targetScope chain hoisted⟩], next)
  | .refer identifier write => ([.referred ⟨identifier, targetScope chain false, write⟩], next)
  | .issue code node => ([.noted ⟨code, node, targetScope chain true⟩], next)
  | .scope type node items =>
    let s := openScope chain next type node
    let (es, next) := events (s :: chain) (next + 1) items
    (.opened s :: es, next)
  | .outside items => events (chain.drop 1) next items

def events (chain : List ScopeInfo) (next : Nat) : List Item → List Event × Nat
  | [] => ([], next)
  | item :: rest =>
    let (es, next) := eventsOf chain next item
    let (more, next) := events chain next rest
    (es ++ more, next)

end

/-! ## The analysis -/

/-- All scopes, bindings, references and issues of a program, each in order. -/
structure Analysis where
  scopes : List ScopeInfo
  bindings : List Binding
  references : List Reference
  issues : List Issue

namespace Analysis

def ofEvents (es : List Event) : Analysis where
  scopes := es.filterMap fun | .opened s => some s | _ => none
  bindings := es.filterMap fun | .bound b => some b | _ => none
  references := es.filterMap fun | .referred r => some r | _ => none
  issues := es.filterMap fun | .noted i => some i | _ => none

/-- The scope with a number. -/
def scope? (a : Analysis) (id : Nat) : Option ScopeInfo := a.scopes.find? (·.id == id)

/-- The bindings of a scope, each with its place in the list of all bindings. -/
def indexedBindings (a : Analysis) (scope : Nat) : List (Nat × Binding) :=
  (a.bindings.zipIdx.map fun p => (p.2, p.1)).filter (·.2.scope == scope)

/-- The last binding of a name in a scope. -/
def lastBinding? (a : Analysis) (name : Option String) (scope : Nat) : Option Nat :=
  (((a.indexedBindings scope).filter (·.2.name == name)).getLast?).map (·.1)

/-- The binding that a name means in a scope: the last one in the nearest scope that has any. -/
def lookup (a : Analysis) (s : ScopeInfo) (name : Option String) : Option Nat :=
  s.ancestors.findSome? (a.lastBinding? name)

/-- The binding that a reference means. -/
def resolve (a : Analysis) (r : Reference) : Option Nat :=
  (a.scope? r.scope).bind fun s => a.lookup s r.name

/-- The binding of every reference, in order. -/
def resolutions (a : Analysis) : List (Option Nat) := a.references.map a.resolve

/-- The references, by place in the list of all references, that mean a binding. -/
def referencesTo (resolved : List (Option Nat)) (binding : Nat) : List Nat :=
  (resolved.zipIdx.filter (·.1 == some binding)).map (·.2)

/-- The references in a scope, by place in the list of all references. -/
def referencesIn (a : Analysis) (scope : Nat) : List Nat :=
  (a.references.zipIdx.filter (·.1.scope == scope)).map (·.2)

/-- The scopes right inside a scope. -/
def childrenOf (a : Analysis) (id : Nat) : List ScopeInfo :=
  a.scopes.filter (·.parent? == some id)

/-- The scopes below the given ones, depth first; `fuel` counts them. -/
def flattenFrom (a : Analysis) : Nat → List ScopeInfo → List ScopeInfo
  | 0, _ => []
  | _ + 1, [] => []
  | fuel + 1, s :: rest => s :: flattenFrom a fuel (a.childrenOf s.id ++ rest)

/-- All scopes, depth first. -/
def flatten (a : Analysis) : List ScopeInfo :=
  a.flattenFrom a.scopes.length (a.scopes.filter (·.parent?.isNone))

/-- The bindings of a scope, those of one name together, by first occurrence of the names. -/
def bindingsOf (a : Analysis) (scope : Nat) : List (Nat × Binding) :=
  let own := a.indexedBindings scope
  (own.map (·.2.name)).eraseDups.flatMap fun name => own.filter (·.2.name == name)

/-- The issues of a function. -/
def issuesIn (a : Analysis) (id : Nat) : List Issue := a.issues.filter (·.function == id)

/-- The scope that a node opened. -/
def scopeFor (a : Analysis) (node : Tree) : Option ScopeInfo :=
  match node.mark? with
  | none => none
  | some m => (a.scopes.filter (·.node.mark? == some m)).getLast?

end Analysis

/-- The analysis of a program whose nodes are told apart by marks. -/
def analyzeMarked (t : Tree) : Analysis := .ofEvents (eventsOf [] 0 (ofProgram t)).1

/-- The analysis of a program. -/
def analyze (t : Tree) : Analysis := analyzeMarked t.identify

end Downlevel.Scope
