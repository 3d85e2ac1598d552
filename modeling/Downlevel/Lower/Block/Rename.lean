import Downlevel.Lower.Block.Plan

/-!
# `Lower.Block.Rename`: names that would collide

Once `let` and `const` become `var`, all bindings of a function share one scope. A block binding whose
name is already taken in its function, by another binding or by a reference to something outside, gets a
fresh name together with everything that refers to it. Of several block bindings with one name, the
first in the text keeps it.

Identifiers are told apart by their marks: a renaming says which mark gets which name.
-/

namespace Downlevel.Lower.Block

open Tree Scope

/-- New names of identifiers, by mark. -/
abbrev Renaming := List (Nat × String)

namespace Renaming

/-- The new name of an identifier. -/
def name? (r : Renaming) (identifier : Tree) : Option String :=
  match identifier.mark? with
  | some m => List.lookup m r
  | none => none

mutual

/-- The tree with the identifiers renamed. -/
def apply (r : Renaming) : Tree → Tree
  | .obj m fs =>
    let t := Tree.obj m (applyFields r fs)
    match r.name? t with
    | some name => t.set "name" (.str name)
    | none => t
  | .list xs => .list (applyItems r xs)
  | .null => .null
  | .bool b => .bool b
  | .int n => .int n
  | .real d => .real d
  | .str s => .str s

def applyItems (r : Renaming) : List Tree → List Tree
  | [] => []
  | t :: rest => apply r t :: applyItems r rest

def applyFields (r : Renaming) : List (String × Tree) → List (String × Tree)
  | [] => []
  | (k, v) :: rest => (k, apply r v) :: applyFields r rest

end

end Renaming

/-! ## One function -/

/-- Can a binding of a function be renamed? It has to be in a block of the function, and not kept. -/
def isMovable (kept : List Nat) (function : Nat) (b : Binding) : Bool :=
  b.kind.isBlockScoped && b.scope != function && !isKept kept b.declaration

/-- The bindings of a function and its blocks. -/
def functionBindings (a : Analysis) (function : Nat) : List (Nat × Binding) :=
  (a.flatten.filter (·.function == function)).flatMap fun s => a.bindingsOf s.id

/-- The bindings of a function that can be renamed, in the order of the text. -/
def candidates (a : Analysis) (kept : List Nat) (function : Nat) : List (Nat × Binding) :=
  ((functionBindings a function).filter fun b => isMovable kept function b.2).mergeSort
    fun x y => decide ((x.2.identifier.start?).getD 0 ≤ (y.2.identifier.start?).getD 0)

/-- The name of a reference after the renamings so far. -/
def currentName (r : Renaming) (reference : Reference) : Option String :=
  match r.name? reference.identifier with
  | some name => some name
  | none => reference.name

/-- The name that a reference takes from a function: it stands inside, and means nothing known, or
something of the function or around it that keeps its name. -/
def takenBy (a : Analysis) (s : ScopeInfo) (candidates : List Nat) (r : Renaming)
    (reference : Reference × Option Nat) : Option (Option String) :=
  match a.scope? reference.1.scope with
  | none => none
  | some inner =>
    if !inner.isWithin s then none
    else match reference.2 with
      | none => some (currentName r reference.1)
      | some i =>
        match (a.bindings[i]?).bind fun b => a.scope? b.scope with
        | none => none
        | some home =>
          if s.ancestors.contains home.function && !candidates.contains i then
            some (currentName r reference.1)
          else none

/-- The names that the candidates of a function must not take. -/
def takenNames (a : Analysis) (resolved : List (Option Nat)) (kept : List Nat) (s : ScopeInfo)
    (candidates : List Nat) (r : Renaming) : List (Option String) :=
  ((functionBindings a s.id).filter fun b => !isMovable kept s.id b.2).map (·.2.name) ++
    (a.references.zip resolved).filterMap (takenBy a s candidates r)

/-- The marks of a binding's identifier and of all references to it. -/
def identifierMarks (a : Analysis) (resolved : List (Option Nat)) (b : Nat × Binding) : List Nat :=
  marksOf (b.2.identifier ::
    ((a.references.zip resolved).filter (·.2 == some b.1)).map (·.1.identifier))

/-- What renaming carries along. -/
structure Renamer where
  names : NameSupply
  changes : Renaming := []

/-- Gives the candidates names, in order; each name given is taken for those after it. -/
def assignNames (a : Analysis) (resolved : List (Option Nat)) :
    List (Nat × Binding) → List (Option String) → Renamer → Renamer
  | [], _, w => w
  | b :: rest, taken, w =>
    if !taken.contains b.2.name then assignNames a resolved rest (b.2.name :: taken) w
    else
      let (name, names) := w.names.fresh (b.2.name.getD "")
      let new := (identifierMarks a resolved b).map fun m => (m, name)
      assignNames a resolved rest (some name :: taken)
        { names := names, changes := w.changes ++ new }

/-- Renames what collides in one function. -/
def renameFunction (a : Analysis) (resolved : List (Option Nat)) (kept : List Nat) (w : Renamer)
    (s : ScopeInfo) : Renamer :=
  let movable := candidates a kept s.id
  let taken := takenNames a resolved kept s (movable.map (·.1)) w.changes
  assignNames a resolved movable taken w

/-- Renames what collides in every function whose names are predictable. -/
def renameAll (a : Analysis) (kept : List Nat) (names : NameSupply) : Renamer :=
  let dynamic := dynamicFunctions a
  let resolved := a.resolutions
  (a.flatten.filter fun s => s.isFunction && !dynamic.contains s.id).foldl
    (renameFunction a resolved kept) { names := names }

end Downlevel.Lower.Block
