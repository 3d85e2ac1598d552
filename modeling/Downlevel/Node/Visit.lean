import Downlevel.Node.Build
import Downlevel.Tree.Walk

/-!
# `Node.Visit`: changing a tree node by node

A **handler** decides what becomes of a node: it stays, perhaps changed, it goes, or several nodes take
its place. It is given the node and its parts: it can visit single fields, or all fields in order, and
chooses the context in which each part is visited. Nodes that a handler returns are not visited again.

In a list an outcome of several nodes is spliced in; where only one statement can stand it becomes a
block.
-/

namespace Downlevel.Node

open Tree

/-- What takes the place of a visited node. -/
inductive Outcome where
  | remove
  | keep (t : Tree)
  | splice (ts : List Tree)

namespace Outcome

/-- What an outcome leaves in a list. -/
def inList : Outcome → List Tree
  | .remove => []
  | .keep t => [t]
  | .splice ts => ts

/-- What an outcome leaves of a field whose value was `before`. -/
def inField (key : String) (before : Tree) : Outcome → List (String × Tree)
  | .remove => []
  | .keep t => [(key, t)]
  | .splice ts => [(key, block ts before)]

/-- An outcome as a value. -/
def value : Outcome → Tree
  | .remove => .null
  | .keep t => t
  | .splice ts => .list ts

end Outcome

/-- Visits change a state and can fail. -/
abbrev Visit (σ : Type) := StateT σ (Except Fault)

/-- The parts of a node under visit, in contexts of type `C`. -/
structure Parts (C σ : Type) where
  /-- Visits the value of one field. -/
  field : String → C → Visit σ Outcome
  /-- Visits the fields in order, each in its context; a field without a context stays as it is. -/
  descend : (String → Option C) → Visit σ Tree

/-- What to do with a node in a context. -/
abbrev Handler (C σ : Type) := C → Tree → Parts C σ → Visit σ Outcome

variable {C σ : Type}

/-- Is the value of a field visited at all? -/
def isVisited (t : Tree) : Bool := t.isNode || t.isList

mutual

/-- The outcome of visiting a value: a list is visited item by item. -/
def visit (handle : Handler C σ) (c : C) : Tree → Visit σ Outcome
  | .obj m fs =>
    handle c (.obj m fs)
      { field := fun key c => visitField handle c key fs
        descend := fun contexts => Tree.obj m <$> visitFields handle contexts fs }
  | .list xs => (Outcome.keep ∘ Tree.list) <$> visitItems handle c xs
  | .null => pure (.keep .null)
  | .bool b => pure (.keep (.bool b))
  | .int n => pure (.keep (.int n))
  | .real d => pure (.keep (.real d))
  | .str s => pure (.keep (.str s))

/-- Visits the value of one field. -/
def visitField (handle : Handler C σ) (c : C) (key : String) :
    List (String × Tree) → Visit σ Outcome
  | [] => pure .remove
  | (k, v) :: rest => if k = key then visit handle c v else visitField handle c key rest

/-- Visits the fields that hold syntax, in order. -/
def visitFields (handle : Handler C σ) (contexts : String → Option C) :
    List (String × Tree) → Visit σ (List (String × Tree))
  | [] => pure []
  | (k, v) :: rest => do
      let head ← match contexts k with
        | some c =>
          if isSyntaxKey k && isVisited v then
            Outcome.inField k v <$> visit handle c v
          else pure [(k, v)]
        | none => pure [(k, v)]
      let tail ← visitFields handle contexts rest
      return head ++ tail

/-- Visits the nodes of a list. -/
def visitItems (handle : Handler C σ) (c : C) : List Tree → Visit σ (List Tree)
  | [] => pure []
  | t :: rest => do
      let head ← if t.isNode then Outcome.inList <$> visit handle c t else pure [t]
      let tail ← visitItems handle c rest
      return head ++ tail

end

/-- Looks at all parts in the same context and keeps the node. -/
def passOver (c : C) (parts : Parts C σ) : Visit σ Outcome :=
  Outcome.keep <$> parts.descend fun _ => some c

end Downlevel.Node
