import Downlevel.Tree.Basic

/-!
# `Tree.Walk`: the nodes of a tree, in order

`walk` lists every node below a value together with the node it stands in, parents before children and
fields in order. A pending list holds the values still to be looked at, nearest first, so the walk
itself needs no nested recursion. Nodes of a type in `stopAt` are listed, but their insides are not,
except when the walk starts there.
-/

namespace Downlevel.Tree

/-- Fields that no walk enters. -/
def skippedKeys : List String := ["type", "loc", "range"]

/-- Does a field hold syntax? -/
def isSyntaxKey (key : String) : Bool := !skippedKeys.contains key

/-! ## Size -/

mutual

/-- How many values a tree holds, itself included. -/
def size : Tree → Nat
  | .list xs => sizeItems xs + 1
  | .obj _ fs => sizeFields fs + 1
  | .null => 1
  | .bool _ => 1
  | .int _ => 1
  | .real _ => 1
  | .str _ => 1

def sizeItems : List Tree → Nat
  | [] => 0
  | t :: rest => size t + sizeItems rest

def sizeFields : List (String × Tree) → Nat
  | [] => 0
  | (_, v) :: rest => size v + sizeFields rest

end

/-! ## The walk -/

/-- A value still to be looked at: the node it stands in, and whether the walk starts there. -/
structure Pending where
  value : Tree
  parent : Option Tree
  atStart : Bool

/-- The nodes below the pending values; `fuel` counts the values looked at. -/
def walkFrom (stopAt : List String) : Nat → List Pending → List (Tree × Option Tree)
  | 0, _ => []
  | _ + 1, [] => []
  | fuel + 1, p :: rest =>
    match p.value with
    | .list xs => walkFrom stopAt fuel (xs.map (⟨·, p.parent, false⟩) ++ rest)
    | .obj m fs =>
      let node := Tree.obj m fs
      if !node.isNode then walkFrom stopAt fuel rest
      else if !p.atStart && node.isTypeIn stopAt then
        (node, p.parent) :: walkFrom stopAt fuel rest
      else
        let inside := (fs.filter (isSyntaxKey ·.1)).map fun f => ⟨f.2, some node, false⟩
        (node, p.parent) :: walkFrom stopAt fuel (inside ++ rest)
    | _ => walkFrom stopAt fuel rest

/-- The nodes of a tree with the nodes they stand in. -/
def walk (t : Tree) (stopAt : List String := []) (parent : Option Tree := none) :
    List (Tree × Option Tree) :=
  walkFrom stopAt t.size [⟨t, parent, true⟩]

/-- Is the type of a node no list and no object? Only then can it be looked up in a set. -/
def hasFlatType (t : Tree) : Bool := !(t.get "type").isList && !(t.get "type").isObject

/-- The same loop once more, over a document where a type may be any value: it fails where a list or an
object would be looked up in `stopAt`. The type of the node at the start is not looked up. Lowerings walk
programs, in which every type is a text, and use `walkFrom`, which leaves this failure out. -/
def listFrom (stopAt : List String) : Nat → List Pending → Except Fault (List (Tree × Option Tree))
  | 0, _ => .ok []
  | _ + 1, [] => .ok []
  | fuel + 1, p :: rest =>
    match p.value with
    | .list xs => listFrom stopAt fuel (xs.map (⟨·, p.parent, false⟩) ++ rest)
    | .obj m fs =>
      let node := Tree.obj m fs
      let inside := (fs.filter (isSyntaxKey ·.1)).map fun f => ⟨f.2, some node, false⟩
      if !node.isNode then listFrom stopAt fuel rest
      else if !p.atStart && !node.hasFlatType then .error .structuredType
      else
        let next := if !p.atStart && node.isTypeIn stopAt then rest else inside ++ rest
        (listFrom stopAt fuel next).map ((node, p.parent) :: ·)
    | _ => listFrom stopAt fuel rest

/-- The nodes of a document with the nodes they stand in. -/
def listing (t : Tree) (stopAt : List String) (parent : Option Tree) :
    Except Fault (List (Tree × Option Tree)) :=
  listFrom stopAt t.size [⟨t, parent, true⟩]

/-- The nodes of a tree. -/
def nodes (t : Tree) (stopAt : List String := []) : List Tree := (t.walk stopAt).map (·.1)

end Downlevel.Tree
