import Downlevel.Tree.Basic

/-!
# `Tree.Mark`: telling nodes apart

`identify` gives every object of a tree that has no mark yet a mark of its own, larger than all marks
in use. Marks already given stay, so a tree that is fully marked is left as it is. Positions in the
text (`loc`, `range`) are no part of the syntax and get none.
-/

namespace Downlevel.Tree

/-- Fields that describe a place in the text. -/
def isPlaceKey (key : String) : Bool := key = "loc" || key = "range"

/-! ## Marks in use -/

mutual

/-- The marks of the objects of a tree. -/
def marks : Tree → List Nat
  | .list xs => marksOfItems xs
  | .obj m fs => m.toList ++ marksOfFields fs
  | _ => []

def marksOfItems : List Tree → List Nat
  | [] => []
  | t :: rest => marks t ++ marksOfItems rest

def marksOfFields : List (String × Tree) → List Nat
  | [] => []
  | (k, v) :: rest => (if isPlaceKey k then [] else marks v) ++ marksOfFields rest

end

/-- A number above all marks in use. -/
def freeMark (t : Tree) : Nat := t.marks.foldl (fun n m => max n (m + 1)) 0

/-! ## New marks -/

mutual

/-- Marks the unmarked objects, from `next` on; also the first number not used. -/
def markFrom (next : Nat) : Tree → Tree × Nat
  | .list xs =>
    let (xs, next) := markItems next xs
    (.list xs, next)
  | .obj (some m) fs =>
    let (fs, next) := markFields next fs
    (.obj (some m) fs, next)
  | .obj none fs =>
    let (fs, after) := markFields (next + 1) fs
    (.obj (some next) fs, after)
  | .null => (.null, next)
  | .bool b => (.bool b, next)
  | .int n => (.int n, next)
  | .real d => (.real d, next)
  | .str s => (.str s, next)

def markItems (next : Nat) : List Tree → List Tree × Nat
  | [] => ([], next)
  | t :: rest =>
    let (t, next) := markFrom next t
    let (rest, next) := markItems next rest
    (t :: rest, next)

def markFields (next : Nat) : List (String × Tree) → List (String × Tree) × Nat
  | [] => ([], next)
  | (k, v) :: rest =>
    if isPlaceKey k then
      let (rest, next) := markFields next rest
      ((k, v) :: rest, next)
    else
      let (v, next) := markFrom next v
      let (rest, next) := markFields next rest
      ((k, v) :: rest, next)

end

/-- The tree with a mark on every object. -/
def identify (t : Tree) : Tree := (markFrom t.freeMark t).1

end Downlevel.Tree
