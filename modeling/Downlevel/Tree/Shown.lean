import Downlevel.Tree.Basic

/-!
# `Tree.Shown`: values in messages

Messages show values in a notation of their own: texts in single quotes where possible, `None` for
null, `True` and `False`, lists in brackets, objects in braces.
-/

namespace Downlevel.Tree

open Text

mutual

/-- A value as a message quotes it. -/
def shown : Tree → String
  | .null => "None"
  | .bool b => if b then "True" else "False"
  | .int n => toString n
  | .real d => d.render
  | .str s => Text.shown s
  | .list xs => "[" ++ joinWith ", " (shownItems xs) ++ "]"
  | .obj _ fs => "\x7b" ++ joinWith ", " (shownFields fs) ++ "\x7d"

def shownItems : List Tree → List String
  | [] => []
  | t :: rest => shown t :: shownItems rest

def shownFields : List (String × Tree) → List String
  | [] => []
  | (k, v) :: rest => (Text.shown k ++ ": " ++ shown v) :: shownFields rest

end

/-- A value where a message inserts it: a text stands for itself. -/
def plain : Tree → String
  | .str s => s
  | t => t.shown

end Downlevel.Tree
