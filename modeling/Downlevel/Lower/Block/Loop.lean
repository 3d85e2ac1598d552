import Downlevel.Node.Build
import Downlevel.Tree.Query

/-!
# `Lower.Block.Loop`: loops and their bindings

The vocabulary of the block lowering: loops, their heads and bodies, and declarations with `let` or
`const`.
-/

namespace Downlevel.Lower.Block

open Tree Node

def loopTypes : List String :=
  ["ForStatement", "ForInStatement", "ForOfStatement", "WhileStatement", "DoWhileStatement"]

def isLoop (t : Tree) : Bool := t.isTypeIn loopTypes

/-- A declaration with `let` or `const`. -/
def isBlockDeclaration (t : Tree) : Bool :=
  t.isType "VariableDeclaration" && ((t.get "kind").isStr "let" || (t.get "kind").isStr "const")

/-- The field of a loop that can declare its bindings. -/
def headKey? (loop : Tree) : Option String :=
  match loop.type? with
  | some "ForStatement" => some "init"
  | some "ForInStatement" | some "ForOfStatement" => some "left"
  | _ => none

/-- What stands in the head of a loop, null if nothing can. -/
def head (loop : Tree) : Tree := ((headKey? loop).map loop.get).getD .null

/-- The names that a loop binds anew for every iteration in its head. -/
def headNames (loop : Tree) : List (Option String) :=
  if isBlockDeclaration (head loop) then
    ((head loop).children "declarations").flatMap fun d => (d.get "id").patternNames
  else []

/-- The statements of the body of a loop. -/
def statements (loop : Tree) : List Tree :=
  let body := loop.get "body"
  if body.isType "BlockStatement" then body.children "body"
  else if body.isSet then [body] else [record []]

/-- The declarations with `let` or `const` in a node, nested functions apart. -/
def blockDeclarations (t : Tree) : List Tree := (t.nodes functionTypes).filter isBlockDeclaration

end Downlevel.Lower.Block
