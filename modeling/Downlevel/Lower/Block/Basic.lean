import Downlevel.Lower.Block.Declare
import Downlevel.Lower.Block.Rename
import Downlevel.Lower.Block.Wrap

/-!
# `Lower.Block`: `let` and `const` become `var`

The lowering works in four steps on a program whose nodes carry marks: it decides what to keep and which
loops to wrap, renames what would collide, wraps the loops, and turns what is left into `var`.
-/

namespace Downlevel.Lower.Block

open Tree

/-- Lowers the block bindings of a program whose nodes carry marks. -/
def lowerMarked (t : Tree) : Except Fault Lowered := do
  let a := Scope.analyzeMarked t
  let p := plan a
  let renamed := renameAll a p.kept (.ofTree t)
  let wrapped ← wrapLoops p.loops renamed.names (renamed.changes.apply t)
  let tree ← declareVars p.kept wrapped
  return ⟨tree, p.diagnostics⟩

/-- Lowers the block bindings of a program. -/
def lower (t : Tree) : Except Fault Lowered := lowerMarked t.identify

end Downlevel.Lower.Block
