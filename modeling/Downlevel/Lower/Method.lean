import Downlevel.Lower.Diagnostic
import Downlevel.Tree.Query

/-!
# `Lower.Method`: concise methods become function properties

`{ m() {} }` becomes `{ m: function () {} }`. A method that uses `super` needs its home object and is
left alone.
-/

namespace Downlevel.Lower.Method

open Tree Node

def pass : String := "object_methods"

/-- One property, its parts already lowered. -/
def property (t : Tree) : Visit Work Tree := do
  if !(t.get "method").isSet then return t
  if (t.get "value").usesSuper then
    decline pass "Object method using `super` left as shorthand." t
    return t
  return t.set "method" (.bool false)

def handle : Handler Unit Work := fun _ t parts => do
  let t' ← parts.descend fun _ => some ()
  if t.isType "Property" then return .keep (← property t')
  return .keep t'

/-- Lowers the concise methods of a program. -/
def lower (t : Tree) : Except Fault Lowered := run handle () t

end Downlevel.Lower.Method
