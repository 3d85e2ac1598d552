import Downlevel.Lower.Arrow
import Downlevel.Lower.Block.Basic
import Downlevel.Lower.Class.Basic
import Downlevel.Lower.Default
import Downlevel.Lower.Method
import Downlevel.Lower.Template

/-!
# `Lower.Pass`: the lowerings by name
-/

namespace Downlevel.Lower

/-- The lowerings. -/
inductive Pass where
  | classes
  | stringTemplates
  | arrowFunctions
  | blockScopedBindings
  | defaultArguments
  | objectMethods
  deriving DecidableEq

namespace Pass

/-- All lowerings, in the order in which they are applied. -/
def all : List Pass :=
  [.classes, .stringTemplates, .arrowFunctions, .blockScopedBindings, .defaultArguments,
   .objectMethods]

def name : Pass → String
  | .classes => Class.pass
  | .stringTemplates => Template.pass
  | .arrowFunctions => Arrow.pass
  | .blockScopedBindings => Block.pass
  | .defaultArguments => Default.pass
  | .objectMethods => Method.pass

def ofName? (name : String) : Option Pass := all.find? (·.name == name)

/-- Applies a lowering to a program. -/
def lower : Pass → Tree → Except Fault Lowered
  | .classes => Class.lower
  | .stringTemplates => Template.lower
  | .arrowFunctions => Arrow.lower
  | .blockScopedBindings => Block.lower
  | .defaultArguments => Default.lower
  | .objectMethods => Method.lower

end Pass
end Downlevel.Lower
