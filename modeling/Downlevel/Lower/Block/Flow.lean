import Downlevel.Lower.Block.Loop
import Downlevel.Node.Visit

/-!
# `Lower.Block.Flow`: jumps out of a moved body

When the body of a loop moves into a function, the jumps that leave it become **signals**, the values
the function returns: nothing for `continue`, `"break"` for `break`, and an object with the value for
`return`. Jumps that stay inside the body, within a nested loop or `switch` or to a label of the body,
are kept, and nested functions and classes are not entered.
-/

namespace Downlevel.Lower.Block

open Tree Node

/-- The signals that a body sends, besides "go on". -/
structure Signals where
  hasBreak : Bool := false
  hasReturn : Bool := false
  deriving DecidableEq

/-- Does the loop have to look at what its body returns? -/
def Signals.any (s : Signals) : Bool := s.hasBreak || s.hasReturn

/-- What stands between a statement and the moved body. -/
structure Nesting where
  inLoop : Bool := false
  inSwitch : Bool := false

def signalHandle : Handler Nesting Signals := fun nesting t parts =>
  let isLabelled := (t.get "label").isSet
  if t.isTypeIn (functionTypes ++ classTypes) then pure (.keep t)
  else if isLoop t then passOver { nesting with inLoop := true } parts
  else match t.type? with
    | some "SwitchStatement" => passOver { nesting with inSwitch := true } parts
    | some "BreakStatement" => do
        if isLabelled || nesting.inLoop || nesting.inSwitch then return .keep t
        modify fun s => { s with hasBreak := true }
        return .keep (returnStatement (some (literal (.str "break"))) t)
    | some "ContinueStatement" => do
        if isLabelled || nesting.inLoop then return .keep t
        return .keep (returnStatement none t)
    | some "ReturnStatement" => do
        let t ← parts.descend fun _ => some nesting
        modify fun s => { s with hasReturn := true }
        let value := if (t.get "argument").isSet then t.get "argument" else voidZero
        return .keep (returnStatement
          (some (objectExpression [property (identifier "v") value])) t)
    | _ => passOver nesting parts

/-- The statements of a body with its jumps as signals, and which signals there are. -/
def signal (statements : List Tree) : Except Fault (List Tree × Signals) :=
  (visitItems signalHandle {} statements).run {}

end Downlevel.Lower.Block
