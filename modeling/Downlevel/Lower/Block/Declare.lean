import Downlevel.Lower.Block.Plan

/-!
# `Lower.Block.Declare`: `let` and `const` become `var`

The last step: every `let` or `const` that is not kept becomes `var`. A `let` without an initial value
in the body of a loop starts every iteration undefined, so there it gets `= void 0`.
-/

namespace Downlevel.Lower.Block

open Tree Node

/-- A declarator that starts undefined. -/
def resetDeclarator (d : Tree) : Tree :=
  if (d.get "init").isNull && (d.get "id").isType "Identifier" then d.set "init" voidZero else d

/-- One declaration with `var`, unless it is kept. -/
def convert (kept : List Nat) (inLoop : Bool) (t : Tree) : Tree :=
  if !isBlockDeclaration t || isKept kept t then t
  else
    let t := if inLoop && (t.get "kind").isStr "let" && (t.get "declarations").isList then
        t.set "declarations" (.list ((t.children "declarations").map resetDeclarator))
      else t
    t.set "kind" (.str "var")

/-- What surrounds a declaration in its function. -/
structure Surroundings where
  inLoop : Bool := false
  /-- Is it the head of a loop? -/
  isHead : Bool := false

def declareHandle (kept : List Nat) : Handler Surroundings Unit := fun c t parts =>
  if t.isType "VariableDeclaration" then
    (fun t => .keep (convert kept (c.inLoop && !c.isHead) t)) <$>
      parts.descend fun _ => some { inLoop := c.inLoop }
  else if isLoop t then
    Outcome.keep <$> parts.descend fun key =>
      some { inLoop := true, isHead := headKey? t == some key }
  else if t.isTypeIn functionTypes then passOver {} parts
  else passOver { inLoop := c.inLoop } parts

/-- The program with `var` for `let` and `const`. -/
def declareVars (kept : List Nat) (t : Tree) : Except Fault Tree := do
  let (outcome, _) ← (visit (declareHandle kept) {} t).run ()
  return outcome.value

end Downlevel.Lower.Block
