import Downlevel.Names
import Downlevel.Node.Visit

/-!
# `Lower.Diagnostic`: what a lowering reports

A lowering changes what it can and leaves the rest alone. For each construct it matched and left alone
it reports a diagnostic with the place of the construct. `Work` is what most lowerings carry along: the
names in use and the diagnostics so far.
-/

namespace Downlevel.Lower

open Tree Node

/-- A construct that a lowering left alone, and why. -/
structure Diagnostic where
  pass : String
  message : String
  line : Option Int
  column : Option Int
  deriving DecidableEq

namespace Diagnostic

/-- The diagnostic about a node. -/
def about (pass message : String) (node : Tree) : Diagnostic :=
  ⟨pass, message, node.position.1, node.position.2⟩

/-- The diagnostic on one line, with the place when it is known. -/
def text (d : Diagnostic) : String :=
  let place := match d.line, d.column with
    | some l, some c => s!" (line {l}, column {c})"
    | _, _ => ""
  s!"[{d.pass}] {d.message}{place}"

end Diagnostic

/-- A lowered tree, and what was left alone in it. -/
structure Lowered where
  tree : Tree
  diagnostics : List Diagnostic

/-- The names in use and the diagnostics so far. -/
structure Work where
  names : NameSupply
  diagnostics : List Diagnostic := []

/-- Reports that a node is left alone. -/
def decline (pass message : String) (node : Tree) : Visit Work Unit :=
  modify fun w => { w with diagnostics := w.diagnostics ++ [.about pass message node] }

/-- Takes a fresh name from the supply. -/
def freshName (hint : String) : Visit Work String := do
  let w ← get
  let (name, names) := w.names.fresh hint
  set { w with names := names }
  return name

/-- The value of a field that must be there. -/
def require {σ : Type} (t : Tree) (key : String) : Visit σ Tree := liftM (t.need key)

/-- Runs a handler over a program. -/
def run {C : Type} (handle : Handler C Work) (c : C) (t : Tree) : Except Fault Lowered := do
  let (outcome, w) ← (visit handle c t).run { names := .ofTree t }
  return ⟨outcome.value, w.diagnostics⟩

end Downlevel.Lower
