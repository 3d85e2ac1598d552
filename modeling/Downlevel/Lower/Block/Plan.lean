import Downlevel.Lower.Block.Loop
import Downlevel.Lower.Diagnostic
import Downlevel.Scope.Analysis

/-!
# `Lower.Block.Plan`: what to keep, and which loops to wrap

Before anything changes, the block lowering decides two things from the scope analysis. Declarations
are **kept** as they are in functions whose names are unpredictable, and in loops that would have to be
wrapped but cannot be. A loop is **planned** for wrapping when a binding made anew in every iteration is
captured by a function inside it.

Declarations and loops are told apart by their marks.
-/

namespace Downlevel.Lower.Block

open Tree Node Scope

def pass : String := "block_scoped_bindings"

/-- What the lowering has decided. -/
structure Plan where
  /-- Marks of the declarations that stay. -/
  kept : List Nat := []
  /-- Marks of the loops to wrap. -/
  loops : List Nat := []
  diagnostics : List Diagnostic := []

/-- Is a declaration kept? -/
def isKept (kept : List Nat) (declaration : Tree) : Bool :=
  match declaration.mark? with
  | some m => kept.contains m
  | none => false

/-- The marks of declarations. -/
def marksOf (declarations : List Tree) : List Nat := declarations.filterMap mark?

/-- All `let` and `const` bindings, each with its place among all bindings. -/
def blockBindings (a : Analysis) : List (Nat × Binding) :=
  a.flatten.flatMap fun s => (a.bindingsOf s.id).filter (·.2.kind.isBlockScoped)

/-! ## Unpredictable functions -/

/-- The functions with issues, by the names of their scopes. -/
def dynamicFunctions (a : Analysis) : List Nat :=
  ((a.issues.map (·.function)).eraseDups).mergeSort fun m n =>
    decide (toString m ≤ toString n)

/-- The bindings in blocks of a function. -/
def nestedBindings (a : Analysis) (bindings : List (Nat × Binding)) (function : Nat) :
    List (Nat × Binding) :=
  bindings.filter fun b =>
    match a.scope? b.2.scope with
    | some s => s.function == function && !s.isFunction
    | none => false

/-- Keeps the block bindings of functions that use `eval` or `with`. -/
def keepDynamic (a : Analysis) (bindings : List (Nat × Binding)) : Plan :=
  (dynamicFunctions a).foldl
    (fun plan function =>
      match nestedBindings a bindings function with
      | [] => plan
      | first :: rest =>
        { plan with
          kept := plan.kept ++ marksOf ((first :: rest).map (·.2.declaration))
          diagnostics := plan.diagnostics ++
            [.about pass
              "Block-scoped bindings left untouched in a function using `eval` or `with`."
              first.2.declaration] })
    {}

/-! ## Captured bindings -/

/-- The innermost loop around a scope, within its function. -/
def innermostLoop? (a : Analysis) (s : ScopeInfo) : Option ScopeInfo :=
  ((s.ancestors.filterMap a.scope?).takeWhile (!·.isFunction)).find? fun s => isLoop s.node

/-- Does a function inside refer to the binding? -/
def isCaptured (a : Analysis) (resolved : List (Option Nat)) (binding : Nat) (owner : Nat) : Bool :=
  (a.references.zip resolved).any fun r =>
    r.2 == some binding && (a.scope? r.1.scope).any (·.function != owner)

/-- The loops with captured bindings, in the order of these bindings. -/
def capturedLoops (a : Analysis) (bindings : List (Nat × Binding)) (kept : List Nat) :
    List Tree :=
  let resolved := a.resolutions
  let loops := bindings.filterMap fun b =>
    if isKept kept b.2.declaration then none
    else do
      let s ← a.scope? b.2.scope
      let loop ← innermostLoop? a s
      if isCaptured a resolved b.1 s.function then some loop.node else none
  loops.foldl
    (fun seen loop => if seen.any (·.mark? == loop.mark?) then seen else seen ++ [loop]) []

/-! ## Loops that cannot be wrapped -/

/-- The names that a node writes to. -/
def writtenNames (t : Tree) : List (Option String) :=
  if t.isType "AssignmentExpression" then (t.get "left").patternNames
  else if t.isType "UpdateExpression" then (t.get "argument").patternNames
  else []

/-- Does the body write to a binding of the head? -/
def writesHead (loop : Tree) : Bool :=
  (loop.get "body").nodes.any fun t => (writtenNames t).any (headNames loop).contains

/-- A function declared in the body, or a point where the body is suspended. -/
def suspension? (body : Tree) : Option String :=
  (body.walk (functionTypes ++ classTypes)).findSome? fun (t, parent) =>
    if parent.isSome && t.isType "FunctionDeclaration" then
      some "Function declared inside a closure-capturing loop; loop left untouched."
    else if t.isTypeIn ["YieldExpression", "AwaitExpression"] then
      some "Closure-capturing loop suspends with yield/await; loop left untouched."
    else none

/-- Does the body jump to a label outside of it? -/
def jumpsOut (body : Tree) : Bool :=
  let nodes := body.nodes (functionTypes ++ classTypes)
  let labels := (nodes.filter (·.isType "LabeledStatement")).map fun t => (t.get "label").name?
  (nodes.filter fun t =>
      t.isTypeIn ["BreakStatement", "ContinueStatement"] && (t.get "label").isSet).any
    fun t => !labels.contains (t.get "label").name?

/-- Does the body mention the `arguments` of the function around it? -/
def usesArguments (body : Tree) : Bool :=
  (body.nodes (ordinaryFunctionTypes ++ classTypes)).any fun t =>
    t.isType "Identifier" && (t.get "name").isStr "arguments"

/-- Why a loop cannot be wrapped, if it cannot. -/
def wrapProblem? (loop : Tree) : Option String :=
  let body := loop.get "body"
  if writesHead loop then
    some "Loop body reassigns its own per-iteration binding; loop left untouched."
  else match suspension? body with
    | some problem => some problem
    | none =>
      if jumpsOut body then
        some "Closure-capturing loop jumps to an outer label; loop left untouched."
      else if usesArguments body then
        some "Closure-capturing loop uses `arguments`; loop left untouched."
      else none

/-! ## The plan -/

/-- Keeps the declarations of the loops that cannot be wrapped. -/
def keepLoops (loops : List Tree) (plan : Plan) : Plan :=
  loops.foldl
    (fun plan loop =>
      match wrapProblem? loop with
      | some problem =>
        { plan with
          kept := plan.kept ++ marksOf (blockDeclarations loop)
          diagnostics := plan.diagnostics ++ [.about pass problem loop] }
      | none => plan)
    plan

/-- The plan for a program. -/
def plan (a : Analysis) : Plan :=
  let bindings := blockBindings a
  let dynamic := keepDynamic a bindings
  let captured := capturedLoops a bindings dynamic.kept
  let p := keepLoops captured dynamic
  { p with
    loops := marksOf (captured.filter fun loop =>
      !(blockDeclarations loop).any (isKept p.kept)) }

end Downlevel.Lower.Block
