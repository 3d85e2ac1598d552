import Downlevel.Lower.Block.Flow
import Downlevel.Lower.Block.Hoist

/-!
# `Lower.Block.Wrap`: loop bodies as functions

A loop whose bindings are captured gets its body moved into a function that is called once per
iteration, so that each iteration has bindings of its own:

    for (let i = 0; i < n; i++) { fns.push(() => i); }

    var _loop = function (i) { fns.push(() => i); };
    for (let i = 0; i < n; i++) { _loop(i); }

The names of the head are passed as arguments, `this` is passed on where the body uses it, `var`
declarations of the body are hoisted in front, and signals that the body sends are looked at after the
call. The function is lowered in turn, since its body may hold further loops to wrap.
-/

namespace Downlevel.Lower.Block

open Tree Node

/-- Does a body use the `this` around it? -/
def bodyUsesThis (statements : List Tree) : Bool :=
  ((Tree.list statements).nodes (ordinaryFunctionTypes ++ classTypes)).any
    (·.isType "ThisExpression")

/-- The call of the moved body. -/
def invocation (loopName : String) (arguments : List Tree) (usesThis : Bool) : Tree :=
  if usesThis then call (dot (identifier loopName) "call") (thisExpression :: arguments)
  else call (identifier loopName) arguments

/-- What follows the call of the moved body: a jump for each signal that it can have sent. -/
def dispatch (resultName : String) (signals : Signals) : List Tree :=
  let result := identifier resultName
  (if signals.hasBreak then
    [ifStatement (binary "===" result (literal (.str "break"))) breakStatement] else []) ++
  (if signals.hasReturn then
    [ifStatement (binary "===" (unary "typeof" result) (literal (.str "object")))
      (returnStatement (some (dot result "v")))] else [])

/-- The call of the moved body as the new body of the loop, when it sends signals. -/
def reactions (resultName : String) (signals : Signals) (invocation : Tree) : List Tree :=
  var resultName (some invocation) :: dispatch resultName signals

/-- `var a, b;` in front of a loop, at the point where the loop starts. -/
def hoistedDeclaration (loop : Tree) (names : List (Option String)) : List Tree :=
  if names.isEmpty then []
  else
    let d := declaration "var" (names.map fun n => declarator (named n))
    match loop.get? "range" with
    | some range =>
      let start := range.items.headD .null
      [d.set "range" (.list [start, start])]
    | none => [d]

/-- A wrapped loop: what goes in front of it, and its new body. -/
structure Wrapped where
  before : List Tree
  body : Tree

/-- The new body of a loop, given the call of the moved one. -/
def newBody (signals : Signals) (call : Tree) : Visit NameSupply Tree := do
  if signals.any then
    let (resultName, names) := (← get).fresh "ret"
    set names
    return block (reactions resultName signals call)
  else
    return block [expressionStatement call]

/-- Wraps one loop. -/
def wrap (loop : Tree) : Visit NameSupply Wrapped := do
  let parameters := headNames loop
  let (moved, varNames) ← liftM (hoist (statements loop))
  let (moved, signals) ← liftM (signal moved)
  let (loopName, names) := (← get).fresh "loop"
  set names
  let function := functionExpression (parameters.map named) (block moved)
  let before := hoistedDeclaration loop varNames ++ [var loopName (some function) loop]
  let call := invocation loopName (parameters.map named) (bodyUsesThis moved)
  return ⟨before, ← newBody signals call⟩

/-- Wraps the planned loops; `depth` bounds how deep they nest. -/
def wrapHandle (loops : List Nat) : Nat → Handler Unit NameSupply
  | 0 => fun _ _ parts => passOver () parts
  | depth + 1 => fun _ t parts =>
    let isPlanned := isLoop t && (t.mark?).any loops.contains
    if !isPlanned then passOver () parts
    else do
      let wrapped ← wrap t
      let before ← visitItems (wrapHandle loops depth) () wrapped.before
      let loop ← parts.descend fun key => if key = "body" then none else some ()
      return .splice (before ++ [loop.set "body" wrapped.body])

/-- The program with the planned loops wrapped. -/
def wrapLoops (loops : List Nat) (names : NameSupply) (t : Tree) : Except Fault Tree := do
  let (outcome, _) ← (visit (wrapHandle loops (loops.length + 1)) () t).run names
  return outcome.value

end Downlevel.Lower.Block
