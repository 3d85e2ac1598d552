import Downlevel.Lower.Block.Wrap
import Downlevel.Proofs.Tree.Fields

/-!
# `Proofs.Flow.Semantics`: how control flows through statements

A big-step semantics of statements. What an atom does, an expression or a statement without statements
inside, is left to a **world**: it answers each atom with a value or an exception, and its answers can
depend on all atoms asked before. So a run is determined by the world, and the atoms it asks, in order,
are all that the world can see of it.

Only the expressions that are made of texts, `void 0`, `{v: …}`, `===`, `typeof` and `.v` are looked
into; these are the ones that signals are made of and taken apart with.
-/

namespace Downlevel.Flow

open Tree Lower.Block

/-! ## Values and the world -/

/-- A value, as far as the flow of control looks into it. -/
inductive Value where
  | undefined
  | bool (b : Bool)
  | text (s : String)
  /-- An object that was written as `{v: …}`. -/
  | box (v : Value)
  /-- Any other value, known to the world. -/
  | other (n : Nat)
  deriving DecidableEq

/-- What surrounds the statements. -/
structure World where
  /-- The answer to an atom after others: a value, or an exception. -/
  ask : List Tree → Tree → Except Value Value
  isTrue : Nat → Bool
  typeOf : Nat → String
  /-- Are two values the same, neither being a text? -/
  same : Value → Value → Bool

/-- Computations that ask atoms and can throw. -/
abbrev Action := ExceptT Value (StateM (List Tree))

namespace World

def asked (w : World) (t : Tree) : Action Value := fun h => (w.ask h t, h ++ [t])

def truth (w : World) : Value → Bool
  | .undefined => false
  | .bool b => b
  | .text s => !s.isEmpty
  | .box _ => true
  | .other n => w.isTrue n

def typeText (w : World) : Value → String
  | .undefined => "undefined"
  | .bool _ => "boolean"
  | .text _ => "string"
  | .box _ => "object"
  | .other n => w.typeOf n

/-- `===`: a text is the same only as an equal text. -/
def strictlyEqual (w : World) : Value → Value → Bool
  | .text s, .text s' => s = s'
  | .text _, _ | _, .text _ => false
  | v, v' => w.same v v'

end World

/-! ## Expressions -/

/-- The variable that is known by its value. -/
abbrev Known := Option (String × Value)

/-- The kinds of expressions. -/
inductive Form where
  | value (v : Value)
  | typeOf
  | equality
  | content
  | box
  | atom

/-- `{v: …}`. -/
def isBox (t : Tree) : Bool :=
  match t.get "properties" with
  | .list [p] =>
    p.isType "Property" && (p.get "kind").isStr "init" && !(p.get "computed").isSet &&
      (p.get "key").isType "Identifier" && ((p.get "key").get "name").isStr "v"
  | _ => false

/-- The form of an expression. -/
def formOf (known : Known) (t : Tree) : Form :=
  match t.type? with
  | some "Literal" =>
    match t.get "value" with
    | .str s => .value (.text s)
    | _ => .atom
  | some "Identifier" =>
    match known with
    | some (name, v) => if (t.get "name").isStr name then .value v else .atom
    | none => .atom
  | some "UnaryExpression" =>
    if (t.get "operator").isStr "typeof" then .typeOf
    else if (t.get "operator").isStr "void" && (t.get "argument").isType "Literal" then
      .value .undefined
    else .atom
  | some "BinaryExpression" => if (t.get "operator").isStr "===" then .equality else .atom
  | some "MemberExpression" =>
    if !(t.get "computed").isSet && ((t.get "property").get "name").isStr "v" then .content
    else .atom
  | some "ObjectExpression" => if isBox t then .box else .atom
  | _ => .atom

variable (w : World) (known : Known)

mutual

/-- The value of an expression. -/
def eval : Tree → Action Value
  | .obj m fs =>
    match formOf known (.obj m fs) with
    | .value v => pure v
    | .typeOf => do return .text (w.typeText (← evalField "argument" fs))
    | .equality => do
        let l ← evalField "left" fs
        let r ← evalField "right" fs
        return .bool (w.strictlyEqual l r)
    | .content => do
        match ← evalField "object" fs with
        | .box v => return v
        | _ => w.asked (.obj m fs)
    | .box => .box <$> evalOnly fs
    | .atom => w.asked (.obj m fs)
  | .list xs => w.asked (.list xs)
  | .null => w.asked .null
  | .bool b => w.asked (.bool b)
  | .int n => w.asked (.int n)
  | .real d => w.asked (.real d)
  | .str s => w.asked (.str s)

/-- The value of a field. -/
def evalField (key : String) : List (String × Tree) → Action Value
  | [] => pure .undefined
  | (k, v) :: rest => if k = key then eval v else evalField key rest

/-- The value of the only property of an object. -/
def evalOnly : List (String × Tree) → Action Value
  | [] => pure .undefined
  | (k, v) :: rest => if k = "properties" then evalItems v else evalOnly rest

def evalItems : Tree → Action Value
  | .list (.obj _ fs :: _) => evalField "value" fs
  | _ => pure .undefined

end

/-! ## Completions -/

/-- How a statement ends. -/
inductive Completion where
  | normal
  | breaks (label : Option String)
  | continues (label : Option String)
  | returns (v : Value)
  | throws (e : Value)
  deriving DecidableEq

namespace Completion

/-- Does a loop with these labels go on when its body ends so? -/
def goesOn (labels : List String) : Completion → Bool
  | normal => true
  | continues none => true
  | continues (some l) => labels.contains l
  | _ => false

/-- How a loop or a `switch` ends when its body ends so. -/
def left : Completion → Completion
  | breaks none => normal
  | c => c

/-- How a labelled statement ends when its body ends so. -/
def leftLabel (label : Option String) : Completion → Completion
  | breaks (some l) => if label = some l then normal else breaks (some l)
  | c => c

end Completion

/-- The run of a statement: after some atoms it ends, with more atoms asked, unless fuel runs out. -/
abbrev Run := List Tree → Option (Completion × List Tree)

namespace Run

def done (c : Completion) : Run := fun h => some (c, h)

/-- An action and what follows it; an exception is thrown. -/
def after {α : Type} (a : Action α) (next : α → Run) : Run := fun h =>
  match a h with
  | (.ok v, h) => next v h
  | (.error e, h) => some (.throws e, h)

/-- A run and what follows it, whatever way it ends. -/
def andThen (r : Run) (next : Completion → Run) : Run := fun h =>
  match r h with
  | some (c, h) => next c h
  | none => none

end Run

/-! ## Statements -/

/-- What follows a statement, unless it ends in another way. -/
def ifNormal (next : Run) : Completion → Run
  | .normal => next
  | c => .done c

/-- Statements one after another. -/
def runAll (run : Tree → Run) : List Tree → Run
  | [] => .done .normal
  | t :: rest => (run t).andThen (ifNormal (runAll run rest))

/-- An expression that can be missing. -/
def evalOptional (t : Tree) : Action Unit :=
  if t.isSet then do let _ ← eval w known t else pure ()

/-- What a loop does around its body. -/
structure Head where
  start : Action Unit
  /-- Is there one more turn? -/
  enter : Action Bool
  /-- Is that asked before the first turn, too? -/
  entersFirst : Bool
  advance : Action Unit

/-- A loop over a collection asks its left side for the next item. -/
def headOf (t : Tree) : Head :=
  let test : Action Bool := do return w.truth (← eval w known (t.get "test"))
  match t.type? with
  | some "ForStatement" =>
    { start := evalOptional w known (t.get "init")
      enter := if (t.get "test").isSet then test else pure true
      entersFirst := true
      advance := evalOptional w known (t.get "update") }
  | some "WhileStatement" => ⟨pure (), test, true, pure ()⟩
  | some "DoWhileStatement" => ⟨pure (), test, false, pure ()⟩
  | _ =>
    { start := do let _ ← eval w known (t.get "right")
      enter := do return w.truth (← w.asked (t.get "left"))
      entersFirst := true
      advance := pure () }

/-- What follows a turn of a loop. -/
def afterTurn (labels : List String) (next : Run) (c : Completion) : Run :=
  if c.goesOn labels then next else .done c.left

/-- The turns of a loop. -/
def turns (labels : List String) (head : Head) (body : Run) : Nat → Run
  | 0 => fun _ => none
  | n + 1 => .after head.enter fun isOn =>
    if isOn then
      body.andThen (afterTurn labels (.after head.advance fun _ => turns labels head body n))
    else .done .normal

def runLoop (labels : List String) (head : Head) (body : Run) (n : Nat) : Run :=
  .after head.start fun _ =>
    if head.entersFirst then turns labels head body n
    else body.andThen (afterTurn labels (turns labels head body n))

/-- The place of the first case whose test gives the value, if one does. -/
def matching (v : Value) : List Tree → Action (Option Nat)
  | [] => pure none
  | c :: rest =>
    if (c.get "test").isSet then do
      if w.strictlyEqual v (← eval w known (c.get "test")) then return some 0
      return (← matching v rest).map (· + 1)
    else do return (← matching v rest).map (· + 1)

/-- The statements that a `switch` runs: from the case that was found, or else from the default. -/
def chosen (cases : List Tree) (found : Option Nat) : List Tree :=
  let run := match found with
    | some i => cases.drop i
    | none => cases.dropWhile fun c => (c.get "test").isSet
  run.flatMap (·.children "consequent")

def runCatch (run : Tree → Run) (handler : Tree) (c : Completion) : Run :=
  match c with
  | .throws e =>
    if handler.isSet then
      .after (evalOptional w known (handler.get "param")) fun _ => run (handler.get "body")
    else .done (.throws e)
  | c => .done c

def runFinally (run : Tree → Run) (finalizer : Tree) (c : Completion) : Run :=
  if finalizer.isSet then (run finalizer).andThen (ifNormal (.done c)) else .done c

/-- One statement; `run` runs the statements inside it, each behind some labels. -/
def execStep (n : Nat) (run : List String → Tree → Run) (labels : List String) (t : Tree) : Run :=
  if isLoop t then runLoop labels (headOf w known t) (run [] (t.get "body")) n
  else match t.type? with
    | some "BlockStatement" => runAll (run []) (t.children "body")
    | some "IfStatement" =>
      .after (eval w known (t.get "test")) fun v =>
        if w.truth v then run [] (t.get "consequent")
        else if (t.get "alternate").isSet then run [] (t.get "alternate")
        else .done .normal
    | some "LabeledStatement" =>
      let label := (t.get "label").name?
      (run (label.toList ++ labels) (t.get "body")).andThen fun c => .done (c.leftLabel label)
    | some "SwitchStatement" =>
      .after (eval w known (t.get "discriminant")) fun v =>
        .after (matching w known v (t.children "cases")) fun found =>
          (runAll (run []) (chosen (t.children "cases") found)).andThen fun c => .done c.left
    | some "TryStatement" =>
      ((run [] (t.get "block")).andThen (runCatch w known (run []) (t.get "handler"))).andThen
        (runFinally (run []) (t.get "finalizer"))
    | some "WithStatement" =>
      .after (eval w known (t.get "object")) fun _ => run [] (t.get "body")
    | some "BreakStatement" => .done (.breaks (t.get "label").name?)
    | some "ContinueStatement" => .done (.continues (t.get "label").name?)
    | some "ReturnStatement" =>
      if (t.get "argument").isSet then
        .after (eval w known (t.get "argument")) fun v => .done (.returns v)
      else .done (.returns .undefined)
    | some "ThrowStatement" =>
      .after (eval w known (t.get "argument")) fun v => .done (.throws v)
    | _ => .after (w.asked t) fun _ => .done .normal

/-- The run of a statement behind labels. -/
def exec : Nat → List String → Tree → Run
  | 0, _, _ => fun _ => none
  | n + 1, labels, t => execStep w known n (exec n) labels t

/-- The run of statements. -/
def execAll (n : Nat) (ts : List Tree) : Run := runAll (exec w known n []) ts

/-! ### One equation for each kind of statement -/

/-- The types of statements that hold statements or jump, loops apart. -/
def structuredTypes : List String :=
  ["BlockStatement", "IfStatement", "LabeledStatement", "SwitchStatement", "TryStatement",
   "WithStatement", "BreakStatement", "ContinueStatement", "ReturnStatement", "ThrowStatement"]

section

variable {w : World} {known : Known} {n : Nat} {ls : List String} {t : Tree}

theorem exec_succ : exec w known (n + 1) ls t = execStep w known n (exec w known n) ls t := rfl

theorem not_isLoop {s : String} (h : t.type? = some s) (hs : s ∉ loopTypes) : ¬ isLoop t := by
  rw [isLoop, isTypeIn_of_type? h, decide_eq_true_eq]
  exact hs

theorem exec_loop (h : isLoop t) : exec w known (n + 1) ls t =
    runLoop ls (headOf w known t) (exec w known n [] (t.get "body")) n := if_pos h

theorem exec_block (h : t.type? = some "BlockStatement") : exec w known (n + 1) ls t =
    runAll (exec w known n []) (t.children "body") := by
  rw [exec_succ, execStep, if_neg (not_isLoop h (by decide)), h]
  rfl

theorem exec_if (h : t.type? = some "IfStatement") : exec w known (n + 1) ls t =
    .after (eval w known (t.get "test")) fun v =>
      if w.truth v then exec w known n [] (t.get "consequent")
      else if (t.get "alternate").isSet then exec w known n [] (t.get "alternate")
      else .done .normal := by
  rw [exec_succ, execStep, if_neg (not_isLoop h (by decide)), h]
  rfl

theorem exec_labeled (h : t.type? = some "LabeledStatement") : exec w known (n + 1) ls t =
    (exec w known n ((t.get "label").name?.toList ++ ls) (t.get "body")).andThen fun c =>
      .done (c.leftLabel (t.get "label").name?) := by
  rw [exec_succ, execStep, if_neg (not_isLoop h (by decide)), h]
  rfl

theorem exec_switch (h : t.type? = some "SwitchStatement") : exec w known (n + 1) ls t =
    .after (eval w known (t.get "discriminant")) fun v =>
      .after (matching w known v (t.children "cases")) fun found =>
        (runAll (exec w known n []) (chosen (t.children "cases") found)).andThen fun c =>
          .done c.left := by
  rw [exec_succ, execStep, if_neg (not_isLoop h (by decide)), h]
  rfl

theorem exec_try (h : t.type? = some "TryStatement") : exec w known (n + 1) ls t =
    ((exec w known n [] (t.get "block")).andThen
      (runCatch w known (exec w known n []) (t.get "handler"))).andThen
      (runFinally (exec w known n []) (t.get "finalizer")) := by
  rw [exec_succ, execStep, if_neg (not_isLoop h (by decide)), h]
  rfl

theorem exec_with (h : t.type? = some "WithStatement") : exec w known (n + 1) ls t =
    .after (eval w known (t.get "object")) fun _ => exec w known n [] (t.get "body") := by
  rw [exec_succ, execStep, if_neg (not_isLoop h (by decide)), h]
  rfl

theorem exec_break (h : t.type? = some "BreakStatement") : exec w known (n + 1) ls t =
    .done (.breaks (t.get "label").name?) := by
  rw [exec_succ, execStep, if_neg (not_isLoop h (by decide)), h]
  rfl

theorem exec_continue (h : t.type? = some "ContinueStatement") : exec w known (n + 1) ls t =
    .done (.continues (t.get "label").name?) := by
  rw [exec_succ, execStep, if_neg (not_isLoop h (by decide)), h]
  rfl

theorem exec_return (h : t.type? = some "ReturnStatement") : exec w known (n + 1) ls t =
    if (t.get "argument").isSet then
      .after (eval w known (t.get "argument")) fun v => .done (.returns v)
    else .done (.returns .undefined) := by
  rw [exec_succ, execStep, if_neg (not_isLoop h (by decide)), h]
  rfl

theorem exec_throw (h : t.type? = some "ThrowStatement") : exec w known (n + 1) ls t =
    .after (eval w known (t.get "argument")) fun v => .done (.throws v) := by
  rw [exec_succ, execStep, if_neg (not_isLoop h (by decide)), h]
  rfl

theorem exec_atom {s : String} (h : t.type? = some s) (hs : s ∉ loopTypes ++ structuredTypes) :
    exec w known (n + 1) ls t = .after (w.asked t) fun _ => .done .normal := by
  obtain ⟨hloop, hother⟩ := not_or.mp (mt List.mem_append.mpr hs)
  rw [exec_succ, execStep, if_neg (not_isLoop h hloop), h]
  split <;> first | rfl | simp_all [structuredTypes]

/-! ### Signals -/

theorem eval_box (value : Tree) :
    eval w known (Node.objectExpression [Node.property (Node.identifier "v") value]) =
      .box <$> eval w known value := rfl

theorem exec_newReturn (argument : Option Tree) (place : Tree) :
    exec w known (n + 1) ls (Node.returnStatement argument place) =
      if (argument.getD .null).isSet then
        .after (eval w known (argument.getD .null)) fun v => .done (.returns v)
      else .done (.returns .undefined) := by
  have hget {key : String} (hrange : key ≠ "range") (hloc : key ≠ "loc") :
      (Node.returnStatement argument place).get key = (Node.returnStatement argument).get key :=
    get_located hrange hloc _ _
  rw [exec_return (by rw [Tree.type?, hget (by decide) (by decide)]; rfl), hget (by decide) (by decide)]
  cases argument <;> rfl

/-- The `return` of a value that is an expression. -/
theorem exec_returnStatement {value : Tree} {s : String} (h : value.type? = some s) (place : Tree) :
    exec w known (n + 1) ls (Node.returnStatement (some value) place) =
      .after (eval w known value) fun v => .done (.returns v) :=
  (exec_newReturn (some value) place).trans (if_pos (isSet_of_type? h))

end

/-! ## Functions -/

/-- What a function gives whose body ends so; a jump cannot leave it. -/
def Completion.result? : Completion → Option (Except Value Value)
  | normal => some (.ok .undefined)
  | returns v => some (.ok v)
  | throws e => some (.error e)
  | breaks _ | continues _ => none

/-- The statements run as the body of a function, and its result is taken up by `next`. -/
def call (n : Nat) (body : List Tree) (next : Value → Run) : Run :=
  (execAll w none n body).andThen fun c h =>
    match c.result? with
    | some (.ok v) => next v h
    | some (.error e) => some (.throws e, h)
    | none => none

end Downlevel.Flow
