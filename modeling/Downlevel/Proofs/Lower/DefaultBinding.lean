import Downlevel.Proofs.Lower.Default

/-!
# `Proofs.Lower.DefaultBinding`: the checks bind what the defaults did

A function with defaults binds its parameters one after another, and evaluates a default where the argument
is missing or undefined. The lowered function first binds all parameters to the arguments as they are, and
its checks then patch those that are undefined. At each check the parameters before it are bound as the
defaults bind them, and those from it on to their arguments: each check keeps this, since the names are
distinct and a default depends on nothing that is bound after it.
-/

namespace Downlevel.Lower.Default

open Tree Node

variable {β : Type}

/-! ## Binding parameters -/

/-- The values of variables: a variable without one is undefined. -/
abbrev Store (β : Type) := String → Option β

/-- The values of variables, and the defaults evaluated so far. -/
@[ext] structure Bindings (β : Type) where
  store : Store β
  evaluated : List Tree

/-- A parameter that is a variable, and its default. -/
structure Param where
  name : String
  default? : Option Tree

/-- The parameter without its default. -/
def Param.plain (p : Param) : Param := ⟨p.name, none⟩

/-- What the defaults of a function stand for. -/
abbrev Values (β : Type) := Tree → Store β → Option β

namespace Bindings

variable (value : Values β) (s : Bindings β)

/-- Gives a variable a value, for which some defaults were evaluated. -/
def write (x : String) (v : Option β) (defaults : List Tree) : Bindings β :=
  ⟨Function.update s.store x v, s.evaluated ++ defaults⟩

/-- Binds a parameter to an argument: its default stands for an undefined one. -/
def bindOne (p : Param) (arg : Option β) : Bindings β :=
  match p.default?, arg with
  | some e, none => s.write p.name (value e s.store) [e]
  | _, _ => s.write p.name arg []

/-- Evaluates the default of a parameter that is undefined. -/
def patch (p : Param) : Bindings β :=
  match p.default?, s.store p.name with
  | some e, none => s.write p.name (value e s.store) [e]
  | _, _ => s

end Bindings

/-- Binds parameters from left to right; missing arguments are undefined. -/
def bind (value : Values β) : List Param → List (Option β) → Bindings β → Bindings β
  | [], _, s => s
  | p :: ps, args, s => bind value ps args.tail (s.bindOne value p args.head?.join)

/-- A default depends on nothing that is bound by its parameter or by those behind it. -/
def LooksBack (value : Values β) (ps : List Param) : Prop :=
  ∀ p behind, (p :: behind) <:+ ps → ∀ e, p.default? = some e → ∀ σ τ : Store β,
    (∀ x, x ∉ (p :: behind).map Param.name → σ x = τ x) → value e σ = value e τ

variable {ps : List Param}

/-- Plain parameters are bound to their arguments, and nothing is evaluated. -/
theorem bind_plain_cons (value : Values β) (p : Param) (args : List (Option β)) (s : Bindings β) :
    bind value ((p :: ps).map Param.plain) args s =
      bind value (ps.map Param.plain) args.tail (s.write p.name args.head?.join []) := rfl

/-- All other variables keep their values. -/
theorem store_bind_plain (value : Values β) (args : List (Option β)) (s : Bindings β) {x : String}
    (hx : x ∉ ps.map Param.name) : (bind value (ps.map Param.plain) args s).store x = s.store x := by
  induction ps generalizing args s with
  | nil => rfl
  | cons p ps ih =>
    rw [List.map_cons, List.mem_cons, not_or] at hx
    rw [bind_plain_cons, ih _ _ hx.2]
    exact Function.update_of_ne hx.1 _ _

/-- A variable that is no parameter can as well be given its value before. -/
theorem bind_plain_write (value : Values β) (args : List (Option β)) (s : Bindings β) {x : String}
    (v : Option β) (defaults : List Tree) (hx : x ∉ ps.map Param.name) :
    (bind value (ps.map Param.plain) args s).write x v defaults =
      bind value (ps.map Param.plain) args (s.write x v defaults) := by
  induction ps generalizing args s with
  | nil => rfl
  | cons p ps ih =>
    rw [List.map_cons, List.mem_cons, not_or] at hx
    rw [bind_plain_cons, bind_plain_cons, ih _ _ hx.2]
    congr 1
    exact Bindings.ext (Function.update_comm (Ne.symm hx.1) _ _ _) (by simp [Bindings.write])

/-- **Patching the parameters binds them as their defaults do.** -/
theorem foldl_patch {value : Values β} (hnodup : (ps.map Param.name).Nodup) (hback : LooksBack value ps)
    (args : List (Option β)) (s : Bindings β) :
    ps.foldl (Bindings.patch value) (bind value (ps.map Param.plain) args s) = bind value ps args s := by
  induction ps generalizing args s with
  | nil => rfl
  | cons p ps ih =>
    rw [List.map_cons, List.nodup_cons] at hnodup
    have hback' : LooksBack value ps := fun q behind hq => hback q behind (hq.trans (List.suffix_cons p ps))
    set arg := args.head?.join with harg
    have hstore : (bind value ((p :: ps).map Param.plain) args s).store p.name = arg := by
      rw [bind_plain_cons, store_bind_plain value _ _ hnodup.1]
      exact Function.update_self _ _ _
    -- The check of the first parameter leaves the others bound to their arguments.
    have hpatch : Bindings.patch value (bind value ((p :: ps).map Param.plain) args s) p =
        bind value (ps.map Param.plain) args.tail (s.bindOne value p arg) := by
      unfold Bindings.patch Bindings.bindOne
      rw [hstore]
      cases hdefault : p.default? with
      | none => rfl
      | some e =>
        cases harg' : arg with
        | some v => rw [bind_plain_cons, ← harg, harg']
        | none =>
          have hvalue : value e (bind value ((p :: ps).map Param.plain) args s).store = value e s.store :=
            hback p ps (List.suffix_refl _) e hdefault _ _ fun x hx => store_bind_plain value _ _ hx
          have hwrite : (s.write p.name none []).write p.name (value e s.store) [e] =
              s.write p.name (value e s.store) [e] :=
            Bindings.ext (Function.update_idem ..) (by simp [Bindings.write])
          show Bindings.write _ p.name _ [e] = bind _ _ _ (s.write p.name _ [e])
          rw [hvalue, bind_plain_cons, bind_plain_write value _ _ _ _ hnodup.1, ← harg, harg', hwrite]
    rw [List.foldl_cons, hpatch, ih hnodup.2 hback']
    rfl

/-- Each default is evaluated at most once, in the order of the parameters. -/
theorem evaluated_bind (value : Values β) (args : List (Option β)) (s : Bindings β) :
    ∃ es, es.Sublist (ps.filterMap Param.default?) ∧
      (bind value ps args s).evaluated = s.evaluated ++ es := by
  induction ps generalizing args s with
  | nil => exact ⟨[], .slnil, (List.append_nil _).symm⟩
  | cons p ps ih =>
    obtain ⟨es, hes, heq⟩ := ih args.tail (s.bindOne value p args.head?.join)
    rw [bind, heq, List.filterMap_cons]
    unfold Bindings.bindOne
    cases p.default? with
    | none => exact ⟨es, hes, by simp [Bindings.write]⟩
    | some e =>
      cases args.head?.join with
      | none => exact ⟨e :: es, hes.cons_cons e, by simp [Bindings.write]⟩
      | some v => exact ⟨es, hes.cons e, by simp [Bindings.write]⟩

/-! ## Running the checks -/

/-- The name of an identifier. -/
def bound? (t : Tree) : Option String := if t.isType "Identifier" then t.name? else none

/-- A parameter that is a variable. -/
def param? (t : Tree) : Option Param :=
  (⟨·, if isDefaulted t then some (t.get "right") else none⟩) <$> bound? (target t)

/-- The variable and the value of `x = e;`. -/
def assignment? (t : Tree) : Option (String × Tree) :=
  let e := t.get "expression"
  if t.isType "ExpressionStatement" && e.isType "AssignmentExpression" && (e.get "operator").isStr "=" then
    (·, e.get "right") <$> bound? (e.get "left")
  else none

/-- The variable of `x === void 0`. -/
def undefinedTest? (t : Tree) : Option String :=
  let e := t.get "right"
  if t.isType "BinaryExpression" && (t.get "operator").isStr "===" && e.isType "UnaryExpression" &&
      (e.get "operator").isStr "void" then
    bound? (t.get "left")
  else none

/-- Runs an assignment, and nothing else. -/
def runAssignment (value : Values β) (s : Bindings β) (t : Tree) : Option (Bindings β) :=
  (fun (x, e) => s.write x (value e s.store) [e]) <$> assignment? t

/-- Runs a block of assignments that stands under a test for undefined, and nothing else. -/
def runCheck (value : Values β) (s : Bindings β) (t : Tree) : Option (Bindings β) :=
  let block := t.get "consequent"
  if t.isType "IfStatement" && block.isType "BlockStatement" && (t.get "alternate").isNull then
    (undefinedTest? (t.get "test")).bind fun x =>
      if (s.store x).isSome then some s else (block.children "body").foldlM (runAssignment value) s
  else none

/-- A check patches its parameter. -/
theorem runCheck_check {x : String} {t e : Tree} (hx : bound? t = some x) (value : Values β)
    (s : Bindings β) : runCheck value s (check t e) = some (s.patch value ⟨x, some e⟩) := by
  have hname : bound? (sameName t) = some x := by
    unfold bound? at hx
    split at hx
    · exact hx
    · cases hx
  have htest : undefinedTest? (binary "===" (sameName t) voidZero) = some x := hname
  have hassign : assignment? (expressionStatement (assign (sameName t) e)) = some (x, e) := by
    show (·, e) <$> bound? (sameName t) = some (x, e)
    rw [hname]
    rfl
  show (undefinedTest? (binary "===" (sameName t) voidZero)).bind _ = _
  rw [htest, Option.bind_some]
  unfold Bindings.patch
  cases s.store x with
  | some v => rfl
  | none =>
    show [expressionStatement (assign (sameName t) e)].foldlM (runAssignment value) s = _
    rw [List.foldlM_cons, runAssignment, hassign]
    rfl

/-- The checks patch all parameters. -/
theorem foldlM_runCheck (value : Values β) {params : List Tree} (h : params.map param? = ps.map some)
    (s : Bindings β) :
    (checksOf params).foldlM (runCheck value) s = some (ps.foldl (Bindings.patch value) s) := by
  induction params generalizing ps s with
  | nil =>
    obtain rfl := List.map_eq_nil_iff.mp h.symm
    rfl
  | cons p params ih =>
    obtain ⟨q, qs, rfl, hq, hqs⟩ := List.map_eq_cons_iff.mp h.symm
    obtain ⟨x, hx, rfl⟩ := Option.map_eq_some_iff.mp hq.symm
    rw [checksOf_cons, List.foldl_cons]
    unfold target at hx
    cases hdefault : isDefaulted p with
    | false => exact ih hqs.symm s
    | true =>
      rw [hdefault, if_pos rfl] at hx
      rw [if_pos rfl, List.foldlM_cons, checkOf, runCheck_check hx]
      exact ih hqs.symm _

/-! ## The lowering -/

/-- The statements that a body stands for: those of a block, or one that returns an expression. -/
def statementsOf (body : Tree) : List Tree :=
  if body.isType "BlockStatement" then body.children "body"
  else
    let value := if body.isSet then body else record []
    [returnStatement (some value) value]

theorem children_body_withStatements {t : Tree} (ht : t.isObject) :
    ((withStatements t).get "body").children "body" = statementsOf (t.get "body") := by
  unfold withStatements statementsOf
  simp only
  split
  · rename_i hblock
    obtain ⟨m, fs, hbody⟩ := isObject_of_type? (isType_iff.mp hblock)
    split
    · rfl
    · rename_i hhas
      rw [has, Bool.not_eq_true, Option.isSome_eq_false_iff, Option.isNone_iff_eq_none] at hhas
      rw [get_set_self ht, children, children, get_set_self (hbody ▸ rfl), Tree.get, hhas]
      rfl
  · rw [get_set_of_ne (by decide), get_set_self ht, children, block, get_located (by decide) (by decide)]
    rfl

/-- The prologue of a body: all directives at its head, and then all declarations that capture `this` or
`arguments`. -/
def IsPrologue (prologue rest : List Tree) : Prop :=
  ∃ directives aliases, prologue = directives ++ aliases ∧ (∀ d ∈ directives, isDirective d = true) ∧
    (∀ a ∈ aliases, isCaptureAlias a = true) ∧ (∀ t ∈ (aliases ++ rest).head?, isDirective t = false) ∧
    ∀ t ∈ rest.head?, isCaptureAlias t = false

theorem isPrologue_take (statements : List Tree) :
    let n := prologueLength statements true
    IsPrologue (statements.take n) (statements.drop n) := by
  intro n
  set directives := statements.takeWhile isDirective
  set aliases := (statements.dropWhile isDirective).takeWhile isCaptureAlias
  set rest := (statements.dropWhile isDirective).dropWhile isCaptureAlias
  have hbehind : aliases ++ rest = statements.dropWhile isDirective := List.takeWhile_append_dropWhile
  have hsplit : directives ++ aliases ++ rest = statements := by
    rw [List.append_assoc, hbehind, List.takeWhile_append_dropWhile]
  have hn : (directives ++ aliases).length = n := List.length_append
  have htake : statements.take n = directives ++ aliases :=
    (congrArg (List.take n) hsplit.symm).trans (List.take_left' hn)
  have hdrop : statements.drop n = rest := (congrArg (List.drop n) hsplit.symm).trans (List.drop_left' hn)
  have hhead : ∀ {p : Tree → Bool} {ts : List Tree}, ∀ t ∈ (ts.dropWhile p).head?, p t = false := by
    intro p ts t ht
    have hnot := List.head?_dropWhile_not p ts
    rwa [Option.mem_def.mp ht] at hnot
  rw [hdrop]
  refine ⟨directives, aliases, htake, List.all_eq_true.mp List.all_takeWhile,
    List.all_eq_true.mp List.all_takeWhile, ?_, hhead⟩
  rw [hbehind]
  exact hhead

/-- **The checks bind what the defaults did.** A function with defaults, of which nothing is reported, keeps
its parameters without the defaults, and its statements, with checks behind the prologue. Whatever the
arguments are and the defaults stand for, the checks bind the parameters as the defaults did. They evaluate
the same defaults in the same order, each at most once. -/
theorem visit_binds {m : Option Nat} {fs gs : List (String × Tree)} {w w' : Work} {t : Tree}
    (hin : (Tree.obj m fs).isTypeIn functionTypes = true)
    (hparts : Yields (visitFields handle (fun _ => some ()) fs) w gs w')
    (hvisit : Yields (visit handle () (.obj m fs)) w (.keep t) w')
    (hparams : ((Tree.obj m gs).children "params").map param? = ps.map some)
    (hdefault : ((Tree.obj m gs).children "params").any isDefaulted = true) (hnodup : (ps.map Param.name).Nodup) :
    t.children "params" = ((Tree.obj m gs).children "params").map target ∧
      let statements := statementsOf ((Tree.obj m gs).get "body")
      let n := prologueLength statements true
      IsPrologue (statements.take n) (statements.drop n) ∧ ∃ checks,
        (t.get "body").children "body" = statements.take n ++ checks ++ statements.drop n ∧
        ∀ value : Values β, LooksBack value ps → ∀ args σ,
          checks.foldlM (runCheck value) (bind value (ps.map Param.plain) args ⟨σ, []⟩) =
              some (bind value ps args ⟨σ, []⟩) ∧
            (bind value ps args ⟨σ, []⟩).evaluated.Sublist (ps.filterMap Param.default?) := by
  have hmoved : t = moved (.obj m gs) := by
    rw [visit, handle] at hvisit
    obtain ⟨t₁, w₁, hdescend, hvisit⟩ := hvisit.bind_inv
    obtain ⟨rfl, rfl⟩ := hdescend.unique (hparts.map _)
    rw [hin, if_pos rfl] at hvisit
    obtain ⟨r, w₂, hfunction, hvisit⟩ := hvisit.bind_inv
    obtain ⟨heq, rfl⟩ := hvisit.pure_inv
    cases heq
    -- A function that is left alone is reported, or has no defaults.
    rcases function_cases hfunction with ⟨hempty, -⟩ | ⟨-, ⟨-, -, d, hd⟩ | ⟨-, ⟨-, -, d, hd⟩ | ⟨-, heq, -⟩⟩⟩
    · obtain ⟨p, hp, hdefault⟩ := List.any_eq_true.mp hdefault
      exact absurd hdefault (List.filter_eq_nil_iff.mp (List.isEmpty_iff.mp hempty) p hp)
    · exact absurd (congrArg List.length hd) (by simp)
    · exact absurd (congrArg List.length hd) (by simp)
    · exact heq
  subst hmoved
  obtain ⟨htargets, hstatements⟩ := children_moved (t := .obj m gs) rfl
  rw [children_body_withStatements rfl] at hstatements
  refine ⟨htargets, isPrologue_take _, _, hstatements, ?_⟩
  intro value hback args σ
  rw [foldlM_runCheck value hparams, foldl_patch hnodup hback]
  obtain ⟨es, hes, heq⟩ := @evaluated_bind β ps value args ⟨σ, []⟩
  exact ⟨rfl, heq ▸ hes⟩

/-- `"use strict";` -/
def useStrict : Tree :=
  (expressionStatement (literal (.str "use strict"))).set "directive" (.str "use strict")

/-- `function (a, b = a, c = 1) { "use strict"; return c; }`. -/
def defaultedFunction : Tree :=
  let defaulted := fun name value => make "AssignmentPattern" [("left", identifier name), ("right", value)]
  functionExpression [identifier "a", defaulted "b" (identifier "a"), defaulted "c" (literal (.int 1))]
    (block [useStrict, returnStatement (some (identifier "c"))])

/-- A name stands for the value of its variable, and a literal for itself. -/
def simpleValues : Values Int := fun e σ => e.name?.elim (e.get "value").int? σ

/-- With 5 for its only argument, both defaults are evaluated, the first to 5. -/
theorem visit_binds_defaultedFunction :
    let ps : List Param := [⟨"a", none⟩, ⟨"b", some (identifier "a")⟩, ⟨"c", some (literal (.int 1))⟩]
    LooksBack simpleValues ps ∧
      (moved defaultedFunction).children "params" = [identifier "a", identifier "b", identifier "c"] ∧
      ∃ checks, ((moved defaultedFunction).get "body").children "body" =
          [useStrict] ++ checks ++ [returnStatement (some (identifier "c"))] ∧
        checks.foldlM (runCheck simpleValues)
            (bind simpleValues (ps.map Param.plain) [some 5] ⟨fun _ => none, []⟩) =
          some (bind simpleValues ps [some 5] ⟨fun _ => none, []⟩) ∧
        (bind simpleValues ps [some 5] ⟨fun _ => none, []⟩).store "b" = some 5 := by
  intro ps
  have hback : LooksBack simpleValues ps := by
    intro p behind hsuffix e he σ τ hagree
    simp only [ps, List.suffix_cons_iff, List.suffix_nil, List.cons.injEq, reduceCtorEq, or_false] at hsuffix
    rcases hsuffix with ⟨rfl, rfl⟩ | ⟨rfl, rfl⟩ | ⟨rfl, rfl⟩ <;> cases he
    · exact hagree "a" (by decide)
    · rfl
  have hparts : Yields (visitFields handle (fun _ => some ()) defaultedFunction.fields)
      ⟨.ofTree defaultedFunction, []⟩ defaultedFunction.fields ⟨.ofTree defaultedFunction, []⟩ := rfl
  have hparams : (defaultedFunction.children "params").map param? = ps.map some := rfl
  obtain ⟨htargets, -, checks, hnew, hruns⟩ :=
    visit_binds (β := Int) (m := none) rfl hparts rfl hparams rfl (by decide)
  exact ⟨hback, htargets, checks, hnew,
    (hruns simpleValues hback [some 5] fun _ => none).1, rfl⟩

end Downlevel.Lower.Default
