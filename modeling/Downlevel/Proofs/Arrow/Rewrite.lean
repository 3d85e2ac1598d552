import Downlevel.Proofs.Grammar.Remake
import Downlevel.Proofs.Lower.Arrow
import Downlevel.Proofs.Names

/-!
# `Proofs.Arrow.Rewrite`: the lowering of arrow functions without a state

The lowering of arrow functions carries along which aliases its frame needs, and takes their names from a
supply. Once the two names are known, what becomes of a node depends on the node and its context alone:
`rewrite` says so by recursion on the tree, and `needs` says whether a frame has to declare an alias for a
part of it. Every visit agrees with the two.
-/

namespace Downlevel.Lower.Arrow

open Tree Node Grammar

variable {inside : String → Option Context} {key type : String}

/-! ## The rewriting -/

/-- Is an arrow function kept without a look at its parts? -/
def isShunned (c : Context) (t : Tree) : Bool := c.superCallMissing && t.usesThis

/-- Is an arrow function kept once its parts are rewritten? -/
def staysArrow (t : Tree) : Bool := t.usesSuper || t.usesNewTarget

/-- The fields of a member, a property or a method that are not only names. -/
def isReferring (t : Tree) (key : String) : Bool :=
  if t.isType "MemberExpression" then
    key = "object" || (key = "property" && (t.get "computed").isSet)
  else key = "value" || (key = "key" && (t.get "computed").isSet)

/-- Members, properties and methods. -/
def memberTypes : List String := ["MemberExpression", "Property", "MethodDefinition"]

/-- The contexts in which the parts of a node are visited, if they are. -/
def contexts (c : Context) (t : Tree) (key : String) : Option Context :=
  if t.isTypeIn frameTypes then some ((frameContext c t).at t key)
  else if t.isType "ArrowFunctionExpression" then
    if isShunned c t then none else some { c.at t key with inArrow := true }
  else if t.isTypeIn ["ThisExpression", "Identifier"] then none
  else if t.isTypeIn memberTypes then if isReferring t key then some (c.at t key) else none
  else some (c.at t key)

/-- What a frame provides. -/
inductive Provision where
  | receiver
  | arguments
  deriving DecidableEq

/-- The type of the nodes that refer to it. -/
def Provision.nodeType : Provision → String
  | .receiver => "ThisExpression"
  | .arguments => "Identifier"

/-- Is a node replaced by an alias? -/
def isAliased (w : Provision) (c : Context) (t : Tree) : Bool :=
  match w with
  | .receiver => t.isType "ThisExpression" && c.inArrow
  | .arguments =>
    t.isType "Identifier" && ((t.get "name").isStr "arguments" && c.inArrow && c.allowsArguments)

/-- The contexts of the parts that belong to the same frame as the node. -/
def contextsWithin (c : Context) (t : Tree) (key : String) : Option Context :=
  if t.isTypeIn frameTypes then none else contexts c t key

/-- Does a part of a frame need an alias? -/
def needs (w : Provision) : Context → Tree → Bool := meets contextsWithin (isAliased w)

/-- Does a child need an alias? -/
def childNeeds (w : Provision) : (String → Option Context) → String × Tree → Bool :=
  meetsChild contextsWithin (isAliased w)

/-- The names of the aliases. -/
structure AliasNames where
  forThis : String
  forArguments : String

/-- The name of an alias. -/
def AliasNames.of (a : AliasNames) : Provision → String
  | .receiver => a.forThis
  | .arguments => a.forArguments

/-- The declarations of the aliases that a frame needs. -/
def declarationsFor (a : AliasNames) (c : Context) (t : Tree) : List Tree :=
  (if t.childNodes.any (childNeeds .receiver (contexts c t)) then
    [var a.forThis (some thisExpression)] else []) ++
  (if t.childNodes.any (childNeeds .arguments (contexts c t)) then
    [var a.forArguments (some (identifier "arguments"))] else [])

/-- A node `t` whose parts are rewritten, `t₁`, finished. -/
def finish (a : AliasNames) (c : Context) (t t₁ : Tree) : Tree :=
  if t.isTypeIn frameTypes then
    withDeclarations (decide (c.place = .constructorFunction)) (declarationsFor a c t) t₁
  else if t.isType "ArrowFunctionExpression" then
    if isShunned c t || staysArrow t then t₁ else asFunction t₁
  else if isAliased .receiver c t then identifier a.forThis t
  else if isAliased .arguments c t then identifier a.forArguments t
  else t₁

/-- **The lowering of arrow functions**, for given names of the aliases. -/
def rewrite (a : AliasNames) : Context → Tree → Tree := remake contexts (finish a)

/-- A child rewritten. -/
def rewriteChild (a : AliasNames) : (String → Option Context) → String → Tree → Tree :=
  remakeChild contexts (finish a)

section

variable {a : AliasNames} {c : Context} {t : Tree} {w : Provision}

theorem rewrite_eq (h : t.isObject) :
    rewrite a c t = finish a c t (mapChildren (rewriteChild a (contexts c t)) t) := remake_eq h

theorem needs_eq (h : t.isObject) : needs w c t =
    (isAliased w c t || t.childNodes.any (childNeeds w (contextsWithin c t))) := meets_eq h

theorem rewriteChild_some {c' : Context} (h : inside key = some c') (y : Tree) :
    rewriteChild a inside key y = rewrite a c' y := by
  unfold rewriteChild remakeChild
  rw [h]
  rfl

theorem rewriteChild_none (h : inside key = none) (y : Tree) : rewriteChild a inside key y = y := by
  unfold rewriteChild remakeChild
  rw [h]

theorem childNeeds_some {p : String × Tree} {c' : Context} (h : inside p.1 = some c') :
    childNeeds w inside p = needs w c' p.2 := by
  unfold childNeeds meetsChild
  rw [h]
  rfl

theorem childNeeds_none {p : String × Tree} (h : inside p.1 = none) : childNeeds w inside p = false := by
  unfold childNeeds meetsChild
  rw [h]

end

/-! ## Kinds of nodes -/

section

variable {a : AliasNames} {c : Context} {t t₁ : Tree} {key : String}

theorem contexts_frame (h : t.isTypeIn frameTypes) :
    contexts c t key = some ((frameContext c t).at t key) := if_pos h

theorem contexts_arrow (htype : t.type? = some "ArrowFunctionExpression") :
    contexts c t key = if isShunned c t then none else some { c.at t key with inArrow := true } := by
  rw [contexts, isTypeIn_false htype (by decide), if_neg Bool.false_ne_true, if_pos (isType_iff.mpr htype)]

theorem contexts_arrow_of (htype : t.type? = some "ArrowFunctionExpression") (h : isShunned c t = false)
    (key : String) : contexts c t key = some { c.at t key with inArrow := true } := by
  rw [contexts_arrow htype, h, if_neg Bool.false_ne_true]

theorem finish_arrow (htype : t.type? = some "ArrowFunctionExpression") : finish a c t t₁ =
    if isShunned c t || staysArrow t then t₁ else asFunction t₁ := by
  rw [finish, isTypeIn_false htype (by decide), if_neg Bool.false_ne_true, if_pos (isType_iff.mpr htype)]

theorem contexts_leaf {w : Provision} (htype : t.type? = some w.nodeType) : contexts c t key = none := by
  rw [contexts, isTypeIn_false htype (by cases w <;> decide), if_neg Bool.false_ne_true,
    if_neg (by cases w <;> simp [isType_of_type? htype, Provision.nodeType]),
    if_pos (isTypeIn_of_mem htype (by cases w <;> decide))]

/-- A node refers to one provision at most. -/
theorem isAliased_other {w w' : Provision} (htype : t.type? = some w.nodeType) (hne : w' ≠ w) :
    isAliased w' c t = false := by
  cases w <;> cases w' <;> first
    | exact absurd rfl hne
    | simp [isAliased, isType_of_type? htype, Provision.nodeType]

/-- Nodes that the rewriting has no case for. -/
def isPassed (t : Tree) : Bool :=
  !t.isTypeIn (frameTypes ++ ["ArrowFunctionExpression", "ThisExpression", "Identifier"])

theorem isPassed_of_type? (htype : t.type? = some type)
    (h : type ∉ frameTypes ++ ["ArrowFunctionExpression", "ThisExpression", "Identifier"]) : isPassed t := by
  rw [isPassed, isTypeIn_false htype h]
  rfl

theorem isPassed_iff : isPassed t ↔ t.isTypeIn frameTypes = false ∧
    t.isType "ArrowFunctionExpression" = false ∧ ∀ w : Provision, t.isType w.nodeType = false := by
  have hleaf : (∀ w : Provision, t.isType w.nodeType = false) ↔
      t.isType "ThisExpression" = false ∧ t.isType "Identifier" = false :=
    ⟨fun h => ⟨h .receiver, h .arguments⟩, fun h w => by cases w <;> [exact h.1; exact h.2]⟩
  rw [hleaf, isPassed, isTypeIn, List.any_append, ← isTypeIn]
  simp

/-- **The cases of the rewriting.** -/
theorem node_cases (t : Tree) : t.isTypeIn frameTypes ∨ t.type? = some "ArrowFunctionExpression" ∨
    (∃ w : Provision, t.type? = some w.nodeType) ∨ isPassed t := by
  simp only [isPassed_iff, ← isType_iff, ← Bool.not_eq_true]
  tauto

theorem isAliased_of_isPassed {w : Provision} (h : isPassed t) : isAliased w c t = false := by
  have hleaf := (isPassed_iff.mp h).2.2 w
  cases w <;> simp_all [isAliased, Provision.nodeType]

theorem finish_passed (h : isPassed t) : finish a c t t₁ = t₁ := by
  obtain ⟨hframe, harrow, -⟩ := isPassed_iff.mp h
  rw [finish, hframe, harrow, isAliased_of_isPassed h, isAliased_of_isPassed h]
  rfl

theorem contexts_passed (h : isPassed t) : contexts c t key =
    if t.isTypeIn memberTypes then if isReferring t key then some (c.at t key) else none
    else some (c.at t key) := by
  obtain ⟨hframe, harrow, hleaf⟩ := isPassed_iff.mp h
  have hother : t.isTypeIn ["ThisExpression", "Identifier"] = false :=
    List.any_eq_false.mpr (by simpa using ⟨hleaf .receiver, hleaf .arguments⟩)
  rw [contexts, hframe, harrow, hother]
  rfl

theorem isObject_of_typed (htype : t.type? = some type) : t.isObject := by
  obtain ⟨m, fs, rfl⟩ := isObject_of_type? htype
  rfl

/-- A node is the same until it is finished if none of its parts is visited. -/
theorem rewrite_closed (hobject : t.isObject) (hnone : ∀ key, contexts c t key = none) :
    rewrite a c t = finish a c t t := by
  rw [rewrite_eq hobject, mapChildren_eq_self_iff.mpr fun p _ => rewriteChild_none (hnone p.1) p.2]

theorem rewrite_frame (hobject : t.isObject) (h : t.isTypeIn frameTypes) :
    rewrite a c t = withDeclarations (decide (c.place = .constructorFunction)) (declarationsFor a c t)
      (mapChildren (rewriteChild a (contexts c t)) t) := by
  rw [rewrite_eq hobject, finish, if_pos h]

theorem rewrite_shunned (htype : t.type? = some "ArrowFunctionExpression")
    (hshunned : isShunned c t) : rewrite a c t = t := by
  have hnone : ∀ key, contexts c t key = none := by
    intro key
    rw [contexts_arrow htype, hshunned, if_pos rfl]
  rw [rewrite_closed (isObject_of_typed htype) hnone, finish_arrow htype, hshunned, Bool.true_or, if_pos rfl]

theorem rewrite_arrow (htype : t.type? = some "ArrowFunctionExpression")
    (hshunned : isShunned c t = false) : rewrite a c t =
      if staysArrow t then mapChildren (rewriteChild a (contexts c t)) t
      else asFunction (mapChildren (rewriteChild a (contexts c t)) t) := by
  rw [rewrite_eq (isObject_of_typed htype), finish_arrow htype, hshunned, Bool.false_or]

theorem rewrite_leaf {w : Provision} (htype : t.type? = some w.nodeType) :
    rewrite a c t = if isAliased w c t then identifier (a.of w) t else t := by
  rw [rewrite_closed (isObject_of_typed htype) fun key => contexts_leaf htype, finish,
    isTypeIn_false htype (by cases w <;> decide), if_neg Bool.false_ne_true,
    if_neg (by cases w <;> simp [isType_of_type? htype, Provision.nodeType])]
  cases w with
  | receiver =>
    rw [isAliased_other htype (show Provision.arguments ≠ .receiver by decide), if_neg Bool.false_ne_true]
    rfl
  | arguments =>
    rw [isAliased_other htype (show Provision.receiver ≠ .arguments by decide), if_neg Bool.false_ne_true]
    rfl

theorem rewrite_passed (hobject : t.isObject) (h : isPassed t) :
    rewrite a c t = mapChildren (rewriteChild a (contexts c t)) t := by
  rw [rewrite_eq hobject, finish_passed h]

end

/-! ## The state -/

/-- The name of an alias, if it has been handed out. -/
def Aliases.alias (st : Aliases) : Provision → Option String
  | .receiver => st.thisAlias
  | .arguments => st.argumentsAlias

/-- Does the current frame need an alias? -/
def Aliases.uses (st : Aliases) : Provision → Bool
  | .receiver => st.usesThis
  | .arguments => st.usesArguments

/-- The current frame needs an alias. -/
def Aliases.withUse (st : Aliases) : Provision → Aliases
  | .receiver => { st with usesThis := true }
  | .arguments => { st with usesArguments := true }

/-- An alias, taken from the supply if there is none yet. -/
def Aliases.handOut (st : Aliases) : Provision → String × Aliases
  | .receiver => st.withThis
  | .arguments => st.withArguments

/-- The names are those of the aliases that have been handed out. -/
def Covers (a : AliasNames) (st : Aliases) : Prop := ∀ w name, st.alias w = some name → name = a.of w

/-- Aliases that have been handed out stay. -/
def Extends (st st' : Aliases) : Prop := ∀ w name, st.alias w = some name → st'.alias w = some name

/-- The aliases are new with respect to names in use, start with an underscore and differ. -/
structure IsFresh (used : List String) (st : Aliases) : Prop where
  remembers : ∀ name ∈ used, name ∈ st.names.used
  new : ∀ w name, st.alias w = some name → name ∉ used ∧ name.toList.head? = some '_' ∧ name ∈ st.names.used
  differ : ∀ w w' name, st.alias w = some name → st.alias w' = some name → w = w'

section

variable {used : List String} {st st' st'' : Aliases} {a : AliasNames} {w : Provision}

theorem Extends.refl (st : Aliases) : Extends st st := fun _ _ => id

theorem Extends.trans (h : Extends st st') (h' : Extends st' st'') : Extends st st'' :=
  fun w name hname => h' w name (h w name hname)

theorem Covers.of_extends (h : Covers a st') (hext : Extends st st') : Covers a st :=
  fun w name hname => h w name (hext w name hname)

/-- A name is known, or it is a new one and nothing else changes. -/
theorem handOut_cases (st : Aliases) (w : Provision) :
    (st.alias w = some (st.handOut w).1 ∧ (st.handOut w).2 = st) ∨ st.alias w = none ∧ ∃ root,
      (st.handOut w).1 = (st.names.fresh root).1 ∧ (st.handOut w).2.names = (st.names.fresh root).2 ∧
      ∀ w', (st.handOut w).2.alias w' = if w' = w then some (st.handOut w).1 else st.alias w' := by
  cases w with
  | receiver =>
    unfold Aliases.handOut Aliases.withThis
    cases h : st.thisAlias with
    | some name => exact .inl ⟨h, rfl⟩
    | none => exact .inr ⟨h, "this", rfl, rfl, fun w' => by cases w' <;> rfl⟩
  | arguments =>
    unfold Aliases.handOut Aliases.withArguments
    cases h : st.argumentsAlias with
    | some name => exact .inl ⟨h, rfl⟩
    | none => exact .inr ⟨h, "arguments", rfl, rfl, fun w' => by cases w' <;> rfl⟩

theorem uses_handOut (st : Aliases) (w w' : Provision) : (st.handOut w).2.uses w' = st.uses w' := by
  cases w <;> unfold Aliases.handOut
  · unfold Aliases.withThis
    cases st.thisAlias <;> cases w' <;> rfl
  · unfold Aliases.withArguments
    cases st.argumentsAlias <;> cases w' <;> rfl

theorem alias_handOut (st : Aliases) (w : Provision) :
    (st.handOut w).2.alias w = some (st.handOut w).1 := by
  obtain ⟨hname, hsame⟩ | ⟨-, _, -, -, halias⟩ := handOut_cases st w
  · rw [hsame, hname]
  · rw [halias, if_pos rfl]

theorem extends_handOut (st : Aliases) (w : Provision) : Extends st (st.handOut w).2 := by
  obtain ⟨-, hsame⟩ | ⟨hnone, _, -, -, halias⟩ := handOut_cases st w
  · rw [hsame]
    exact Extends.refl st
  · intro w' name hname
    by_cases heq : w' = w
    · rw [heq, hnone] at hname
      cases hname
    · rw [halias, if_neg heq, hname]

theorem IsFresh.handOut (h : IsFresh used st) (w : Provision) : IsFresh used (st.handOut w).2 := by
  obtain ⟨-, hsame⟩ | ⟨-, root, hname, hnames, halias⟩ := handOut_cases st w
  · rwa [hsame]
  · have hnew : (st.handOut w).1 ∉ st.names.used := by
      rw [hname]
      exact NameSupply.fresh_not_mem st.names root
    have hremembers : ∀ {name}, name ∈ st.names.used → name ∈ (st.handOut w).2.names.used := by
      intro name hmem
      rw [hnames]
      exact NameSupply.mem_used_fresh.mpr (.inr hmem)
    refine ⟨fun name hmem => hremembers (h.remembers name hmem), ?_, ?_⟩
    · intro w' name hname'
      rw [halias] at hname'
      split at hname'
      · cases hname'
        refine ⟨fun hmem => hnew (h.remembers _ hmem), ?_, ?_⟩
        · rw [hname, NameSupply.head?_fresh]
        · rw [hname, hnames]
          exact NameSupply.mem_used_fresh.mpr (.inl rfl)
      · obtain ⟨hnot, hhead, hmem⟩ := h.new w' name hname'
        exact ⟨hnot, hhead, hremembers hmem⟩
    · intro w₁ w₂ name h₁ h₂
      rw [halias] at h₁ h₂
      split at h₁ <;> split at h₂
      · rename_i heq₁ heq₂
        rw [heq₁, heq₂]
      · cases h₁
        exact absurd (h.new w₂ _ h₂).2.2 hnew
      · cases h₂
        exact absurd (h.new w₁ _ h₁).2.2 hnew
      · exact h.differ w₁ w₂ name h₁ h₂

theorem IsFresh.congr (h : IsFresh used st) (hnames : st'.names = st.names)
    (halias : st'.alias = st.alias) : IsFresh used st' := by
  obtain ⟨hremembers, hnew, hdiffer⟩ := h
  rw [← hnames] at hremembers hnew
  rw [← halias] at hnew hdiffer
  exact ⟨hremembers, hnew, hdiffer⟩

/-- An alias may be handed out or not. -/
theorem extends_provided (st : Aliases) (w : Provision) (b : Bool) :
    Extends st (if b then (st.handOut w).2 else st) := by
  cases b with
  | true => exact extends_handOut st w
  | false => exact Extends.refl st

theorem IsFresh.provided (h : IsFresh used st) (w : Provision) (b : Bool) :
    IsFresh used (if b then (st.handOut w).2 else st) := by
  cases b with
  | true => exact h.handOut w
  | false => exact h

/-- A name that has been handed out is the known one. -/
theorem Covers.handOut_eq (h : Covers a (st.handOut w).2) : (st.handOut w).1 = a.of w :=
  h w _ (alias_handOut st w)

end

/-! ## Visits -/

/-- What a visit of a part of a frame does: it extends the aliases, tells the frame what the part needs, and
gives what the function `result` says once the names of the aliases are known. -/
structure Rewritten {α : Type} (needed : Provision → Bool) (result : AliasNames → α) (st : Aliases)
    (x : α) (st' : Aliases) : Prop where
  extends_ : Extends st st'
  fresh : ∀ used, IsFresh used st → IsFresh used st'
  uses : ∀ w, st'.uses w = (st.uses w || needed w)
  eq : ∀ a, Covers a st' → x = result a

namespace Rewritten

variable {α β : Type} {st st' st'' : Aliases} {x : α} {y : β} {r r' : Provision → Bool}
  {f : AliasNames → α} {g : AliasNames → β}

theorem pure (st : Aliases) (x : α) : Rewritten (fun _ => false) (fun _ => x) st x st where
  extends_ := Extends.refl st
  fresh _ := id
  uses _ := (Bool.or_false _).symm
  eq _ _ := rfl

/-- One part after the other. -/
theorem bind {γ : Type} {h : AliasNames → γ} {z : γ} (hx : Rewritten r f st x st')
    (hy : Rewritten r' g st' y st'') (hz : ∀ a, x = f a → y = g a → z = h a) :
    Rewritten (fun w => r w || r' w) h st z st'' where
  extends_ := hx.extends_.trans hy.extends_
  fresh used hst := hy.fresh used (hx.fresh used hst)
  uses w := by rw [hy.uses, hx.uses, Bool.or_assoc]
  eq a ha := hz a (hx.eq a (ha.of_extends hy.extends_)) (hy.eq a ha)

theorem map {h : AliasNames → β} (hx : Rewritten r f st x st') (hz : ∀ a, x = f a → y = h a) :
    Rewritten r h st y st' :=
  { hx with eq := fun a ha => hz a (hx.eq a ha) }

theorem needing (hx : Rewritten r f st x st') (h : ∀ w, r' w = r w) : Rewritten r' f st x st' :=
  { hx with uses := fun w => by rw [hx.uses, h] }

/-- What is reported does not matter. -/
theorem report (h : Rewritten r f st x st') (ds : List Diagnostic) :
    Rewritten r f st x { st' with diagnostics := ds } :=
  { h with fresh := fun used hst => (h.fresh used hst).congr rfl rfl }

end Rewritten

/-- A node is rewritten by a visit. -/
abbrev NodeRewritten (c : Context) (t : Tree) (st : Aliases) (o : Outcome) (st' : Aliases) : Prop :=
  Rewritten (needs · c t) (fun a => .keep (rewrite a c t)) st o st'

/-- The parts of a node are rewritten, each in its context. -/
abbrev PartsRewritten (inside : String → Option Context) (t : Tree) (st : Aliases) (t' : Tree)
    (st' : Aliases) : Prop :=
  Rewritten (fun w => t.childNodes.any (childNeeds w inside))
    (fun a => mapChildren (rewriteChild a inside) t) st t' st'

/-- **The law of the lowering**: a visit is a rewriting. -/
def Rewrites : Law Context Aliases := fun c t st o st' =>
  ∀ s, Derives .any s t → NodeRewritten c t st o st'

section

variable {c : Context} {st st' : Aliases} {s : Symbol} {m : Option Nat} {fs : Fields}

theorem rewrites_items {xs ys : List Tree} (h : ItemsFollow Rewrites c xs st ys st')
    (hxs : ∀ y ∈ nodesIn (.list xs), ∃ x, Derives .any x y) :
    Rewritten (fun w => (nodesIn (.list xs)).any (needs w c))
      (fun a => xs.map fun y => if y.isNode then rewrite a c y else y) st ys st' := by
  rw [nodesIn_list] at hxs ⊢
  induction h with
  | nil st => exact Rewritten.pure st []
  | pass ht h ih =>
    rw [List.filter_cons, ht, if_neg Bool.false_ne_true] at hxs ⊢
    refine (ih hxs).map fun a heq => ?_
    rw [List.map_cons, ht, heq, if_neg Bool.false_ne_true]
  | visit ht ho h ih =>
    rw [List.filter_cons, ht, if_pos rfl] at hxs ⊢
    rw [List.forall_mem_cons] at hxs
    obtain ⟨x, hx⟩ := hxs.1
    refine (ho x hx).bind (ih hxs.2) fun a heq hrest => ?_
    rw [List.map_cons, ht, heq, hrest, if_pos rfl]
    rfl

/-- The value of a field. -/
theorem rewrites_value {v : Tree} {o : Outcome} (h : ValueFollows Rewrites c v st o st')
    (hv : ∀ y ∈ nodesIn v, ∃ x, Derives .any x y) (hvisited : isVisited v) :
    Rewritten (fun w => (nodesIn v).any (needs w c)) (fun a => .keep (mapNodes (rewrite a c) v))
      st o st' := by
  cases h with
  | scalar hscalar =>
    cases v with
    | obj m fs => cases hscalar
    | list xs => cases hscalar
    | _ => cases hvisited
  | @object m fs st st' o h =>
    have hnode : (Tree.obj m fs).isNode := by simpa [isVisited, isList] using hvisited
    rw [nodesIn_of_isNode hnode] at hv ⊢
    obtain ⟨x, hx⟩ := hv _ (List.mem_singleton_self _)
    simp only [List.any_cons, List.any_nil, Bool.or_false]
    exact (h x hx).map fun a heq => heq.trans (by rw [mapNodes_of_isNode hnode])
  | list h => exact (rewrites_items h hv).map fun a heq => by rw [heq, mapNodes]

/-- What a field that is not visited holds needs nothing and stays. -/
theorem unvisited_field {k : String} {v : Tree}
    (hk : ∀ c, inside k = some c → (isSyntaxKey k && isVisited v) = false) (hkey : isSyntaxKey k) :
    (∀ y ∈ nodesIn v, ∀ w, childNeeds w inside (k, y) = false) ∧
      ∀ a, mapNodes (rewriteChild a inside k) v = v := by
  cases hc : inside k with
  | none =>
    refine ⟨fun y _ w => childNeeds_none hc, fun a => ?_⟩
    rw [mapNodes_congr fun y _ => rewriteChild_none hc y, mapNodes_id]
  | some c =>
    have hvisited := hk c hc
    rw [hkey, Bool.true_and] at hvisited
    rw [nodesIn_of_not_visited hvisited]
    exact ⟨nofun, fun a => mapNodes_of_not_visited hvisited⟩

/-- All fields of a node. -/
theorem rewrites_fields {gs : Fields} (h : FieldsFollow Rewrites inside fs st gs st')
    (hd : Derives .any s (.obj m fs)) : PartsRewritten inside (.obj m fs) st (.obj m gs) st' := by
  have hnodes : ∀ f ∈ fs, isSyntaxKey f.1 → ∀ y ∈ nodesIn f.2, ∃ x, Derives .any x y := by
    intro f hf hk y hy
    obtain ⟨-, x, -, -, hx⟩ := hd.child (p := (f.1, y)) (mem_childNodes.mpr ⟨f.2, hf, hk, hy⟩)
    exact ⟨x, hx⟩
  have hall : Rewritten (fun w => ((fs.filter (isSyntaxKey ·.1)).flatMap fun f =>
        (nodesIn f.2).map fun y => (f.1, y)).any (childNeeds w inside))
      (fun a => fs.map fun f =>
        (f.1, if isSyntaxKey f.1 then mapNodes (rewriteChild a inside f.1) f.2 else f.2))
      st gs st' := by
    clear hd
    induction h with
    | nil st => exact Rewritten.pure st []
    | @pass k v rest gs st st' hk h ih =>
      rw [List.forall_mem_cons] at hnodes
      rw [List.filter_cons]
      simp only [List.map_cons]
      cases hkey : isSyntaxKey k with
      | false => exact (ih hnodes.2).map fun a heq => by rw [heq, if_neg Bool.false_ne_true]
      | true =>
        obtain ⟨hnone, hsame⟩ := unvisited_field hk hkey
        refine ((ih hnodes.2).map fun a heq => ?_).needing fun w => ?_
        · rw [heq, if_pos rfl, hsame]
        · rw [if_pos rfl, List.flatMap_cons, List.any_append, List.any_map, Bool.or_eq_right_iff_imp,
            List.any_eq_true]
          rintro ⟨y, hy, hneeds⟩
          exact absurd hneeds (by simp [hnone y hy w])
    | @visit k v c o rest gs st st₁ st' hc hk ho h ih =>
      rw [List.forall_mem_cons] at hnodes
      rw [Bool.and_eq_true] at hk
      rw [List.filter_cons, hk.1, if_pos rfl]
      refine ((rewrites_value ho (hnodes.1 hk.1) hk.2).bind (ih hnodes.2)
        fun a heq hrest => ?_).needing fun w => ?_
      · have hchild : mapNodes (rewriteChild a inside k) v = mapNodes (rewrite a c) v :=
          mapNodes_congr fun y _ => rewriteChild_some hc y
        rw [heq, hrest, Outcome.inField, List.map_cons, hk.1, if_pos rfl, hchild]
        rfl
      · rw [List.flatMap_cons, List.any_append, List.any_map]
        congr 2
        funext y
        exact childNeeds_some (p := (k, y)) hc
  exact hall.map fun a heq => congrArg (Tree.obj m) heq

end

/-! ## Rewritten trees are derived -/

section

variable {labels : Labelling} {s : Symbol} {t : Tree} {a : AliasNames} {c : Context}

theorem derives_declarationsFor (x : Symbol) (hx : "VariableDeclaration" ∈ x.types) :
    ∀ d ∈ declarationsFor a c t, Derives labels x d := by
  rw [declarationsFor]
  refine List.forall_mem_append.mpr ⟨?_, ?_⟩
  · split
    · exact List.forall_mem_singleton.mpr
        (derives_var _ (derives_thisExpression .null (by decide)) .null hx)
    · exact nofun
  · split
    · exact List.forall_mem_singleton.mpr (derives_var _ (derives_identifier _ .null (by decide)) .null hx)
    · exact nofun

/-- A node that is finished is derived if it was before. -/
theorem derives_finish {t₁ : Tree} (ht : Derives labels s t) (ht₁ : Derives labels s t₁)
    (htype : t₁.type? = t.type?) : Derives labels s (finish a c t t₁) := by
  unfold finish
  split
  · rename_i hframe
    exact derives_withDeclarations ht₁ ((isTypeIn_congr htype _).trans hframe) _ derives_declarationsFor
  · split
    · rename_i harrow
      split
      · exact ht₁
      · exact derives_asFunction ht₁ (htype.trans (isType_iff.mp harrow))
    · split
      · rename_i hthis
        simp only [isAliased, Bool.and_eq_true] at hthis
        exact derives_identifier _ t
          (expressionTypes_subset (ht.mem_types (isType_iff.mp hthis.1)) (by decide) (by decide))
      · split
        · rename_i harguments
          simp only [isAliased, Bool.and_eq_true] at harguments
          exact derives_identifier _ t (ht.mem_types (isType_iff.mp harguments.1))
        · exact ht₁

theorem derives_rewriteChild {y : Tree} {x : Symbol} (hy : Derives labels x y)
    (h : ∀ c x, Derives labels x y → Derives labels x (rewrite a c y)) :
    Derives labels x (rewriteChild a inside key y) := by
  cases hc : inside key with
  | none => rwa [rewriteChild_none hc]
  | some c' =>
    rw [rewriteChild_some hc]
    exact h c' x hy

/-- **A rewritten node is derived from the same symbol.** -/
theorem derives_rewrite (ht : Derives labels s t) : Derives labels s (rewrite a c t) := by
  refine ht.inductionOnChildren
    (motive := fun t => ∀ c s, Derives labels s t → Derives labels s (rewrite a c t)) ?_ c s ht
  intro _ t _ ih c s ht
  rw [rewrite_eq ht.isObject]
  refine derives_finish ht (ht.mapChildren fun p hp x hx => ?_) type?_mapChildren
  exact derives_rewriteChild hx fun c x hx => ih p hp c x hx

theorem derives_rewritten (ht : Derives labels s t) (inside : String → Option Context) :
    Derives labels s (mapChildren (rewriteChild a inside) t) :=
  ht.mapChildren fun _ _ _ hx => derives_rewriteChild hx fun _ _ hx => derives_rewrite hx

end

/-! ## The handler -/

section

variable {c : Context} {t : Tree} {parts : Parts Context Aliases} {st st' : Aliases} {o : Outcome}

theorem frame_inv (h : Yields (frame c t parts) st o st') :
    ∃ t₁ st₁, Yields (parts.descend fun key => some ((frameContext c t).at t key))
        { st with usesThis := false, usesArguments := false } t₁ st₁ ∧
      o = .keep (withDeclarations (decide (c.place = .constructorFunction)) st₁.declarations
        (withStatements t₁)) ∧
      st' = { st₁.declared with usesThis := st.usesThis, usesArguments := st.usesArguments } := by
  have horiginal := h
  rw [frame] at h
  obtain ⟨_, _, hget, h⟩ := h.bind_inv
  obtain ⟨rfl, rfl⟩ := yields_get.unique hget
  obtain ⟨_, _, hset, h⟩ := h.bind_inv
  obtain ⟨-, rfl⟩ := (yields_set _).unique hset
  obtain ⟨t₁, st₁, hdescend, -⟩ := h.bind_inv
  obtain ⟨rfl, rfl⟩ := (yields_frame hdescend).unique horiginal
  exact ⟨t₁, st₁, hdescend, rfl, rfl⟩

/-- What becomes of an arrow function. -/
theorem arrow_inv (h : Yields (arrow c t parts) st o st') :
    (isShunned c t ∧ o = .keep t ∧ ∃ ds, st' = { st with diagnostics := ds }) ∨
      ∃ t₁ st₁ ds, isShunned c t = false ∧
        Yields (parts.descend fun key => some { c.at t key with inArrow := true }) st t₁ st₁ ∧
        o = .keep (if staysArrow t then t₁ else asFunction t₁) ∧
        st' = { st₁ with diagnostics := ds } := by
  have horiginal := h
  cases hleft : c.superCallMissing && t.usesThis with
  | true =>
    obtain ⟨ds, hforward⟩ := yields_arrow_left parts st hleft
    obtain ⟨rfl, rfl⟩ := hforward.unique h
    exact .inl ⟨hleft, rfl, ds, rfl⟩
  | false =>
    rw [arrow, if_neg (by simp [hleft])] at h
    obtain ⟨t₁, st₁, hdescend, -⟩ := h.bind_inv
    cases hstays : t.usesSuper || t.usesNewTarget with
    | true =>
      obtain ⟨ds, hforward⟩ := yields_arrow_stays hleft hstays hdescend
      obtain ⟨rfl, rfl⟩ := hforward.unique horiginal
      exact .inr ⟨t₁, st₁, ds, hleft, hdescend, by rw [staysArrow, hstays, if_pos rfl], rfl⟩
    | false =>
      obtain ⟨rfl, rfl⟩ := (yields_arrow_function hleft hstays hdescend).unique horiginal
      refine .inr ⟨t₁, st₁, st₁.diagnostics, hleft, hdescend, ?_, rfl⟩
      rw [staysArrow, hstays, if_neg Bool.false_ne_true]

end

/-- The declarations of the aliases, once their names are known. -/
theorem declarations_eq {a : AliasNames} {st : Aliases} (h : Covers a st.declared) :
    st.declarations = (if st.usesThis then [var a.forThis (some thisExpression)] else []) ++
      (if st.usesArguments then [var a.forArguments (some (identifier "arguments"))] else []) := by
  have hafter : Covers a st.afterThis := h.of_extends (extends_provided _ .arguments st.usesArguments)
  unfold Aliases.declared at h
  rw [Aliases.declarations]
  congr 1
  · cases hthis : st.usesThis with
    | false => rfl
    | true =>
      rw [Aliases.afterThis, hthis, if_pos rfl] at hafter
      have hname : st.withThis.1 = a.forThis := Covers.handOut_eq (w := .receiver) hafter
      rw [hname]
  · cases harguments : st.usesArguments with
    | false => rfl
    | true =>
      rw [harguments, if_pos rfl] at h
      have hname : st.afterThis.withArguments.1 = a.forArguments := Covers.handOut_eq (w := .arguments) h
      rw [hname]

section

variable {c : Context} {s : Symbol} {m : Option Nat} {fs gs : Fields} {t t' : Tree}
  {st st' st₁ : Aliases} {o : Outcome} {w : Provision}

/-- What a node needs that has no part of the same frame. -/
theorem needs_closed (hobject : t.isObject) (hnone : ∀ key, contextsWithin c t key = none) :
    needs w c t = isAliased w c t := by
  rw [needs_eq hobject, Bool.or_eq_left_iff_imp, List.any_eq_true]
  rintro ⟨p, -, hp⟩
  rw [childNeeds_none (hnone _)] at hp
  cases hp

theorem contextsWithin_none (hnone : ∀ key, contexts c t key = none) (key : String) :
    contextsWithin c t key = none := by
  unfold contextsWithin
  split
  · rfl
  · exact hnone key

theorem isAliased_of_type? (htype : t.type? = some type) (h : type ∉ ["ThisExpression", "Identifier"]) :
    isAliased w c t = false := by
  simp only [List.mem_cons, List.not_mem_nil, or_false, not_or] at h
  cases w with
  | receiver => simp [isAliased, isType_of_type? htype, h.1]
  | arguments => simp [isAliased, isType_of_type? htype, h.2]

theorem needs_frame (hd : t.isObject) (h : t.isTypeIn frameTypes) : needs w c t = false := by
  rw [needs_closed hd fun key => if_pos h]
  obtain ⟨type, hmem, htype⟩ := isTypeIn_iff.mp h
  have hpassed : ∀ type ∈ frameTypes, type ∉ ["ThisExpression", "Identifier"] := by decide
  exact isAliased_of_type? htype (hpassed type hmem)

/-- A frame is rewritten. -/
theorem rewritten_frame (hd : Derives .any s (.obj m fs))
    (hframe : (Tree.obj m fs).isTypeIn frameTypes)
    (hfields : FieldsFollow Rewrites (fun key => some ((frameContext c (.obj m fs)).at (.obj m fs) key))
      fs { st with usesThis := false, usesArguments := false } gs st₁) :
    NodeRewritten c (.obj m fs) st
      (.keep (withDeclarations (decide (c.place = .constructorFunction)) st₁.declarations
        (withStatements (.obj m gs))))
      { st₁.declared with usesThis := st.usesThis, usesArguments := st.usesArguments } := by
  have hcontexts : contexts c (.obj m fs) =
      fun key => some ((frameContext c (.obj m fs)).at (.obj m fs) key) :=
    funext fun key => contexts_frame hframe
  have hr := rewrites_fields hfields hd
  rw [← hcontexts] at hr
  have hext : Extends st₁ st₁.declared := (extends_provided st₁ .receiver st₁.usesThis).trans
    (extends_provided st₁.afterThis .arguments st₁.usesArguments)
  refine ⟨hr.extends_.trans hext, fun used hst => ?_, fun w => ?_, fun a ha => ?_⟩
  · have hfresh := hr.fresh used (hst.congr rfl rfl)
    exact ((hfresh.provided .receiver st₁.usesThis).provided .arguments st₁.usesArguments).congr rfl rfl
  · rw [needs_frame hd.isObject hframe, Bool.or_false]
    cases w <;> rfl
  · have hcovers : Covers a st₁.declared := ha
    have htree := hr.eq a (hcovers.of_extends hext)
    have hderived : Derives .any s (.obj m gs) := by
      rw [htree]
      exact derives_rewritten hd _
    have hstatements : withStatements (.obj m gs) = .obj m gs := by
      refine withStatements_of_derives hderived ?_
      rw [htree]
      exact (isTypeIn_congr type?_mapChildren _).trans hframe
    have hdeclarations : st₁.declarations = declarationsFor a c (.obj m fs) := by
      have hthis : st₁.usesThis = (false || _) := hr.uses .receiver
      have harguments : st₁.usesArguments = (false || _) := hr.uses .arguments
      rw [declarations_eq hcovers, hthis, harguments, Bool.false_or, Bool.false_or, declarationsFor]
    rw [hstatements, hdeclarations, htree, rewrite_frame rfl hframe]

/-- What a node needs that is neither a frame nor replaced. -/
theorem needs_inside (hobject : t.isObject) (hframe : t.isTypeIn frameTypes = false)
    (haliased : isAliased w c t = false) :
    needs w c t = t.childNodes.any (childNeeds w (contexts c t)) := by
  have hwithin : contextsWithin c t = contexts c t := funext fun key => if_neg (by simp [hframe])
  rw [needs_eq hobject, haliased, hwithin, Bool.false_or]

/-- An arrow function is rewritten. -/
theorem rewritten_arrow (hd : Derives .any s (.obj m fs))
    (htype : (Tree.obj m fs).type? = some "ArrowFunctionExpression")
    (hparts : PartsFollow Rewrites m fs (partsOf handle m fs))
    (h : Yields (arrow c (.obj m fs) (partsOf handle m fs)) st o st') :
    NodeRewritten c (.obj m fs) st o st' := by
  have haliased : ∀ {w}, isAliased w c (.obj m fs) = false := isAliased_of_type? htype (by decide)
  obtain ⟨hshunned, rfl, ds, rfl⟩ | ⟨t₁, st₁, ds, hshunned, hdescend, rfl, rfl⟩ := arrow_inv h
  · have hnone : ∀ key, contexts c (.obj m fs) key = none := by
      intro key
      rw [contexts_arrow htype, hshunned, if_pos rfl]
    refine (((Rewritten.pure st (Outcome.keep (.obj m fs))).map fun a _ => ?_).needing
      fun w => ?_).report ds
    · rw [rewrite_shunned htype hshunned]
    · rw [needs_closed rfl (contextsWithin_none hnone), haliased]
  · obtain ⟨gs, rfl, hfields⟩ := hparts.descend hdescend
    have hcontexts : contexts c (.obj m fs) =
        fun key => some { c.at (.obj m fs) key with inArrow := true } := by
      funext key
      rw [contexts_arrow htype, hshunned, if_neg Bool.false_ne_true]
    rw [← hcontexts] at hfields
    refine (((rewrites_fields hfields hd).map fun a heq => ?_).needing fun w => ?_).report ds
    · rw [rewrite_arrow htype hshunned, heq]
    · exact needs_inside rfl (isTypeIn_false htype (by decide)) haliased

/-- A leaf that an alias stands for inside arrow functions. -/
theorem rewritten_leaf (htype : t.type? = some w.nodeType)
    {name : Visit Aliases String} (hname : ∀ st, Yields name st (st.handOut w).1 (st.handOut w).2)
    (h : Yields (if !isAliased w c t then pure (.keep t) else do
      modify fun st => st.withUse w
      return .keep (identifier (← name) t)) st o st') : NodeRewritten c t st o st' := by
  have hneeds : ∀ w', needs w' c t = isAliased w' c t :=
    fun w' => needs_closed (isObject_of_typed htype) (contextsWithin_none fun key => contexts_leaf htype)
  cases haliased : isAliased w c t with
  | false =>
    rw [haliased] at h
    obtain ⟨rfl, rfl⟩ := h.pure_inv
    refine ((Rewritten.pure _ (Outcome.keep t)).map fun a _ => ?_).needing fun w' => ?_
    · rw [rewrite_leaf htype, haliased, if_neg Bool.false_ne_true]
    · rw [hneeds]
      by_cases heq : w' = w
      · rw [heq, haliased]
      · exact isAliased_other htype heq
  | true =>
    rw [haliased] at h
    obtain ⟨_, _, hmodify, h⟩ := h.bind_inv
    obtain ⟨-, rfl⟩ := (yields_modify _).unique hmodify
    obtain ⟨_, _, hyields, h⟩ := h.bind_inv
    obtain ⟨rfl, rfl⟩ := (hname _).unique hyields
    obtain ⟨rfl, rfl⟩ := h.pure_inv
    have halias : (st.withUse w).alias = st.alias := by cases w <;> rfl
    have hnames : (st.withUse w).names = st.names := by cases w <;> rfl
    refine ⟨?_, fun used hst => (hst.congr hnames halias).handOut w, fun w' => ?_, fun a ha => ?_⟩
    · intro w' name hname
      exact extends_handOut (st.withUse w) w w' name (by rw [halias, hname])
    · rw [uses_handOut, hneeds]
      by_cases heq : w' = w
      · rw [heq, haliased, Bool.or_true]
        cases w <;> rfl
      · rw [isAliased_other htype heq, Bool.or_false]
        cases w <;> cases w' <;> first | rfl | exact absurd rfl heq
    · rw [rewrite_leaf htype, haliased, if_pos rfl, ha.handOut_eq]

theorem rewritten_this (htype : (Tree.obj m fs).type? = some "ThisExpression")
    (h : Yields (aliasThis c (.obj m fs)) st o st') : NodeRewritten c (.obj m fs) st o st' := by
  refine rewritten_leaf (w := .receiver) htype yields_thisName ?_
  rw [isAliased, isType_iff.mpr htype, Bool.true_and]
  exact h

theorem rewritten_identifier (htype : (Tree.obj m fs).type? = some "Identifier")
    (h : Yields (aliasArguments c (.obj m fs)) st o st') : NodeRewritten c (.obj m fs) st o st' := by
  refine rewritten_leaf (w := .arguments) htype yields_argumentsName ?_
  rw [isAliased, isType_iff.mpr htype, Bool.true_and]
  exact h

/-- A node that the rewriting has no case for is rewritten if its parts are. -/
theorem rewritten_passed (hobject : t.isObject) (hpassed : isPassed t)
    (h : PartsRewritten (contexts c t) t st t' st') : NodeRewritten c t st (.keep t') st' := by
  have hframe : t.isTypeIn frameTypes = false := by
    rw [isPassed, Bool.not_eq_true', isTypeIn, List.any_append, Bool.or_eq_false_iff] at hpassed
    exact hpassed.1
  refine (h.map fun a heq => ?_).needing fun w => ?_
  · rw [rewrite_passed hobject hpassed, heq]
  · exact needs_inside hobject hframe (isAliased_of_isPassed hpassed)

end

/-! ## Members, properties and methods -/

section

variable {c : Context} {s : Symbol} {m : Option Nat} {fs : Fields} {t t' v : Tree}
  {k : String} {inside : String → Option Context} {w : Provision} {a : AliasNames}
  {st st₁ st₂ st' : Aliases} {o : Outcome}

/-- Nothing is visited. -/
theorem partsRewritten_none (t : Tree) (st : Aliases) : PartsRewritten (fun _ => none) t st t st := by
  refine ((Rewritten.pure st t).map fun a _ => ?_).needing fun w => ?_
  · exact (mapChildren_eq_self_iff.mpr fun p _ => rewriteChild_none rfl p.2).symm
  · rw [List.any_eq_false]
    intro p _
    rw [childNeeds_none rfl]
    exact Bool.false_ne_true

/-- One more field written. -/
theorem set_rewritten (hd : Derives .any s t) (hv : t.get? k = some v) (hk : isSyntaxKey k) :
    (mapChildren (rewriteChild a inside) t).set k (mapNodes (rewrite a c) v) =
      mapChildren (rewriteChild a (Function.update inside k (some c))) t := by
  cases t with
  | obj m fs =>
    have hkeys : (fs.map fun f => (f.1, if isSyntaxKey f.1 then mapNodes (rewriteChild a inside f.1) f.2
        else f.2)).map (·.1) = fs.map (·.1) := by
      rw [List.map_map]
      rfl
    have hmem : k ∈ fs.map (·.1) := List.mem_map.mpr ⟨_, mem_of_lookup_eq_some hv, rfl⟩
    refine congrArg (Tree.obj m) ((insert_eq_map (hkeys ▸ hd.distinct) (hkeys ▸ hmem)).trans ?_)
    rw [List.map_map]
    refine List.map_congr_left fun f hf => congrArg (Prod.mk f.1) ?_
    show (if f.1 = k then _ else _) = _
    split
    · rename_i heq
      have hvalue : f.2 = v := by
        have hget := hd.get_of_mem (k := f.1) hf
        rw [heq, Tree.get, hv] at hget
        exact hget.symm
      rw [heq, hk, if_pos rfl, hvalue]
      exact (mapNodes_congr fun y _ => rewriteChild_some (Function.update_self k _ inside) y).symm
    · rename_i hne
      have hchild : rewriteChild a inside f.1 = rewriteChild a (Function.update inside k (some c)) f.1 := by
        funext y
        unfold rewriteChild remakeChild
        rw [Function.update_of_ne hne]
      show (if isSyntaxKey f.1 then mapNodes (rewriteChild a inside f.1) f.2 else f.2) = _
      rw [hchild]
  | _ => cases hd.isObject

/-- What the children in the fields with a context need. -/
theorem any_childNeeds_iff (hd : Derives .any s t) :
    t.childNodes.any (childNeeds w inside) ↔ ∃ k c v, inside k = some c ∧
      t.get? k = some v ∧ isSyntaxKey k ∧ (nodesIn v).any (needs w c) := by
  rw [List.any_eq_true]
  constructor
  · rintro ⟨p, hp, hneeds⟩
    obtain ⟨v, hv, hk, hy⟩ := mem_childNodes.mp hp
    cases hc : inside p.1 with
    | none =>
      rw [childNeeds_none hc] at hneeds
      cases hneeds
    | some c =>
      rw [childNeeds_some hc] at hneeds
      exact ⟨p.1, c, v, hc, lookup_of_mem_fields hd.distinct hv, hk, List.any_eq_true.mpr ⟨p.2, hy, hneeds⟩⟩
  · rintro ⟨k, c, v, hc, hv, hk, hany⟩
    obtain ⟨y, hy, hneeds⟩ := List.any_eq_true.mp hany
    exact ⟨(k, y), mem_childNodes.mpr ⟨v, mem_of_lookup_eq_some hv, hk, hy⟩,
      (childNeeds_some (p := (k, y)) hc).trans hneeds⟩

theorem any_childNeeds_update (hd : Derives .any s t) (hv : t.get? k = some v)
    (hk : isSyntaxKey k) (hnone : inside k = none) :
    t.childNodes.any (childNeeds w (Function.update inside k (some c))) =
      (t.childNodes.any (childNeeds w inside) || (nodesIn v).any (needs w c)) := by
  rw [Bool.eq_iff_iff, Bool.or_eq_true, any_childNeeds_iff hd, any_childNeeds_iff hd]
  constructor
  · rintro ⟨k', c', v', hc', hv', hk', hany⟩
    by_cases heq : k' = k
    · subst heq
      rw [Function.update_self] at hc'
      rw [hv] at hv'
      cases hc'
      cases hv'
      exact .inr hany
    · rw [Function.update_of_ne heq] at hc'
      exact .inl ⟨k', c', v', hc', hv', hk', hany⟩
  · rintro (⟨k', c', v', hc', hv', hk', hany⟩ | hany)
    · have hne : k' ≠ k := by
        rintro rfl
        rw [hnone] at hc'
        cases hc'
      exact ⟨k', c', v', by rw [Function.update_of_ne hne, hc'], hv', hk', hany⟩
    · exact ⟨k, c, v, Function.update_self k _ inside, hv, hk, hany⟩

/-- **One more field that is visited and written**, where it holds one node. -/
theorem PartsRewritten.field {x : Symbol} (h : PartsRewritten inside (.obj m fs) st t' st₁)
    (hd : Derives .any s (.obj m fs)) (hparts : PartsFollow Rewrites m fs (partsOf handle m fs))
    (hslot : slot? s (.obj m fs) k = some (.one x)) (hk : isSyntaxKey k)
    (hnone : inside k = none) (hfield : Yields ((partsOf handle m fs).field k c) st₁ o st₂) :
    PartsRewritten (Function.update inside k (some c)) (.obj m fs) st (t'.set k o.value) st₂ := by
  obtain ⟨hmissing, -, -⟩ | ⟨v, hv, hfollows⟩ := hparts.field hfield
  · have hsome := (hd.get?_of_slot? hslot rfl).1
    rw [get?, fields, hmissing] at hsome
    cases hsome
  have hvisited : isVisited v := by
    have hfits := hd.fields _ (mem_of_lookup_eq_some hv)
    rw [hslot] at hfits
    rw [isVisited, (fits_one_iff.mp hfits).isNode, Bool.true_or]
  have hnodes : ∀ y ∈ nodesIn v, ∃ x, Derives .any x y := by
    intro y hy
    obtain ⟨-, x, -, -, hx⟩ := hd.child (p := (k, y))
      (mem_childNodes.mpr ⟨v, mem_of_lookup_eq_some hv, hk, hy⟩)
    exact ⟨x, hx⟩
  refine (h.bind (rewrites_value hfollows hnodes hvisited) fun a heq hvalue => ?_).needing fun w => ?_
  · rw [heq, hvalue, Outcome.value, set_rewritten hd hv hk]
  · exact any_childNeeds_update hd hv hk hnone

/-- Where a part stands does not depend on the keys of members. -/
theorem at_set (hkey : key ∉ ["type", "superClass", "kind"]) (other : String) :
    c.at (t.set key v) other = c.at t other := by
  simp only [List.mem_cons, List.not_mem_nil, or_false, not_or] at hkey
  have hderived : isDerivedClass (t.set key v) = isDerivedClass t := by
    have htype : (t.set key v).type? = t.type? := by
      rw [type?, type?, get_set_of_ne (Ne.symm hkey.1)]
    rw [isDerivedClass, isDerivedClass, isTypeIn_congr htype, get_set_of_ne (Ne.symm hkey.2.1)]
  unfold Context.at placeOf
  rw [hderived, get_set_of_ne (Ne.symm hkey.2.2)]

/-- The contexts of a node that refers by a field, and by another one if it is computed. -/
theorem contexts_member (first second : String) (hpassed : isPassed t)
    (hmember : t.isTypeIn memberTypes) (hne : first ≠ second)
    (hrefers : ∀ key, isReferring t key = (key = first || (key = second && (t.get "computed").isSet))) :
    contexts c t = if (t.get "computed").isSet then
        Function.update (Function.update (fun _ => none) first (some (c.at t first))) second
          (some (c.at t second))
      else Function.update (fun _ => none) first (some (c.at t first)) := by
  funext key
  rw [contexts_passed hpassed, hmember, if_pos rfl, hrefers]
  by_cases hfirst : key = first
  · subst hfirst
    cases (t.get "computed").isSet <;> simp [hne]
  · by_cases hsecond : key = second
    · subst hsecond
      cases (t.get "computed").isSet <;> simp [hfirst]
    · cases (t.get "computed").isSet <;> simp [hfirst, hsecond]

theorem rewritten_member (hd : Derives .any s (.obj m fs))
    (htype : (Tree.obj m fs).type? = some "MemberExpression")
    (hparts : PartsFollow Rewrites m fs (partsOf handle m fs))
    (h : Yields (memberExpression c (.obj m fs) (partsOf handle m fs)) st o st') :
    NodeRewritten c (.obj m fs) st o st' := by
  have hpassed : isPassed (.obj m fs) := isPassed_of_type? htype (by decide)
  have hcontexts := contexts_member "object" "property" (c := c) hpassed
    (isTypeIn_of_mem htype (by decide)) (by decide)
    fun key => by rw [isReferring, if_pos (isType_iff.mpr htype)]
  have hnone := partsRewritten_none (.obj m fs) st
  rw [memberExpression] at h
  obtain ⟨_, _, hrequire, hrest⟩ := h.bind_inv
  obtain ⟨-, rfl⟩ := Yields.lift_inv hrequire
  obtain ⟨o₁, st₁, hfield₁, hrest⟩ := hrest.bind_inv
  have hobject := hnone.field hd hparts (slot?_one htype rfl) (by decide) rfl hfield₁
  have hcomputed' : (((Tree.obj m fs).set "object" o₁.value).get "computed").isSet =
      ((Tree.obj m fs).get "computed").isSet := by rw [get_set_of_ne (by decide)]
  cases hcomputed : ((Tree.obj m fs).get "computed").isSet with
  | false =>
    rw [hcomputed, if_neg Bool.false_ne_true] at hcontexts
    simp only [hcomputed', hcomputed, Bool.not_false, if_true] at hrest
    obtain ⟨rfl, rfl⟩ := hrest.pure_inv
    refine rewritten_passed rfl hpassed ?_
    rwa [hcontexts]
  | true =>
    rw [hcomputed, if_pos rfl] at hcontexts
    simp only [hcomputed', hcomputed, Bool.not_true, Bool.false_eq_true, if_false] at hrest
    obtain ⟨_, _, hrequire, hwritten⟩ := hrest.bind_inv
    obtain ⟨-, rfl⟩ := Yields.lift_inv hrequire
    obtain ⟨o₂, st₂, hfield₂, hwritten⟩ := hwritten.bind_inv
    obtain ⟨rfl, rfl⟩ := hwritten.pure_inv
    have hslot := slot?_property htype (s := s)
    rw [if_pos hcomputed] at hslot
    rw [at_set (by decide)] at hfield₂
    refine rewritten_passed rfl hpassed ?_
    rw [hcontexts]
    exact hobject.field hd hparts hslot (by decide) (Function.update_of_ne (by decide) _ _) hfield₂

theorem rewritten_keyed (hd : Derives .any s (.obj m fs))
    (hkeyed : (Tree.obj m fs).isTypeIn ["Property", "MethodDefinition"])
    (hparts : PartsFollow Rewrites m fs (partsOf handle m fs))
    (h : Yields (keyed c (.obj m fs) (partsOf handle m fs)) st o st') :
    NodeRewritten c (.obj m fs) st o st' := by
  have hpassed : isPassed (.obj m fs) ∧ (Tree.obj m fs).isTypeIn memberTypes ∧
      (Tree.obj m fs).isType "MemberExpression" = false := by
    obtain ⟨type, hmem, htype⟩ := isTypeIn_iff.mp hkeyed
    rcases List.mem_pair.mp hmem with rfl | rfl
    all_goals
      exact ⟨isPassed_of_type? htype (by decide), isTypeIn_of_mem htype (by decide), isType_of_type? htype _⟩
  obtain ⟨hpassed, hmember, hnot⟩ := hpassed
  have hcontexts := contexts_member "value" "key" (c := c) hpassed hmember
    (by decide) fun key => by rw [isReferring, hnot, if_neg Bool.false_ne_true]
  have hnone := partsRewritten_none (.obj m fs) st
  obtain ⟨x, hslot, -⟩ := slot?_value hkeyed (s := s)
  have hnull : ((Tree.obj m fs).get "value").isNull = false :=
    (fits_one_iff.mp (hd.get?_of_slot? hslot rfl).2).isNull
  rw [keyed] at h
  cases hcomputed : ((Tree.obj m fs).get "computed").isSet with
  | false =>
    rw [hcomputed, if_neg Bool.false_ne_true] at hcontexts
    simp only [hcomputed, Bool.false_eq_true, if_false, pure_bind, hnull] at h
    obtain ⟨o₁, st₁, hfield₁, hwritten⟩ := h.bind_inv
    obtain ⟨rfl, rfl⟩ := hwritten.pure_inv
    refine rewritten_passed rfl hpassed ?_
    rw [hcontexts]
    exact hnone.field hd hparts hslot (by decide) rfl hfield₁
  | true =>
    rw [hcomputed, if_pos rfl, Function.update_comm (by decide)] at hcontexts
    simp only [hcomputed, if_true, pure_bind] at h
    obtain ⟨_, _, hrequire, hrest⟩ := h.bind_inv
    obtain ⟨-, rfl⟩ := Yields.lift_inv hrequire
    obtain ⟨o₁, st₁, hfield₁, hrest⟩ := hrest.bind_inv
    have hnull' : (((Tree.obj m fs).set "key" o₁.value).get "value").isNull = false := by
      rw [get_set_of_ne (by decide), hnull]
    simp only [hnull', Bool.false_eq_true, if_false] at hrest
    obtain ⟨o₂, st₂, hfield₂, hwritten⟩ := hrest.bind_inv
    obtain ⟨rfl, rfl⟩ := hwritten.pure_inv
    rw [at_set (by decide)] at hfield₂
    have hkey := hnone.field hd hparts (slot?_key hkeyed hcomputed) (by decide) rfl hfield₁
    refine rewritten_passed rfl hpassed ?_
    rw [hcontexts]
    exact hkey.field hd hparts hslot (by decide) (Function.update_of_ne (by decide) _ _) hfield₂

end

/-! ## The lowering -/

/-- **Every visit is a rewriting.** -/
theorem handle_rewrites : HandlerFollows handle Rewrites := by
  intro c m fs st o st' hparts h s hd
  have hframe : (Tree.obj m fs).isTypeIn frameTypes →
      Yields (frame c (.obj m fs) (partsOf handle m fs)) st o st' →
      NodeRewritten c (.obj m fs) st o st' := by
    intro hframe h
    obtain ⟨t₁, st₁, hdescend, rfl, rfl⟩ := frame_inv h
    obtain ⟨gs, rfl, hfields⟩ := hparts.descend hdescend
    exact rewritten_frame hd hframe hfields
  unfold handle at h
  split at h
  · rename_i htype
    exact hframe (isTypeIn_of_mem htype (by decide)) h
  · rename_i htype
    exact hframe (isTypeIn_of_mem htype (by decide)) h
  · rename_i htype
    exact hframe (isTypeIn_of_mem htype (by decide)) h
  · rename_i htype
    exact rewritten_arrow hd htype hparts h
  · rename_i htype
    exact rewritten_this htype h
  · rename_i htype
    exact rewritten_identifier htype h
  · rename_i htype
    exact rewritten_member hd htype hparts h
  · rename_i htype
    exact rewritten_keyed hd (isTypeIn_of_mem htype (by decide)) hparts h
  · rename_i htype
    exact rewritten_keyed hd (isTypeIn_of_mem htype (by decide)) hparts h
  · rename_i hprogram hdeclaration hexpression harrow hthis hidentifier hmember hproperty hmethod
    -- All other nodes are only looked through.
    obtain ⟨type, -, htype⟩ := hd.type
    have hother : ∀ x ∈ frameTypes ++ ["ArrowFunctionExpression", "ThisExpression", "Identifier"] ++
        memberTypes, type ≠ x := by
      simp only [frameTypes, memberTypes, List.cons_append, List.nil_append, List.forall_mem_cons]
      refine ⟨?_, ?_, ?_, ?_, ?_, ?_, ?_, ?_, ?_, List.forall_mem_nil _⟩ <;> rintro rfl <;> contradiction
    have hpassed : isPassed (.obj m fs) :=
      isPassed_of_type? htype fun hmem => hother type (List.mem_append_left _ hmem) rfl
    have hnot : (Tree.obj m fs).isTypeIn memberTypes = false :=
      isTypeIn_false htype fun hmem => hother type (List.mem_append_right _ hmem) rfl
    have hcontexts : contexts c (.obj m fs) = fun key => some (c.at (.obj m fs) key) := by
      funext key
      rw [contexts_passed hpassed, hnot, if_neg Bool.false_ne_true]
    obtain ⟨t₁, hdescend, rfl⟩ := Yields.map_inv h
    obtain ⟨gs, rfl, hfields⟩ := hparts.descend hdescend
    rw [← hcontexts] at hfields
    exact rewritten_passed rfl hpassed (rewrites_fields hfields hd)

/-- The names of the aliases are new to a program, start with an underscore and differ. -/
structure AliasNames.AreFresh (a : AliasNames) (used : List String) : Prop where
  forThis : a.forThis ∉ used ∧ a.forThis.toList.head? = some '_'
  forArguments : a.forArguments ∉ used ∧ a.forArguments.toList.head? = some '_'
  differ : a.forThis ≠ a.forArguments

/-- The names of the aliases that a run has handed out, new ones for those that it did not need. -/
theorem exists_covering {used : List String} {st : Aliases} (h : IsFresh used st) :
    ∃ a : AliasNames, Covers a st ∧ a.AreFresh used := by
  rcases hthis : st.handOut .receiver with ⟨forThis, st₁⟩
  rcases harguments : st₁.handOut .arguments with ⟨forArguments, st₂⟩
  have hext₁ := extends_handOut st .receiver
  have hext₂ := extends_handOut st₁ .arguments
  have hfresh := (h.handOut .receiver).handOut .arguments
  rw [hthis] at hext₁ hfresh
  rw [harguments] at hext₂ hfresh
  -- Both names are handed out in the end.
  have hall : ∀ w, st₂.alias w = some ((AliasNames.mk forThis forArguments).of w) := by
    intro w
    cases w with
    | receiver =>
      have hname := alias_handOut st .receiver
      rw [hthis] at hname
      exact hext₂ _ _ hname
    | arguments =>
      have hname := alias_handOut st₁ .arguments
      rw [harguments] at hname
      exact hname
  refine ⟨⟨forThis, forArguments⟩, fun w name hname => ?_, ⟨?_, ?_, ?_⟩⟩
  · have hsame := hext₁.trans hext₂ w name hname
    rw [hall] at hsame
    exact (Option.some.inj hsame).symm
  · obtain ⟨hnot, hhead, -⟩ := hfresh.new _ _ (hall .receiver)
    exact ⟨hnot, hhead⟩
  · obtain ⟨hnot, hhead, -⟩ := hfresh.new _ _ (hall .arguments)
    exact ⟨hnot, hhead⟩
  · intro heq
    have hsame := hall .arguments
    rw [AliasNames.of, ← heq] at hsame
    cases hfresh.differ _ _ _ (hall .receiver) hsame

/-- **The lowering of arrow functions is a rewriting** with new names. -/
theorem lower_eq_rewrite {t : Tree} (ht : Derives .any .program t) :
    ∃ (a : AliasNames) (ds : List Diagnostic), a.AreFresh (NameSupply.ofTree t).used ∧
      lower t = .ok ⟨rewrite a {} t, ds⟩ := by
  have hstate : (regularContract Context Aliases .any).invariant { names := .ofTree t } := trivial
  obtain ⟨t', st, hyields, -⟩ := visit_program handle_keeps (c := {}) ht trivial (fun _ => id) hstate
  have hrewritten := (visit_follows handle_rewrites _ _ _ _ _ hyields).of_isObject ht.isObject _ ht
  have hstart : IsFresh (NameSupply.ofTree t).used { names := .ofTree t } :=
    ⟨fun _ => id, by rintro (_ | _) _ ⟨⟩, by rintro (_ | _) _ _ ⟨⟩⟩
  obtain ⟨a, hcovers, hfresh⟩ := exists_covering (hrewritten.fresh _ hstart)
  refine ⟨a, st.diagnostics, hfresh, ?_⟩
  have hkeep := hrewritten.eq a hcovers
  rw [lower, hyields]
  show Except.ok (Lowered.mk t' st.diagnostics) = _
  rw [Outcome.keep.inj hkeep]

end Downlevel.Lower.Arrow
