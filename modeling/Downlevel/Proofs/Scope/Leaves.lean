import Downlevel.Proofs.Scope.Lookup

/-!
# `Proofs.Scope.Leaves`: outlines without numbers

An outline says of every identifier which scopes are around it. Numbering the scopes adds nothing to that: an
analysis binds and refers exactly to the **leaves** of the outline, each in the scopes around it.
-/

namespace Downlevel.Scope

open Tree

/-- A scope without its number. -/
abbrev Tag := ScopeType × Tree

/-- A single item, and the scopes around it. -/
abbrev Leaf := List Tag × Item

mutual

/-- The single items of an item, each with the scopes around it. -/
def Item.leaves (chain : List Tag) : Item → List Leaf
  | .scope type node items => leavesOf ((type, node) :: chain) items
  | .outside items => leavesOf (chain.drop 1) items
  | item => [(chain, item)]

def leavesOf (chain : List Tag) : List Item → List Leaf
  | [] => []
  | item :: rest => item.leaves chain ++ leavesOf chain rest

end

theorem leavesOf_append (chain : List Tag) (xs ys : List Item) :
    leavesOf chain (xs ++ ys) = leavesOf chain xs ++ leavesOf chain ys := by
  induction xs with
  | nil => rfl
  | cons x xs ih => rw [List.cons_append, leavesOf, leavesOf, ih, List.append_assoc]

theorem mem_leavesOf_flatMap {α : Type} {chain : List Tag} {l : Leaf} {f : α → List Item} {xs : List α} :
    l ∈ leavesOf chain (xs.flatMap f) ↔ ∃ x ∈ xs, l ∈ leavesOf chain (f x) := by
  induction xs with
  | nil => simp [leavesOf]
  | cons x xs ih =>
    simp only [List.flatMap_cons, leavesOf_append, List.mem_append, ih, List.mem_cons, exists_eq_or_imp]

theorem mem_leavesOf_outlineFields {chain : List Tag} {b : Binder} {l : Leaf} {fs : Fields} :
    l ∈ leavesOf chain (outlineFields b fs) ↔
      ∃ f ∈ fs, isPlaceKey f.1 = false ∧ l ∈ leavesOf chain (outline .visit b f.2) := by
  rw [outlineFields_eq, mem_leavesOf_flatMap]
  refine exists_congr fun f => and_congr_right fun _ => ?_
  cases isPlaceKey f.1 <;> simp [leavesOf]

/-! ## Single steps -/

section

variable {t : Tree} {b : Binder} {read : Reader} {all : Unit → List Item} {chain : List Tag}

/-- The scopes that a node has opened, inside of a chain of scopes. -/
def openedIn (t : Tree) (opened : List ScopeType) (chain : List Tag) : List Tag :=
  opened.map (·, t) ++ chain

/-- The leaves of a single step. -/
def leavesOfAct (t : Tree) (b : Binder) (read : Reader) (all : Unit → List Item) (chain : List Tag)
    (act : Act) : List Leaf :=
  leavesOf (openedIn t act.1 chain) (act.2.items t b read all)

mutual

theorem leavesOf_items : ∀ (step : Step) (opened : List ScopeType) (inScope : Bool),
    step.isGuarded inScope → (inScope → opened ≠ []) →
    leavesOf (openedIn t opened chain) (step.items t b read all) =
      (step.acts (·.holds t) opened).flatMap (leavesOfAct t b read all chain)
  | .scope type steps, opened, _, hguard, _ => by
    rw [Step.items, leavesOf, leavesOf, List.append_nil, Item.leaves, Step.acts]
    exact leavesOf_itemsOf steps (type :: opened) true hguard fun _ => List.cons_ne_nil _ _
  | .outside steps, opened, inScope, hguard, hopened => by
    rw [Step.isGuarded, Bool.and_eq_true] at hguard
    have hdrop : (openedIn t opened chain).drop 1 = openedIn t (opened.drop 1) chain := by
      cases opened with
      | nil => exact absurd rfl (hopened hguard.1)
      | cons type rest => rfl
    rw [Step.items, leavesOf, leavesOf, List.append_nil, Item.leaves, Step.acts, hdrop]
    exact leavesOf_itemsOf steps (opened.drop 1) false hguard.2 nofun
  | .choose condition yes no, opened, inScope, hguard, hopened => by
    rw [Step.isGuarded, Bool.and_eq_true] at hguard
    rw [Step.items, Step.acts]
    split
    · exact leavesOf_itemsOf yes opened inScope hguard.1 hopened
    · exact leavesOf_itemsOf no opened inScope hguard.2 hopened
  | .declare _ _, _, _, _, _ | .refer _, _, _, _, _ | .issue _ _, _, _, _, _ | .read _ _ _, _, _, _, _
  | .readAll, _, _, _, _ => (List.flatMap_singleton _ _).symm

/-- **The leaves of steps are those of the single steps taken.** -/
theorem leavesOf_itemsOf : ∀ (steps : List Step) (opened : List ScopeType) (inScope : Bool),
    stepsGuarded inScope steps → (inScope → opened ≠ []) →
    leavesOf (openedIn t opened chain) (itemsOf t b read all steps) =
      (actsOf (·.holds t) opened steps).flatMap (leavesOfAct t b read all chain)
  | [], _, _, _, _ => rfl
  | step :: rest, opened, inScope, hguard, hopened => by
    rw [stepsGuarded, Bool.and_eq_true] at hguard
    rw [itemsOf, leavesOf_append, actsOf, List.flatMap_append,
      leavesOf_items step opened inScope hguard.1 hopened,
      leavesOf_itemsOf rest opened inScope hguard.2 hopened]

end

end

/-! ## Laws of leaves -/

section

variable {Q : Leaf → Prop} {H : List Tag → Role → Binder → Tree → Prop}

/-- A single step passes on `H` to what it reads, and its own leaf is as `Q` says. -/
def StepKeeps (Q : Leaf → Prop) (H : List Tag → Role → Binder → Tree → Prop) (chain : List Tag)
    (b : Binder) (t : Tree) : Step → Prop
  | .read manner role key => H chain role (manner.binder t b) (t.get key)
  | .readAll => ∀ f ∈ t.fields, isPlaceKey f.1 = false → H chain .visit b f.2
  | .scope _ _ | .outside _ | .choose _ _ _ => False
  | step => ∀ item ∈ step.items t b (fun _ _ _ => []) (fun _ => []), Q (chain, item)

section

variable (hnode : ∀ {chain role b m fs}, H chain role b (.obj m fs) → ∀ act ∈ actsOf (·.holds (.obj m fs)) []
    (stepsIn role (Tree.obj m fs).type?), StepKeeps Q H (openedIn (.obj m fs) act.1 chain) b (.obj m fs)
    act.2)
  (hitems : ∀ {chain role r b xs}, role.ofItems? = some r → H chain role b (.list xs) → ∀ x ∈ xs, H chain r b
    x)

include hnode hitems

/-- **What every node passes on to its parts holds of all leaves.** -/
theorem forall_leaves (t : Tree) :
    ∀ {chain role b}, H chain role b t → ∀ l ∈ leavesOf chain (outline role b t), Q l := by
  induction t using inductionOnParts with
  | scalar t hscalar =>
    intro chain role b _ l hl
    rw [outline_scalar hscalar] at hl
    cases hl
  | list xs ih =>
    intro chain role b h l hl
    rw [outline] at hl
    split at hl
    · rename_i r hrole
      rw [outlineItems_eq] at hl
      obtain ⟨x, hx, hl⟩ := mem_leavesOf_flatMap.mp hl
      exact ih x hx (hitems hrole h x hx) l hl
    · cases hl
  | obj m fs ih =>
    intro chain role b h l hl
    rw [outline, show chain = openedIn (.obj m fs) [] chain from rfl,
      leavesOf_itemsOf _ [] false (stepsGuarded_stepsIn _ _) fun h => absurd h Bool.false_ne_true] at hl
    obtain ⟨⟨opened, step⟩, hact, hl⟩ := List.mem_flatMap.mp hl
    have hkeeps := hnode h _ hact
    cases step with
    | read manner r key =>
      rw [leavesOfAct, Step.items, outlineField_eq _ _ _ m] at hl
      rcases get_eq_null_or_mem m fs key with hnull | hmem
      · rw [hnull] at hl
        cases hl
      · exact ih _ hmem hkeeps l hl
    | readAll =>
      obtain ⟨f, hf, hplace, hl⟩ := mem_leavesOf_outlineFields.mp hl
      exact ih f hf (hkeeps f hf hplace) l hl
    | declare _ _ | refer _ | issue _ _ =>
      rw [List.mem_singleton.mp hl]
      exact hkeeps _ List.mem_cons_self
    | scope _ _ | outside _ | choose _ _ _ => exact hkeeps.elim

/-- The same for a whole program. -/
theorem forall_leaves_ofProgram {t : Tree}
    (hroot : ∀ type, H [(type, t)] .visit ⟨.var, true, t⟩ (t.get "body")) :
    ∀ l ∈ (ofProgram t).leaves [], Q l := by
  intro l hl
  rw [ofProgram, Item.leaves, outlineField_eq _ _ _ none] at hl
  exact forall_leaves hnode hitems _ (hroot _) l hl

end

end

/-! ## Entries -/

def ScopeInfo.tag (s : ScopeInfo) : Tag := (s.type, s.node)

/-- An entry without its numbers, if it is a single item. -/
def leafAt (l : Entry) : Option Leaf :=
  match l.2 with
  | .scope _ _ _ => none
  | item => some (l.1.map ScopeInfo.tag, item)

mutual

theorem filterMap_leafAt : ∀ (item : Item) (chain : List ScopeInfo) (next : Nat),
    (item.numbered chain next).1.filterMap leafAt = item.leaves (chain.map ScopeInfo.tag)
  | .declare _ _ _ _, _, _ | .refer _ _, _, _ | .issue _ _, _, _ => rfl
  | .scope _ _ items, _, _ => filterMap_leafAt_numberedIn items _ _
  | .outside items, chain, next => by
    rw [Item.leaves, ← List.map_drop]
    exact filterMap_leafAt_numberedIn items _ _

/-- **The single items among the entries are the leaves.** -/
theorem filterMap_leafAt_numberedIn : ∀ (items : List Item) (chain : List ScopeInfo) (next : Nat),
    (numberedIn chain next items).1.filterMap leafAt = leavesOf (chain.map ScopeInfo.tag) items
  | [], _, _ => rfl
  | item :: rest, chain, next => by
    rw [numberedIn, List.filterMap_append, filterMap_leafAt item, filterMap_leafAt_numberedIn rest, leavesOf]

end

/-- The function of a scope is the first one around it. -/
theorem IsChain.find?_isFunction {chain : List ScopeInfo} (h : IsChain chain) :
    ∃ f, chain.find? (·.isFunction) = some f ∧ targetScope chain true = f.id := by
  induction h with
  | root node hf =>
    refine ⟨_, List.find?_cons_of_pos hf, ?_⟩
    exact if_pos hf
  | @cons chain id type node hc hlt ih =>
    by_cases hf : type.isFunction
    · exact ⟨_, List.find?_cons_of_pos hf, if_pos hf⟩
    · obtain ⟨f, hfind, hid⟩ := ih
      refine ⟨f, ?_, ?_⟩
      · rw [List.find?_cons_of_neg (by simpa [ScopeInfo.isFunction, openScope] using hf)]
        exact hfind
      · cases chain with
        | nil => cases hc
        | cons s rest =>
          rw [← hid]
          exact IsChain.function_openScope hf

/-! ## Analyses -/

/-- The scope that a declaration belongs to. -/
def homeOf (chain : List Tag) (hoisted : Bool) : Option Tag :=
  if hoisted then chain.find? (·.1.isFunction) else chain.head?

/-- The node of a scope. -/
def Analysis.nodeOf (a : Analysis) (id : Nat) : Tree := ((a.scope? id).map (·.node)).getD .null

section

variable {a : Analysis} {chain : List ScopeInfo}

theorem Analysis.IsTree.nodeOf_id (h : a.IsTree) {s : ScopeInfo} (hs : s ∈ a.scopes) :
    a.nodeOf s.id = s.node := by
  rw [Analysis.nodeOf, h.scope?_eq_some.mpr ⟨hs, rfl⟩]
  rfl

/-- What is referred to in a chain of scopes has the nodes of the chain around it. -/
theorem nodes_targetScope (h : a.IsTree) (hc : IsChain chain) (hsub : chain ⊆ a.scopes) :
    (a.around (targetScope chain false)).map a.nodeOf = (chain.map ScopeInfo.tag).map (·.2) := by
  cases chain with
  | nil => cases hc
  | cons s rest =>
    show (a.around s.id).map a.nodeOf = _
    rw [h.around_id (hsub List.mem_cons_self), hc.ancestors_eq, List.map_map, List.map_map]
    exact List.map_congr_left fun x hx => h.nodeOf_id (hsub hx)

/-- What is declared in a chain of scopes belongs to one of them. -/
theorem homeOf_tags (h : a.IsTree) (hc : IsChain chain) (hsub : chain ⊆ a.scopes) (hoisted : Bool) :
    (homeOf (chain.map ScopeInfo.tag) hoisted).map (·.2) = some (a.nodeOf (targetScope chain hoisted)) := by
  cases hoisted with
  | false =>
    cases chain with
    | nil => cases hc
    | cons s rest =>
      show some s.node = some (a.nodeOf s.id)
      rw [h.nodeOf_id (hsub List.mem_cons_self)]
  | true =>
    obtain ⟨f, hfind, hid⟩ := hc.find?_isFunction
    have htag : (chain.map ScopeInfo.tag).find? (·.1.isFunction) = some f.tag := by
      rw [List.find?_map]
      show (chain.find? (·.isFunction)).map ScopeInfo.tag = some f.tag
      rw [hfind]
      rfl
    rw [homeOf, if_pos rfl, htag, hid, h.nodeOf_id (hsub (List.mem_of_find?_eq_some hfind))]
    rfl

end

section

variable {t : Tree}

theorem mem_leaves_iff {l : Leaf} :
    l ∈ (ofProgram t).leaves [] ↔ ∃ e ∈ ((ofProgram t).numbered [] 0).1, leafAt e = some l := by
  rw [← List.map_nil (f := ScopeInfo.tag), ← filterMap_leafAt _ [] 0, List.mem_filterMap]

/-- **A reference is a leaf**, with the same scopes around it. -/
theorem exists_leaf_of_reference {r : Reference} (hr : r ∈ (analyzeMarked t).references) :
    ∃ chain, (chain, .refer r.identifier r.write) ∈ (ofProgram t).leaves [] ∧
      ((analyzeMarked t).around r.scope).map (analyzeMarked t).nodeOf = chain.map (·.2) := by
  obtain ⟨chain, hl, hscope, hc, hsub⟩ := exists_entry_of_reference hr
  rw [hscope]
  exact ⟨_, mem_leaves_iff.mpr ⟨_, hl, rfl⟩, nodes_targetScope (isTree_analyzeMarked t) hc hsub⟩

/-- **A binding is a leaf**, declared in the same scope. -/
theorem exists_leaf_of_binding {b : Binding} (hb : b ∈ (analyzeMarked t).bindings) :
    ∃ chain hoisted, (chain, .declare b.identifier b.kind hoisted b.declaration) ∈ (ofProgram t).leaves [] ∧
      (homeOf chain hoisted).map (·.2) = some ((analyzeMarked t).nodeOf b.scope) := by
  obtain ⟨chain, hoisted, hl, hscope, hc, hsub⟩ := exists_entry_of_binding hb
  rw [hscope]
  exact ⟨_, hoisted, mem_leaves_iff.mpr ⟨_, hl, rfl⟩, homeOf_tags (isTree_analyzeMarked t) hc hsub _⟩

/-- **Every leaf that declares is a binding.** -/
theorem exists_binding_of_leaf {chain : List Tag} {identifier declaration : Tree} {kind : BindingKind}
    {hoisted : Bool} (hl : (chain, .declare identifier kind hoisted declaration) ∈ (ofProgram t).leaves []) :
    ∃ b ∈ (analyzeMarked t).bindings, b.identifier = identifier ∧
      (homeOf chain hoisted).map (·.2) = some ((analyzeMarked t).nodeOf b.scope) := by
  obtain ⟨⟨scopes, item⟩, hmem, heq⟩ := mem_leaves_iff.mp hl
  obtain ⟨hc, hsub⟩ := isChain_of_entry hmem
  cases item <;> cases heq
  refine ⟨⟨identifier, kind, declaration, targetScope scopes hoisted⟩, ?_, rfl,
    homeOf_tags (isTree_analyzeMarked t) hc hsub _⟩
  rw [analyzeMarked, Analysis.mem_bindings, eventsOf_eq]
  exact List.mem_filterMap.mpr ⟨_, hmem, rfl⟩

end

end Downlevel.Scope
