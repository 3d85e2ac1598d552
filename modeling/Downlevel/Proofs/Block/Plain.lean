import Downlevel.Lower.Block.Basic
import Downlevel.Proofs.Block.Declare
import Downlevel.Proofs.Grammar.Regular
import Downlevel.Proofs.Scope.Relabel

/-!
# `Proofs.Block.Plain`: programs without `let` and `const`

A program is **plain** if none of its objects declares with `let` or `const`. The lowering has nothing to do
there: the analysis finds no block binding, so nothing is planned, nothing is renamed, no loop is wrapped and
no declaration changes. And where the lowering keeps no declaration, a plain program is what it leaves.
-/

namespace Downlevel
namespace Node

open Tree

/-! ## Visits that change nothing -/

section

variable {C σ : Type} {handle : Handler C σ}

/-- The handler looks at the fields of the object, in some contexts, and keeps it as it is. -/
def Rests (handle : Handler C σ) (o : Tree) : Prop :=
  ∀ c parts, ∃ (contexts : String → Option C) (f : Tree → Tree),
    handle c o parts = (fun t => Outcome.keep (f t)) <$> parts.descend contexts ∧ f o = o

mutual

/-- **A visit changes nothing** if its handler keeps all objects as they are. -/
theorem visit_of_rests : ∀ (t : Tree) (c : C), (∀ o ∈ t.objects, Rests handle o) →
    visit handle c t = pure (.keep t)
  | .obj m fs, c, h => by
    rw [visit]
    obtain ⟨contexts, f, hhandle, hself⟩ := h _ List.mem_cons_self c
      { field := fun key c => visitField handle c key fs
        descend := fun contexts => Tree.obj m <$> visitFields handle contexts fs }
    have hfields := visitFields_of_rests fs contexts fun o ho => h o (List.mem_cons_of_mem _ ho)
    rw [hhandle]
    show (fun t => Outcome.keep (f t)) <$> Tree.obj m <$> visitFields handle contexts fs = _
    rw [hfields, map_pure, map_pure, hself]
  | .list xs, c, h => by
    rw [visit, visitItems_of_rests xs c h, map_pure]
    rfl
  | .null, _, _ | .bool _, _, _ | .int _, _, _ | .real _, _, _ | .str _, _, _ => by rw [visit]

theorem visitFields_of_rests : ∀ (fs : Fields) (contexts : String → Option C),
    (∀ o ∈ objectsOfFields fs, Rests handle o) → visitFields handle contexts fs = pure fs
  | [], _, _ => by rw [visitFields]
  | (k, v) :: rest, contexts, h => by
    rw [objectsOfFields] at h
    have hentry : visitEntry handle contexts k v = pure [(k, v)] := by
      unfold visitEntry
      cases contexts k with
      | none => rfl
      | some c =>
        simp only
        split
        · rename_i hvisited
          have hplace := isPlaceKey_of_isSyntaxKey (Bool.and_eq_true_iff.mp hvisited).1
          rw [hplace, if_neg Bool.false_ne_true] at h
          rw [visit_of_rests v c fun o ho => h o (List.mem_append_left _ ho), map_pure]
          rfl
        · rfl
    rw [visitFields_cons, hentry, pure_bind,
      visitFields_of_rests rest contexts fun o ho => h o (List.mem_append_right _ ho), pure_bind]
    rfl

theorem visitItems_of_rests : ∀ (xs : List Tree) (c : C),
    (∀ o ∈ objectsOfItems xs, Rests handle o) → visitItems handle c xs = pure xs
  | [], _, _ => by rw [visitItems]
  | t :: rest, c, h => by
    have hitem : visitItem handle c t = pure [t] := by
      unfold visitItem
      split
      · rw [visit_of_rests t c fun o ho => h o (List.mem_append_left _ ho), map_pure]
        rfl
      · rfl
    rw [visitItems_cons, hitem, pure_bind,
      visitItems_of_rests rest c fun o ho => h o (List.mem_append_right _ ho), pure_bind]
    rfl

end

end

end Node

namespace Lower
namespace Block

open Tree Node Grammar Scope

variable {labels : Labelling} {t v : Tree} {w w' : Unit} {slot : Slot}

/-! ## No loop to wrap -/

theorem wrapHandle_nil (depth : Nat) (c : Unit) (t : Tree) (parts : Parts Unit NameSupply) :
    wrapHandle [] depth c t parts = passOver () parts := by
  cases depth with
  | zero => rfl
  | succ depth =>
    have hnone : (t.mark?).any ([] : List Nat).contains = false := by
      cases t.mark? <;> rfl
    rw [wrapHandle]
    simp only [hnone, Bool.and_false, Bool.not_false, if_true]

/-- **Where no loop is planned, no loop is wrapped.** -/
theorem wrapLoops_nil (names : NameSupply) (t : Tree) : wrapLoops [] names t = .ok t := by
  have hrests : ∀ o ∈ t.objects, Rests (wrapHandle [] 1) o := fun o _ c parts =>
    ⟨fun _ => some (), id, wrapHandle_nil 1 c o parts, rfl⟩
  rw [wrapLoops, List.length_nil, visit_of_rests t () hrests]
  rfl

/-! ## Plain programs -/

/-- No object declares with `let` or `const`. -/
def IsPlain (t : Tree) : Prop := ∀ o ∈ t.objects, isBlockDeclaration o = false

/-- Only declarations declare as their keyword says, and nothing else declares for a block. -/
def isOrderly (type : Option String) : Manner → Bool
  | .inherited => true
  | .own kind => !kind.isBlockScoped
  | .keyword => type == some "VariableDeclaration"

theorem isOrderly_of_mem_atomsOf {role : Role} {type : Option String} {a : List String × Act}
    (h : a ∈ atomsOf [] [] (stepsIn role type)) : ∀ manner ∈ a.2.2.manner?, isOrderly type manner := by
  have htyped : ∀ entry ∈ typedSteps, ∀ a ∈ atomsOf [] [] entry.2, ∀ manner ∈ a.2.2.manner?,
      isOrderly (some entry.1) manner := by decide
  have hplain : ∀ steps ∈ importedSteps :: roleSteps, ∀ a ∈ atomsOf [] [] steps, ∀ manner ∈ a.2.2.manner?,
      manner = .inherited ∨ manner = .own .catchParameter := by decide
  have hrole : stepsIn role type ∈ importedSteps :: roleSteps →
      ∀ manner ∈ a.2.2.manner?, isOrderly type manner := by
    intro hmem manner hmanner
    rcases hplain _ hmem a h manner hmanner with rfl | rfl <;> rfl
  rcases stepsIn_cases role type with (⟨name, rfl, hmem⟩ | hmem) | ⟨-, heq⟩ | ⟨-, dotted, heq⟩
  · exact htyped _ hmem a h
  · exact hrole (List.mem_cons_of_mem _ hmem)
  · exact hrole (heq ▸ List.mem_cons_self)
  · rw [heq] at h
    cases List.mem_singleton.mp h
    exact nofun

/-- An object that declares with neither `let` nor `const` declares nothing for a block. -/
theorem binds_of_isPart {o : Tree} (hpart : IsPart labels o) (hplain : isBlockDeclaration o = false) :
    Binds (·.kind.isBlockScoped = false) o := by
  intro role b hb a ha manner hmanner
  have horderly := isOrderly_of_mem_atomsOf ha manner hmanner
  cases manner with
  | inherited => exact hb
  | own kind =>
    show kind.isBlockScoped = false
    simpa [isOrderly] using horderly
  | keyword =>
    have htype : o.type? = some "VariableDeclaration" := beq_iff_eq.mp horderly
    have hvar : (o.get "kind").isStr "var" := by
      rcases hpart with ⟨s, hd⟩ | ⟨hobject, hinert⟩
      · obtain ⟨text, htext, hmem⟩ := hd.keyword htype (k := "kind") rfl
        rw [isBlockDeclaration, isType_iff.mpr htype, Bool.true_and, htext] at hplain
        rw [htext]
        simp only [List.mem_cons, List.not_mem_nil, or_false] at hmem
        rcases hmem with rfl | rfl | rfl
        · rfl
        · cases hplain
        · cases hplain
      · rw [type?_of_isInert hobject hinert] at htype
        cases htype
    rw [Manner.binder, if_pos hvar]
    rfl

/-- **The bindings of a plain program are no block bindings.** -/
theorem isBlockScoped_of_isPlain (ht : Derives labels .program t) (hplain : IsPlain t) :
    ∀ b ∈ (analyzeMarked t).bindings, b.kind.isBlockScoped = false := by
  intro b hb
  have hbinds : ∀ o ∈ t.objects, Binds (·.kind.isBlockScoped = false) o := fun o ho =>
    binds_of_isPart (isPart_of_fits t _ ht.fits o ho) (hplain o ho)
  obtain ⟨hoisted, hkind⟩ := exists_binder hbinds rfl hb
  exact hkind

/-! ## Nothing to do -/

section

variable {a : Analysis}

theorem mem_bindings_of_mem_bindingsOf {scope : Nat} {p : Nat × Binding} (h : p ∈ a.bindingsOf scope) :
    p.2 ∈ a.bindings := by
  unfold Analysis.bindingsOf at h
  obtain ⟨name, -, hp⟩ := List.mem_flatMap.mp h
  obtain ⟨q, hq, rfl⟩ := List.mem_map.mp (List.mem_of_mem_filter (List.mem_of_mem_filter hp))
  exact (List.mem_zipIdx hq).2.2 ▸ List.getElem_mem _

/-- Without block bindings there is nothing to plan. -/
theorem plan_of_forall (h : ∀ b ∈ a.bindings, b.kind.isBlockScoped = false) : plan a = {} := by
  have hnone : blockBindings a = [] := by
    unfold blockBindings
    rw [List.flatMap_eq_nil_iff]
    intro s _
    rw [List.filter_eq_nil_iff]
    intro p hp
    rw [h p.2 (mem_bindings_of_mem_bindingsOf hp)]
    exact Bool.false_ne_true
  have hdynamic : keepDynamic a [] = {} := by
    exact List.foldl_fixed' (fun _ => rfl) _
  unfold plan
  simp only [hnone, hdynamic]
  rfl

/-- Without block bindings there is nothing to rename. -/
theorem renameAll_of_forall (h : ∀ b ∈ a.bindings, b.kind.isBlockScoped = false) (kept : List Nat)
    (names : NameSupply) : renameAll a kept names = { names := names } := by
  have hnone : ∀ function, candidates a kept function = [] := by
    intro function
    have hfilter : ((functionBindings a function).filter fun b => isMovable kept function b.2) = [] := by
      rw [List.filter_eq_nil_iff]
      intro p hp
      obtain ⟨s, -, hp⟩ := List.mem_flatMap.mp hp
      rw [isMovable, h p.2 (mem_bindings_of_mem_bindingsOf hp)]
      exact Bool.false_ne_true
    rw [candidates, hfilter, List.mergeSort_nil]
  have hsame : ∀ (w : Renamer) (s : ScopeInfo), renameFunction a a.resolutions kept w s = w := by
    intro w s
    rw [renameFunction, hnone]
    rfl
  exact List.foldl_fixed' (hsame _) _

end

mutual

/-- Where nothing is renamed, the tree stays. -/
theorem apply_nil : ∀ t : Tree, Renaming.apply [] t = t
  | .obj m fs => by
    rw [apply_obj, applyFields_nil fs]
    cases m <;> rfl
  | .list xs => by rw [Renaming.apply, applyItems_nil xs]
  | .null | .bool _ | .int _ | .real _ | .str _ => by rw [Renaming.apply]

theorem applyItems_nil : ∀ xs : List Tree, Renaming.applyItems [] xs = xs
  | [] => by rw [Renaming.applyItems]
  | t :: rest => by rw [Renaming.applyItems, apply_nil t, applyItems_nil rest]

theorem applyFields_nil : ∀ fs : Fields, Renaming.applyFields [] fs = fs
  | [] => by rw [Renaming.applyFields]
  | (k, v) :: rest => by rw [Renaming.applyFields, apply_nil v, applyFields_nil rest]

end

theorem convert_of_not_block {kept : List Nat} {inLoop : Bool} (h : isBlockDeclaration t = false) :
    convert kept inLoop t = t := by
  rw [convert, h]
  rfl

/-- **A plain program stays** when declarations become `var`. -/
theorem declareVars_of_isPlain (h : IsPlain t) (kept : List Nat) : declareVars kept t = .ok t := by
  have hrests : ∀ o ∈ t.objects, Rests (declareHandle kept) o := by
    intro o ho c parts
    obtain ⟨contexts, inLoop, -, hhandle⟩ := declareHandle_eq kept c o parts
    refine ⟨contexts, _, hhandle, ?_⟩
    rw [convert_of_not_block (h o ho), ite_self]
  rw [declareVars, visit_of_rests t {} hrests]
  rfl

/-- **A plain program has nothing to lower.** -/
theorem lowerMarked_of_isPlain (ht : Derives labels .program t) (hplain : IsPlain t) :
    lowerMarked t = .ok ⟨t, []⟩ := by
  have hkinds := isBlockScoped_of_isPlain ht hplain
  unfold lowerMarked
  simp only [plan_of_forall hkinds, renameAll_of_forall hkinds, apply_nil, wrapLoops_nil, ok_bind,
    declareVars_of_isPlain hplain]
  rfl

/-- Marks do not matter. -/
theorem isPlain_markFrom (h : IsPlain t) (next : Nat) : IsPlain (markFrom next t).1 := by
  intro o' ho'
  obtain ⟨o, ho, -, hsame⟩ := exists_of_mem_objects (matches_markFrom t next (Nat.le_refl _)) ho'
  have hkind : Grammar.Matches _ (o.get "kind") (o'.get "kind") := hsame.get rfl (by decide)
  rw [isBlockDeclaration, isType_congr hsame.type?, hkind.isStr, hkind.isStr]
  exact h o ho

/-! ## What is left where nothing is kept -/

/-- Nothing inside a node declares with `let` or `const`. -/
def IsPlainInside (t : Tree) : Prop := ∀ o ∈ objectsOfFields t.fields, isBlockDeclaration o = false

theorem isPlain_of_inside (hobject : t.isObject) (h : IsPlainInside t)
    (hself : isBlockDeclaration t = false) : IsPlain t := by
  cases t with
  | obj m fs => exact List.forall_mem_cons.mpr ⟨hself, h⟩
  | _ => cases hobject

theorem IsPlain.inside (h : IsPlain t) : IsPlainInside t := by
  cases t with
  | obj m fs => exact fun o ho => h o (List.mem_cons_of_mem _ ho)
  | list _ | null | bool _ | int _ | real _ | str _ => exact nofun

theorem IsPlainInside.set (h : IsPlainInside t) (hv : IsPlain v) (key : String) :
    IsPlainInside (t.set key v) := by
  cases t with
  | obj m fs =>
    intro o ho
    obtain ⟨f, hf, hplace, ho⟩ := mem_objectsOfFields.mp ho
    rcases mem_insert hf with rfl | hf
    · exact hv o ho
    · exact h o (mem_objectsOfFields.mpr ⟨f, hf, hplace, ho⟩)
  | list _ | null | bool _ | int _ | real _ | str _ => exact nofun

theorem IsPlainInside.get {key : String} (h : IsPlainInside t) (hkey : isPlaceKey key = false) :
    IsPlain (t.get key) := by
  cases t with
  | obj m fs =>
    intro o ho
    rw [Tree.get, get?, fields] at ho
    cases hv : Tree.lookup key fs with
    | none =>
      rw [hv] at ho
      cases ho
    | some v =>
      rw [hv] at ho
      exact h o (mem_objectsOfFields.mpr ⟨(key, v), mem_of_lookup_eq_some hv, hkey, ho⟩)
  | list _ | null | bool _ | int _ | real _ | str _ => exact List.forall_mem_nil _

/-- The items of a plain list are plain, and the other way round. -/
theorem isPlain_list_iff {xs : List Tree} : IsPlain (.list xs) ↔ ∀ x ∈ xs, IsPlain x := by
  constructor
  · intro h x hx o ho
    exact h o (mem_objects_items hx ho)
  · intro h o ho
    rw [objects, objectsOfItems_eq] at ho
    obtain ⟨x, hx, ho⟩ := List.mem_flatMap.mp ho
    exact h x hx o ho

theorem IsPlain.children (h : IsPlain t) : ∀ x ∈ t.items, IsPlain x := by
  cases t with
  | list xs => exact isPlain_list_iff.mp h
  | _ => exact nofun

theorem isPlain_resetDeclarator {d : Tree} (h : IsPlain d) : IsPlain (resetDeclarator d) := by
  have hvoid : IsPlain voidZero := by
    unfold IsPlain
    decide
  rw [resetDeclarator]
  split
  · cases d with
    | obj m fs =>
      refine isPlain_of_inside rfl (h.inside.set hvoid "init") ?_
      rw [isBlockDeclaration, isType, get_set_of_ne (by decide), get_set_of_ne (by decide)]
      exact h _ List.mem_cons_self
    | _ => exact h
  · exact h

/-- **A declaration that is not kept is plain**, if it is inside. -/
theorem isPlain_convert {inLoop : Bool} (hobject : t.isObject) (h : IsPlainInside t) :
    IsPlain (convert [] inLoop t) := by
  cases hblock : isBlockDeclaration t with
  | false =>
    rw [convert_of_not_block hblock]
    exact isPlain_of_inside hobject h hblock
  | true =>
    have hkept : isKept [] t = false := by
      unfold isKept
      cases t.mark? <;> rfl
    have heq : convert [] inLoop t = (withDeclarators inLoop t).set "kind" (.str "var") := by
      rw [convert, hblock, hkept]
      rfl
    have hobject' := (isObject_withDeclarators inLoop t).trans hobject
    have hinside : IsPlainInside (withDeclarators inLoop t) := by
      rw [withDeclarators]
      split
      · refine h.set (isPlain_list_iff.mpr ?_) "declarations"
        rw [List.forall_mem_map]
        exact fun d hd => isPlain_resetDeclarator ((h.get rfl).children d hd)
      · exact h
    rw [heq]
    refine isPlain_of_inside ((isObject_set _ _ _).trans hobject') (hinside.set ?_ "kind") ?_
    · exact fun _ ho => absurd ho List.not_mem_nil
    · rw [isBlockDeclaration, get_set_self hobject']
      exact Bool.and_false _

section

variable {labels : Labelling}

/-- A value that no visit enters has no declaration in it. -/
theorem isPlain_of_not_visited (hnot : isVisited v = false) (hpart : ∀ o ∈ v.objects, IsPart labels o) :
    IsPlain v := by
  cases v with
  | obj m fs =>
    have hinert : isInert labels (.obj m fs) := by
      rcases hpart _ List.mem_cons_self with ⟨s, hd⟩ | ⟨-, hinert⟩
      · rw [isVisited, hd.isNode] at hnot
        cases hnot
      · exact hinert
    intro o ho
    rw [objects, objectsOfFields_of_isInert hinert, List.mem_singleton] at ho
    rw [ho, Bool.eq_false_iff]
    intro hblock
    have htype := (isBlockDeclaration_iff.mp hblock).1
    rw [type?_of_isInert rfl hinert] at htype
    cases htype
  | list xs => cases hnot
  | null | bool _ | int _ | real _ | str _ => exact List.forall_mem_nil _

theorem isVisited_of_inert {k : String} (hplace : isPlaceKey k = false) (h : FieldFits labels none k v) :
    isVisited v = false :=
  isVisited_of_isPlain hplace (by simp) h

/-- A node of a program is derived from some symbol. -/
theorem exists_derives_of_isNode {o : Tree} (hpart : IsPart labels o) (hnode : o.isNode) :
    ∃ s, Derives labels s o := by
  rcases hpart with hd | ⟨-, hinert⟩
  · exact hd
  · have hfits : FieldFits labels none "" o := .inr hinert
    have hvisited := isVisited_of_inert (by decide) hfits
    rw [isVisited, hnode] at hvisited
    cases hvisited

/-- What becomes of a node is plain. -/
def LeavesPlain (labels : Labelling) : Law Surroundings Unit := fun _ t _ o _ =>
  ∀ s, Derives labels s t → ∃ t', o = .keep t' ∧ IsPlain t'

theorem leavesPlain_items {c : Surroundings} {xs ys : List Tree}
    (h : ItemsFollow (LeavesPlain labels) c xs w ys w') (hslot : slot.items? = none)
    (hfits : ∀ x ∈ xs, fits labels slot x) : ∀ y ∈ ys, IsPlain y := by
  induction h with
  | nil => exact nofun
  | @pass t rest ys w w' hnode h ih =>
    rw [List.forall_mem_cons] at hfits ⊢
    refine ⟨isPlain_of_not_visited ?_ (isPart_of_fits t slot hfits.1), ih hfits.2⟩
    cases t with
    | list xs =>
      rw [fits, hslot] at hfits
      cases hfits.1
    | _ => exact (Bool.or_false _).trans hnode
  | @visit t rest ys w w₁ w' o hnode ho h ih =>
    rw [List.forall_mem_cons] at hfits
    have hobject : t.isObject := by
      cases t with
      | obj m fs => rfl
      | _ => cases hnode
    obtain ⟨s, hd⟩ := exists_derives_of_isNode
      (isPart_of_fits t slot hfits.1 t (self_mem_objects hobject)) hnode
    obtain ⟨t', rfl, ht'⟩ := ho s hd
    exact List.forall_mem_cons.mpr ⟨ht', ih hfits.2⟩

theorem leavesPlain_value {c : Surroundings} {o : Outcome} (h : ValueFollows (LeavesPlain labels) c v w o w')
    (hfits : fits labels slot v) (hvisited : isVisited v) :
    ∃ v', o = .keep v' ∧ IsPlain v' := by
  cases h with
  | scalar hscalar =>
    cases v with
    | list _ | obj _ _ => cases hscalar
    | _ => cases hvisited
  | @object m fs _ _ _ h =>
    obtain ⟨s, hd⟩ := exists_derives_of_isNode (isPart_of_fits _ slot hfits _ List.mem_cons_self)
      ((Bool.or_false _).symm.trans hvisited)
    exact h s hd
  | @list xs ys _ _ h =>
    obtain ⟨item, _, hitems, hall⟩ := exists_items_of_fits hfits
    exact ⟨_, rfl, isPlain_list_iff.mpr (leavesPlain_items h (by cases slot <;> cases hitems <;> rfl) hall)⟩

/-- A field that is left alone is plain: only places in the text can hold more than a record. -/
theorem isPlain_of_pass {s : Symbol} {k : String} (hplace : isPlaceKey k = false)
    (hk : (isSyntaxKey k && isVisited v) = false) (hfits : FieldFits labels (slot? s t k) k v) :
    IsPlain v := by
  have hnot : isVisited v = false := by
    cases hreached : isSyntaxKey k with
    | true => rwa [hreached, Bool.true_and] at hk
    | false =>
      have htype : k = "type" := by
        simp only [isSyntaxKey, skippedKeys, isPlaceKey] at hreached hplace
        simp_all
      subst htype
      rw [slot?_type] at hfits
      exact isVisited_of_inert rfl hfits
  have hparts : ∀ o ∈ v.objects, IsPart labels o := by
    cases hslot : slot? s t k with
    | none =>
      rw [hslot] at hfits
      exact fun o ho => isPart_of_isInert (hfits.resolve_left (by simp [hplace])) ho
    | some slot =>
      rw [hslot] at hfits
      exact isPart_of_fits v slot hfits
  exact isPlain_of_not_visited hnot hparts

theorem leavesPlain_fields {contexts : String → Option Surroundings} {s : Symbol}
    {fs gs : Fields} (h : FieldsFollow (LeavesPlain labels) contexts fs w gs w')
    (hcontexts : ∀ k, (contexts k).isSome) (hfits : ∀ f ∈ fs, FieldFits labels (slot? s t f.1) f.1 f.2) :
    ∀ o ∈ objectsOfFields gs, isBlockDeclaration o = false := by
  induction h with
  | nil => exact nofun
  | @pass k v rest gs w w' hk h ih =>
    rw [List.forall_mem_cons] at hfits
    rw [objectsOfFields]
    refine List.forall_mem_append.mpr ⟨?_, ih hfits.2⟩
    obtain ⟨c, hc⟩ := Option.isSome_iff_exists.mp (hcontexts k)
    cases hplace : isPlaceKey k with
    | true => exact nofun
    | false => exact isPlain_of_pass hplace (hk c hc) hfits.1
  | @visit k v c o rest gs w w₁ w' hc hk ho h ih =>
    rw [List.forall_mem_cons] at hfits
    rw [Bool.and_eq_true] at hk
    have hplace := isPlaceKey_of_isSyntaxKey hk.1
    cases hslot : slot? s t k with
    | none =>
      have hfit := hfits.1
      rw [hslot] at hfit
      rw [isVisited_of_inert hplace hfit] at hk
      cases hk.2
    | some slot =>
      have hfit := hfits.1
      rw [hslot] at hfit
      obtain ⟨v', rfl, hv'⟩ := leavesPlain_value ho hfit hk.2
      show ∀ o ∈ (if isPlaceKey k then [] else v'.objects) ++ objectsOfFields gs, _
      rw [hplace, if_neg Bool.false_ne_true]
      exact List.forall_mem_append.mpr ⟨hv', ih hfits.2⟩

/-- **Where nothing is kept, no declaration is left.** -/
theorem declareHandle_leavesPlain : HandlerFollows (declareHandle []) (LeavesPlain labels) := by
  intro c m fs w o w' hparts hyields s hd
  obtain ⟨contexts, inLoop, hcontexts, hhandle⟩ := declareHandle_eq [] c (.obj m fs) (partsOf (declareHandle []) m fs)
  rw [hhandle] at hyields
  obtain ⟨t, hdescend, rfl⟩ := hyields.map_inv
  obtain ⟨gs, rfl, hgs⟩ := hparts.descend hdescend
  have hinside : IsPlainInside (.obj m gs) := leavesPlain_fields hgs hcontexts hd.fields
  refine ⟨_, rfl, ?_⟩
  split
  · exact isPlain_convert rfl hinside
  · rename_i hother
    obtain ⟨type, -, htype⟩ := hd.type
    refine isPlain_of_inside rfl hinside ?_
    rw [isBlockDeclaration, isType_congr ((hgs.type? m htype).trans htype.symm), Bool.eq_false_iff.mpr hother,
      Bool.false_and]

theorem isPlain_declareVars {t' : Tree} (ht : Derives labels .program t) (h : declareVars [] t = .ok t') :
    IsPlain t' := by
  obtain ⟨u, hu⟩ := exists_visit [] t {}
  have hlaw : LeavesPlain labels {} t () (.keep u) () :=
    (visit_follows declareHandle_leavesPlain t {} () _ _ hu).of_isObject ht.isObject
  obtain ⟨u', heq, hplain⟩ := hlaw .program ht
  cases heq
  rw [declareVars, show StateT.run _ _ = _ from hu] at h
  cases h
  exact hplain

end

end Block
end Lower
end Downlevel
