import Downlevel.Proofs.Marks.Copies
import Downlevel.Proofs.Scope.Leaves
import Mathlib.Algebra.BigOperators.Group.List.Basic
import Mathlib.Data.List.ReduceOption

/-!
# `Proofs.Scope.Identifiers`: the identifiers of an outline

Every identifier that an outline declares or refers to is an object of the tree that was read, and no
object is read twice. In a tree that names its identifiers as programs do, they are nodes with names.
-/

namespace Downlevel.Scope

open Tree

/-! ## No object is read twice -/

mutual

/-- The identifiers of an item, and the nodes that open scopes in it. -/
def Item.mentions : Item → List Tree
  | .declare identifier _ _ _ => [identifier]
  | .refer identifier _ => [identifier]
  | .issue _ _ => []
  | .scope _ node items => node :: mentionsOf items
  | .outside items => mentionsOf items

def mentionsOf : List Item → List Tree
  | [] => []
  | item :: rest => item.mentions ++ mentionsOf rest

end

theorem mentionsOf_append (xs ys : List Item) : mentionsOf (xs ++ ys) = mentionsOf xs ++ mentionsOf ys := by
  induction xs with
  | nil => rfl
  | cons x xs ih => rw [List.cons_append, mentionsOf, mentionsOf, ih, List.append_assoc]

/-- How often a mark is mentioned. -/
def countIn (m : Nat) (items : List Item) : Nat := ((mentionsOf items).filterMap mark?).count m

theorem countIn_append (m : Nat) (xs ys : List Item) :
    countIn m (xs ++ ys) = countIn m xs + countIn m ys := by
  rw [countIn, mentionsOf_append, List.filterMap_append, List.count_append]
  rfl

theorem countIn_flatMap_le {α : Type} {m : Nat} {f : α → List Item} {g : α → List Nat} {xs : List α}
    (h : ∀ x ∈ xs, countIn m (f x) ≤ (g x).count m) :
    countIn m (xs.flatMap f) ≤ (xs.flatMap g).count m := by
  induction xs with
  | nil => exact Nat.le_refl 0
  | cons x xs ih =>
    rw [List.forall_mem_cons] at h
    rw [List.flatMap_cons, List.flatMap_cons, countIn_append, List.count_append]
    exact Nat.add_le_add h.1 (ih h.2)

mutual

/-- What a step can mention: the node itself, or fields; one list for each way to go on. -/
def Step.paths : Step → List (List (Option String))
  | .declare key _ => [[key]]
  | .refer _ => [[none]]
  | .issue _ _ => [[]]
  | .read _ _ key => [[some key]]
  | .readAll => []
  | .scope _ steps => (pathsOf steps).map (none :: ·)
  | .outside steps => pathsOf steps
  | .choose _ yes no => pathsOf yes ++ pathsOf no

def pathsOf : List Step → List (List (Option String))
  | [] => [[]]
  | step :: rest => step.paths.flatMap fun p => (pathsOf rest).map (p ++ ·)

end

mutual

/-- Does a step read all fields at once? -/
def Step.readsAll : Step → Bool
  | .readAll => true
  | .scope _ steps => stepsReadAll steps
  | .outside steps => stepsReadAll steps
  | .choose _ yes no => stepsReadAll yes || stepsReadAll no
  | _ => false

def stepsReadAll : List Step → Bool
  | [] => false
  | step :: rest => step.readsAll || stepsReadAll rest

end

/-- Are all fields read at once, or each once at most? -/
def areLinear (steps : List Step) : Bool :=
  match steps with
  | [.readAll] => true
  | steps => !stepsReadAll steps &&
      (pathsOf steps).all fun p => decide p.Nodup && p.all fun key => key.all (!isPlaceKey ·)

section

variable {m : Nat} {t : Tree} {b : Binder} {read : Reader} {all : Unit → List Item}

/-- How often a mark is in a part of a node. -/
def weight (m : Nat) (t : Tree) : Option String → Nat
  | none => t.mark?.toList.count m
  | some key => copies m (t.get key)

theorem count_mark?_le (m : Nat) (t : Tree) : t.mark?.toList.count m ≤ copies m t :=
  count_mark?_add_copies_le m [] List.nodup_nil (List.forall_mem_nil _) t

theorem countIn_singleton (m : Nat) {item : Item} {i : Tree} (h : item.mentions = [i]) :
    countIn m [item] = i.mark?.toList.count m := by
  rw [countIn, mentionsOf, mentionsOf, h, List.append_nil, List.filterMap_cons]
  cases i.mark? <;> rfl

theorem countIn_scope (m : Nat) (type : ScopeType) (node : Tree) (items : List Item) :
    countIn m [.scope type node items] = node.mark?.toList.count m + countIn m items := by
  rw [countIn, mentionsOf, mentionsOf, Item.mentions, List.append_nil, List.filterMap_cons, countIn]
  cases node.mark? with
  | none => exact (Nat.zero_add _).symm
  | some k =>
    show ([k] ++ _).count m = _
    exact List.count_append

variable (hread : ∀ role c key, countIn m (read role c key) ≤ weight m t (some key))

include hread

set_option linter.unusedSectionVars false

mutual

theorem exists_path :
    ∀ step : Step, step.readsAll = false →
      ∃ p ∈ step.paths, countIn m (step.items t b read all) ≤ (p.map (weight m t)).sum
  | .declare none manner, _ => ⟨[none], List.mem_cons_self, by
      rw [Step.items, countIn_singleton m rfl]
      exact Nat.le_refl _⟩
  | .declare (some key) manner, _ => ⟨[some key], List.mem_cons_self, by
      rw [Step.items, countIn_singleton m rfl]
      exact count_mark?_le m (t.get key)⟩
  | .refer write, _ => ⟨[none], List.mem_cons_self, by
      rw [Step.items, countIn_singleton m rfl]
      exact Nat.le_refl _⟩
  | .issue code key, _ => ⟨[], List.mem_cons_self, Nat.le_refl 0⟩
  | .read manner role key, _ => ⟨[some key], List.mem_cons_self, hread role _ key⟩
  | .readAll, h => nomatch h
  | .scope type steps, h => by
    obtain ⟨p, hp, hle⟩ := exists_pathOf steps h
    refine ⟨none :: p, List.mem_map_of_mem hp, ?_⟩
    rw [Step.items, countIn_scope, List.map_cons, List.sum_cons]
    exact Nat.add_le_add_left hle _
  | .outside steps, h => by
    obtain ⟨p, hp, hle⟩ := exists_pathOf steps h
    exact ⟨p, hp, by rwa [Step.items, countIn, mentionsOf, mentionsOf, Item.mentions, List.append_nil]⟩
  | .choose condition yes no, h => by
    rw [Step.readsAll, Bool.or_eq_false_iff] at h
    rw [Step.items]
    split
    · obtain ⟨p, hp, hle⟩ := exists_pathOf yes h.1
      exact ⟨p, List.mem_append_left _ hp, hle⟩
    · obtain ⟨p, hp, hle⟩ := exists_pathOf no h.2
      exact ⟨p, List.mem_append_right _ hp, hle⟩

theorem exists_pathOf :
    ∀ steps : List Step, stepsReadAll steps = false →
      ∃ p ∈ pathsOf steps, countIn m (itemsOf t b read all steps) ≤ (p.map (weight m t)).sum
  | [], _ => ⟨[], List.mem_cons_self, Nat.le_refl 0⟩
  | step :: rest, h => by
    rw [stepsReadAll, Bool.or_eq_false_iff] at h
    obtain ⟨p, hp, hle⟩ := exists_path step h.1
    obtain ⟨q, hq, hle'⟩ := exists_pathOf rest h.2
    refine ⟨p ++ q, List.mem_flatMap.mpr ⟨p, hp, List.mem_map_of_mem hq⟩, ?_⟩
    rw [itemsOf, countIn_append, List.map_append, List.sum_append]
    exact Nat.add_le_add hle hle'

end

end

/-- Parts that are read once each hold no more than the node does. -/
theorem sum_weight_le (m : Nat) (t : Tree) {p : List (Option String)} (hnodup : p.Nodup)
    (hplace : ∀ key, some key ∈ p → isPlaceKey key = false) : (p.map (weight m t)).sum ≤ copies m t := by
  have hsplit : (p.map (weight m t)).sum = p.count none * t.mark?.toList.count m +
      (p.reduceOption.map fun key => copies m (t.get key)).sum := by
    clear hnodup hplace
    induction p with
    | nil => simp
    | cons key p ih =>
      cases key with
      | none =>
        rw [List.map_cons, List.sum_cons, ih, weight, List.count_cons_self, List.reduceOption_cons_of_none,
          Nat.add_one_mul]
        omega
      | some key =>
        rw [List.map_cons, List.sum_cons, ih, weight, List.count_cons_of_ne (by simp),
          List.reduceOption_cons_of_some, List.map_cons, List.sum_cons]
        omega
  have hkeys : p.reduceOption.Nodup := hnodup.filterMap fun a a' key ha ha' => ha.trans ha'.symm
  have hle := count_mark?_add_copies_le m p.reduceOption hkeys
    (fun key hkey => hplace key (List.reduceOption_mem_iff.mp hkey)) t
  have hself := Nat.mul_le_mul_right (t.mark?.toList.count m) (List.nodup_iff_count_le_one.mp hnodup none)
  rw [hsplit]
  omega

/-- **No object is read twice.** -/
theorem count_outline_le (m : Nat) (t : Tree) :
    ∀ role b, countIn m (outline role b t) ≤ t.marks.count m := by
  induction t using inductionOnParts with
  | scalar t hscalar =>
    intro role b
    rw [outline_scalar hscalar]
    exact Nat.zero_le _
  | list xs ih =>
    intro role b
    rw [outline, marks, marksOfItems_eq]
    split
    · rw [outlineItems_eq]
      exact countIn_flatMap_le fun x hx => ih x hx _ b
    · exact Nat.zero_le _
  | obj k fs ih =>
    intro role b
    have hread : ∀ role c key, countIn m (outlineField role c key fs) ≤
        weight m (.obj k fs) (some key) := by
      intro role c key
      rw [outlineField_eq role c key k, weight]
      rcases get_eq_null_or_mem k fs key with hnull | hmem
      · rw [hnull]
        exact Nat.zero_le _
      · exact ih _ hmem role c
    have hlinear : areLinear (stepsIn role (Tree.obj k fs).type?) :=
      forall_stepsIn (by decide) (by decide) _ _
    rw [outline]
    unfold areLinear at hlinear
    split at hlinear
    · rename_i heq
      rw [heq, itemsOf, itemsOf, List.append_nil, marks, List.count_append, Step.items, outlineFields_eq,
        marksOfFields_eq]
      refine Nat.le_add_left_of_le (countIn_flatMap_le fun f hf => ?_)
      split
      · exact Nat.zero_le _
      · exact ih f hf .visit b
    · rw [Bool.and_eq_true, Bool.not_eq_true', List.all_eq_true] at hlinear
      obtain ⟨p, hp, hle⟩ : ∃ p ∈ pathsOf (stepsIn role (Tree.obj k fs).type?), _ ≤ _ :=
        exists_pathOf hread _ hlinear.1
      have hpath := hlinear.2 p hp
      rw [Bool.and_eq_true, decide_eq_true_iff, List.all_eq_true] at hpath
      refine Nat.le_trans hle (sum_weight_le m _ hpath.1 fun key hkey => ?_)
      simpa using hpath.2 _ hkey

/-! ## Identifiers are nodes with names -/

/-- The types of identifiers. -/
def identifierTypes : List String := ["Identifier", "JSXIdentifier"]

/-- Is a value an identifier, if it is an object at all? -/
def isNameOrNone (t : Tree) : Bool := !t.isObject || t.isType "Identifier"

/-- Does an object name what it names as programs do? Identifiers have a name, functions and classes are
named by identifiers, and so is what a module imports. -/
def isWellNamed (t : Tree) : Bool :=
  t.isNodal && (!t.isTypeIn identifierTypes || (t.name?).isSome) &&
    (!t.isTypeIn (functionTypes ++ classTypes) || isNameOrNone (t.get "id")) &&
    (!t.isType "ImportDeclaration" || (t.children "specifiers").all fun s => isNameOrNone (s.get "local"))

/-- Does a single step declare and refer to identifiers only, given which fields hold objects? -/
def isNamingStep (type : Option String) (objects : List String) : Step → Bool
  | .declare none _ | .refer _ => type.any identifierTypes.contains
  | .declare (some key) _ =>
    key == "id" && type.any (functionTypes ++ classTypes).contains && objects.contains key
  | .read _ role key => role != .imported &&
      (role != .importedEach || type == some "ImportDeclaration" && key == "specifiers")
  | _ => true

theorem isNamingStep_of_mem_atomsOf {role : Role} {type : Option String} (hrole : role ≠ .imported)
    {a : List String × Act} (ha : a ∈ atomsOf [] [] (stepsIn role type)) :
    isNamingStep type a.1 a.2.2 := by
  suffices h : (atomsOf [] [] (stepsIn role type)).all (fun a => isNamingStep type a.1 a.2.2) = true from
    List.all_eq_true.mp h a ha
  rcases stepsIn_cases role type with (⟨name, rfl, hmem⟩ | hmem) | ⟨himported, _⟩ | ⟨rfl, d, heq⟩
  · have hall : typedSteps.all (fun e =>
        (atomsOf [] [] e.2).all fun a => isNamingStep (some e.1) a.1 a.2.2) = true := by decide
    exact List.all_eq_true.mp hall _ hmem
  · simp only [roleSteps, List.mem_cons, List.not_mem_nil, or_false] at hmem
    rcases hmem with h | h | h | h | h | h | h | h | h | h | h <;> rw [h] <;> rfl
  · exact absurd himported hrole
  · rw [heq]
    rfl

/-- Can a value be read in a role, so that imported names are identifiers? -/
def Suits : Role → Tree → Prop
  | .imported, t => isNameOrNone (t.get "local") = true
  | .importedEach, t => ∀ s ∈ t.items, isNameOrNone (s.get "local") = true
  | _, _ => True

/-- Is an object of the tree an identifier with a name? -/
def IsNameIn (t i : Tree) : Prop :=
  i ∈ t.objects ∧ i.isTypeIn identifierTypes = true ∧ (i.name?).isSome = true

theorem isNameIn_of_isTypeIn {t i : Tree} (h : ∀ o ∈ t.objects, isWellNamed o)
    (hi : i ∈ t.objects) (htype : i.isTypeIn identifierTypes) : IsNameIn t i := by
  have hwell := h i hi
  simp only [isWellNamed, htype, Bool.not_true, Bool.false_or, Bool.and_eq_true] at hwell
  exact ⟨hi, htype, hwell.1.1.2⟩

/-- The identifier of a single item. -/
def Item.identifier? : Item → Option Tree
  | .declare i _ _ _ | .refer i _ => some i
  | _ => none

/-- A leaf declares or refers to an identifier with a name. -/
def LeafHasName (t : Tree) (l : Leaf) : Prop := ∀ i ∈ l.2.identifier?, IsNameIn t i

/-- A value is part of the tree, and can be read in the role. -/
def IsReadable (t : Tree) (_ : List Tag) (role : Role) (_ : Binder) (v : Tree) : Prop :=
  v.objects ⊆ t.objects ∧ Suits role v

section

variable {t : Tree} {chain : List Tag} {role : Role} {b : Binder} {m : Option Nat}
  {fs : Fields} {act : Act}

theorem stepKeeps_isReadable (h : ∀ o ∈ t.objects, isWellNamed o)
    (hv : IsReadable t chain role b (.obj m fs))
    (hact : act ∈ actsOf (·.holds (.obj m fs)) [] (stepsIn role (Tree.obj m fs).type?)) :
    StepKeeps (LeafHasName t) (IsReadable t) (openedIn (.obj m fs) act.1 chain) b (.obj m fs) act.2 := by
  obtain ⟨known, ha, hknown⟩ := exists_atom_of_mem_actsOf hact
  have hatom := isAtom_of_mem_atomsOf ha
  have hself := h _ (hv.1 List.mem_cons_self)
  have hid : ∀ key, isPlaceKey key = false → ((Tree.obj m fs).get key).isObject →
      isNameOrNone ((Tree.obj m fs).get key) → IsNameIn t ((Tree.obj m fs).get key) := by
    intro key hkey hobj hname
    rw [isNameOrNone, hobj, Bool.not_true, Bool.false_or] at hname
    refine isNameIn_of_isTypeIn h (hv.1 (mem_objects_get hkey (self_mem_objects hobj))) ?_
    rw [isTypeIn_of_type? (isType_iff.mp hname)]
    rfl
  by_cases hrole : role = .imported
  · -- An imported name is read from its specifier.
    subst hrole
    cases List.mem_singleton.mp ha
    refine List.forall_mem_singleton.mpr fun i hi => ?_
    cases hi
    exact hid "local" rfl (hknown _ List.mem_cons_self) hv.2
  have hnaming := isNamingStep_of_mem_atomsOf hrole ha
  have hname : (Tree.obj m fs).type?.any identifierTypes.contains → IsNameIn t (.obj m fs) := by
    intro hany
    refine isNameIn_of_isTypeIn h (hv.1 List.mem_cons_self) ?_
    rwa [isTypeIn_eq_any]
  obtain ⟨opened, step⟩ := act
  cases step with
  | declare key manner =>
    refine List.forall_mem_singleton.mpr fun i hi => ?_
    cases hi
    cases key with
    | none => exact hname hnaming
    | some key =>
      rw [isNamingStep, Bool.and_eq_true, Bool.and_eq_true, beq_iff_eq, ← isTypeIn_eq_any] at hnaming
      obtain ⟨⟨rfl, htypes⟩, hmem⟩ := hnaming
      simp only [isWellNamed, htypes, Bool.not_true, Bool.false_or, Bool.and_eq_true] at hself
      exact hid "id" rfl (hknown _ (List.contains_iff_mem.mp hmem)) hself.1.2
  | refer write =>
    refine List.forall_mem_singleton.mpr fun i hi => ?_
    cases hi
    exact hname hnaming
  | issue code key =>
    refine List.forall_mem_singleton.mpr fun i hi => ?_
    cases hi
  | read manner r key =>
    have hkey : isPlaceKey key = false := Bool.not_eq_true' _ ▸ hatom
    refine ⟨fun o ho => hv.1 (mem_objects_get hkey ho), ?_⟩
    simp only [isNamingStep, Bool.and_eq_true, bne_iff_ne, ne_eq, Bool.or_eq_true, beq_iff_eq] at hnaming
    by_cases heach : r = .importedEach
    · obtain ⟨htype, rfl⟩ := hnaming.2.resolve_left fun hne => hne heach
      simp only [isWellNamed, isType_iff.mpr htype, Bool.not_true, Bool.false_or, Bool.and_eq_true,
        List.all_eq_true] at hself
      rw [heach]
      exact hself.2
    · have himported := hnaming.1
      cases r <;> first | exact trivial | contradiction
  | readAll =>
    intro f hf hplace
    refine ⟨fun o ho => hv.1 (List.mem_cons_of_mem _ (mem_objectsOfFields.mpr ⟨f, hf, hplace, ho⟩)), ?_⟩
    exact trivial
  | scope _ _ | outside _ | choose _ _ _ => cases hatom

/-- **Identifiers are nodes with names.** -/
theorem isNameIn_of_mem_leaves (h : ∀ o ∈ t.objects, isWellNamed o) :
    ∀ l ∈ (ofProgram t).leaves [], LeafHasName t l := by
  refine forall_leaves_ofProgram (fun hv _ hact => stepKeeps_isReadable h hv hact) (fun hrole hv x hx => ?_)
    fun type => ⟨fun o ho => mem_objects_get rfl ho, trivial⟩
  refine ⟨fun o ho => hv.1 (mem_objects_items hx ho), ?_⟩
  rename_i role _ _ _
  cases role <;> cases hrole <;> first | exact trivial | exact hv.2 x hx

/-! ## Declarations -/

/-- How a single step declares what it declares. -/
def Step.manner? : Step → Option Manner
  | .declare _ manner | .read manner _ _ => some manner
  | _ => none

/-- An object declares as the law says, as long as what is around it does. -/
def Binds (P : Binder → Prop) (o : Tree) : Prop :=
  ∀ role b, P b → ∀ a ∈ atomsOf [] [] (stepsIn role o.type?), ∀ manner ∈ a.2.2.manner?,
    P (manner.binder o b)

/-- A leaf that declares declares as the law says. -/
def LeafBinds (P : Binder → Prop) (l : Leaf) : Prop :=
  ∀ i kind hoisted d, l.2 = .declare i kind hoisted d → P ⟨kind, hoisted, d⟩

theorem stepKeeps_binds {P : Binder → Prop} (h : ∀ o ∈ t.objects, Binds P o)
    (hv : (Tree.obj m fs).objects ⊆ t.objects ∧ P b)
    (hact : act ∈ actsOf (·.holds (.obj m fs)) [] (stepsIn role (Tree.obj m fs).type?)) :
    StepKeeps (LeafBinds P) (fun _ _ b v => v.objects ⊆ t.objects ∧ P b)
      (openedIn (.obj m fs) act.1 chain) b (.obj m fs) act.2 := by
  obtain ⟨known, ha, -⟩ := exists_atom_of_mem_actsOf hact
  have hatom := isAtom_of_mem_atomsOf ha
  have hself := h _ (hv.1 List.mem_cons_self) role b hv.2 _ ha
  obtain ⟨opened, step⟩ := act
  cases step with
  | declare key manner =>
    refine List.forall_mem_singleton.mpr fun i kind hoisted d heq => ?_
    cases heq
    exact hself manner rfl
  | refer _ | issue _ _ =>
    refine List.forall_mem_singleton.mpr fun i kind hoisted d heq => ?_
    cases heq
  | read manner r key =>
    have hkey : isPlaceKey key = false := Bool.not_eq_true' _ ▸ hatom
    exact ⟨fun o ho => hv.1 (mem_objects_get hkey ho), hself manner rfl⟩
  | readAll =>
    exact fun f hf hplace =>
      ⟨fun o ho => hv.1 (List.mem_cons_of_mem _ (mem_objectsOfFields.mpr ⟨f, hf, hplace, ho⟩)), hv.2⟩
  | scope _ _ | outside _ | choose _ _ _ => cases hatom

/-- **The law of declarations**: it holds of all bindings if it holds of what the objects declare. Where a
binding is hoisted to can be seen from its scope only. -/
theorem exists_binder {P : Binder → Prop} (h : ∀ o ∈ t.objects, Binds P o) (hvar : P ⟨.var, true, t⟩)
    {x : Binding} (hx : x ∈ (analyzeMarked t).bindings) : ∃ hoisted, P ⟨x.kind, hoisted, x.declaration⟩ := by
  obtain ⟨tags, hoisted, hl, -⟩ := exists_leaf_of_binding hx
  refine ⟨hoisted, forall_leaves_ofProgram (Q := LeafBinds P) (fun hv _ hact => stepKeeps_binds h hv hact)
    (fun _ hv x hx => ⟨fun o ho => hv.1 (mem_objects_items hx ho), hv.2⟩)
    (fun type => ⟨fun o ho => mem_objects_get rfl ho, hvar⟩) _ hl _ _ _ _ rfl⟩

/-- The declarations of a program are objects of it. -/
theorem declaration_mem_objects {x : Binding} (h : x ∈ (analyzeMarked t).bindings) :
    x.declaration ∈ t.objects := by
  have hobject : t.isObject := by
    obtain ⟨tags, hoisted, hl, -⟩ := exists_leaf_of_binding h
    cases t with
    | obj k fs => rfl
    | null | bool _ | int _ | real _ | str _ | list _ => cases hl
  have hbinds : ∀ o ∈ t.objects, Binds (·.declaration ∈ t.objects) o := by
    intro o ho role b hb a _ manner _
    cases manner with
    | inherited => exact hb
    | own kind => exact ho
    | keyword =>
      rw [Manner.binder]
      split
      · exact ho
      · split <;> exact ho
  obtain ⟨hoisted, hmem⟩ := exists_binder hbinds (self_mem_objects hobject) h
  exact hmem

end

/-! ## The identifiers of an analysis -/

/-- What is bound and what is referred to, together. -/
def Analysis.identifiers (a : Analysis) : List Tree :=
  a.bindings.map (·.identifier) ++ a.references.map (·.identifier)

/-- The identifiers of a well-named program are nodes with names. -/
theorem isNameIn_of_mem_identifiers {t i : Tree} (h : ∀ o ∈ t.objects, isWellNamed o)
    (hi : i ∈ (analyzeMarked t).identifiers) : IsNameIn t i := by
  rcases List.mem_append.mp hi with hi | hi
  · obtain ⟨b, hb, rfl⟩ := List.mem_map.mp hi
    obtain ⟨tags, hoisted, hl, -⟩ := exists_leaf_of_binding hb
    exact isNameIn_of_mem_leaves h _ hl _ rfl
  · obtain ⟨r, hr, rfl⟩ := List.mem_map.mp hi
    obtain ⟨tags, hl, -⟩ := exists_leaf_of_reference hr
    exact isNameIn_of_mem_leaves h _ hl _ rfl

/-- The identifier of an event. -/
def Event.identifier? : Event → Option Tree
  | .bound b => some b.identifier
  | .referred r => some r.identifier
  | _ => none

/-- The node that an event is about. -/
def Event.mention? : Event → Option Tree
  | .opened s => some s.node
  | e => e.identifier?

mutual

theorem filterMap_mention?_eventsOf : ∀ (item : Item) (chain : List ScopeInfo) (next : Nat),
    (eventsOf chain next item).1.filterMap Event.mention? = item.mentions
  | .declare _ _ _ _, _, _ | .refer _ _, _, _ | .issue _ _, _, _ => rfl
  | .scope _ node items, _, _ => congrArg (node :: ·) (filterMap_mention?_events items _ _)
  | .outside items, _, _ => filterMap_mention?_events items _ _

/-- The events of an outline mention what the outline does. -/
theorem filterMap_mention?_events : ∀ (items : List Item) (chain : List ScopeInfo) (next : Nat),
    (events chain next items).1.filterMap Event.mention? = mentionsOf items
  | [], _, _ => rfl
  | item :: rest, chain, next => by
    rw [mentionsOf, ← filterMap_mention?_eventsOf item chain next,
      ← filterMap_mention?_events rest chain (eventsOf chain next item).2, ← List.filterMap_append]
    rfl

end

/-- What is picked from fewer events is a part of what is picked from more. -/
theorem sublist_filterMap {α β : Type} {f g : α → Option β} (h : ∀ a b, f a = some b → g a = some b)
    (xs : List α) : (xs.filterMap f).Sublist (xs.filterMap g) := by
  induction xs with
  | nil => exact .refl _
  | cons x xs ih =>
    rw [List.filterMap_cons, List.filterMap_cons]
    cases hf : f x with
    | some b =>
      rw [h x b hf]
      exact ih.cons_cons b
    | none =>
      cases g x with
      | none => exact ih
      | some b => exact ih.cons b

/-- No mark is on more events of a kind than objects, as long as these mention different nodes. -/
theorem count_filterMap_events_le (m : Nat) (t : Tree) {f : Event → Option Tree}
    (hf : ∀ e i, f e = some i → e.mention? = some i) :
    (((eventsOf [] 0 (ofProgram t)).1.filterMap f).filterMap mark?).count m ≤ t.marks.count m := by
  refine Nat.le_trans (((sublist_filterMap hf _).filterMap mark?).count_le m) ?_
  rw [filterMap_mention?_eventsOf]
  cases t with
  | obj k fs =>
    have hscope := countIn_scope m (if ((Tree.obj k fs).get "sourceType").isStr "module" then .module
      else .global) (.obj k fs) (outlineField .visit ⟨.var, true, .obj k fs⟩ "body" fs)
    rw [countIn, mentionsOf, mentionsOf, List.append_nil] at hscope
    have hbody := count_outline_le m ((Tree.obj k fs).get "body") .visit ⟨.var, true, .obj k fs⟩
    have hparts := count_mark?_add_copies_le m ["body"] (by decide) (by decide) (.obj k fs)
    rw [ofProgram, fields, hscope, outlineField_eq _ _ _ k]
    refine Nat.le_trans (Nat.add_le_add_left hbody _) ?_
    simpa [copies] using hparts
  | null | bool _ | int _ | real _ | str _ | list _ => exact Nat.zero_le _

theorem perm_identifiers (es : List Event) :
    (Analysis.ofEvents es).identifiers.Perm (es.filterMap Event.identifier?) := by
  induction es with
  | nil => exact .refl _
  | cons e es ih =>
    cases e with
    | opened _ | noted _ => exact ih
    | bound b => exact ih.cons b.identifier
    | referred r => exact List.perm_middle.trans (ih.cons r.identifier)

/-- No mark is on more identifiers of a program than objects. -/
theorem count_identifiers_le (m : Nat) (t : Tree) :
    ((analyzeMarked t).identifiers.filterMap mark?).count m ≤ t.marks.count m := by
  rw [analyzeMarked, ((perm_identifiers _).filterMap mark?).count_eq]
  refine count_filterMap_events_le m t fun e i he => ?_
  cases e with
  | opened _ => cases he
  | bound _ | referred _ | noted _ => exact he

/-- **No two scopes are opened by the same node.** -/
theorem nodup_scopeNodes {t : Tree} (h : t.marks.Nodup) :
    (((analyzeMarked t).scopes.map (·.node)).filterMap mark?).Nodup := by
  refine List.nodup_iff_count_le_one.mpr fun m => ?_
  rw [analyzeMarked, Analysis.scopes_ofEvents, List.map_filterMap]
  refine Nat.le_trans (count_filterMap_events_le m t fun e i he => ?_) (List.nodup_iff_count_le_one.mp h m)
  cases e with
  | opened _ => exact he
  | bound _ | referred _ | noted _ => cases he

end Downlevel.Scope
