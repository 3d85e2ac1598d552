import Downlevel.Proofs.Tree.Objects
import Downlevel.Scope.Outline

/-!
# `Proofs.Scope.Outline`: the shape of outlines

What holds of every outline is shown for the finitely many lists of steps that a construct can take, and
then along the recursion over the tree.
-/

namespace Downlevel.Scope

open Tree

/-! ## The steps there are -/

/-- The steps that a construct or a pattern takes because of its type. -/
def typedSteps : List (String × List Step) := constructs ++ bindPatterns ++ assignPatterns

/-- The steps that a part takes because of its role. -/
def roleSteps : List (List Step) :=
  [[.readAll], [], [.visit "body"], [handlerStep], [.visit "local"],
   [.part .bind "id", .visit "init"], [.part .bind "argument"],
   [.when (.isSet "computed") [.visit "key"], .part .bind "value"], [.part .assign "argument"],
   [.when (.isSet "computed") [.visit "key"], .part .assign "value"],
   [.part (.elementName true) "object"]]

/-- The steps of a name bound by an import. -/
def importedSteps : List Step := [.when (.isObject "local") [.declare (some "local") .inherited]]

/-- The steps of the name of an element. -/
def elementSteps (dotted : Bool) : List Step := [.when (.isVariable dotted) [.refer false]]

/-- Are these the steps of a type, or of a role? -/
def IsListed (type : Option String) (steps : List Step) : Prop :=
  (∃ name, type = some name ∧ (name, steps) ∈ typedSteps) ∨ steps ∈ roleSteps

theorem isListed_nodeSteps (type : Option String) : IsListed type (nodeSteps type) := by
  unfold nodeSteps
  cases h : type.bind (List.lookup · constructs) with
  | none => exact .inr List.mem_cons_self
  | some steps =>
    obtain ⟨name, htype, hlookup⟩ := Option.bind_eq_some_iff.mp h
    refine .inl ⟨name, htype, ?_⟩
    exact List.mem_append_left _ (List.mem_append_left _ (mem_of_lookup hlookup))

theorem isListed_patternSteps {patterns : List (String × List Step)} (hsub : patterns ⊆ typedSteps)
    (type : Option String) : IsListed type (patternSteps patterns type) := by
  unfold patternSteps
  cases h : type.bind (List.lookup · patterns) with
  | none => exact isListed_nodeSteps type
  | some steps =>
    obtain ⟨name, htype, hlookup⟩ := Option.bind_eq_some_iff.mp h
    exact .inl ⟨name, htype, hsub (mem_of_lookup hlookup)⟩

/-- **Every node takes the steps of its type or of its role.** -/
theorem stepsIn_cases (role : Role) (type : Option String) :
    IsListed type (stepsIn role type) ∨ role = .imported ∧ stepsIn role type = importedSteps ∨
      type = some "JSXIdentifier" ∧ ∃ dotted, stepsIn role type = elementSteps dotted := by
  have hbind : bindPatterns ⊆ typedSteps := fun x hx =>
    List.mem_append_left _ (List.mem_append_right _ hx)
  have hassign : assignPatterns ⊆ typedSteps := fun x hx => List.mem_append_right _ hx
  cases role with
  | visit => exact .inl (isListed_nodeSteps type)
  | bind => exact .inl (isListed_patternSteps hbind type)
  | assign => exact .inl (isListed_patternSteps hassign type)
  | loopHead =>
    left
    rw [stepsIn]
    split
    · exact isListed_nodeSteps type
    · exact isListed_patternSteps hassign type
  | functionBody =>
    left
    rw [stepsIn]
    split
    · exact .inr (by simp [roleSteps])
    · exact isListed_nodeSteps type
  | bindProperty | assignProperty =>
    refine .inl (.inr ?_)
    rw [stepsIn, propertySteps]
    split <;> simp [roleSteps]
  | elementName dotted =>
    rw [stepsIn, elementNameSteps]
    split
    · exact .inl (.inr (by simp [roleSteps]))
    · split
      · rename_i hjsx
        exact .inr (.inr ⟨hjsx, dotted, rfl⟩)
      · exact .inl (.inr (by simp [roleSteps]))
  | imported => exact .inr (.inl ⟨rfl, rfl⟩)
  | bindProperties | bindEach | assignProperties | assignEach | declarators | declarator
  | catchBody | handler | importedEach | exported | exportedEach =>
    exact .inl (.inr (by simp [roleSteps, stepsIn]))

/-- The lists of steps that a node can take, names of elements apart. -/
def plainSteps : List (List Step) := typedSteps.map (·.2) ++ roleSteps ++ [importedSteps]

theorem stepsIn_mem_plainSteps (role : Role) (type : Option String) :
    stepsIn role type ∈ plainSteps ∨
      type = some "JSXIdentifier" ∧ ∃ dotted, stepsIn role type = elementSteps dotted := by
  rcases stepsIn_cases role type with (⟨name, _, hmem⟩ | hmem) | ⟨_, heq⟩ | helement
  · exact .inl (List.mem_append_left _ (List.mem_append_left _ (List.mem_map_of_mem hmem)))
  · exact .inl (List.mem_append_left _ (List.mem_append_right _ hmem))
  · exact .inl (List.mem_append_right _ (by rw [heq]; exact List.mem_cons_self))
  · exact .inr helement

/-- What can be checked of the lists of steps one by one holds of all nodes. -/
theorem forall_stepsIn {p : List Step → Bool} (hplain : plainSteps.all p)
    (helement : ∀ dotted, p (elementSteps dotted)) (role : Role) (type : Option String) :
    p (stepsIn role type) := by
  rcases stepsIn_mem_plainSteps role type with hmem | ⟨_, dotted, heq⟩
  · exact List.all_eq_true.mp hplain _ hmem
  · rw [heq]
    exact helement dotted

/-! ## Conditions -/

/-- The fields that hold objects wherever a condition holds. -/
def Condition.objects : Condition → List String
  | .isObject key | .isIdentifier key => [key]
  | _ => []

theorem Condition.isObject_of_holds {t : Tree} {c : Condition} (h : c.holds t) :
    ∀ key ∈ c.objects, (t.get key).isObject := by
  intro key hkey
  cases c with
  | isObject k =>
    rw [List.mem_singleton.mp hkey]
    exact h
  | isIdentifier k =>
    rw [List.mem_singleton.mp hkey]
    obtain ⟨m, fs, hobject⟩ := isObject_of_type? (isType_iff.mp h)
    rw [hobject]
    rfl
  | isSet _ | isNull _ | callsEval | isVariable _ => cases hkey

/-! ## Single steps -/

/-- A single step, and the scopes that the node has opened around it. -/
abbrev Act := List ScopeType × Step

mutual

/-- The single steps that a node takes, given which conditions hold. -/
def Step.acts (holds : Condition → Bool) (opened : List ScopeType) : Step → List Act
  | .scope type steps => actsOf holds (type :: opened) steps
  | .outside steps => actsOf holds (opened.drop 1) steps
  | .choose condition yes no =>
    if holds condition then actsOf holds opened yes else actsOf holds opened no
  | step => [(opened, step)]

def actsOf (holds : Condition → Bool) (opened : List ScopeType) : List Step → List Act
  | [] => []
  | step :: rest => step.acts holds opened ++ actsOf holds opened rest

end

mutual

/-- The single steps of a step whatever conditions hold, each with the fields known to hold objects. -/
def Step.atoms (objects : List String) (opened : List ScopeType) : Step → List (List String × Act)
  | .scope type steps => atomsOf objects (type :: opened) steps
  | .outside steps => atomsOf objects (opened.drop 1) steps
  | .choose condition yes no =>
    atomsOf (condition.objects ++ objects) opened yes ++ atomsOf objects opened no
  | step => [(objects, opened, step)]

def atomsOf (objects : List String) (opened : List ScopeType) : List Step → List (List String × Act)
  | [] => []
  | step :: rest => step.atoms objects opened ++ atomsOf objects opened rest

end

section

variable {t : Tree} {act : Act}

mutual

theorem exists_atom : ∀ (step : Step) (objects : List String) (opened : List ScopeType),
    (∀ key ∈ objects, (t.get key).isObject) → act ∈ step.acts (·.holds t) opened →
    ∃ known, (known, act) ∈ step.atoms objects opened ∧ ∀ key ∈ known, (t.get key).isObject = true
  | .scope type steps, objects, opened, hobj, hact => exists_atomOf steps objects (type :: opened) hobj hact
  | .outside steps, objects, opened, hobj, hact => exists_atomOf steps objects (opened.drop 1) hobj hact
  | .choose condition yes no, objects, opened, hobj, hact => by
    rw [Step.acts] at hact
    split at hact
    · rename_i hholds
      obtain ⟨known, hmem, hknown⟩ := exists_atomOf yes (condition.objects ++ objects) opened
        (List.forall_mem_append.mpr ⟨condition.isObject_of_holds hholds, hobj⟩) hact
      exact ⟨known, List.mem_append_left _ hmem, hknown⟩
    · obtain ⟨known, hmem, hknown⟩ := exists_atomOf no objects opened hobj hact
      exact ⟨known, List.mem_append_right _ hmem, hknown⟩
  | .declare _ _, objects, _, hobj, hact | .refer _, objects, _, hobj, hact
  | .issue _ _, objects, _, hobj, hact | .read _ _ _, objects, _, hobj, hact
  | .readAll, objects, _, hobj, hact =>
    ⟨objects, List.mem_singleton.mp hact ▸ List.mem_cons_self, hobj⟩

theorem exists_atomOf : ∀ (steps : List Step) (objects : List String) (opened : List ScopeType),
    (∀ key ∈ objects, (t.get key).isObject) → act ∈ actsOf (·.holds t) opened steps →
    ∃ known, (known, act) ∈ atomsOf objects opened steps ∧ ∀ key ∈ known, (t.get key).isObject = true
  | [], _, _, _, hact => by cases hact
  | step :: rest, objects, opened, hobj, hact => by
    rcases List.mem_append.mp hact with hact | hact
    · obtain ⟨known, hmem, hknown⟩ := exists_atom step objects opened hobj hact
      exact ⟨known, List.mem_append_left _ hmem, hknown⟩
    · obtain ⟨known, hmem, hknown⟩ := exists_atomOf rest objects opened hobj hact
      exact ⟨known, List.mem_append_right _ hmem, hknown⟩

end

/-- **Every step taken is a single step of the construct**, and its conditions hold. -/
theorem exists_atom_of_mem_actsOf {steps : List Step} (h : act ∈ actsOf (·.holds t) [] steps) :
    ∃ known, (known, act) ∈ atomsOf [] [] steps ∧ ∀ key ∈ known, (t.get key).isObject :=
  exists_atomOf steps [] [] (List.forall_mem_nil _) h

end

/-- Is it a single step that reads no place in the text? -/
def Step.isAtom : Step → Bool
  | .read _ _ key => !isPlaceKey key
  | .scope _ _ | .outside _ | .choose _ _ _ => false
  | _ => true

theorem isAtom_of_mem_atomsOf {role : Role} {type : Option String} {a : List String × Act}
    (h : a ∈ atomsOf [] [] (stepsIn role type)) : a.2.2.isAtom := by
  have hall := forall_stepsIn (p := fun steps => (atomsOf [] [] steps).all (·.2.2.isAtom)) (by decide)
    (by decide) role type
  exact List.all_eq_true.mp hall a h

/-! ## Parts -/

theorem outline_scalar {t : Tree} (h : isScalar t) (role : Role) (b : Binder) :
    outline role b t = [] := by
  cases t with
  | list _ | obj _ _ => cases h
  | null | bool _ | int _ | real _ | str _ => rfl

theorem outlineItems_eq (role : Role) (b : Binder) (xs : List Tree) :
    outlineItems role b xs = xs.flatMap (outline role b) := by
  induction xs with
  | nil => rfl
  | cons x xs ih => rw [outlineItems, List.flatMap_cons, ih]

theorem outlineFields_eq (b : Binder) (fs : Fields) :
    outlineFields b fs = fs.flatMap fun f => if isPlaceKey f.1 then [] else outline .visit b f.2 := by
  induction fs with
  | nil => rfl
  | cons f rest ih =>
    rw [outlineFields, List.flatMap_cons, ih]
    rfl

/-- A field that is not there is read as null, and leaves no trace. -/
theorem outlineField_eq (role : Role) (b : Binder) (key : String) (m : Option Nat)
    (fs : Fields) :
    outlineField role b key fs = outline role b ((Tree.obj m fs).get key) := by
  rw [Tree.get, get?, fields]
  induction fs with
  | nil => rfl
  | cons f rest ih =>
    rw [outlineField, lookup]
    split
    · rfl
    · exact ih

/-! ## Guarded items -/

mutual

/-- Is every scope opened by a node that passes, and every part that is read outside of a scope right inside
that scope? -/
def Item.isGuarded (p : Tree → Bool) (inScope : Bool) : Item → Bool
  | .scope _ node items => p node && areGuarded p true items
  | .outside items => inScope && areGuarded p false items
  | _ => true

def areGuarded (p : Tree → Bool) (inScope : Bool) : List Item → Bool
  | [] => true
  | item :: rest => item.isGuarded p inScope && areGuarded p inScope rest

end

mutual

/-- The same for the steps of a construct, which read no places in the text. -/
def Step.isGuarded (inScope : Bool) : Step → Bool
  | .scope _ steps => stepsGuarded true steps
  | .outside steps => inScope && stepsGuarded false steps
  | .choose _ yes no => stepsGuarded inScope yes && stepsGuarded inScope no
  | .read _ _ key => !isPlaceKey key
  | _ => true

def stepsGuarded (inScope : Bool) : List Step → Bool
  | [] => true
  | step :: rest => step.isGuarded inScope && stepsGuarded inScope rest

end

section

variable {p : Tree → Bool} {b : Bool}

theorem areGuarded_append {xs ys : List Item} :
    areGuarded p b (xs ++ ys) = (areGuarded p b xs && areGuarded p b ys) := by
  induction xs with
  | nil => rfl
  | cons x xs ih => rw [List.cons_append, areGuarded, areGuarded, ih, Bool.and_assoc]

theorem areGuarded_flatMap {α : Type} {f : α → List Item} {xs : List α} :
    areGuarded p b (xs.flatMap f) = xs.all fun x => areGuarded p b (f x) := by
  induction xs with
  | nil => rfl
  | cons x xs ih => rw [List.flatMap_cons, areGuarded_append, List.all_cons, ih]

/-- What is guarded on its own is guarded inside a scope. -/
theorem areGuarded_of_false (b : Bool) {xs : List Item} (h : areGuarded p false xs) :
    areGuarded p b xs := by
  induction xs with
  | nil => rfl
  | cons x xs ih =>
    rw [areGuarded, Bool.and_eq_true] at h ⊢
    refine ⟨?_, ih h.2⟩
    cases x with
    | outside items => exact absurd h.1 (by simp [Item.isGuarded])
    | declare _ _ _ _ | refer _ _ | issue _ _ | scope _ _ _ => exact h.1

section

variable {t : Tree} {binder : Binder} {read : Reader} {all : Unit → List Item} (hself : p t)
  (hread : ∀ r b k, isPlaceKey k = false → areGuarded p false (read r b k)) (hall : areGuarded p false (all ()))

include hself hread hall

set_option linter.unusedSectionVars false

mutual

theorem areGuarded_items :
    ∀ (b : Bool) (step : Step), step.isGuarded b → areGuarded p b (step.items t binder read all) = true
  | b, .read manner r k, h => areGuarded_of_false b (hread r _ k (Bool.not_eq_true' _ ▸ h))
  | b, .readAll, _ => areGuarded_of_false b hall
  | b, .scope type steps, h => by
    rw [Step.items, areGuarded, areGuarded, Bool.and_true, Item.isGuarded, hself, Bool.true_and]
    exact areGuarded_itemsOf true steps h
  | b, .outside steps, h => by
    rw [Step.isGuarded, Bool.and_eq_true] at h
    rw [Step.items, areGuarded, areGuarded, Bool.and_true, Item.isGuarded, h.1, Bool.true_and]
    exact areGuarded_itemsOf false steps h.2
  | b, .choose c yes no, h => by
    rw [Step.isGuarded, Bool.and_eq_true] at h
    rw [Step.items]
    split
    · exact areGuarded_itemsOf b yes h.1
    · exact areGuarded_itemsOf b no h.2
  | _, .declare _ _, _ | _, .refer _, _ | _, .issue _ _, _ => rfl

theorem areGuarded_itemsOf :
    ∀ (b : Bool) (steps : List Step), stepsGuarded b steps →
      areGuarded p b (itemsOf t binder read all steps) = true
  | _, [], _ => rfl
  | b, step :: rest, h => by
    rw [stepsGuarded, Bool.and_eq_true] at h
    rw [itemsOf, areGuarded_append, Bool.and_eq_true]
    exact ⟨areGuarded_items b step h.1, areGuarded_itemsOf b rest h.2⟩

end

end

theorem stepsGuarded_stepsIn (role : Role) (type : Option String) :
    stepsGuarded false (stepsIn role type) :=
  forall_stepsIn (by decide) (fun _ => rfl) role type

theorem areGuarded_outline (t : Tree) : ∀ role b, (∀ o ∈ t.objects, p o) →
    areGuarded p false (outline role b t) := by
  induction t using inductionOnParts with
  | scalar t hscalar =>
    intro role b _
    rw [outline_scalar hscalar]
    rfl
  | list xs ih =>
    intro role b hp
    rw [outline]
    split
    · rw [outlineItems_eq, areGuarded_flatMap, List.all_eq_true]
      exact fun x hx => ih x hx _ b fun o ho => hp o (mem_objects_items hx ho)
    · rfl
  | obj m fs ih =>
    intro role b hp
    refine areGuarded_itemsOf (hp _ List.mem_cons_self) (fun r b key hkey => ?_) ?_ false _
      (stepsGuarded_stepsIn role _)
    · rw [outlineField_eq r b key m]
      rcases get_eq_null_or_mem m fs key with hnull | hmem
      · rw [hnull]
        rfl
      · exact ih _ hmem r b fun o ho => hp o (mem_objects_get hkey ho)
    · rw [outlineFields_eq, areGuarded_flatMap, List.all_eq_true]
      intro f hf
      split
      · rfl
      · rename_i hplace
        exact ih f hf .visit b fun o ho => hp o (List.mem_cons_of_mem _
          (mem_objectsOfFields.mpr ⟨f, hf, Bool.eq_false_iff.mpr hplace, ho⟩))

/-- **What is read outside of a scope is read right inside it, and scopes are opened by objects.** -/
theorem areGuarded_outlineField (role : Role) (b : Binder) (key : String) (fs : Fields)
    (h : ∀ o ∈ ((Tree.obj none fs).get key).objects, p o) :
    areGuarded p false (outlineField role b key fs) := by
  rw [outlineField_eq role b key none]
  exact areGuarded_outline _ role b h

end

end Downlevel.Scope
