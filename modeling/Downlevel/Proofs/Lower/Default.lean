import Downlevel.Lower.Default
import Downlevel.Proofs.Grammar.Regular

/-!
# `Proofs.Lower.Default`: programs without default arguments are programs

A default moves from the parameters into a check in the body. Its target is an identifier, so it can be
compared and assigned; the body becomes a block first, in which the checks can stand.
-/

namespace Downlevel.Lower.Default

open Tree Node Grammar

variable {labels : Labelling} {s : Symbol} {t : Tree}

/-! ## Bodies -/

/-- Writing two fields, the first of which is there, in either order. -/
theorem set_set_comm {a b : String} (v w : Tree) (hne : a ≠ b) (ha : (t.get? a).isSome) :
    (t.set a v).set b w = (t.set b w).set a v := by
  have hinsert : ∀ fs : Fields, (lookup a fs).isSome →
      Tree.insert b w (Tree.insert a v fs) = Tree.insert a v (Tree.insert b w fs) := by
    intro fs hfs
    induction fs with
    | nil => cases hfs
    | cons f rest ih =>
      obtain ⟨k, u⟩ := f
      rw [lookup] at hfs
      by_cases hka : k = a
      · subst hka
        simp [Tree.insert, hne]
      · rw [if_neg hka] at hfs
        by_cases hkb : k = b
        · simp [Tree.insert, hkb, Ne.symm hne]
        · simp [Tree.insert, hka, hkb, ih hfs]
  cases t with
  | obj m fs => exact congrArg (Tree.obj m) (hinsert fs ha)
  | _ => rfl

/-- An arrow function whose body is marked as no expression. -/
theorem derives_set_expression (ht : Derives labels s t) (htype : t.type? = some "ArrowFunctionExpression")
    (hbody : Derives labels .expression (t.get "body")) :
    Derives labels s (t.set "expression" (.bool false)) := by
  have hrules : rulesOf t = [("id", .optional .identifier), ("params", .many .pattern),
      ("body", .choice .concise (.one .expression) (.one .arrowBody))] := by
    rw [rulesOf_of_type? htype, rulesFor_of_mem (by repeat constructor)]
  have hs : s ≠ .patternProperty := by
    rintro rfl
    exact absurd (ht.mem_types htype) (by decide)
  refine ht.set_trait (by decide) (by rw [hrules]; rfl) rfl (admits_of_mem ?_ (ht.mem_types htype) hs) ?_
  · rw [type?, get_set_of_ne (by decide)]
    exact htype
  · have hparts := ht.parts
    rw [hrules] at hparts ⊢
    simp only [List.forall_mem_cons] at hparts ⊢
    refine ⟨hparts.1, hparts.2.1, ?_, List.forall_mem_nil _⟩
    rw [Slot.resolve, Trait.holds, get_set_self ht.isObject, if_neg (by decide)]
    exact fits_one_iff.mpr (hbody.as_expression (List.subset_cons_of_subset _ (List.Subset.refl _)))

/-- A function whose body holds statements is still a function. -/
theorem derives_withStatements (ht : Derives labels s t) (h : t.isTypeIn functionTypes) :
    Derives labels s (withStatements t) ∧ (withStatements t).type? = t.type? ∧
      Derives labels .block ((withStatements t).get "body") := by
  rw [withStatements]
  rcases ht.function_body h with ⟨hblock, -⟩ | ⟨htype, hbody, hnot⟩
  · have hhas : (t.get "body").has "body" := by
      rw [has, (hblock.get?_of_slot? hblock.slot?_block rfl).1]
      rfl
    rw [if_pos (isType_iff.mpr (hblock.type_eq rfl)), if_pos hhas]
    exact ⟨ht, rfl, hblock⟩
  · simp only [hnot, Bool.false_eq_true, if_false, hbody.isSet, if_true]
    have hsome : (t.get? "body").isSome := by
      rw [get?_of_get rfl hbody.isNull]
      rfl
    have hreturn : Derives labels .statement (returnStatement (some (t.get "body")) (t.get "body")) := by
      refine derives_returnStatement ?_ _ (by decide)
      intro e he
      cases he
      exact hbody
    have hblock : Derives labels .block
        (block [returnStatement (some (t.get "body")) (t.get "body")] (t.get "body")) :=
      derives_block (List.forall_mem_singleton.mpr hreturn) _ (by decide)
    rw [set_set_comm _ _ (by decide) hsome]
    have hd := derives_set_expression ht htype hbody
    have htype' : (t.set "expression" (.bool false)).type? = t.type? := by
      rw [type?, type?, get_set_of_ne (by decide)]
    have hslot : slot? s (t.set "expression" (.bool false)) "body" = some (Slot.resolve s
        (t.set "expression" (.bool false)) (.choice .concise (.one .expression) (.one .arrowBody))) :=
      slot?_of_rule (htype'.trans htype) rfl
    refine ⟨hd.set_slot hslot (by decide) ?_, ?_, ?_⟩
    · rw [Slot.resolve, Trait.holds, get_set_self ht.isObject, if_neg (by decide)]
      exact fits_one_iff.mpr (hblock.as (hblock.type_eq rfl) (by decide) (by decide) (by decide))
    · rw [type?_set (by decide), htype']
    · rw [get_set_self hd.isObject]
      exact hblock

/-! ## Checks -/

theorem derives_sameName {target : Tree} {x y : Symbol} (h : Derives labels x target)
    (htype : target.type? = some "Identifier") (hy : "Identifier" ∈ y.types) :
    Derives labels y (sameName target) :=
  derives_identifierNode (h.text htype rfl) hy

theorem derives_check {target value : Tree} {x : Symbol} (htarget : Derives labels x target)
    (htype : target.type? = some "Identifier") (hvalue : Derives labels .expression value) :
    Derives labels .statement (check target value) := by
  refine derives_ifStatement ?_ ?_ (by decide)
  · exact derives_binary (by decide) (derives_sameName htarget htype (by decide))
      (derives_voidZero (by decide)) .null (by decide)
  · refine derives_block (List.forall_mem_singleton.mpr ?_) .null (by decide)
    exact derives_expressionStatement (derives_assign (derives_sameName htarget htype (by decide))
      hvalue .null (by decide)) .null (by decide)

/-- The variable that a parameter binds. -/
def target (param : Tree) : Tree := if isDefaulted param then param.get "left" else param

/-- The check for the default of a parameter. -/
def checkOf (param : Tree) : Tree := check (param.get "left") (param.get "right")

/-- The checks for the defaults of some parameters. -/
def checksOf (params : List Tree) : List Tree := (params.filter isDefaulted).map checkOf

theorem checksOf_cons (p : Tree) (params : List Tree) : checksOf (p :: params) =
    if isDefaulted p then checkOf p :: checksOf params else checksOf params := by
  rw [checksOf, List.filter_cons]
  split <;> rfl

/-- What parameters are split into. -/
theorem splitDefaults_eq {params targets checks : List Tree}
    (h : splitDefaults params = .ok (targets, checks)) :
    targets = params.map target ∧ checks = checksOf params := by
  induction params generalizing targets checks with
  | nil =>
    cases h
    exact ⟨rfl, rfl⟩
  | cons p params ih =>
    rw [splitDefaults] at h
    rw [List.map_cons, checksOf_cons, target]
    cases hdefault : isDefaulted p with
    | false =>
      rw [hdefault, if_neg Bool.false_ne_true] at h
      obtain ⟨⟨targets', checks'⟩, hrest, h⟩ := bind_eq_ok h
      cases h
      obtain ⟨rfl, rfl⟩ := ih hrest
      exact ⟨rfl, rfl⟩
    | true =>
      rw [hdefault, if_pos rfl] at h
      obtain ⟨left, hleft, h⟩ := bind_eq_ok h
      obtain ⟨right, hright, h⟩ := bind_eq_ok h
      obtain ⟨⟨targets', checks'⟩, hrest, h⟩ := bind_eq_ok h
      cases h
      obtain ⟨rfl, rfl⟩ := ih hrest
      rw [← get_of_need hleft, ← get_of_need hright]
      exact ⟨rfl, rfl⟩

section

variable {params : List Tree} (h : ∀ p ∈ params, Derives labels .pattern p)

include h

theorem splitDefaults_ok : splitDefaults params = .ok (params.map target, checksOf params) := by
  induction params with
  | nil => rfl
  | cons p rest ih =>
    rw [List.forall_mem_cons] at h
    rw [splitDefaults, ih h.2, List.map_cons, checksOf_cons, target]
    cases hdefault : isDefaulted p with
    | false => rfl
    | true =>
      have hleft : Derives labels .pattern (p.get "left") := h.1.one (isType_iff.mp hdefault) rfl
      have hright : Derives labels .expression (p.get "right") := h.1.one (isType_iff.mp hdefault) rfl
      rw [if_pos rfl, need, get?_of_get rfl hleft.isNull, need, get?_of_get rfl hright.isNull]
      rfl

theorem derives_target : ∀ p ∈ params.map target, Derives labels .pattern p := by
  intro q hq
  obtain ⟨p, hp, rfl⟩ := List.mem_map.mp hq
  unfold target
  split
  · rename_i hdefault
    exact (h p hp).one (isType_iff.mp hdefault) rfl
  · exact h p hp

theorem derives_checksOf (hidentifiers : ∀ p ∈ params, isDefaulted p →
    (p.get "left").type? = some "Identifier") : ∀ c ∈ checksOf params, Derives labels .statement c := by
  intro c hc
  obtain ⟨p, hp, rfl⟩ := List.mem_map.mp hc
  obtain ⟨hp, hdefault⟩ := List.mem_filter.mp hp
  have hleft : Derives labels .pattern (p.get "left") := (h p hp).one (isType_iff.mp hdefault) rfl
  exact derives_check hleft (hidentifiers p hp hdefault) ((h p hp).one (isType_iff.mp hdefault) rfl)

end

/-! ## Functions -/

theorem get_withStatements {key : String} (hbody : key ≠ "body") (hexpression : key ≠ "expression")
    (t : Tree) : (withStatements t).get key = t.get key := by
  unfold withStatements
  simp only
  split
  · split
    · rfl
    · rw [get_set_of_ne hbody]
  · rw [get_set_of_ne hexpression, get_set_of_ne hbody]

/-- Does a default belong to a pattern? -/
def hasPattern (t : Tree) : Bool :=
  ((t.children "params").filter isDefaulted).any fun p => !(p.get "left").isType "Identifier"

theorem identifiers_of_hasPattern (h : hasPattern t = false) : ∀ p ∈ t.children "params",
    isDefaulted p → (p.get "left").type? = some "Identifier" := by
  intro p hp hdefault
  have hleft := List.any_eq_false.mp h p (List.mem_filter.mpr ⟨hp, hdefault⟩)
  exact isType_iff.mp (by simpa using hleft)

/-- The first default of a function that mentions a name of the body, if the body is one of statements. -/
def clashOf (t : Tree) : Option (Tree × String) :=
  clash? (t.children "params") (((withStatements t).get "body").children "body")

/-- The function with its defaults moved into the body. -/
def moved (t : Tree) : Tree :=
  let body := (withStatements t).get "body"
  let statements := body.children "body"
  let n := prologueLength statements true
  ((withStatements t).set "params" (.list ((t.children "params").map target))).set "body" (body.set "body"
    (.list (statements.take n ++ checksOf (t.children "params") ++ statements.drop n)))

/-- The parameters and the statements of a function whose defaults are moved. -/
theorem children_moved (ht : t.isObject) :
    let statements := ((withStatements t).get "body").children "body"
    let n := prologueLength statements true
    (moved t).children "params" = (t.children "params").map target ∧
      ((moved t).get "body").children "body" =
        statements.take n ++ checksOf (t.children "params") ++ statements.drop n := by
  have hobject : (withStatements t).isObject ∧ ((withStatements t).get "body").isObject := by
    unfold withStatements
    simp only
    split
    · rename_i hblock
      obtain ⟨m, fs, hbody⟩ := isObject_of_type? (isType_iff.mp hblock)
      split
      · exact ⟨ht, hbody ▸ rfl⟩
      · rw [get_set_self ht, isObject_set, isObject_set]
        exact ⟨ht, hbody ▸ rfl⟩
    · rw [get_set_of_ne (by decide), get_set_self ht, isObject_set, isObject_set]
      have htype : ∀ ss place, (block ss place).type? = some "BlockStatement" := fun ss place => by
        rw [block, type?, get_located (by decide) (by decide)]
        rfl
      obtain ⟨m, fs, hbody⟩ := isObject_of_type? (htype _ _)
      exact ⟨ht, hbody ▸ rfl⟩
  refine ⟨?_, ?_⟩
  · rw [children, moved, get_set_of_ne (by decide), get_set_self hobject.1]
    rfl
  · rw [moved, get_set_self ((isObject_set _ _ _).trans hobject.1), children, get_set_self hobject.2]
    rfl

/-- What becomes of a function: it has no defaults, a default of a pattern, a default that refers to a
name of the body, or defaults that move. -/
theorem function_cases {t' : Tree} {w w' : Work} (h : Yields (function t) w t' w') :
    (((t.children "params").filter isDefaulted).isEmpty ∧ t' = t ∧ w' = w) ∨
      ((t.children "params").filter isDefaulted).isEmpty = false ∧
        ((hasPattern t ∧ t' = t ∧ ∃ d, w'.diagnostics = w.diagnostics ++ [d]) ∨
          hasPattern t = false ∧
            (((clashOf t).isSome ∧ t' = withStatements t ∧
                ∃ d, w'.diagnostics = w.diagnostics ++ [d]) ∨
              (clashOf t = none ∧ t' = moved t ∧ w' = w))) := by
  rw [function] at h
  simp only [] at h
  split at h
  · rename_i hempty
    obtain ⟨rfl, rfl⟩ := h.pure_inv
    exact .inl ⟨hempty, rfl, rfl⟩
  rename_i hempty
  refine .inr ⟨Bool.not_eq_true _ ▸ hempty, ?_⟩
  split at h
  · rename_i hpattern
    obtain ⟨_, w₁, hdecline, h⟩ := h.bind_inv
    obtain ⟨rfl, rfl⟩ := h.pure_inv
    cases hdecline
    exact .inl ⟨hpattern, rfl, _, rfl⟩
  rename_i hpattern
  refine .inr ⟨Bool.not_eq_true _ ▸ hpattern, ?_⟩
  split at h
  · rename_i hclash
    obtain ⟨_, w₁, hdecline, h⟩ := h.bind_inv
    obtain ⟨rfl, rfl⟩ := h.pure_inv
    cases hdecline
    exact .inl ⟨Option.isSome_of_eq_some hclash, rfl, _, rfl⟩
  · rename_i hclash
    obtain ⟨⟨params, checks⟩, w₁, hlift, hmove⟩ := h.bind_inv
    obtain ⟨hsplit, rfl⟩ := hlift.lift_inv
    obtain ⟨rfl, rfl⟩ := hmove.pure_inv
    obtain ⟨rfl, rfl⟩ := splitDefaults_eq hsplit
    exact .inr ⟨hclash, rfl, rfl⟩

/-- A function whose defaults belong to identifiers is still a function when they are moved. -/
theorem derives_moved (ht : Derives labels s t) (h : t.isTypeIn functionTypes)
    (hpattern : hasPattern t = false) : Derives labels s (moved t) := by
  obtain ⟨hd, htype, hblock⟩ := derives_withStatements ht h
  have hparams := ht.function_params h
  have h' : (withStatements t).isTypeIn functionTypes := by
    rw [isTypeIn_congr htype]
    exact h
  have hset := hd.set_slot (slot?_params h') (by decide)
    (fits_many_iff.mpr ⟨_, rfl, derives_target hparams⟩)
  rcases hd.function_body h' with ⟨-, slot, hslot, hfits⟩ | ⟨-, -, hnot⟩
  · refine hset.set_slot ((slot?_set (by decide) _ _).trans hslot) (by decide) (hfits _ ?_)
    exact hblock.insert_many hblock.slot?_block (by decide)
      (derives_checksOf hparams (identifiers_of_hasPattern hpattern)) _
  · rw [isType_iff.mpr (hblock.type_eq rfl)] at hnot
    cases hnot

theorem derives_function (ht : Derives labels s t) (h : t.isTypeIn functionTypes) (w : Work) :
    ∃ t' w', Yields (function t) w t' w' ∧ Derives labels s t' := by
  rw [function]
  simp only []
  split
  · exact ⟨t, w, Yields.pure _ _, ht⟩
  split
  · exact ⟨t, _, (yields_modify _).bind (Yields.pure _ _), ht⟩
  rename_i hpattern
  split
  · exact ⟨_, _, (yields_modify _).bind (Yields.pure _ _), (derives_withStatements ht h).1⟩
  · exact ⟨_, w, (yields_liftM (splitDefaults_ok (ht.function_params h))).bind (Yields.pure _ _),
      derives_moved ht h (Bool.not_eq_true _ ▸ hpattern)⟩

/-! ## The lowering -/

theorem isStepwise : IsStepwise handle functionTypes function := fun _ _ _ => rfl

theorem handle_keeps : HandlerKeeps (regularContract Unit Work labels) labels handle :=
  isStepwise.keeps derives_function

/-- **A program without default arguments is a program.** -/
theorem derives_lower (ht : Derives labels .program t) :
    ∃ out, lower t = .ok out ∧ Derives labels .program out.tree :=
  run_program handle_keeps ht trivial (fun _ => id) fun _ => trivial

end Downlevel.Lower.Default
