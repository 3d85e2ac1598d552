import Downlevel.Proofs.Lower.Class
import Downlevel.Proofs.Settled.Step

/-!
# `Proofs.Settled.Super`: classes that are left alone, and `super`

The survey of classes: a class is left alone and reported, or it is changed; behind `export default` it is
looked at together with its export. Where `super` is replaced in a method, every class nested in it stays as
it is, so the tally of the method does.
-/

namespace Downlevel.Lower.Class

open Tree Node Grammar Survey

variable {labels : Labelling} {s : Symbol} {t : Tree}

/-! ## The survey -/

/-- Is a class reported and left as it is? -/
def isLeftAlone (t : Tree) : Bool :=
  let superClass := t.get "superClass"
  (!superClass.isNull && !isReference superClass) ||
    (problem? (!superClass.isNull) ((t.get "body").children "body")).isSome

noncomputable def classWorth (t : Tree) : ℕ∞ := if isLeftAlone t then 1 else ⊤

/-- A class declaration behind `export default`. -/
def isExportedClass (t : Tree) : Bool :=
  t.isType "ExportDefaultDeclaration" && (t.get "declaration").isType "ClassDeclaration"

theorem isExportedClass_iff : isExportedClass t ↔
    t.type? = some "ExportDefaultDeclaration" ∧ (t.get "declaration").type? = some "ClassDeclaration" := by
  rw [isExportedClass, Bool.and_eq_true, isType_iff, isType_iff]

/-- The nodes at which a class is lowered. -/
def surveyedTypes : List String := ["ClassDeclaration", "ClassExpression", "ExportDefaultDeclaration"]

theorem isExportedClass_of_not_surveyed (h : t.isTypeIn surveyedTypes = false) :
    isExportedClass t = false := by
  rw [isExportedClass, Bool.and_eq_false_iff]
  exact .inl (by simpa using List.any_eq_false.mp h "ExportDefaultDeclaration" (by decide))

/-- A class behind `export default` is looked at together with its export. -/
noncomputable def survey : Survey Position where
  types := surveyedTypes
  worth position t :=
    if isExportedClass t then classWorth (t.get "declaration")
    else if t.isType "ClassExpression" then classWorth t
    else if t.isType "ClassDeclaration" then
      match position with
      | .anywhere => classWorth t
      | .exported => 0
    else 0
  context position t key :=
    if isExportedClass t then some .exported
    else if t.isTypeIn surveyedTypes then some .anywhere
    else some position
  worth_other _ t h := by
    have hnot := List.any_eq_false.mp h
    rw [isExportedClass_of_not_surveyed h, if_neg Bool.false_ne_true, if_neg (hnot _ (by decide)), if_neg (hnot _ (by decide))]
  context_other c t h := by
    funext key
    rw [isExportedClass_of_not_surveyed h, if_neg Bool.false_ne_true, h, if_neg Bool.false_ne_true]

instance : survey.SparesBuilt where
  not_mem := show ∀ type ∈ builtTypes, type ∉ surveyedTypes by decide

/-! ## Replacing `super` -/

/-- What a method of a class is made of holds no export. -/
def IsInner (labels : Labelling) (t : Tree) : Prop := ∃ s, Derives labels s t ∧ s ≠ .moduleItem ∧ s ≠ .program

section

variable (hd : Derives labels s t)

include hd

/-- The children of an inner node are inner nodes. -/
theorem isInner_child {p : String × Tree} (hs : s ≠ .moduleItem ∧ s ≠ .program) (hp : p ∈ t.childNodes) :
    IsInner labels p.2 := by
  obtain ⟨slot, x, hslot, hx, hderives⟩ := hd.child hp
  obtain ⟨type, rs, entry, htype, hrs, hentry, hmem⟩ := mem_contents_of_slot? hslot hx
  -- Items of modules stand in programs only.
  have hrules : ∀ rule ∈ rules, rule.1 ≠ "Program" → ∀ entry ∈ rule.2,
      .moduleItem ∉ entry.2.contents ∧ .program ∉ entry.2.contents := by decide
  have hne : type ≠ "Program" := by
    rintro rfl
    have hprogram := hd.mem_types htype
    cases s <;> first | exact hs.2 rfl | exact hs.1 rfl | (revert hprogram; decide)
  obtain ⟨hitem, hprogram⟩ := hrules _ hrs hne _ hentry
  refine ⟨x, hderives, ?_, ?_⟩
  · rintro rfl
    exact hitem hmem
  · rintro rfl
    exact hprogram hmem

/-- `super` itself counts nothing. -/
theorem tally_super (htype : t.type? = some "Super") : survey.tally .anywhere t = 0 := by
  have hnot : t.isTypeIn survey.types = false :=
    isTypeIn_false htype (show "Super" ∉ surveyedTypes by decide)
  rw [tally_of_isObject hd.isObject, survey.worth_other _ t hnot, survey.context_other _ t hnot,
    tallyFields_of_derives hd, rulesOf_of_type? htype]
  rfl

theorem tally_of_call (htype : t.type? = some "CallExpression") : survey.tally .anywhere t =
      survey.tally .anywhere (t.get "callee") + survey.tallyItems .anywhere (t.children "arguments") := by
  have harguments : t.get "arguments" = .list (t.children "arguments") := (hd.many htype rfl).1
  rw [tally_of_type hd htype (by repeat constructor) (spares (by decide))]
  simp [harguments]

theorem tally_of_member (htype : t.type? = some "MemberExpression") : survey.tally .anywhere t =
      survey.tally .anywhere (t.get "object") + survey.tally .anywhere (t.get "property") := by
  rw [tally_of_type hd htype (by repeat constructor) (spares (by decide))]
  simp

/-- A node in the body of a method is no export. -/
theorem not_surveyed (hs : s ≠ .moduleItem) (hclass : t.isTypeIn classTypes = false) :
    t.isTypeIn survey.types = false := by
  obtain ⟨type, hmem, htype⟩ := hd.type
  rw [isTypeIn_of_type? htype, decide_eq_false_iff_not] at hclass ⊢
  have hexport : type ≠ "ExportDefaultDeclaration" := by
    rintro rfl
    cases s <;> first | exact hs rfl | (revert hmem; decide)
  intro hin
  replace hin : type ∈ surveyedTypes := hin
  simp only [surveyedTypes, classTypes, List.mem_cons, List.not_mem_nil, or_false] at hin hclass
  rcases hin with rfl | rfl | rfl
  · exact hclass (.inl rfl)
  · exact hclass (.inr rfl)
  · exact hexport rfl

end

/-- A function on children that keeps the tally of each keeps the tally of the fields. -/
theorem tallyFields_mapChildren {f : String → Tree → Tree}
    (h : ∀ p ∈ t.childNodes, survey.tally .anywhere (f p.1 p.2) = survey.tally .anywhere p.2) :
    survey.tallyFields (fun _ => some .anywhere) (mapChildren f t).fields =
      survey.tallyFields (fun _ => some .anywhere) t.fields := by
  have hvalue : ∀ {key v}, (∀ y ∈ nodesIn v, survey.tally .anywhere (f key y) = survey.tally .anywhere y) →
      survey.tally .anywhere (mapNodes (f key) v) = survey.tally .anywhere v := by
    intro key v hv
    cases v with
    | obj m fs =>
      rw [mapNodes]
      split
      · rename_i hnode
        exact hv _ (mem_nodesIn.mpr ⟨.inl rfl, hnode⟩)
      · rfl
    | list xs =>
      rw [mapNodes, tally_list, tally_list]
      replace hv : ∀ y ∈ xs, y.isNode → survey.tally .anywhere (f key y) = survey.tally .anywhere y :=
        fun y hy hnode => hv y (mem_nodesIn.mpr ⟨.inr hy, hnode⟩)
      induction xs with
      | nil => rfl
      | cons x xs ih =>
        rw [List.forall_mem_cons] at hv
        rw [List.map_cons, tallyItems_cons, tallyItems_cons, ih hv.2]
        split
        · rename_i hnode
          rw [hv.1 hnode]
        · rfl
    | _ => rfl
  cases t with
  | obj m fs =>
    replace h : ∀ g ∈ fs, isSyntaxKey g.1 → ∀ y ∈ nodesIn g.2,
        survey.tally .anywhere (f g.1 y) = survey.tally .anywhere y :=
      fun g hg hk y hy => h (g.1, y) (mem_childNodes.mpr ⟨g.2, hg, hk, hy⟩)
    show survey.tallyFields _ (fs.map _) = survey.tallyFields _ fs
    induction fs with
    | nil => rfl
    | cons g fs ih =>
      rw [List.forall_mem_cons] at h
      rw [List.map_cons, tallyFields_cons, tallyFields_cons, ih h.2]
      cases hk : isSyntaxKey g.1 with
      | true => rw [if_pos rfl, entry_some hk, entry_some hk, hvalue (h.1 hk)]
      | false => rw [if_neg Bool.false_ne_true]
  | _ => rfl

section

variable {superName : String} {isStatic : Bool} {s : Symbol} {t : Tree}

/-- What is no class counts what its parts do. -/
theorem tally_superlessParts (hd : Derives labels s t) (hs : s ≠ .moduleItem)
    (hclass : t.isTypeIn classTypes = false) (h : ∀ p ∈ t.childNodes,
      survey.tally .anywhere (superless superName isStatic p.2) = survey.tally .anywhere p.2) :
    survey.tally .anywhere (superlessParts superName isStatic t) = survey.tally .anywhere t := by
  have hother := not_surveyed hd hs hclass
  have hother' : (superlessParts superName isStatic t).isTypeIn survey.types = false :=
    (isTypeIn_congr type?_mapChildren _).trans hother
  rw [tally_of_isObject (derives_superlessParts hd).isObject, survey.worth_other _ _ hother',
    survey.context_other _ _ hother', tally_of_isObject hd.isObject, survey.worth_other _ _ hother,
    survey.context_other _ _ hother, superlessParts, tallyFields_mapChildren h]

/-- **Replacing `super` changes nothing that counts.** -/
theorem tally_superless (hinner : IsInner labels t) :
    survey.tally .anywhere (superless superName isStatic t) = survey.tally .anywhere t := by
  obtain ⟨s, hd, hs⟩ := hinner
  refine hd.inductionOnChildren (motive := fun t => IsInner labels t →
    survey.tally .anywhere (superless superName isStatic t) = survey.tally .anywhere t) ?_ ⟨s, hd, hs⟩
  rintro - t - ih ⟨s, hd, hs⟩
  have ih : ∀ p ∈ t.childNodes,
      survey.tally .anywhere (superless superName isStatic p.2) = survey.tally .anywhere p.2 :=
    fun p hp => ih p hp (isInner_child hd hs hp)
  have harguments : t.type? = some "CallExpression" →
      survey.tallyItems .anywhere ((t.children "arguments").map (superless superName isStatic)) =
        survey.tallyItems .anywhere (t.children "arguments") := by
    intro htype
    have hall := fun y hy => ih _ (mem_childNodes_arguments hd htype (y := y) hy).1
    generalize t.children "arguments" = ys at hall
    induction ys with
    | nil => rfl
    | cons y ys ihys =>
      rw [List.forall_mem_cons] at hall
      rw [List.map_cons, tallyItems_cons, tallyItems_cons, hall.1, ihys hall.2]
  have hmade : ∀ property computed, survey.tally .anywhere
      (located (member (superBase superName isStatic) property computed) t) =
        survey.tally .anywhere property := by
    intro property computed
    have hother : (member (superBase superName isStatic) property computed).isTypeIn survey.types = false :=
      isTypeIn_false (type?_make _ _) (spares (by decide))
    rw [tally_located hother, tally_member, superBase]
    split <;> simp
  rcases superless_cases superName isStatic hd with ⟨-, heq⟩ | ⟨htype, hsuper, heq⟩ |
    ⟨htype, -, hcallee, heq⟩ | ⟨hmember, -, hproperty, heq⟩ | ⟨hmember, -, -, heq⟩ | ⟨hown, -, -, heq⟩
  all_goals rw [heq]
  · have hcallee : Derives labels .callee (t.get "callee") := hd.one htype rfl
    rw [tally_call, tally_path, tally_identifier, tallyItems_cons, tally_thisExpression, harguments htype,
      tally_of_call hd htype, tally_super hcallee hsuper, zero_add]
  · rw [tally_call, dot, tally_member, tally_identifier, tallyItems_cons, tally_thisExpression,
      harguments htype, ih _ (mem_childNodes_one (by decide) hcallee), tally_of_call hd htype, zero_add,
      add_zero]
  · obtain ⟨htype, hsuper⟩ := type?_of_isSuperMember hmember
    have hobject : Derives labels .callee (t.get "object") := hd.one htype rfl
    rw [hmade, ih _ (mem_childNodes_one (by decide) hproperty), tally_of_member hd htype,
      tally_super hobject hsuper, zero_add]
  · obtain ⟨htype, hsuper⟩ := type?_of_isSuperMember hmember
    have hobject : Derives labels .callee (t.get "object") := hd.one htype rfl
    rw [hmade, tally_of_member hd htype, tally_super hobject hsuper, zero_add]
  · refine tally_superlessParts hd hs.1 ?_ ih
    rw [ownSuperTypes, isTypeIn, List.any_append, Bool.or_eq_false_iff] at hown
    exact hown.2

end

/-- A function counts what it did when its `super` is replaced. -/
theorem tally_replace {superName : String} {isStatic : Bool} {function f : Tree}
    (hd : Derives labels .function function) (h : replace superName isStatic function = .ok f) :
    survey.tally .anywhere f = survey.tally .anywhere function := by
  rw [replace_eq superName isStatic hd] at h
  cases h
  refine tally_superlessParts hd (by decide) ?_ fun p hp => ?_
  · rw [isTypeIn_of_type? (hd.type_eq rfl)]
    decide
  · exact tally_superless (isInner_child hd ⟨by decide, by decide⟩ hp)

end Downlevel.Lower.Class
