import Downlevel.Proofs.Grammar.Derives
import Downlevel.Proofs.Scope.Identifiers

/-!
# `Proofs.Grammar.Objects`: the objects of a program

Every object of a program is a node that the grammar derives, or a record of scalars. So its objects
agree with the labelling, and name what they name as the analysis of scopes expects.
-/

namespace Downlevel.Grammar

open Tree Scope

/-! ## Objects -/

/-- A node that some symbol derives, or a record of scalars. -/
def IsPart (labels : Labelling) (o : Tree) : Prop :=
  (∃ s, Derives labels s o) ∨ (o.isObject = true ∧ isInert labels o = true)

section

variable {labels : Labelling}

/-- A record of scalars is the only object of itself. -/
theorem objectsOfFields_of_isInert {m : Option Nat} {fs : Fields}
    (h : isInert labels (.obj m fs)) : objectsOfFields fs = [] := by
  rw [isInert, Bool.and_eq_true, List.all_eq_true] at h
  refine List.eq_nil_iff_forall_not_mem.mpr fun o ho => ?_
  obtain ⟨f, hf, -, ho⟩ := mem_objectsOfFields.mp ho
  have hscalar := (Bool.and_eq_true_iff.mp (h.2 f hf)).2
  cases hv : f.2 with
  | list xs =>
    rw [hv] at hscalar
    cases hscalar
  | obj m' fs' =>
    rw [hv] at hscalar
    cases hscalar
  | _ =>
    rw [hv] at ho
    cases ho

theorem isPart_of_isInert {v o : Tree} (h : isInert labels v) (ho : o ∈ v.objects) :
    IsPart labels o := by
  cases v with
  | obj m fs =>
    rw [objects, objectsOfFields_of_isInert h, List.mem_singleton] at ho
    rw [ho]
    exact .inr ⟨rfl, h⟩
  | list xs => cases h
  | _ => cases ho

/-- **The objects of a value that fits are nodes, or records of scalars.** -/
theorem isPart_of_fits (t : Tree) : ∀ slot : Slot, fits labels slot t →
    ∀ o ∈ t.objects, IsPart labels o := by
  induction t using inductionOnParts with
  | scalar t hscalar =>
    intro slot _ o ho
    rw [objects_of_isScalar hscalar] at ho
    cases ho
  | list xs ih =>
    intro slot h o ho
    rw [objects, objectsOfItems_eq] at ho
    obtain ⟨x, hx, ho⟩ := List.mem_flatMap.mp ho
    obtain ⟨item, -, -, hfits⟩ := exists_items_of_fits h
    exact ih x hx item (hfits x hx) o ho
  | obj m fs ih =>
    intro slot h o ho
    rcases fits_object_cases h with ⟨s, -, hd⟩ | ⟨-, hinert⟩
    · rcases List.mem_cons.mp ho with rfl | ho
      · exact .inl ⟨s, hd⟩
      obtain ⟨f, hf, hplace, ho⟩ := mem_objectsOfFields.mp ho
      have hfits := hd.fields f hf
      cases hslot : slot? s (.obj m fs) f.1 with
      | none =>
        rw [hslot] at hfits
        exact isPart_of_isInert (hfits.resolve_left (by simp [hplace])) ho
      | some slot =>
        rw [hslot] at hfits
        exact ih f hf slot hfits o ho
    · exact isPart_of_isInert hinert ho

theorem IsPart.agrees {o : Tree} (h : IsPart labels o) : labels.agrees o := by
  rcases h with ⟨s, hd⟩ | ⟨hobject, hinert⟩
  · exact hd.agrees
  · cases o with
    | obj m fs =>
      rw [isInert, Bool.and_eq_true] at hinert
      exact hinert.1
    | _ => cases hobject

end

/-! ## Names -/

section

variable {labels : Labelling} {s : Symbol} {t : Tree}

theorem Derives.isNodal (h : Derives labels s t) : t.isNodal := by
  rw [Tree.isNodal, h.isNode, Bool.true_or, Bool.true_and, List.all_eq_true]
  intro f hf
  by_cases htype : f.1 = "type"
  · -- The type is a text, and stands only once.
    obtain ⟨type, -, htext⟩ := h.type
    have hget : t.get "type" = f.2 := h.get_of_mem (htype ▸ hf)
    rw [get_type_of_type? htext] at hget
    rw [← hget]
    simp [objects]
  · simp [htype]

/-- A record has no type. -/
theorem type?_of_isInert {o : Tree} (hobject : o.isObject) (h : isInert labels o) :
    o.type? = none := by
  cases o with
  | obj m fs =>
    rw [isInert, Bool.and_eq_true, List.all_eq_true] at h
    rw [type?, Tree.get, get?]
    cases hget : lookup "type" fs with
    | none =>
      rw [fields, hget]
      rfl
    | some v =>
      have hne := h.2 _ (mem_of_lookup_eq_some hget)
      simp at hne
  | _ => cases hobject

theorem isNodal_of_isInert {o : Tree} (hobject : o.isObject)
    (h : isInert labels o) : o.isNodal := by
  cases o with
  | obj m fs =>
    have hnone := objectsOfFields_of_isInert h
    rw [isInert, Bool.and_eq_true, List.all_eq_true] at h
    rw [Tree.isNodal, fields, hnone]
    simp only [List.isEmpty_nil, Bool.or_true, Bool.true_and, List.all_eq_true]
    intro f hf
    rw [(Bool.and_eq_true_iff.mp (h.2 f hf)).1, Bool.true_or]
  | _ => cases hobject

theorem isNameOrNone_of_fits {slot : Slot} (hslot : slot.symbol? = some .identifier)
    (h : fits labels slot t) : isNameOrNone t := by
  cases hobject : t.isObject with
  | false => rw [isNameOrNone, hobject, Bool.not_false, Bool.true_or]
  | true =>
    have hd := (fits_node_iff hslot hobject).mp h
    rw [isNameOrNone, isType_iff.mpr (hd.type_eq rfl), Bool.or_true]

/-- The rules for functions and classes say what names them. -/
theorem nameRule : ∀ type ∈ functionTypes ++ classTypes,
    (rulesFor type).lookup "id" = some (.optional .identifier) ∨
      (rulesFor type).lookup "id" = some nameSlot := by decide

/-- Functions and classes are named by identifiers. -/
theorem Derives.isNameOrNone_id (h : Derives labels s t)
    (htypes : t.isTypeIn (functionTypes ++ classTypes)) :
    isNameOrNone (t.get "id") := by
  obtain ⟨type, hmem, htype⟩ := isTypeIn_iff.mp htypes
  rcases nameRule type hmem with hrule | hrule
  · exact isNameOrNone_of_fits rfl (h.part htype hrule)
  · have hfits := h.part htype hrule
    simp only [nameSlot, Slot.resolve] at hfits
    split at hfits
    · exact isNameOrNone_of_fits rfl hfits
    · exact isNameOrNone_of_fits rfl hfits

/-- Identifiers have a name. -/
theorem Derives.isSome_name? (h : Derives labels s t) (htypes : t.isTypeIn identifierTypes) :
    (t.name?).isSome := by
  have hname : ∃ text, t.get "name" = .str text := by
    obtain ⟨type, hmem, htype⟩ := isTypeIn_iff.mp htypes
    rcases List.mem_pair.mp hmem with rfl | rfl
    · exact h.text htype rfl
    · exact h.text htype rfl
  obtain ⟨text, hname⟩ := hname
  rw [name?, hname]
  rfl

/-- Modules are imported under names. -/
theorem Derives.isNameOrNone_local (h : Derives labels .importSpecifier t) :
    isNameOrNone (t.get "local") := by
  obtain ⟨type, hmem, htype⟩ := h.type
  have hlocal : Derives labels .identifier (t.get "local") := by
    simp only [Symbol.types, List.mem_cons, List.not_mem_nil, or_false] at hmem
    rcases hmem with rfl | rfl | rfl
    · exact h.one htype rfl
    · exact h.one htype rfl
    · exact h.one htype rfl
  exact isNameOrNone_of_fits rfl hlocal.fits

theorem Derives.isWellNamed (h : Derives labels s t) : isWellNamed t := by
  simp only [Scope.isWellNamed, h.isNodal, Bool.true_and, Bool.and_eq_true, Bool.or_eq_true,
    Bool.not_eq_true', List.all_eq_true]
  refine ⟨⟨?_, ?_⟩, ?_⟩
  · exact (Bool.eq_false_or_eq_true _).symm.imp_right h.isSome_name?
  · exact (Bool.eq_false_or_eq_true _).symm.imp_right h.isNameOrNone_id
  · refine (Bool.eq_false_or_eq_true _).symm.imp_right fun htype x hx => ?_
    exact ((h.many (isType_iff.mp htype) rfl).2 x hx).isNameOrNone_local

end

theorem IsPart.isWellNamed {labels : Labelling} {o : Tree} (h : IsPart labels o) :
    isWellNamed o := by
  rcases h with ⟨s, hd⟩ | ⟨hobject, hinert⟩
  · exact hd.isWellNamed
  · have htype := type?_of_isInert hobject hinert
    have hno : ∀ names, o.isTypeIn names = false := by
      intro names
      rw [isTypeIn, List.any_eq_false]
      intro name _ hname
      rw [isType_iff, htype] at hname
      cases hname
    have himport : o.isType "ImportDeclaration" = false := by
      simpa [isTypeIn] using hno ["ImportDeclaration"]
    simp [Scope.isWellNamed, isNodal_of_isInert hobject hinert, hno, himport]

/-- **The objects of a program name what they name as scopes expect.** -/
theorem isWellNamed_of_fits {labels : Labelling} {slot : Slot} {t : Tree}
    (h : fits labels slot t) : ∀ o ∈ t.objects, isWellNamed o :=
  fun o ho => (isPart_of_fits t slot h o ho).isWellNamed

end Downlevel.Grammar
