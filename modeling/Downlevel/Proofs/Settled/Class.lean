import Downlevel.Proofs.Settled.Member

/-!
# `Proofs.Settled.Class`: classes, lowered twice

A visit keeps constructors proper, and declares no class where none was declared; so what becomes of a class
whose parts are visited counts what they do. Behind `export default` a class is visited with its export.
-/

namespace Downlevel.Lower.Class

open Tree Node Grammar Survey

variable {labels : Labelling} {place : Position} {t t₁ : Tree} {w w' w₁ : Work} {o : Outcome} {m : Option Nat}
  {fs : Fields} {type : String} {s : Symbol}

/-! ## Methods under visit -/

/-- What the handler is given: nodes as a parser writes them. -/
abbrev Good : Position → Tree → Prop := Survey.Good (contract .strict) .strict

theorem eq_exported (h : place ≠ .anywhere) : place = .exported := by
  cases place with
  | anywhere => exact absurd rfl h
  | exported => rfl

/-- What the handler does with a node. -/
theorem handle_cases {parts : Parts Position Work} (h : Yields (handle place t parts) w o w') :
    (t.type? = some "ClassDeclaration" ∧ place = .anywhere ∧ Yields (classDeclaration parts) w o w') ∨
      (t.type? = some "ClassExpression" ∧ Yields (classExpression parts) w o w') ∨
      (isExportedClass t ∧ Yields (exportedClass t parts) w o w') ∨
      (t.type? ≠ some "ClassExpression" ∧ (t.type? = some "ClassDeclaration" → place = .exported) ∧
        isExportedClass t = false ∧ Yields (passOver .anywhere parts) w o w') := by
  unfold handle at h
  split at h
  · rename_i htype
    exact .inl ⟨htype, rfl, h⟩
  · rename_i htype
    exact .inr (.inl ⟨htype, h⟩)
  · rename_i htype
    split at h
    · rename_i hclass
      exact .inr (.inr (.inl ⟨by rw [isExportedClass, isType_iff.mpr htype, hclass]; rfl, h⟩))
    · rename_i hclass
      refine .inr (.inr (.inr ⟨by rw [htype]; decide, fun hnot => ?_, by simp [isExportedClass, hclass],
        h⟩))
      rw [htype] at hnot
      exact absurd hnot (by decide)
  · rename_i hexpression hexport hdeclaration
    refine .inr (.inr (.inr ⟨hexpression, fun htype => eq_exported (hdeclaration htype), ?_, h⟩))
    have hnot : ¬ t.isType "ExportDefaultDeclaration" := fun h => hexport (isType_iff.mp h)
    simp [isExportedClass, hnot]

/-- A node, and what it is when its parts are visited. -/
def Revisited (t t' : Tree) : Prop := ∃ m fs gs w w', t = .obj m fs ∧ t' = .obj m gs ∧
  FieldsFollow (visitLaw handle) (fun _ => some .anywhere) fs w gs w'

theorem revisited_of_descend (h : Yields ((partsOf handle m fs).descend fun _ => some .anywhere) w t₁ w₁) :
    Revisited (.obj m fs) t₁ := by
  obtain ⟨gs, rfl, hfields⟩ := (partsOf_follow follows_visitLaw m fs).descend h
  exact ⟨m, fs, gs, w, w₁, rfl, rfl, hfields⟩

/-- Of a node that is no class only the parts are visited, and of a class behind `export default`. -/
theorem revisited_of_visit (h : Yields (visit handle place t) w o w') (hobject : t.isObject)
    (hexpression : t.type? ≠ some "ClassExpression")
    (hdeclaration : t.type? = some "ClassDeclaration" → place = .exported)
    (hexported : isExportedClass t = false) : ∃ t', o = .keep t' ∧ Revisited t t' := by
  cases t with
  | obj m fs =>
    rw [visit] at h
    rcases handle_cases h with ⟨hclass, rfl, -⟩ | ⟨hclass, -⟩ | ⟨hclass, -⟩ | ⟨-, -, -, h⟩
    · cases hdeclaration hclass
    · exact absurd hclass hexpression
    · rw [hexported] at hclass
      cases hclass
    · obtain ⟨t₁, hdescend, rfl⟩ := Yields.map_inv h
      exact ⟨t₁, rfl, revisited_of_descend hdescend⟩
  | _ => cases hobject

theorem isExportedClass_of_type? (htype : t.type? = some type) (hne : type ≠ "ExportDefaultDeclaration") :
    isExportedClass t = false := by
  rw [isExportedClass, isType_of_type? htype, decide_eq_false hne, Bool.false_and]

/-- The nodes that are neither classes nor exports. -/
theorem revisited_of_type? (h : Yields (visit handle place t) w o w') (htype : t.type? = some type)
    (hother : type ∉ surveyedTypes) : ∃ t', o = .keep t' ∧ Revisited t t' := by
  obtain ⟨m, fs, rfl⟩ := isObject_of_type? htype
  simp only [surveyedTypes, List.mem_cons, List.not_mem_nil, or_false, not_or] at hother
  refine revisited_of_visit h rfl ?_ ?_ (isExportedClass_of_type? htype hother.2.2)
  · rw [htype]
    exact fun heq => hother.2.1 (Option.some.inj heq)
  · rw [htype]
    exact fun heq => absurd (Option.some.inj heq) hother.1

namespace Revisited

variable {s : Symbol} {t t' : Tree} (h : Revisited t t')

include h

theorem type? {type : String} (htype : t.type? = some type) : t'.type? = some type := by
  obtain ⟨m, fs, gs, w, w', rfl, rfl, h⟩ := h
  exact h.type? m htype

theorem isObject : t'.isObject := by
  obtain ⟨m, fs, gs, w, w', -, rfl, -⟩ := h
  rfl

theorem mark? : t'.mark? = t.mark? := by
  obtain ⟨m, fs, gs, w, w', rfl, rfl, -⟩ := h
  rfl

/-- A node in a field is visited. -/
theorem get {key : String} (hkey : isSyntaxKey key) (hnode : (t.get key).isNode)
    {P : Tree → Prop}
    (hP : ∀ {w o w'}, Yields (visit handle .anywhere (t.get key)) w o w' → ∃ v, o = .keep v ∧ P v) :
    P (t'.get key) := by
  obtain ⟨m, fs, gs, w, w', rfl, rfl, h⟩ := h
  refine h.get_visited rfl hkey (by rw [isVisited, hnode]; rfl) fun hvalue => hP (hvalue.of_isObject ?_)
  cases hget : (Tree.obj m fs).get key with
  | obj m' fs' => rfl
  | _ =>
    rw [hget] at hnode
    cases hnode

/-- The nodes in a list are visited one by one. -/
theorem children {key : String} (hkey : isSyntaxKey key)
    (hlist : t.get key = .list (t.children key)) {R : Tree → Tree → Prop}
    (hR : ∀ x ∈ t.children key, x.isNode ∧
      ∀ {w o w'}, Yields (visit handle .anywhere x) w o w' → ∃ x', o = .keep x' ∧ R x x') :
    (∀ x ∈ t.children key, ∃ y ∈ t'.children key, R x y) ∧
      ∀ y ∈ t'.children key, ∃ x ∈ t.children key, R x y := by
  obtain ⟨m, fs, gs, w, w', rfl, rfl, h⟩ := h
  have hvisited : isVisited ((Tree.obj m fs).get key) := by
    rw [hlist]
    rfl
  refine h.get_visited (P := fun v => (∀ x ∈ Tree.children _ _, ∃ y ∈ v.items, R x y) ∧
    ∀ y ∈ v.items, ∃ x ∈ Tree.children _ _, R x y) rfl hkey hvisited fun hvalue => ?_
  rw [hlist] at hvalue
  generalize (Tree.obj m fs).children key = xs at hR hvalue
  cases hvalue with
  | scalar hscalar => cases hscalar
  | list hfollows =>
    refine ⟨_, rfl, fun x hx => hfollows.exists_mem hx (hR x hx).1 (hR x hx).2, ?_⟩
    rw [items]
    induction hfollows with
    | nil => exact List.forall_mem_nil _
    | pass ht h ih =>
      rw [List.forall_mem_cons] at hR
      rw [hR.1.1] at ht
      cases ht
    | visit ht ho h ih =>
      rw [List.forall_mem_cons] at hR
      obtain ⟨x', rfl, hx'⟩ := hR.1.2 ho
      rw [Outcome.inList, List.singleton_append, List.forall_mem_cons]
      refine ⟨⟨_, List.mem_cons_self, hx'⟩, fun y hy => ?_⟩
      obtain ⟨x, hx, hxy⟩ := ih hR.2 y hy
      exact ⟨x, List.mem_cons_of_mem _ hx, hxy⟩

/-- **The methods of a class are visited one by one**, and stay methods. -/
theorem methods (hd : Derives labels s t) (hclass : t.isTypeIn classTypes) :
    (∀ m ∈ (t.get "body").children "body", ∃ m' ∈ (t'.get "body").children "body", Revisited m m') ∧
      ∀ m' ∈ (t'.get "body").children "body", ∃ m ∈ (t.get "body").children "body", Revisited m m' := by
  have hbody := derives_classBody hd hclass
  have htype : (t.get "body").type? = some "ClassBody" := hbody.type_eq rfl
  obtain ⟨hlist, hall⟩ := hbody.many htype (k := "body") rfl
  refine h.get (P := fun b => (∀ m ∈ _, ∃ m' ∈ b.children "body", Revisited m m') ∧
    ∀ m' ∈ b.children "body", ∃ m ∈ _, Revisited m m') rfl hbody.isNode fun hvisit => ?_
  obtain ⟨b, rfl, hb⟩ := revisited_of_type? hvisit htype (by decide)
  refine ⟨b, rfl, hb.children rfl hlist fun x hx => ⟨(hall x hx).isNode, fun hvisit => ?_⟩⟩
  exact revisited_of_type? hvisit ((hall x hx).type_eq rfl) (by decide)

end Revisited

theorem admissible_anywhere (hd : Derives labels s t) (hexported : isExportedClass t = false) :
    Admissible (contract labels) labels s t (fun _ => some .anywhere) := by
  intro key c hc
  cases hc
  refine ⟨fun _ _ => id, fun slot x y hslot hx hy _ => ?_⟩
  by_cases htype : t.type? = some "ExportDefaultDeclaration"
  · rw [isExportedClass, isType_iff.mpr htype, Bool.true_and] at hexported
    rw [eq_declaration htype hslot] at hy
    exact fun _ => isType_of_mem hd htype (by simp [hexported]) hy
  · exact fun hx' => absurd hx' (content?_ne_defaultExport hslot htype hx)

theorem isExportedClass_of_class (h : t.isTypeIn classTypes) : isExportedClass t = false := by
  rcases type?_class h with htype | htype
  · exact isExportedClass_of_type? htype (by decide)
  · exact isExportedClass_of_type? htype (by decide)

/-- A class whose parts are visited, and what takes its place. -/
theorem derives_visited {r : Option Tree} {w₂ : Work} (hd : Derives labels s (.obj m fs))
    (hclass : (Tree.obj m fs).isTypeIn classTypes)
    (hdescend : Yields ((partsOf handle m fs).descend fun _ => some .anywhere) w t₁ w₁)
    (hlower : Yields (lowerClass t₁) w₁ r w₂) :
    Derives labels s t₁ ∧ t₁.type? = (Tree.obj m fs).type? ∧ ∀ e ∈ r, Derives labels .expression e := by
  obtain ⟨t', w₁', r', w₂', hdescend', hlower', hd', htype', hr⟩ :=
    visit_class (partsKeep handle_keeps hd) hd hclass w
  obtain ⟨rfl, rfl⟩ := hdescend'.unique hdescend
  obtain ⟨rfl, -⟩ := hlower'.unique hlower
  exact ⟨hd', htype', hr⟩

/-- Only a class declaration stands behind `export default` as such. -/
theorem eq_anywhere {place : Position} (h : (contract labels).admits place s t) (htype : t.type? = some type)
    (hne : type ≠ "ClassDeclaration") : place = .anywhere := by
  cases place with
  | anywhere => rfl
  | exported => exact absurd (Option.some.inj (htype.symm.trans h)) hne

theorem admits_exported (h : t.type? = some "ClassDeclaration") : (contract labels).admits .exported s t := h

/-- What becomes of a class behind `export default`. -/
theorem exportedClass_cases {parts : Parts Position Work} (h : Yields (exportedClass t parts) w o w') :
    ∃ visited w₁ r, Yields (parts.field "declaration" .exported) w visited w₁ ∧
      Yields (lowerClass visited.value) w₁ r w' ∧
      ((r = none ∧ o = .keep (t.set "declaration" visited.value)) ∨
        (∃ e, r = some e ∧ o = .keep (t.set "declaration" (located e visited.value))) ∨
        ∃ e binding name, r = some e ∧ letBinding (visited.value.get "id") e visited.value = .ok binding ∧
          o = .splice [binding, located
            (make "ExportDefaultDeclaration" [("declaration", identifier name)]) t]) := by
  obtain ⟨visited, w₁, hfield, h⟩ := h.bind_inv
  obtain ⟨r, w₂, hlower, h⟩ := h.bind_inv
  cases r with
  | none =>
    obtain ⟨rfl, rfl⟩ := h.pure_inv
    exact ⟨visited, w₁, none, hfield, hlower, .inl ⟨rfl, rfl⟩⟩
  | some e =>
    simp only [] at h
    split at h
    · obtain ⟨rfl, rfl⟩ := h.pure_inv
      exact ⟨visited, w₁, some e, hfield, hlower, .inr (.inl ⟨e, rfl, rfl⟩)⟩
    · obtain ⟨binding, w₃, hlift, hname⟩ := h.bind_inv
      obtain ⟨hbinding, rfl⟩ := hlift.lift_inv
      obtain ⟨name, w₄, hrequire, hreturn⟩ := hname.bind_inv
      obtain ⟨-, rfl⟩ := hrequire.lift_inv
      obtain ⟨rfl, rfl⟩ := hreturn.pure_inv
      exact ⟨visited, w₁, some e, hfield, hlower, .inr (.inr ⟨e, binding, _, rfl, hbinding, rfl⟩)⟩

/-- No other node becomes a class declaration. -/
theorem ne_classDeclaration (hd : Derives labels s t) (h : Yields (visit handle .anywhere t) w o w')
    (hnot : t.type? ≠ some "ClassDeclaration") (hexport : t.type? ≠ some "ExportDefaultDeclaration") :
    ∃ t', o = .keep t' ∧ t'.type? ≠ some "ClassDeclaration" := by
  obtain ⟨type, -, htype⟩ := hd.type
  obtain ⟨m, fs, rfl⟩ := isObject_of_type? htype
  rw [visit] at h
  rcases handle_cases h with ⟨hclass, -⟩ | ⟨hclass, h⟩ | ⟨hclass, -⟩ | ⟨-, -, -, h⟩
  · exact absurd hclass hnot
  · obtain ⟨t₁, w₁, hdescend, h⟩ := h.bind_inv
    obtain ⟨r, w₂, hlower, h⟩ := h.bind_inv
    obtain ⟨hd₁, htype₁, hr⟩ :=
      derives_visited hd (isTypeIn_of_mem hclass (by decide)) hdescend hlower
    cases r with
    | none =>
      refine ⟨_, h.pure_inv.1, ?_⟩
      rw [htype₁]
      exact hnot
    | some e =>
      -- An expression is no declaration.
      refine ⟨_, h.pure_inv.1, ?_⟩
      obtain ⟨type, hmem, htype⟩ := (derives_located (hr e rfl) t₁).type
      rw [htype]
      rintro ⟨rfl⟩
      exact absurd hmem (by decide)
  · exact absurd (isExportedClass_iff.mp hclass).1 hexport
  · obtain ⟨t₁, hdescend, rfl⟩ := Yields.map_inv h
    refine ⟨_, rfl, ?_⟩
    rw [(revisited_of_descend hdescend).type? htype, ← htype]
    exact hnot

/-! ## The tally of classes and exports -/

theorem tally_class (hobject : t.isObject) (hclass : t.isTypeIn classTypes) :
    survey.tally .anywhere t = classWorth t + survey.tallyFields (fun _ => some .anywhere) t.fields := by
  have hexported := isExportedClass_of_class hclass
  have hin : t.isTypeIn surveyedTypes := by
    rw [isTypeIn, List.any_eq_true] at hclass ⊢
    obtain ⟨type, hmem, htype⟩ := hclass
    have hall : ∀ type ∈ classTypes, type ∈ surveyedTypes := by decide
    exact ⟨type, hall type hmem, htype⟩
  have hworth : survey.worth .anywhere t = classWorth t := by
    simp only [survey, hexported, Bool.false_eq_true, if_false]
    rcases type?_class hclass with htype | htype
    · rw [if_neg (by simp [isType_of_type? htype]), if_pos (isType_iff.mpr htype)]
    · rw [if_pos (isType_iff.mpr htype)]
  have hcontext : survey.context .anywhere t = fun _ => some .anywhere := by
    funext key
    simp only [survey, hexported, hin, Bool.false_eq_true, if_false, if_true]
  rw [tally_of_isObject hobject, hworth, hcontext]

theorem exportKeys : (rulesFor "ExportDefaultDeclaration").map (·.1) = ["declaration"] := rfl

theorem tally_exportedClass (hd : Derives labels s t) (place : Position) (hexported : isExportedClass t) :
    survey.tally place t =
      classWorth (t.get "declaration") + survey.tally .exported (t.get "declaration") := by
  have htype := (isExportedClass_iff.mp hexported).1
  have hworth : survey.worth place t = classWorth (t.get "declaration") := if_pos hexported
  have hcontext : survey.context place t = fun _ => some .exported := by
    funext key
    exact if_pos hexported
  rw [tally_of_isObject hd.isObject, hworth, hcontext, tallyFields_of_keys hd htype exportKeys]
  simp [entry_some, isSyntaxKey, skippedKeys]

theorem tally_passed (place : Position) (hobject : t.isObject)
    (hexpression : t.type? ≠ some "ClassExpression")
    (hdeclaration : t.type? = some "ClassDeclaration" ↔ place = .exported)
    (hexported : isExportedClass t = false) :
    survey.tally place t = survey.tallyFields (fun _ => some .anywhere) t.fields := by
  have hnot : ¬ t.isType "ClassExpression" := fun h => hexpression (isType_iff.mp h)
  have hworth : survey.worth place t = 0 := by
    simp only [survey, hexported, Bool.false_eq_true, if_false, if_neg hnot]
    split
    · rename_i htype
      rw [hdeclaration.mp (isType_iff.mp htype)]
    · rfl
  have hcontext : survey.context place t = fun _ => some .anywhere := by
    funext key
    simp only [survey, hexported, Bool.false_eq_true, if_false]
    cases place with
    | anywhere => split <;> rfl
    | exported =>
      rw [if_pos]
      rw [isTypeIn_of_type? (hdeclaration.mpr rfl)]
      decide
  rw [tally_of_isObject hobject, hworth, hcontext, zero_add]

/-! ## The laws -/

/-- The variable that takes the place of a class. -/
theorem tally_letBinding {classId value place binding : Tree}
    (h : letBinding classId value place = .ok binding) :
    survey.tally .anywhere binding = survey.tally .anywhere value := by
  unfold letBinding at h
  cases hname : classId.need "name" with
  | error fault =>
    rw [hname] at h
    cases h
  | ok name =>
    rw [hname] at h
    cases h
    exact tally_declaration _ _ _ _ _

/-- A class is left alone, or an expression takes its place: in both cases what is left is counted. -/
theorem counted_class {next : Tree → Option Tree → Visit Work Outcome} (hd : Derives .strict s (.obj m fs))
    (hparts : PartsFollow (survey.Counted Good) m fs (partsOf handle m fs))
    (hclass : (Tree.obj m fs).isTypeIn classTypes)
    (h : Yields (do let t ← (partsOf handle m fs).descend fun _ => some .anywhere
                    next t (← lowerClass t)) w o w') :
    ∃ t₁ r w₂, Yields (next t₁ r) w₂ o w' ∧
      ((r = none ∧ (w₂.diagnostics.length : ℕ∞) = w.diagnostics.length + survey.tally .anywhere t₁) ∨
        ∃ e, r = some e ∧ e.type? = some "CallExpression" ∧
          (w₂.diagnostics.length : ℕ∞) = w.diagnostics.length + survey.tally .anywhere e) := by
  obtain ⟨t₁, w₁, hdescend, h⟩ := h.bind_inv
  obtain ⟨r, w₂, hlower, h⟩ := h.bind_inv
  refine ⟨t₁, r, w₂, h, ?_⟩
  obtain ⟨hd₁, htype₁, -⟩ := derives_visited hd hclass hdescend hlower
  have hclass₁ : t₁.isTypeIn classTypes := by
    rw [isTypeIn_congr htype₁]
    exact hclass
  obtain ⟨gs, rfl, -, -, hcount⟩ := counted_descend handle_keeps (fun _ => trivial)
    (spares (by decide)) hparts hd
    (admissible_anywhere hd (isExportedClass_of_class hclass)) hdescend
  cases hleft : isLeftAlone (.obj m gs) with
  | true =>
    obtain ⟨rfl, hcount₂⟩ := lowerClass_leftAlone hleft hlower
    refine .inl ⟨rfl, ?_⟩
    rw [hcount₂, hcount, tally_class rfl hclass₁, classWorth, hleft, if_pos rfl, add_assoc, add_comm 1]
    rfl
  | false =>
    obtain ⟨hsame, e, rfl, htype, htally⟩ := lowerClass_lowered hd₁ hclass₁ hleft hlower
    refine .inr ⟨e, rfl, htype, ?_⟩
    rw [hsame, hcount, htally]
    rfl

/-- An expression behind `export default`. -/
theorem tally_export (hd : Derives .strict s t) (htype : t.type? = some "ExportDefaultDeclaration")
    (hinner : (t.get "declaration").type? = some type) (hne : type ≠ "ClassDeclaration") :
    survey.tally .anywhere t = survey.tally .anywhere (t.get "declaration") := by
  have hexported : isExportedClass t = false := by
    rw [isExportedClass, isType_of_type? hinner, decide_eq_false hne, Bool.and_false]
  rw [tally_passed _ hd.isObject (by rw [htype]; decide) (by simp [htype]) hexported,
    tallyFields_of_keys hd htype exportKeys]
  simp [entry_some, isSyntaxKey, skippedKeys]

/-- The class behind `export default`, its parts visited. -/
theorem visited_declaration (hd : Derives .strict s (.obj m fs)) (hexported : isExportedClass (.obj m fs))
    (hfield : Yields ((partsOf handle m fs).field "declaration" .exported) w o w₁) :
    ∃ t', o = .keep t' ∧ Derives .strict .defaultExport t' ∧ t'.type? = some "ClassDeclaration" := by
  obtain ⟨htype, hdeclared⟩ := isExportedClass_iff.mp hexported
  have hslot : slot? s (.obj m fs) "declaration" = some (.one .defaultExport) := slot?_one htype rfl
  have hinvariant : (contract .strict).invariant w := trivial
  obtain ⟨o', w', hyields, ⟨t', rfl, hd', htype'⟩, -⟩ := (partsKeep handle_keeps hd).field_one
    .exported hd hslot (fun _ => hdeclared) hinvariant
  obtain ⟨rfl, -⟩ := hyields.unique hfield
  exact ⟨t', rfl, hd', htype'⟩

/-- No class is declared behind `export default` where none was. -/
theorem isExportedClass_revisited {t' : Tree} (h : Revisited t t') (hd : Derives .strict s t)
    (hexported : isExportedClass t = false) : isExportedClass t' = false := by
  obtain ⟨type, -, htype⟩ := hd.type
  by_cases hexport : type = "ExportDefaultDeclaration"
  · subst hexport
    rw [isExportedClass, isType_iff.mpr htype, Bool.true_and] at hexported
    have hpart : Derives .strict .defaultExport (t.get "declaration") := hd.one htype rfl
    have hnot : (t'.get "declaration").type? ≠ some "ClassDeclaration" := by
      refine h.get rfl hpart.isNode fun hvisit => ne_classDeclaration hpart hvisit (fun hclass => ?_)
        fun hexport => absurd (hpart.mem_types hexport) (by decide)
      rw [isType_iff.mpr hclass] at hexported
      cases hexported
    have hnot : ¬ (t'.get "declaration").isType "ClassDeclaration" := fun h => hnot (isType_iff.mp h)
    simp [isExportedClass, hnot]
  · exact isExportedClass_of_type? (h.type? htype) hexport

theorem counted_exportedClass (hparts : PartsFollow (survey.Counted Good) m fs (partsOf handle m fs))
    (hd : Derives .strict s (.obj m fs)) (hadmits : (contract .strict).admits place s (.obj m fs))
    (hexported : isExportedClass (.obj m fs))
    (h : Yields (exportedClass (.obj m fs) (partsOf handle m fs)) w o w')
    (hregular : (contract .strict).yields place s o) :
    (w'.diagnostics.length : ℕ∞) = w.diagnostics.length + survey.tally place o.value := by
  obtain ⟨htype, hdeclared⟩ := isExportedClass_iff.mp hexported
  obtain rfl := eq_anywhere hadmits htype (by decide)
  replace hregular : Regular .strict s o := hregular
  have hslot : slot? s (.obj m fs) "declaration" = some (.one .defaultExport) := slot?_one htype rfl
  obtain ⟨visited, w₁, r, hfield, hlower, hcases⟩ := exportedClass_cases h
  obtain ⟨t₁, rfl, hd₁, htype₁⟩ := visited_declaration hd hexported hfield
  have hclass₁ : t₁.isTypeIn classTypes := isTypeIn_of_mem htype₁ (by decide)
  have htally₁ : survey.tally .exported t₁ = survey.tallyFields (fun _ => some .anywhere) t₁.fields :=
    tally_passed _ hd₁.isObject (by rw [htype₁]; decide) (by simp [htype₁])
      (isExportedClass_of_class hclass₁)
  -- What is left alone in the class.
  obtain ⟨hcount, hgood⟩ := follows_field hparts hd hslot (admits_exported hdeclared) hfield
  replace hcount := hcount hgood
  rw [← tally_value, Outcome.value, htally₁] at hcount
  cases hleft : isLeftAlone t₁ with
  | true =>
    obtain ⟨rfl, hcount₂⟩ := lowerClass_leftAlone hleft hlower
    obtain ⟨-, rfl⟩ | ⟨e, he, -⟩ | ⟨e, binding, name, he, -⟩ := hcases
    · have hset : Derives .strict s ((Tree.obj m fs).set "declaration" t₁) :=
        derives_of_regular hregular
      have hget : ((Tree.obj m fs).set "declaration" t₁).get "declaration" = t₁ := get_set_self rfl _ _
      have hexported' : isExportedClass ((Tree.obj m fs).set "declaration" t₁) := by
        rw [isExportedClass, hget, isType_iff.mpr htype₁, Bool.and_true]
        exact isType_iff.mpr ((type?_set (by decide) _).trans htype)
      rw [Outcome.value, Outcome.value, tally_exportedClass hset _ hexported', hget, htally₁, hcount₂,
        hcount, classWorth, hleft, if_pos rfl, add_assoc, add_comm 1]
    · cases he
    · cases he
  | false =>
    obtain ⟨hsame, e, rfl, hcall, htally⟩ := lowerClass_lowered hd₁ hclass₁ hleft hlower
    rw [← hsame, ← htally] at hcount
    obtain ⟨hnone, -⟩ | ⟨e', he', rfl⟩ | ⟨e', binding, name, he', hbinding, rfl⟩ := hcases
    · cases hnone
    · cases he'
      have hset : Derives .strict s ((Tree.obj m fs).set "declaration" (located e t₁)) :=
        derives_of_regular hregular
      have hget : ((Tree.obj m fs).set "declaration" (located e t₁)).get "declaration" =
          located e t₁ := get_set_self rfl _ _
      have hlocated : (located e t₁).type? = some "CallExpression" := by
        rw [type?, get_located (by decide) (by decide)]
        exact hcall
      rw [hcount, Outcome.value, Outcome.value,
        tally_export hset ((type?_set (by decide) _).trans htype) (by rw [hget, hlocated]) (by decide),
        hget, tally_located (isTypeIn_false hcall (spares (by decide)))]
    · cases he'
      have hexport : Derives .strict s (located
          (make "ExportDefaultDeclaration" [("declaration", identifier name)]) (.obj m fs)) := by
        obtain ⟨_, hkeep, -⟩ | ⟨ts, hts, -, hall⟩ := hregular
        · cases hkeep
        · cases hts
          exact hall _ (List.mem_cons_of_mem _ List.mem_cons_self)
      have hget : (located (make "ExportDefaultDeclaration" [("declaration", identifier name)])
          (.obj m fs)).get "declaration" = identifier name := get_located (by decide) (by decide) _ _
      have hnew : survey.tally .anywhere (located
          (make "ExportDefaultDeclaration" [("declaration", identifier name)]) (.obj m fs)) = 0 := by
        have hidentifier : (identifier name).type? = some "Identifier" := rfl
        have htype' : (located (make "ExportDefaultDeclaration" [("declaration", identifier name)])
            (.obj m fs)).type? = some "ExportDefaultDeclaration" := by
          rw [type?, get_located (by decide) (by decide)]
          rfl
        rw [tally_export hexport htype' (by rw [hget, hidentifier]) (by decide), hget,
          tally_identifier]
      rw [hcount, Outcome.value, tally_list, tallyItems_cons, tallyItems_cons,
        tally_letBinding hbinding, hnew, tallyItems_nil, add_zero, add_zero]

theorem handle_counted : HandlerFollows handle (survey.Counted Good) := by
  rintro place m fs w o w' hparts h ⟨s, hd, hadmits⟩
  have hregular := yields_of_keeps handle_keeps (fun _ => trivial) hd hadmits h
  rw [← tally_value]
  rcases handle_cases h with ⟨htype, hplace, hstep⟩ | ⟨htype, hstep⟩ | ⟨hexported, hstep⟩ |
    ⟨hexpression, hdeclaration, hexported, hstep⟩
  · subst hplace
    obtain ⟨t₁, _, w₂, hstep, ⟨rfl, hcount⟩ | ⟨e, rfl, -, hcount⟩⟩ :=
      counted_class hd hparts (isTypeIn_of_mem htype (by decide)) hstep
    · obtain ⟨rfl, rfl⟩ := hstep.pure_inv
      exact hcount
    · obtain ⟨id, w₃, hrequire, hbind⟩ := hstep.bind_inv
      obtain ⟨-, rfl⟩ := hrequire.lift_inv
      obtain ⟨binding, w₄, hlift, hreturn⟩ := hbind.bind_inv
      obtain ⟨hbinding, rfl⟩ := hlift.lift_inv
      obtain ⟨rfl, rfl⟩ := hreturn.pure_inv
      rw [hcount, Outcome.value, tally_letBinding hbinding]
  · obtain rfl := eq_anywhere hadmits htype (by decide)
    obtain ⟨t₁, _, w₂, hstep, ⟨rfl, hcount⟩ | ⟨e, rfl, hcall, hcount⟩⟩ :=
      counted_class hd hparts (isTypeIn_of_mem htype (by decide)) hstep
    · obtain ⟨rfl, rfl⟩ := hstep.pure_inv
      exact hcount
    · obtain ⟨rfl, rfl⟩ := hstep.pure_inv
      have hother : e.isTypeIn survey.types = false :=
        isTypeIn_false hcall (spares (by decide))
      rw [hcount, Outcome.value, tally_located hother]
  · exact counted_exportedClass hparts hd hadmits hexported hstep hregular
  · obtain ⟨t₁, hdescend, rfl⟩ := Yields.map_inv hstep
    obtain ⟨gs, rfl, hd₁, htype₁, hcount⟩ := counted_descend handle_keeps (fun _ => trivial)
      (spares (by decide)) hparts hd (admissible_anywhere hd hexported) hdescend
    rw [hcount, Outcome.value, tally_passed _ rfl (by rw [htype₁]; exact hexpression) ?_ ?_]
    · rfl
    · rw [htype₁]
      refine ⟨hdeclaration, ?_⟩
      rintro rfl
      exact hadmits
    · exact isExportedClass_revisited (revisited_of_descend hdescend) hd hexported

theorem isLeftAlone_of_ne_top (h : classWorth t ≠ ⊤) : isLeftAlone t ∧ classWorth t = 1 := by
  unfold classWorth at h ⊢
  cases hleft : isLeftAlone t with
  | true => exact ⟨rfl, if_pos rfl⟩
  | false =>
    rw [hleft, if_neg Bool.false_ne_true] at h
    exact absurd rfl h

/-- A class in which nothing is to be changed is left alone, and reported. -/
theorem unchanged_class {next : Tree → Option Tree → Visit Work Outcome}
    (hparts : PartsFollow (survey.Unchanged Good) m fs
      (partsOf handle m fs)) (hd : Derives .strict s (.obj m fs))
    (hclass : (Tree.obj m fs).isTypeIn classTypes) (hfinite : survey.tally .anywhere (.obj m fs) ≠ ⊤)
    (hnext : ∀ t, next t none = pure (.keep t))
    (h : Yields (do let t ← (partsOf handle m fs).descend fun _ => some .anywhere
                    next t (← lowerClass t)) w o w') :
    o = .keep (.obj m fs) ∧ (w'.diagnostics.length : ℕ∞) =
      w.diagnostics.length + survey.tally .anywhere (.obj m fs) := by
  rw [tally_class rfl hclass] at hfinite ⊢
  rw [Ne, ENat.add_eq_top, not_or] at hfinite
  obtain ⟨hleft, hworth⟩ := isLeftAlone_of_ne_top hfinite.1
  obtain ⟨t₁, w₁, hdescend, h⟩ := h.bind_inv
  obtain ⟨r, w₂, hlower, h⟩ := h.bind_inv
  obtain ⟨rfl, hcount⟩ := unchanged_descend hparts hd
    (admissible_anywhere hd (isExportedClass_of_class hclass)) hfinite.2 hdescend
  obtain ⟨rfl, hcount₂⟩ := lowerClass_leftAlone hleft hlower
  rw [hnext] at h
  obtain ⟨rfl, rfl⟩ := h.pure_inv
  refine ⟨rfl, ?_⟩
  rw [hcount₂, hcount, hworth, add_assoc, add_comm 1]
  rfl

theorem handle_unchanged :
    HandlerFollows handle (survey.Unchanged Good) := by
  rintro place m fs w o w' hparts h ⟨s, hd, hadmits⟩ hfinite
  rcases handle_cases h with ⟨htype, hplace, hstep⟩ | ⟨htype, hstep⟩ | ⟨hexported, hstep⟩ |
    ⟨hexpression, hdeclaration, hexported, hstep⟩
  · subst hplace
    exact unchanged_class hparts hd (isTypeIn_of_mem htype (by decide)) hfinite (fun _ => rfl) hstep
  · obtain rfl := eq_anywhere hadmits htype (by decide)
    exact unchanged_class hparts hd (isTypeIn_of_mem htype (by decide)) hfinite (fun _ => rfl) hstep
  · rw [tally_exportedClass hd place hexported] at hfinite ⊢
    rw [Ne, ENat.add_eq_top, not_or] at hfinite
    obtain ⟨hleft, hworth⟩ := isLeftAlone_of_ne_top hfinite.1
    obtain ⟨htype, hdeclared⟩ := isExportedClass_iff.mp hexported
    have hslot : slot? s (.obj m fs) "declaration" = some (.one .defaultExport) := slot?_one htype rfl
    obtain ⟨visited, w₁, r, hfield, hlower, hcases⟩ := exportedClass_cases hstep
    obtain ⟨hunchanged, hgood⟩ := follows_field hparts hd hslot (admits_exported hdeclared) hfield
    obtain ⟨rfl, hcount⟩ := hunchanged hgood hfinite.2
    obtain ⟨rfl, hcount₂⟩ := lowerClass_leftAlone hleft hlower
    obtain ⟨-, rfl⟩ | ⟨e, he, -⟩ | ⟨e, binding, name, he, -⟩ := hcases
    · refine ⟨?_, ?_⟩
      · rw [Outcome.value, set_of_get? (hd.get?_of_slot? hslot rfl).1]
      · rw [hcount₂, hcount, hworth, add_assoc, add_comm 1]
    · cases he
    · cases he
  · have hpassed := tally_passed (t := .obj m fs) _ rfl hexpression
      ⟨hdeclaration, by rintro rfl; exact hadmits⟩ hexported
    rw [hpassed] at hfinite ⊢
    obtain ⟨t₁, hdescend, rfl⟩ := Yields.map_inv hstep
    obtain ⟨rfl, hcount⟩ := unchanged_descend hparts hd (admissible_anywhere hd hexported)
      hfinite hdescend
    exact ⟨rfl, hcount⟩

/-- **Classes are lowered once and for all.** -/
theorem lower_settles (ht : Derives .strict .program t) : Settles lower t :=
  settles_of_laws handle_counted handle_unchanged derives_lower (fun hu => ⟨.program, hu, nofun⟩) ht
    ⟨.program, ht, nofun⟩

end Downlevel.Lower.Class
