import Downlevel.Proofs.Settled.Super

/-!
# `Proofs.Settled.Member`: the members of a class that is lowered

The parts of a class that is lowered move: methods become members of an object, the constructor becomes the
class, `super` is replaced in their bodies. All of this keeps the tally of the parts, as long as no
constructor has a key in brackets, which is dropped.
-/

namespace Downlevel.Lower.Class

open Tree Node Grammar Survey

variable {labels : Labelling} {method f t : Tree} {className superName : String} {members : List Member}
  {methods : List Tree} {w w' : Work}

/-! ## Members -/

/-- A method counts what its key and its function do. -/
theorem tally_of_method (h : Derives labels .method method) :
    survey.tally .anywhere method =
      survey.tally .anywhere (method.get "key") + survey.tally .anywhere (method.get "value") := by
  obtain ⟨-, -, -, -, kind, hkind⟩ := method_parts h
  rw [tally_of_type h (h.type_eq rfl) (by repeat constructor)
    (show "MethodDefinition" ∉ surveyedTypes by decide)]
  simp [hkind]

/-- A key that is written out counts nothing. -/
theorem tally_of_name {key : Tree} (h : Derives labels .propertyName key) :
    survey.tally .anywhere key = 0 := by
  obtain ⟨type, hmem, htype⟩ := h.type
  rcases List.mem_pair.mp hmem with rfl | rfl
  · exact tally_of_leaf h htype (by repeat constructor) (spares (by decide)) (by decide)
  · exact tally_of_leaf h htype (by repeat constructor) (spares (by decide)) (by decide)

theorem tally_owner (className : String) (method : Tree) :
    survey.tally .anywhere (owner className method) = 0 := by
  unfold owner
  split
  · exact tally_identifier _ _
  · rw [tally_path, tally_identifier]

theorem tally_methodStatement {statement : Tree} (h : Derives labels .method method)
    (hstatement : methodStatement className method = .ok statement) :
    survey.tally .anywhere statement = survey.tally .anywhere method := by
  obtain ⟨hvalue, hfunction, hkey, hcases, -⟩ := method_parts h
  rw [methodStatement, need, hkey, need, hvalue] at hstatement
  cases hstatement
  rw [tally_expressionStatement, tally_assign, tally_of_method h]
  congr 1
  rcases hcases with ⟨hcomputed, -⟩ | ⟨hcomputed, hname⟩
  · rw [if_pos hcomputed, tally_member, tally_owner, zero_add]
  · rw [if_neg (by simp [hcomputed]), tally_of_name hname]
    obtain ⟨type, hmem, htype⟩ := hname.type
    rcases List.mem_pair.mp hmem with rfl | rfl
    · obtain ⟨name, hname⟩ := hname.text htype (k := "name") rfl
      rw [if_pos (isType_iff.mpr htype), tally_member, tally_owner, hname, tally_make (spares (by decide))]
      simp [entry_some, isSyntaxKey, skippedKeys]
    · have hvalue := tally_of_isInert (S := survey) (c := .anywhere) (isInert_value hname htype)
      rw [if_neg (by simp [isType_of_type? htype]), tally_member, tally_owner,
        literal, tally_located_make (spares (by decide))]
      simp [entry_some, isSyntaxKey, skippedKeys, hvalue]

/-- What a member counts. -/
noncomputable def Member.tally : Member → ℕ∞
  | .statement t => survey.tally .anywhere t
  | .accessor _ key _ properties =>
    survey.tally .anywhere key + survey.tallyItems .anywhere properties

noncomputable def tallyMembers (members : List Member) : ℕ∞ := (members.map Member.tally).sum

theorem tallyMembers_append (members : List Member) (m : Member) :
    tallyMembers (members ++ [m]) = tallyMembers members + m.tally := by
  simp [tallyMembers]

theorem tallyMembers_join (slot : Option (Bool × String)) (prop : Tree)
    (h : members.any (Member.joins slot)) :
    tallyMembers (join slot prop members) = tallyMembers members + survey.tally .anywhere prop := by
  induction members with
  | nil => cases h
  | cons m rest ih =>
    cases m with
    | statement t =>
      have hrest : rest.any (Member.joins slot) := by
        simpa [List.any_cons, Member.joins] using h
      have ih := ih hrest
      unfold tallyMembers at ih ⊢
      rw [join, List.map_cons, List.map_cons, List.sum_cons, List.sum_cons, ih, add_assoc]
    | accessor first key s props =>
      rw [join]
      split
      · unfold tallyMembers
        rw [List.map_cons, List.map_cons, List.sum_cons, List.sum_cons, Member.tally, Member.tally,
          tallyItems_append, tallyItems_cons, tallyItems_nil, add_zero]
        ac_rfl
      · rename_i hnot
        have hrest : rest.any (Member.joins slot) := by
          rw [List.any_cons, Bool.or_eq_true] at h
          exact h.resolve_left hnot
        have ih := ih hrest
        unfold tallyMembers at ih ⊢
        rw [List.map_cons, List.map_cons, List.sum_cons, List.sum_cons, ih, add_assoc]

/-- An accessor with a key in brackets joins no other. -/
theorem joins_computed (h : (method.get "computed").isSet) (members : List Member) :
    members.any (Member.joins ((keyName? method).map fun name => ((method.get "static").isSet, name))) =
      false := by
  have hnone : keyName? method = none := by
    unfold keyName?
    rw [if_pos h]
  rw [hnone, List.any_eq_false]
  intro m _
  cases m with
  | statement t => exact Bool.false_ne_true
  | accessor first key s props => cases s <;> exact Bool.false_ne_true

theorem tallyMembers_addAccessor {ms : List Member} (h : Derives labels .method method)
    (hms : addAccessor members method = .ok ms) :
    tallyMembers ms = tallyMembers members + survey.tally .anywhere method := by
  obtain ⟨hvalue, -, hkey, hcases, kind, hkind⟩ := method_parts h
  have hprop : survey.tally .anywhere (property (make "Identifier" [("name", method.get "kind")])
      (method.get "value")) = survey.tally .anywhere (method.get "value") := by
    rw [tally_property, tally_make (spares (by decide)), hkind]
    simp [entry_some, isSyntaxKey, skippedKeys]
  simp only [addAccessor, accessorProperty, need, hvalue, hkey] at hms
  rw [tally_of_method h]
  rcases hcases with ⟨hcomputed, -⟩ | ⟨hcomputed, hname⟩
  · replace hms : (if members.any (Member.joins ((keyName? method).map fun name =>
      ((method.get "static").isSet, name))) then _ else _) = Except.ok ms := hms
    rw [joins_computed hcomputed, if_neg Bool.false_ne_true, if_pos hcomputed] at hms
    cases hms
    rw [tallyMembers_append, Member.tally, tallyItems_cons, hprop, tallyItems_nil, add_zero]
  · rw [tally_of_name hname, zero_add]
    replace hms : (if members.any (Member.joins ((keyName? method).map fun name =>
      ((method.get "static").isSet, name))) then _ else _) = Except.ok ms := hms
    split at hms
    · rename_i hjoins
      cases hms
      rw [tallyMembers_join _ _ hjoins, hprop]
    · rw [if_neg (by simp [hcomputed])] at hms
      cases hms
      have hliteral : survey.tally .anywhere
          (literal (((keyName? method).map Tree.str).getD .null)) = 0 := by
        refine tally_literal _ ?_ .null
        cases keyName? method <;> rfl
      rw [tallyMembers_append, Member.tally, tallyItems_cons, hprop, tallyItems_nil,
        add_zero, hliteral, zero_add]

/-- One more member counts what its method does. -/
theorem tallyMembers_addMember {ms : List Member} (h : Derives labels .method method)
    (hms : addMember className members method = .ok ms) :
    tallyMembers ms = tallyMembers members + survey.tally .anywhere method := by
  unfold addMember at hms
  split at hms
  · exact tallyMembers_addAccessor h hms
  · obtain ⟨statement, hstatement, -⟩ := derives_methodStatement className h
    rw [hstatement] at hms
    cases hms
    rw [tallyMembers_append, Member.tally, tally_methodStatement h hstatement]

theorem tally_toStatement (className : String) (m : Member) :
    survey.tally .anywhere (m.toStatement className) = m.tally := by
  cases m with
  | statement t => rfl
  | accessor method key slot properties =>
    rw [Member.toStatement, tally_expressionStatement, tally_call, tally_path]
    simp [tally_owner, tally_literal (.bool true) rfl, Member.tally]

theorem tallyItems_toStatement (className : String) (members : List Member) :
    survey.tallyItems .anywhere (members.map (Member.toStatement className)) = tallyMembers members := by
  induction members with
  | nil => exact tallyItems_nil
  | cons m rest ih =>
    rw [List.map_cons, tallyItems_cons, ih, tally_toStatement]
    rfl

theorem tallyItems_memberStatements {statements : List Tree} (h : ∀ m ∈ methods, Derives labels .method m)
    (hstatements : memberStatements className methods = .ok statements) :
    survey.tallyItems .anywhere statements = survey.tallyItems .anywhere methods := by
  have hfold : ∀ {methods : List Tree} {members ms : List Member},
      (∀ m ∈ methods, Derives labels .method m) → (∀ m ∈ members, m.Derives labels) →
      methods.foldlM (addMember className) members = .ok ms →
      tallyMembers ms = tallyMembers members + survey.tallyItems .anywhere methods := by
    intro methods
    induction methods with
    | nil =>
      intro members ms _ _ hms
      cases hms
      rw [tallyItems_nil, add_zero]
    | cons method rest ih =>
      intro members ms h hmembers hms
      rw [List.forall_mem_cons] at h
      obtain ⟨ms₁, hms₁, hd₁⟩ := derives_addMember className hmembers h.1
      rw [List.foldlM_cons, hms₁] at hms
      rw [ih h.2 hd₁ hms, tallyMembers_addMember h.1 hms₁, tallyItems_cons, add_assoc]
  rw [memberStatements] at hstatements
  cases hms : methods.foldlM (addMember className) [] with
  | error fault =>
    rw [hms] at hstatements
    cases hstatements
  | ok ms =>
    rw [hms] at hstatements
    cases hstatements
    have hsum := hfold h (List.forall_mem_nil _) hms
    have hnil : tallyMembers [] = 0 := rfl
    rw [hnil, zero_add] at hsum
    rw [← hsum]
    exact tallyItems_toStatement className ms

/-! ## The class -/

/-- A name counts nothing. -/
theorem tally_of_identifier {id : Tree} (h : id = .null ∨ Derives labels .identifier id) :
    survey.tally .anywhere id = 0 := by
  rcases h with rfl | h
  · exact tally_null
  · exact tally_of_leaf h (h.type_eq rfl) (by repeat constructor) (spares (by decide))
      (by decide)

/-- A function counts what its parameters and its body do. -/
theorem tally_of_function (h : Derives labels .function f) : survey.tally .anywhere f =
    survey.tallyItems .anywhere (f.children "params") + survey.tally .anywhere (f.get "body") := by
  have htype := h.type_eq rfl
  have hparams : f.get "params" = .list (f.children "params") := (h.many htype rfl).1
  have hid : survey.tally .anywhere (f.get "id") = 0 := tally_of_identifier (h.optional htype rfl)
  rw [tally_of_type h htype (by repeat constructor) (show "FunctionExpression" ∉ surveyedTypes by decide)]
  simp [hparams, hid]

theorem tally_functionDeclaration (name : String) (params : List Tree) (body place : Tree) :
    survey.tally .anywhere (functionDeclaration name params body place) =
      survey.tallyItems .anywhere params + survey.tally .anywhere body :=
  Survey.tally_functionDeclaration (show "FunctionExpression" ∉ surveyedTypes by decide)
    (show "FunctionDeclaration" ∉ surveyedTypes by decide) name params body place

/-- The function that becomes the class counts what the constructor does. -/
theorem tally_constructorFunction {constructor? : Option Tree} {superName? : Option String}
    (h : ∀ m ∈ constructor?, Derives labels .method m)
    (hproper : ∀ m ∈ constructor?, (m.get "computed").isSet = false)
    (hf : constructorFunction className constructor? superName? = .ok f) :
    survey.tally .anywhere f = survey.tallyItems .anywhere constructor?.toList := by
  cases constructor? with
  | some method =>
    obtain ⟨hvalue, hfunction, -, hcases, -⟩ := method_parts (h method rfl)
    have hkey : survey.tally .anywhere (method.get "key") = 0 := by
      rcases hcases with ⟨hcomputed, -⟩ | ⟨-, hname⟩
      · rw [hproper method rfl] at hcomputed
        cases hcomputed
      · exact tally_of_name hname
    have hslot : slot? .function (method.get "value") "body" = some (.one .block) :=
      slot?_one (hfunction.type_eq rfl) rfl
    simp only [constructorFunction, need, hvalue, ok_bind, (hfunction.get?_of_slot? hslot rfl).1] at hf
    cases hf
    rw [tally_functionDeclaration, Option.toList_some, tallyItems_cons, tally_of_method (h method rfl), hkey,
      tally_of_function hfunction, tallyItems_nil, zero_add, add_zero]
  | none =>
    cases hf
    rw [tally_functionDeclaration, tally_block (spares (by decide))]
    cases superName? with
    | none => simp
    | some superName =>
      simp

/-- The first constructor, and the other methods. -/
theorem tallyItems_withoutConstructor (methods : List Tree) :
    survey.tallyItems .anywhere (methods.find? isConstructor).toList +
        survey.tallyItems .anywhere (withoutConstructor methods) =
      survey.tallyItems .anywhere methods := by
  induction methods with
  | nil => simp [withoutConstructor]
  | cons m rest ih =>
    rw [withoutConstructor, List.find?_cons]
    cases hm : isConstructor m with
    | true => simp
    | false =>
      rw [if_neg Bool.false_ne_true, tallyItems_cons, tallyItems_cons, ← ih]
      ac_rfl

theorem tally_classCall (className : String) (params statements arguments : List Tree) :
    survey.tally .anywhere (classCall className params statements arguments) =
      survey.tallyItems .anywhere params + survey.tallyItems .anywhere statements +
        survey.tallyItems .anywhere arguments := by
  rw [classCall, tally_call, tally_functionExpression (show "FunctionExpression" ∉ surveyedTypes by decide),
    tally_block (spares (by decide)), tallyItems_append, tallyItems_cons, tally_returnStatement,
    tally_identifier, tallyItems_nil, add_zero, add_zero]

/-- The key of a constructor is written out. -/
theorem not_computed {m : Tree} (h : Derives .strict .method m) (hconstructor : isConstructor m) :
    (m.get "computed").isSet = false := by
  have hwritten := (agrees_iff.mp h.agrees).2 rfl
  rw [isConstructor] at hconstructor
  rw [isWritten, isType_iff.mpr (h.type_eq rfl), hconstructor, Bool.and_eq_true] at hwritten
  simpa using hwritten.2

theorem tally_methods {superName? : Option String} {statements : List Tree}
    (h : ∀ m ∈ methods, Derives .strict .method m)
    (hf : constructorFunction className (methods.find? isConstructor) superName? = .ok f)
    (hstatements : memberStatements className (withoutConstructor methods) = .ok statements) :
    survey.tally .anywhere f + survey.tallyItems .anywhere statements =
      survey.tallyItems .anywhere methods := by
  have hmem : ∀ m ∈ methods.find? isConstructor, m ∈ methods := fun m hm =>
    List.mem_of_find?_eq_some hm
  rw [tally_constructorFunction (fun m hm => h m (hmem m hm))
    (fun m hm => not_computed (h m (hmem m hm)) (List.find?_some hm)) hf,
    tallyItems_memberStatements (fun m hm => h m (mem_withoutConstructor hm)) hstatements,
    tallyItems_withoutConstructor]

theorem tally_baseClass {e : Tree} (h : ∀ m ∈ methods, Derives .strict .method m)
    (he : baseClass className methods = .ok e) :
    e.type? = some "CallExpression" ∧ survey.tally .anywhere e = survey.tallyItems .anywhere methods := by
  obtain ⟨f, statements, hf, hstatements, -⟩ := derives_methods className none h
  rw [baseClass, hf, hstatements] at he
  cases he
  refine ⟨rfl, ?_⟩
  rw [tally_classCall, tallyItems_cons, tally_methods h hf hstatements, tallyItems_nil, zero_add, add_zero]

/-- A method counts what it did when its `super` is replaced. -/
theorem tally_replaceSuper {m : Tree} (h : Derives labels .method method)
    (hm : replaceSuper superName method = .ok m) :
    survey.tally .anywhere m = survey.tally .anywhere method := by
  obtain ⟨hvalue, hfunction, -⟩ := method_parts h
  obtain ⟨m', hm', hd'⟩ := derives_replaceSuper superName h
  cases hm.symm.trans hm'
  obtain ⟨f, hf, -⟩ := derives_replace superName (method.get "static").isSet hfunction
  simp only [replaceSuper, need, hvalue, ok_bind, hf] at hm
  cases hm
  rw [tally_of_method hd', tally_of_method h, get_set_of_ne (by decide), get_set_self h.isObject,
    tally_replace hfunction hf]

theorem tallyItems_mapM_replaceSuper {ms : List Tree} (h : ∀ m ∈ methods, Derives labels .method m)
    (hms : methods.mapM (replaceSuper superName) = .ok ms) :
    survey.tallyItems .anywhere ms = survey.tallyItems .anywhere methods := by
  induction methods generalizing ms with
  | nil =>
    cases hms
    rfl
  | cons method rest ih =>
    rw [List.forall_mem_cons] at h
    obtain ⟨m, hm, -⟩ := derives_replaceSuper superName h.1
    obtain ⟨ms', hms', -⟩ := derives_mapM_replaceSuper superName h.2
    rw [List.mapM_cons, hm, ok_bind, hms'] at hms
    cases hms
    rw [tallyItems_cons, tallyItems_cons, ih h.2 hms', tally_replaceSuper h.1 hm]

theorem tally_derivedClass {superClass e : Tree} (h : ∀ m ∈ methods, Derives .strict .method m)
    (he : derivedClass className superName superClass methods = .ok e) :
    e.type? = some "CallExpression" ∧ survey.tally .anywhere e =
      survey.tallyItems .anywhere methods + survey.tally .anywhere superClass := by
  obtain ⟨ms, hms, hreplaced⟩ := derives_mapM_replaceSuper superName h
  obtain ⟨f, statements, hf, hstatements, -⟩ := derives_methods className (some superName) hreplaced
  rw [derivedClass, hms, ok_bind, hf, ok_bind, hstatements] at he
  cases he
  refine ⟨rfl, ?_⟩
  rw [tally_classCall]
  have hinherit : survey.tally .anywhere (inherit className superName) = 0 := by
    simp [inherit, tally_literal (.bool true) rfl]
  simp only [tallyItems_cons, tallyItems_nil, tally_identifier, hinherit, zero_add, add_zero]
  rw [tally_methods hreplaced hf hstatements, tallyItems_mapM_replaceSuper h hms]

/-- The parts of a class. -/
theorem tallyFields_class {s : Symbol} (hd : Derives labels s t) (h : t.isTypeIn classTypes) :
    survey.tallyFields (fun _ => some .anywhere) t.fields =
      survey.tally .anywhere (t.get "superClass") +
        survey.tallyItems .anywhere ((t.get "body").children "body") := by
  obtain ⟨hid, -, -⟩ := class_parts hd h
  obtain ⟨type, hmem, htype⟩ := isTypeIn_iff.mp h
  have hkeys : ∀ type ∈ classTypes, (rulesFor type).map (·.1) = ["id", "superClass", "body"] := by decide
  have hbody := derives_classBody hd h
  have hmethods : (t.get "body").get "body" = .list ((t.get "body").children "body") :=
    (hbody.many (hbody.type_eq rfl) rfl).1
  have htally : survey.tally .anywhere (t.get "body") =
      survey.tallyItems .anywhere ((t.get "body").children "body") := by
    rw [tally_of_type hbody (hbody.type_eq rfl) (by repeat constructor)
      (show "ClassBody" ∉ surveyedTypes by decide)]
    simp [hmethods]
  rw [tallyFields_of_keys hd htype (hkeys type hmem)]
  simp [entry_some, isSyntaxKey, skippedKeys, tally_of_identifier hid, htally]

/-- The diagnostics stay when a fresh name is taken. -/
theorem diagnostics_freshName {hint name : String} (h : Yields (freshName hint) w name w') :
    w'.diagnostics = w.diagnostics := by
  cases h
  rfl

theorem diagnostics_nameOf {name : String} (h : Yields (nameOf t) w name w') :
    w'.diagnostics = w.diagnostics := by
  unfold nameOf at h
  split at h
  · obtain ⟨_, hrequire, -⟩ := h.map_inv
    rw [hrequire.lift_inv.2]
  · exact diagnostics_freshName h

/-- A class that is left alone is reported. -/
theorem yields_leftAlone (hleft : isLeftAlone t) (w : Work) : ∃ message,
    Yields (lowerClass t) w none { w with diagnostics := w.diagnostics ++ [.about pass message t] } := by
  rw [isLeftAlone] at hleft
  unfold lowerClass
  simp only []
  split
  · exact ⟨_, rfl⟩
  · rename_i hreference
    rw [Bool.not_eq_true] at hreference
    rw [hreference, Bool.false_or] at hleft
    obtain ⟨problem, hproblem⟩ := Option.isSome_iff_exists.mp hleft
    rw [hproblem]
    exact ⟨_, rfl⟩

theorem lowerClass_leftAlone {r : Option Tree} (hleft : isLeftAlone t)
    (h : Yields (lowerClass t) w r w') :
    r = none ∧ (w'.diagnostics.length : ℕ∞) = w.diagnostics.length + 1 := by
  obtain ⟨message, hyields⟩ := yields_leftAlone hleft w
  obtain ⟨rfl, rfl⟩ := hyields.unique h
  exact ⟨rfl, by simp⟩

/-- **An expression takes the place of any other class**, and counts what the parts of the class did. -/
theorem lowerClass_lowered {s : Symbol} {r : Option Tree} (hd : Derives .strict s t)
    (hclass : t.isTypeIn classTypes) (hleft : isLeftAlone t = false) (h : Yields (lowerClass t) w r w') :
    w'.diagnostics = w.diagnostics ∧ ∃ e, r = some e ∧ e.type? = some "CallExpression" ∧
      survey.tally .anywhere e = survey.tallyFields (fun _ => some .anywhere) t.fields := by
  rw [isLeftAlone, Bool.or_eq_false_iff, Option.isSome_eq_false_iff, Option.isNone_iff_eq_none] at hleft
  have hmethods := (class_parts hd hclass).2.2
  unfold lowerClass at h
  simp only [hleft.1, hleft.2, Bool.false_eq_true, if_false] at h
  obtain ⟨className, w₁, hname, h⟩ := h.bind_inv
  rw [tallyFields_class hd hclass]
  split at h
  · rename_i hnull
    obtain ⟨e, w₂, hlift, hreturn⟩ := h.bind_inv
    obtain ⟨he, rfl⟩ := hlift.lift_inv
    obtain ⟨rfl, rfl⟩ := hreturn.pure_inv
    obtain ⟨htype, htally⟩ := tally_baseClass hmethods he
    refine ⟨diagnostics_nameOf hname, e, rfl, htype, ?_⟩
    have hsuper : t.get "superClass" = .null := by
      cases hsuper : t.get "superClass" with
      | null => rfl
      | _ =>
        rw [hsuper] at hnull
        cases hnull
    rw [htally, hsuper, tally_null, zero_add]
  · obtain ⟨superName, w₂, hfresh, hderived⟩ := h.bind_inv
    obtain ⟨e, w₃, hlift, hreturn⟩ := hderived.bind_inv
    obtain ⟨he, rfl⟩ := hlift.lift_inv
    obtain ⟨rfl, rfl⟩ := hreturn.pure_inv
    obtain ⟨htype, htally⟩ := tally_derivedClass hmethods he
    refine ⟨(diagnostics_freshName hfresh).trans (diagnostics_nameOf hname), e, rfl, htype, ?_⟩
    rw [htally, add_comm]

end Downlevel.Lower.Class
