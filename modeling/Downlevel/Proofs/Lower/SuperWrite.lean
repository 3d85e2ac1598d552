import Downlevel.Proofs.Settled.Class

/-!
# `Proofs.Lower.SuperWrite`: writes to properties of `super`

In a lowered class `super.p` is a property of an object that all instances of the superclass share. A class in
which such a property is assigned or updated is left in place and reported. Its methods are looked at when
their parts are lowered already, so what counts is that a visit keeps the writes in them. Only the target itself is
looked at: a target inside a pattern is not found.
-/

namespace Downlevel.Lower.Class

open Tree Node Grammar

variable {t t' : Tree} {s : Symbol}

/-- An assignment to a property of `super`, or an update of one. -/
def writesSuper (t : Tree) : Bool :=
  t.isType "AssignmentExpression" && isSuperMember (t.get "left") ||
    t.isType "UpdateExpression" && isSuperMember (t.get "argument")

/-- Is there such a write, outside of functions and classes with a `super` of their own? -/
def mentionsWrite : Tree → Bool := mentions ownSuperTypes writesSuper

theorem writesSuper_iff : writesSuper t ↔
    (t.type? = some "AssignmentExpression" ∧ isSuperMember (t.get "left")) ∨
      (t.type? = some "UpdateExpression" ∧ isSuperMember (t.get "argument")) := by
  rw [writesSuper, Bool.or_eq_true, Bool.and_eq_true, Bool.and_eq_true, isType_iff, isType_iff]

theorem isSome_problemAt? (hasSuperclass : Bool) (h : writesSuper t) :
    (problemAt? hasSuperclass t).isSome := by
  rcases writesSuper_iff.mp h with ⟨htype, hmember⟩ | ⟨htype, hmember⟩
  · simp [problemAt?, isType_of_type? htype, hmember]
  · simp [problemAt?, isType_of_type? htype, hmember]

/-! ## Writes under visit -/

theorem isSuperMember_visited {w w' : Work} {o : Outcome} (hd : Derives .any s t)
    (hmember : isSuperMember t) (h : Yields (visit handle .anywhere t) w o w') :
    ∃ t', o = .keep t' ∧ isSuperMember t' := by
  obtain ⟨htype, hsuper⟩ := type?_of_isSuperMember hmember
  obtain ⟨t', rfl, hvisited⟩ := revisited_of_type? h htype (by decide)
  have hobject : Derives .any .callee (t.get "object") := hd.one htype rfl
  have hsuper' : (t'.get "object").type? = some "Super" := by
    refine hvisited.get (P := fun v => v.type? = some "Super") rfl hobject.isNode fun hvisit => ?_
    obtain ⟨v, rfl, hv⟩ := revisited_of_type? hvisit hsuper (by decide)
    exact ⟨v, rfl, hv.type? hsuper⟩
  refine ⟨t', rfl, ?_⟩
  rw [isSuperMember, isType_iff.mpr (hvisited.type? htype), isType_iff.mpr hsuper', Bool.and_self]

/-- A write stays one. -/
theorem writesSuper_revisited (hd : Derives .any s t) (h : Revisited t t') (hwrites : writesSuper t) :
    writesSuper t' := by
  rw [writesSuper_iff] at hwrites ⊢
  rcases hwrites with ⟨htype, hmember⟩ | ⟨htype, hmember⟩
  · have hleft := hd.one htype (k := "left") rfl
    exact .inl ⟨h.type? htype,
      h.get rfl hleft.isNode fun hvisit => isSuperMember_visited hleft hmember hvisit⟩
  · have hargument := hd.one htype (k := "argument") rfl
    exact .inr ⟨h.type? htype,
      h.get rfl hargument.isNode fun hvisit => isSuperMember_visited hargument hmember hvisit⟩

/-- A child that is kept is a child of what is left. -/
theorem Revisited.child (h : Revisited t t') (hd : Derives .any s t) {p : String × Tree}
    (hp : p ∈ t.childNodes) {P : Tree → Prop} (hP : ∀ {w o w'}, Yields (visit handle .anywhere p.2) w o w' →
      ∃ y, o = .keep y ∧ y.isNode ∧ P y) : ∃ q ∈ t'.childNodes, P q.2 := by
  obtain ⟨v, -, hkey, -⟩ := mem_childNodes.mp hp
  obtain ⟨hy, hnode⟩ := mem_nodesIn.mp (hd.mem_nodesIn_get hp)
  have hkept : ∃ y ∈ nodesIn (t'.get p.1), P y := by
    rcases hy with heq | hitem
    · rw [heq] at hnode hP
      refine h.get (P := fun v => ∃ y ∈ nodesIn v, P y) hkey hnode fun hvisit => ?_
      obtain ⟨y, rfl, hnode, hPy⟩ := hP hvisit
      exact ⟨y, rfl, y, mem_nodesIn.mpr ⟨.inl rfl, hnode⟩, hPy⟩
    · obtain ⟨m, fs, gs, w, w', rfl, rfl, h⟩ := h
      cases hlist : (Tree.obj m fs).get p.1 with
      | list xs =>
        rw [hlist] at hitem
        refine h.get_visited (P := fun v => ∃ y ∈ nodesIn v, P y) rfl hkey (by rw [hlist]; rfl)
          fun hvalue => ?_
        rw [hlist] at hvalue
        cases hvalue with
        | scalar hscalar => cases hscalar
        | list hfollows =>
          obtain ⟨y, hy, hnode, hPy⟩ := hfollows.exists_mem hitem hnode hP
          exact ⟨_, rfl, y, mem_nodesIn.mpr ⟨.inr hy, hnode⟩, hPy⟩
      | _ =>
        rw [hlist] at hitem
        cases hitem
  obtain ⟨y, hy, hPy⟩ := hkept
  exact ⟨(p.1, y), mem_childNodes_get hkey hy, hPy⟩

/-- A class behind `export default` mentions no write: its methods are its own. -/
theorem mentionsWrite_exported (hd : Derives .any s t) (hexported : isExportedClass t)
    {p : String × Tree} (hp : p ∈ t.childNodes) : mentionsWrite p.2 = false := by
  obtain ⟨htype, hclass⟩ := isExportedClass_iff.mp hexported
  obtain ⟨slot, x, hslot, -⟩ := hd.child hp
  have hpart : Derives .any .defaultExport (t.get "declaration") := hd.one htype rfl
  have heq : p.2 = t.get "declaration" := by
    have hkey := eq_declaration htype hslot
    rw [← hkey]
    exact hd.child_eq_get hp (by rw [hkey]; exact hpart.isList)
  rw [heq, mentionsWrite, mentions_eq hpart.isObject, isTypeIn_of_type? hclass]
  simp [writesSuper, isType_of_type? hclass, ownSuperTypes, classTypes]

/-- **A visit keeps writes.** -/
theorem mentionsWrite_visited {place : Position} {w w' : Work} {o : Outcome} (hd : Derives .any s t)
    (hwrite : mentionsWrite t) (h : Yields (visit handle place t) w o w') :
    ∃ t', o = .keep t' ∧ t'.isNode ∧ mentionsWrite t' := by
  refine hd.inductionOnChildren (motive := fun t => mentionsWrite t = true → ∀ {place w o w'},
    Yields (visit handle place t) w o w' → ∃ t', o = .keep t' ∧ t'.isNode ∧
      mentionsWrite t') ?_ hwrite h
  intro s t hd ih hwrite place w o w' h
  obtain ⟨type, -, htype⟩ := hd.type
  rw [mentionsWrite, mentions_iff hd.isObject] at hwrite
  rcases hwrite with hself | ⟨hown, p, hp, hwrite⟩
  · obtain ⟨t', rfl, hvisited⟩ : ∃ t', o = .keep t' ∧ Revisited t t' := by
      rcases writesSuper_iff.mp hself with ⟨htype, -⟩ | ⟨htype, -⟩
      · exact revisited_of_type? h htype (by decide)
      · exact revisited_of_type? h htype (by decide)
    refine ⟨t', rfl, isNode_of_type? (hvisited.type? htype), ?_⟩
    rw [mentionsWrite, mentions_eq hvisited.isObject, writesSuper_revisited hd hvisited hself, Bool.true_or]
  · rw [isTypeIn_of_type? htype, decide_eq_false_iff_not] at hown
    have hclass : ∀ type ∈ classTypes, t.type? ≠ some type := by
      intro type' hmem heq
      cases htype.symm.trans heq
      exact hown (List.mem_append_right _ hmem)
    have hexported : isExportedClass t = false := by
      cases hexported : isExportedClass t with
      | false => rfl
      | true => cases (mentionsWrite_exported hd hexported hp).symm.trans hwrite
    obtain ⟨t', rfl, hvisited⟩ := revisited_of_visit h hd.isObject (hclass _ (by decide))
      (fun heq => absurd heq (hclass _ (by decide))) hexported
    refine ⟨t', rfl, isNode_of_type? (hvisited.type? htype), ?_⟩
    obtain ⟨q, hq, hwrite'⟩ := hvisited.child hd hp (ih p hp hwrite)
    rw [mentionsWrite, mentions_iff hvisited.isObject]
    refine .inr ⟨?_, q, hq, hwrite'⟩
    rw [isTypeIn_of_type? (hvisited.type? htype), decide_eq_false_iff_not]
    exact hown

/-! ## Classes -/

/-- Does a method write to a property of `super`? -/
def methodWrites (m : Tree) : Bool := ((m.get "value").nodes ownSuperTypes).any writesSuper

/-- The function of a method is no write itself. -/
theorem methodWrites_eq {m : Tree} (hd : Derives .any .method m) :
    methodWrites m = (m.get "value").childNodes.any (mentionsWrite ·.2) := by
  have hvalue : Derives .any .function (m.get "value") := hd.one (hd.type_eq rfl) rfl
  have htype : (m.get "value").type? = some "FunctionExpression" := hvalue.type_eq rfl
  have hself : writesSuper (m.get "value") = false := by
    simp [writesSuper, isType_of_type? htype]
  rw [methodWrites, hvalue.nodes_eq_of_stopAt, List.any_cons, hself, Bool.false_or, List.any_flatMap,
    Bool.eq_iff_iff, List.any_eq_true, List.any_eq_true]
  refine exists_congr fun p => and_congr_right fun hp => ?_
  obtain ⟨-, x, -, -, hchild⟩ := hvalue.child hp
  rw [hchild.any_partNodes]
  rfl

/-- A method that writes still does when its parts are visited. -/
theorem methodWrites_revisited {m m' : Tree} (hd : Derives .any .method m) (hd' : Derives .any .method m')
    (h : Revisited m m') (hwrites : methodWrites m) : methodWrites m' := by
  rw [methodWrites_eq hd, List.any_eq_true] at hwrites
  obtain ⟨p, hp, hwrite⟩ := hwrites
  rw [methodWrites_eq hd', List.any_eq_true]
  have hvalue : Derives .any .function (m.get "value") := hd.one (hd.type_eq rfl) rfl
  refine h.get (P := fun v => ∃ q ∈ v.childNodes, mentionsWrite q.2) rfl hvalue.isNode
    fun hvisit => ?_
  obtain ⟨v, rfl, hvisited⟩ := revisited_of_type? hvisit (hvalue.type_eq rfl) (by decide)
  obtain ⟨-, x, -, -, hchild⟩ := hvalue.child hp
  exact ⟨v, rfl, hvisited.child hvalue hp (mentionsWrite_visited hchild hwrite)⟩

theorem isLeftAlone_of_writes (h : ∃ m ∈ (t.get "body").children "body", methodWrites m) :
    isLeftAlone t := by
  obtain ⟨m, hm, hwrites⟩ := h
  obtain ⟨n, hn, hwrites⟩ := List.any_eq_true.mp hwrites
  rw [isLeftAlone, Bool.or_eq_true, problem?, List.findSome?_isSome_iff]
  exact .inr ⟨m, hm, List.findSome?_isSome_iff.mpr ⟨n, hn, isSome_problemAt? _ hwrites⟩⟩

/-- A class with a method that writes is left alone when its parts are visited. -/
theorem isLeftAlone_revisited {s' : Symbol} (hd : Derives .any s t) (hclass : t.isTypeIn classTypes)
    (hd' : Derives .any s' t') (hclass' : t'.isTypeIn classTypes) (h : Revisited t t')
    (hwrites : ∃ m ∈ (t.get "body").children "body", methodWrites m) : isLeftAlone t' := by
  obtain ⟨m, hm, hwrites⟩ := hwrites
  obtain ⟨m', hm', hvisited⟩ := (h.methods hd hclass).1 m hm
  exact isLeftAlone_of_writes ⟨m', hm', methodWrites_revisited ((class_parts hd hclass).2.2 m hm)
    ((class_parts hd' hclass').2.2 m' hm') hvisited hwrites⟩

/-- A class is left in place, with its parts visited, and reported last. -/
def Stays (t t' : Tree) (w : Work) : Prop :=
  t'.type? = t.type? ∧ t'.mark? = t.mark? ∧
    ∃ diagnostics message, w.diagnostics = diagnostics ++ [.about pass message t']

/-- **A class that writes to a property of `super` stays a class**, whether it stands alone or behind
`export default`. -/
theorem writing_class_stays {s : Symbol} {t : Tree} (hd : Derives .any s t)
    (hclass : t.isTypeIn classTypes = true)
    (hwrites : ∃ m ∈ (t.get "body").children "body", methodWrites m = true) (w : Work) :
    (∃ t' w', Yields (visit handle .anywhere t) w (.keep t') w' ∧ Stays t t' w') ∧
      ∀ {s' : Symbol} {e : Tree}, Derives .any s' e → isExportedClass e = true → e.get "declaration" = t →
        ∃ t' w', Yields (visit handle .anywhere e) w (.keep (e.set "declaration" t')) w' ∧
          Stays t t' w' := by
  constructor
  · obtain ⟨type, -, htype⟩ := hd.type
    obtain ⟨m, fs, rfl⟩ := isObject_of_type? htype
    obtain ⟨t', w₁, -, -, hdescend, -, hd', htype', -⟩ :=
      visit_class (Survey.partsKeep handle_keeps hd) hd hclass w
    have hvisited := revisited_of_descend hdescend
    obtain ⟨message, hlower⟩ := yields_leftAlone
      (isLeftAlone_revisited hd hclass hd' ((isTypeIn_congr htype' _).trans hclass) hvisited hwrites) w₁
    refine ⟨t', { w₁ with diagnostics := w₁.diagnostics ++ [.about pass message t'] }, ?_, htype',
      hvisited.mark?, _, message, rfl⟩
    rw [visit]
    unfold handle
    rcases type?_class hclass with htype | htype
    · rw [htype]
      exact hdescend.bind (hlower.bind (Yields.pure _ _))
    · rw [htype]
      exact hdescend.bind (hlower.bind (Yields.pure _ _))
  · rintro s' e he hexported rfl
    have htypes := hexported
    rw [isExportedClass, Bool.and_eq_true, isType_iff, isType_iff] at htypes
    obtain ⟨m, fs, rfl⟩ := isObject_of_type? htypes.1
    have hslot : slot? s' (.obj m fs) "declaration" = some (.one .defaultExport) := slot?_one htypes.1 rfl
    have hinvariant : (contract .any).invariant w := trivial
    obtain ⟨_, w₁, hfield, ⟨t', rfl, hd', htype'⟩, -⟩ := (Survey.partsKeep handle_keeps he).field_one
      .exported he hslot (fun _ => htypes.2) hinvariant
    have hdeclared : (contract .any).admits .exported .defaultExport
        ((Tree.obj m fs).get "declaration") := htypes.2
    obtain ⟨hvisit, -⟩ := Survey.follows_field (partsOf_follow follows_visitLaw m fs) he hslot hdeclared hfield
    obtain ⟨_, heq, hvisited⟩ := revisited_of_visit hvisit hd.isObject (by rw [htypes.2]; decide)
      (fun _ => rfl) (isExportedClass_of_class hclass)
    cases heq
    obtain ⟨message, hlower⟩ := yields_leftAlone (isLeftAlone_revisited hd hclass hd'
      (by rw [isTypeIn_of_type? htype']; decide) hvisited hwrites) w₁
    refine ⟨t', { w₁ with diagnostics := w₁.diagnostics ++ [.about pass message t'] }, ?_,
      htype'.trans htypes.2.symm, hvisited.mark?, _, message, rfl⟩
    rw [visit]
    unfold handle
    rw [htypes.1]
    simp only [isType_iff.mpr htypes.2, if_true]
    exact hfield.bind (hlower.bind (Yields.pure _ _))

/-- `class A extends B { m() { … } }` -/
def classWith (statement : Tree) : Tree :=
  make "ClassDeclaration" [("id", identifier "A"), ("superClass", identifier "B"),
    ("body", make "ClassBody" [("body", .list [make "MethodDefinition"
      [("key", identifier "m"), ("kind", .str "method"), ("static", .bool false),
       ("value", functionExpression [] (block [statement]))]])])]

/-- `super.x` -/
def superX : Tree := dot (make "Super" []) "x"

/-- `() => super.x = class extends super.x {};` -/
def arrowAssignment : Tree :=
  expressionStatement (make "ArrowFunctionExpression" [("params", .list []), ("expression", .bool true),
    ("body", assign superX (make "ClassExpression" [("superClass", superX),
      ("body", make "ClassBody" [("body", .list [])])]))])

theorem writing_class_stays_arrow : ∃ t' w',
    Yields (visit handle .anywhere (classWith arrowAssignment))
      { names := .ofTree (classWith arrowAssignment) } (.keep t') w' ∧
    Stays (classWith arrowAssignment) t' w' := by
  have hd : Derives .any .statement (classWith arrowAssignment) := fits_one_iff.mp (by decide)
  exact (writing_class_stays hd (by decide) ⟨_, List.mem_singleton_self _, by decide⟩ _).1

/-- `class A extends B { m() { [super.x] = y; } }` -/
def destructuring : Tree :=
  make "Program" [("body", .list [classWith (expressionStatement
    (assign (make "ArrayPattern" [("elements", .list [superX])]) (identifier "y")))])]

/-- **A target inside a pattern is overlooked**: the class is lowered, and nothing is reported. -/
theorem destructuring_lowered : isProgram destructuring = true ∧ ∃ out, lower destructuring = .ok out ∧
    out.diagnostics = [] ∧ out.tree.nodes.any (·.isTypeIn classTypes) = false := by
  have hout : (lower destructuring).toOption.map (fun out =>
      (out.diagnostics, out.tree.nodes.any (·.isTypeIn classTypes))) = some ([], false) := by
    decide +kernel
  obtain ⟨out, hlower, hout⟩ := Option.map_eq_some_iff.mp hout
  obtain ⟨hnone, hclasses⟩ := Prod.mk.inj hout
  exact ⟨by decide, out, eq_ok_of_toOption hlower, hnone, hclasses⟩

end Downlevel.Lower.Class
