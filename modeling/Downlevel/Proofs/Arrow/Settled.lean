import Downlevel.Proofs.Arrow.Mentions

/-!
# `Proofs.Arrow.Settled`: lowering arrow functions twice

A tree is settled in a context if the lowering of arrow functions has nothing to do there: every arrow
function stays one, and neither `this` nor `arguments` has to be replaced. Settled trees are left alone, and
what the lowering makes of a program is settled. The second lowering meets other contexts than the first:
what was an arrow function is a frame now. There is no arrow function left inside it, outside of other
functions, so nothing has to be replaced there.
-/

namespace Downlevel

namespace Tree

/-! ## Fields of changed nodes -/

section

variable {f : Tree → Tree} {v : Tree}

theorem isSet_of_isNode {t : Tree} (h : t.isNode) : t.isSet := by
  cases t with
  | obj m fs =>
    cases fs with
    | nil => cases h
    | cons g rest => rfl
  | _ => cases h

theorem isNull_of_isNode {t : Tree} (h : t.isNode) : t.isNull = false := by
  cases t <;> first | rfl | cases h

theorem isStr_of_isNode {t : Tree} (h : t.isNode) (s : String) : t.isStr s = false := by
  cases t <;> first | rfl | cases h

/-- Nodes in the place of nodes change nothing about a value as a whole. -/
theorem test_mapNodes (test : Tree → Bool) {b : Bool} (hnode : ∀ {t}, t.isNode → test t = b)
    (hlist : ∀ xs : List Tree, ∀ g, test (.list (xs.map g)) = test (.list xs))
    (h : ∀ y ∈ nodesIn v, (f y).isNode) : test (mapNodes f v) = test v := by
  by_cases hv : v.isNode
  · rw [mapNodes_of_isNode hv, hnode hv]
    exact hnode (h v (by rw [nodesIn_of_isNode hv]; exact List.mem_singleton_self v))
  · cases v with
    | list xs => exact hlist xs _
    | obj m fs => rw [mapNodes, if_neg hv]
    | _ => rfl

end

end Tree

namespace Lower
namespace Arrow

open Tree Node Grammar

variable {type : String} {xs new : List Tree} {c' : Context} {used : List String} {derived : Bool}
  {p : String × Tree}

/-! ## Trees with nothing to do -/

/-- Would the lowering change a node, apart from its parts? -/
def isUnsettled (c : Context) (t : Tree) : Bool :=
  (t.isType "ArrowFunctionExpression" && !(isShunned c t || staysArrow t)) ||
    (isAliased .receiver c t || isAliased .arguments c t)

/-- Has the lowering nothing to do? -/
def settled (c : Context) (t : Tree) : Bool := !meets contexts isUnsettled c t

section

variable {c : Context} {t : Tree} {a : AliasNames}

theorem settled_iff (h : t.isObject) : settled c t ↔ isUnsettled c t = false ∧
    ∀ p ∈ t.childNodes, ∀ d, contexts c t p.1 = some d → settled d p.2 := by
  rw [settled, meets_eq h, Bool.not_eq_true', Bool.or_eq_false_iff, List.any_eq_false]
  refine and_congr_right fun _ => forall₂_congr fun p _ => ?_
  cases hd : contexts c t p.1 with
  | none => simp [meetsChild, hd]
  | some d => simp [meetsChild, hd, settled]

/-- **Settled trees are left alone**, and need no aliases. -/
theorem rewrite_of_settled {s : Symbol} (ht : Derives .any s t) (h : settled c t) :
    rewrite a c t = t ∧ ∀ w, needs w c t = false := by
  refine ht.inductionOnChildren (motive := fun t => ∀ c, settled c t →
    rewrite a c t = t ∧ ∀ w, needs w c t = false) ?_ c h
  intro s t ht ih c h
  obtain ⟨hnode, hparts⟩ := (settled_iff ht.isObject).mp h
  rw [isUnsettled, Bool.or_eq_false_iff, Bool.or_eq_false_iff] at hnode
  obtain ⟨harrow, hreceiver, harguments⟩ := hnode
  have haliased : ∀ w, isAliased w c t = false := fun w => by cases w <;> assumption
  have hchildren : ∀ p ∈ t.childNodes, rewriteChild a (contexts c t) p.1 p.2 = p.2 ∧
      ∀ w, childNeeds w (contexts c t) p = false := by
    intro p hp
    cases hd : contexts c t p.1 with
    | none => exact ⟨rewriteChild_none hd _, fun w => childNeeds_none hd⟩
    | some d =>
      obtain ⟨hsame, hneeds⟩ := ih p hp d (hparts p hp d hd)
      exact ⟨(rewriteChild_some hd _).trans hsame, fun w => (childNeeds_some hd).trans (hneeds w)⟩
  have hinside : mapChildren (rewriteChild a (contexts c t)) t = t :=
    mapChildren_eq_self_iff.mpr fun p hp => (hchildren p hp).1
  have hnone : ∀ w, t.childNodes.any (childNeeds w (contexts c t)) = false := fun w =>
    List.any_eq_false.mpr fun p hp => by simp [(hchildren p hp).2 w]
  refine ⟨?_, fun w => ?_⟩
  · rw [rewrite_eq ht.isObject, hinside, finish, declarationsFor, hnone, hnone, haliased, haliased]
    split
    · rfl
    · split
      · rename_i htype
        rw [htype, Bool.true_and, Bool.not_eq_false'] at harrow
        rw [harrow, if_pos rfl]
      · rfl
  · rw [needs_eq ht.isObject, haliased, Bool.false_or, List.any_eq_false]
    intro p hp
    unfold contextsWithin
    split
    · rw [childNeeds_none rfl]
      exact Bool.false_ne_true
    · have := (hchildren p hp).2 w
      exact ne_true_of_eq_false this

/-- Nodes of other types are settled as their parts are. -/
theorem isUnsettled_of_isPassed (h : isPassed t) : isUnsettled c t = false := by
  rw [isUnsettled, (isPassed_iff.mp h).2.1, isAliased_of_isPassed h, isAliased_of_isPassed h]
  rfl

/-- The types of nodes that have a case, or whose parts are visited in other contexts. -/
def specialTypes : List String :=
  frameTypes ++ ["ArrowFunctionExpression", "ThisExpression", "Identifier"] ++ (memberTypes ++ classTypes)

/-- Nodes whose parts are visited in the same context. -/
def isPlain (t : Tree) : Bool := isPassed t && !t.isTypeIn (memberTypes ++ classTypes)

theorem isPlain_of_type? (htype : t.type? = some type) (h : type ∉ specialTypes) : isPlain t := by
  rw [specialTypes, List.mem_append, not_or] at h
  rw [isPlain, isPassed_of_type? htype h.1, isTypeIn_false htype h.2]
  rfl

/-- Away from classes nothing is known about the place of a part. -/
theorem at_of_not_class (hclass : t.isTypeIn classTypes = false) (hplace : c.place = .elsewhere)
    (key : String) : c.at t key = c := by
  obtain ⟨allowsArguments, inArrow, superCallMissing, place⟩ := c
  cases hplace
  unfold Context.at placeOf
  rw [isDerivedClass, hclass]
  rfl

theorem contexts_plain (h : isPlain t) (hplace : c.place = .elsewhere) (key : String) :
    contexts c t key = some c := by
  rw [isPlain, Bool.and_eq_true, Bool.not_eq_true', isTypeIn, List.any_append,
    Bool.or_eq_false_iff, ← isTypeIn, ← isTypeIn] at h
  obtain ⟨hpassed, hmember, hclass⟩ := h
  rw [contexts_passed hpassed, hmember, if_neg Bool.false_ne_true, at_of_not_class hclass hplace]

theorem settled_plain (hobject : t.isObject) (h : isPlain t)
    (hplace : c.place = .elsewhere) (hparts : ∀ p ∈ t.childNodes, settled c p.2) :
    settled c t := by
  refine (settled_iff hobject).mpr ⟨?_, fun p hp d hd => ?_⟩
  · rw [isPlain, Bool.and_eq_true] at h
    exact isUnsettled_of_isPassed h.1
  · rw [contexts_plain h hplace] at hd
    cases hd
    exact hparts p hp

end

/-! ## New nodes -/

section

variable {c : Context} {t : Tree} {a : AliasNames} {w : Provision}

theorem isAliased_of_inArrow (h : c.inArrow = false) : isAliased w c t = false := by
  cases w <;> simp [isAliased, h]

/-- A leaf that no alias stands for is settled. -/
theorem settled_leaf (htype : t.type? = some w.nodeType) (h : isAliased w c t = false) : settled c t := by
  have hall : ∀ w', isAliased w' c t = false := by
    intro w'
    by_cases heq : w' = w
    · rw [heq, h]
    · exact isAliased_other htype heq
  refine (settled_iff (isObject_of_typed htype)).mpr ⟨?_, fun p _ d hd => ?_⟩
  · rw [isUnsettled, hall, hall, isType_of_type? htype]
    cases w <;> rfl
  · rw [contexts_leaf htype] at hd
    cases hd

theorem type?_new (type : String) (fs : Fields) (place : Tree) :
    (located (make type fs) place).type? = some type := by
  rw [type?, get_located (by decide) (by decide)]
  rfl

theorem settled_alias {name : String} (hname : name.toList.head? = some '_') (place : Tree) :
    settled c (identifier name place) := by
  refine settled_leaf (w := .arguments) (type?_new _ _ _) ?_
  rw [isAliased, identifier, get_located (by decide) (by decide)]
  have hne : name ≠ "arguments" := by
    rintro rfl
    revert hname
    decide
  have hstr : ((make "Identifier" [("name", .str name)]).get "name").isStr "arguments" = false :=
    decide_eq_false hne
  rw [hstr, Bool.false_and, Bool.false_and, Bool.and_false]

/-- A new node is settled if its parts are. -/
theorem settled_make {fs : Fields} {place : Tree}
    (htype : type ∉ specialTypes) (hplace : c.place = .elsewhere)
    (h : ∀ f ∈ fs, ∀ y ∈ nodesIn f.2, settled c y) : settled c (located (make type fs) place) := by
  have hnew := type?_new type fs place
  refine settled_plain (isObject_of_typed hnew) (isPlain_of_type? hnew htype) hplace fun p hp => ?_
  obtain ⟨v, hv, hy⟩ := mem_childNodes_make hp
  exact h _ hv _ hy

theorem settled_items (h : ∀ y ∈ xs, settled c y) : ∀ y ∈ nodesIn (.list xs), settled c y := by
  intro y hy
  rw [nodesIn_list] at hy
  exact h y (List.mem_filter.mp hy).1

theorem settled_item {v : Tree} (hv : v.isList = false) (h : settled c v) :
    ∀ y ∈ nodesIn v, settled c y := by
  intro y hy
  rcases (mem_nodesIn.mp hy).1 with rfl | hmem
  · exact h
  · cases v with
    | list xs => cases hv
    | _ => cases hmem

/-- Declarations of aliases are settled if what they stand for is. -/
theorem settled_var {name : String} {init : Tree} (hname : name.toList.head? = some '_')
    (hplace : c.place = .elsewhere) (hlist : init.isList = false) (hinit : settled c init) :
    settled c (var name (some init)) := by
  rw [var, declaration]
  refine settled_make (by decide) hplace ?_
  rw [List.forall_mem_cons, List.forall_mem_singleton]
  refine ⟨nofun, settled_items (List.forall_mem_singleton.mpr ?_)⟩
  show settled c (located (make "VariableDeclarator" _) .null) = true
  refine settled_make (by decide) hplace ?_
  show ∀ f ∈ [("id", identifier name), ("init", init)], ∀ y ∈ nodesIn f.2, settled c y = true
  rw [List.forall_mem_cons, List.forall_mem_singleton]
  exact ⟨settled_item rfl (settled_alias hname .null), settled_item hlist hinit⟩

/-- The declarations of a frame are settled in it. -/
theorem settled_declarationsFor (ha : a.AreFresh used) (hplace : c.place = .elsewhere)
    (harrow : c.inArrow = false) : ∀ d ∈ declarationsFor a c' t, settled c d := by
  rw [declarationsFor, List.forall_mem_append]
  refine ⟨?_, ?_⟩
  · split
    · refine List.forall_mem_singleton.mpr (settled_var ha.forThis.2 hplace rfl ?_)
      exact settled_leaf (w := .receiver) (type?_new _ _ _) (isAliased_of_inArrow harrow)
    · exact List.forall_mem_nil _
  · split
    · refine List.forall_mem_singleton.mpr (settled_var ha.forArguments.2 hplace rfl ?_)
      exact settled_leaf (w := .arguments) (type?_new _ _ _) (isAliased_of_inArrow harrow)
    · exact List.forall_mem_nil _

end

/-! ## Frames -/

section

variable {c d : Context} {s : Symbol} {t : Tree} {a : AliasNames}

theorem not_class_of_frame (h : t.isTypeIn frameTypes) : t.isTypeIn classTypes = false := by
  obtain ⟨type, hmem, htype⟩ := isTypeIn_iff.mp h
  have hall : ∀ type ∈ frameTypes, type ∉ classTypes := by decide
  rw [isTypeIn_of_type? htype]
  exact decide_eq_false (hall type hmem)

/-- All parts of a frame are visited in its context. -/
theorem contexts_frame_eq (h : t.isTypeIn frameTypes) (key : String) :
    contexts c t key = some (frameContext c t) := by
  rw [contexts_frame h, at_of_not_class (not_class_of_frame h) rfl]

theorem settled_frame (hobject : t.isObject) (h : t.isTypeIn frameTypes)
    (hparts : ∀ p ∈ t.childNodes, settled (frameContext c t) p.2) : settled c t := by
  refine (settled_iff hobject).mpr ⟨?_, fun p hp d hd => ?_⟩
  · obtain ⟨type, hmem, htype⟩ := isTypeIn_iff.mp h
    have hall : ∀ type ∈ frameTypes,
        type ∉ ["ArrowFunctionExpression", "ThisExpression", "Identifier"] := by decide
    have hnot := hall type hmem
    simp only [List.mem_cons, List.not_mem_nil, or_false, not_or] at hnot
    rw [isUnsettled, isAliased, isAliased, isType_of_type? htype, isType_of_type? htype,
      isType_of_type? htype, decide_eq_false hnot.1, decide_eq_false hnot.2.1, decide_eq_false hnot.2.2]
    rfl
  · rw [contexts_frame_eq h] at hd
    cases hd
    exact hparts p hp

theorem settled_statement {n : Nat} (hxs : ∀ y ∈ xs, settled d y)
    (hnew : ∀ y ∈ new, settled d y) : ∀ y ∈ xs.take n ++ new ++ xs.drop n, settled d y := by
  rw [List.forall_mem_append, List.forall_mem_append]
  exact ⟨⟨fun y hy => hxs y (List.mem_of_mem_take hy), hnew⟩, fun y hy => hxs y (List.mem_of_mem_drop hy)⟩

theorem settled_children {x : Symbol} (ht : Derives .any s t) (hslot : slot? s t "body" = some (.many x))
    (hparts : ∀ p ∈ t.childNodes, settled d p.2) : ∀ y ∈ t.children "body", settled d y := by
  intro y hy
  obtain ⟨xs, hxs, hall⟩ := fits_many_iff.mp (ht.get?_of_slot? hslot rfl).2
  refine hparts ("body", y) (mem_childNodes_get (by decide) (mem_nodesIn.mpr ⟨.inr hy, ?_⟩))
  rw [children, hxs] at hy
  exact (hall y hy).isNode

theorem settled_set {key : String} (hparts : ∀ p ∈ t.childNodes, settled d p.2)
    (hxs : ∀ y ∈ xs, settled d y) : ∀ p ∈ (t.set key (.list xs)).childNodes, settled d p.2 := by
  intro p hp
  rcases mem_childNodes_set hp with hp | ⟨-, hy⟩
  · exact hparts p hp
  · exact settled_items hxs _ hy

/-- The parts of a frame with settled declarations are settled. -/
theorem settled_withDeclarations (ht : Derives .any s t) (h : t.isTypeIn frameTypes)
    (hplace : d.place = .elsewhere) (hnew : ∀ y ∈ new, settled d y)
    (hparts : ∀ p ∈ t.childNodes, settled d p.2) :
    ∀ p ∈ (withDeclarations derived new t).childNodes, settled d p.2 := by
  unfold withDeclarations
  split
  · exact hparts
  rcases frame_cases ht h with ⟨hprogram, hslot⟩ | ⟨hprogram, hslot, hblock⟩
  · rw [setStatements, if_pos hprogram, statementsOf, if_pos hprogram]
    exact settled_set hparts (settled_statement (settled_children ht hslot hparts) hnew)
  · intro p hp
    rw [setStatements, if_neg (by simp [hprogram])] at hp
    have htype : (t.get "body").type? = some "BlockStatement" := hblock.type_eq rfl
    have hplain := isPlain_of_type? htype (by decide)
    have hbody := hparts ("body", t.get "body") (mem_childNodes_get (by decide)
      (by rw [nodesIn_of_isNode hblock.isNode]; exact List.mem_singleton_self _))
    have hinside : ∀ q ∈ (t.get "body").childNodes, settled d q.2 := fun q hq =>
      ((settled_iff hblock.isObject).mp hbody).2 q hq d (contexts_plain hplain hplace _)
    have hitems : ∀ y ∈ statementsOf t, settled d y := by
      rw [statementsOf, if_neg (by simp [hprogram])]
      exact settled_children hblock hblock.slot?_block hinside
    rcases mem_childNodes_set hp with hp | ⟨-, hy⟩
    · exact hparts p hp
    · refine settled_item ?_ ?_ _ hy
      · have hlist := hblock.isList
        cases hbody' : t.get "body" <;> rw [hbody'] at hlist <;> exact hlist
      · have htype' : ∀ v, ((t.get "body").set "body" v).type? = some "BlockStatement" := fun v => by
          rw [type?, get_set_of_ne (by decide), ← type?, htype]
        refine settled_plain (isObject_of_typed (htype' _)) (isPlain_of_type? (htype' _) (by decide))
          hplace (settled_set hinside (settled_statement hitems hnew))

/-- The function that an arrow function becomes is settled if the parts of the arrow function are. -/
theorem settled_asFunction (ht : Derives .any s t) (htype : t.type? = some "ArrowFunctionExpression")
    (hparts : ∀ p ∈ t.childNodes, settled (frameContext c (asFunction t)) p.2) :
    settled c (asFunction t) := by
  have hnew : (asFunction t).type? = some "FunctionExpression" := type?_new _ _ _
  refine settled_frame (isObject_of_typed hnew) (isTypeIn_of_mem hnew (by decide)) fun p hp => ?_
  obtain ⟨v, hv, hy⟩ := mem_childNodes_make hp
  have hone : (t.get "body").isNode →
      settled (frameContext c (asFunction t)) (t.get "body") := fun hnode =>
    hparts ("body", t.get "body") (mem_childNodes_get (by decide)
      (by rw [nodesIn_of_isNode hnode]; exact List.mem_singleton_self _))
  simp only [List.cons_append, List.nil_append, Option.map_none, Node.optional, List.mem_cons,
    List.not_mem_nil, or_false, Prod.mk.injEq] at hv
  obtain ⟨-, rfl⟩ | ⟨-, rfl⟩ | ⟨-, rfl⟩ | ⟨-, rfl⟩ | ⟨-, rfl⟩ := hv
  · refine settled_items (fun y hy => ?_) _ hy
    have hnode := (ht.function_params (isTypeIn_of_mem htype (by decide)) y hy).isNode
    exact hparts ("params", y) (mem_childNodes_get (by decide) (mem_nodesIn.mpr ⟨.inr hy, hnode⟩))
  · refine settled_item (derives_blockBody ht htype).isList ?_ _ hy
    rcases blockBody_cases ht htype with ⟨hblock, heq⟩ | ⟨hbody, heq⟩
    all_goals rw [heq]
    · exact hone hblock.isNode
    · rw [block]
      refine settled_make (by decide) rfl (List.forall_mem_singleton.mpr ?_)
      refine settled_items (List.forall_mem_singleton.mpr ?_)
      rw [returnStatement]
      refine settled_make (by decide) rfl (List.forall_mem_singleton.mpr ?_)
      exact settled_item hbody.isList (hone hbody.isNode)
  all_goals cases hy

end

/-! ## The same frames -/

section

variable {c : Context} {s : Symbol} {t : Tree} {a : AliasNames}

theorem type?_withDeclarations : (withDeclarations derived new t).type? = t.type? := by
  unfold withDeclarations
  split
  · rfl
  · rw [setStatements]
    split <;> rw [type?, get_set_of_ne (by decide), ← type?]

/-- The rewriting changes the types of arrow functions, `this` and `arguments` only. -/
theorem type?_rewrite (ht : Derives .any s t) : (rewrite a c t).type? = t.type? ∨
    t.type? = some "ArrowFunctionExpression" ∧ (rewrite a c t).type? = some "FunctionExpression" ∨
    t.type? = some "ThisExpression" ∧ (rewrite a c t).type? = some "Identifier" := by
  rcases node_cases t with hframe | htype | ⟨w, htype⟩ | hpassed
  · rw [rewrite_frame ht.isObject hframe]
    exact .inl (type?_withDeclarations.trans type?_mapChildren)
  · cases hshunned : isShunned c t with
    | true =>
      rw [rewrite_shunned htype hshunned]
      exact .inl rfl
    | false =>
      rw [rewrite_arrow htype hshunned]
      split
      · exact .inl type?_mapChildren
      · exact .inr (.inl ⟨htype, type?_new _ _ _⟩)
  · rw [rewrite_leaf htype]
    split
    · cases w with
      | receiver => exact .inr (.inr ⟨htype, type?_new _ _ _⟩)
      | arguments => exact .inl ((type?_new _ _ _).trans htype.symm)
    · exact .inl rfl
  · rw [rewrite_passed ht.isObject hpassed]
    exact .inl type?_mapChildren

theorem isType_rewrite (ht : Derives .any s t)
    (h : type ∉ ["ArrowFunctionExpression", "FunctionExpression", "ThisExpression", "Identifier"]) :
    (rewrite a c t).isType type = t.isType type := by
  simp only [List.mem_cons, List.not_mem_nil, or_false, not_or] at h
  rcases type?_rewrite (a := a) (c := c) ht with hsame | ⟨htype, hnew⟩ | ⟨htype, hnew⟩
  · exact isType_congr hsame type
  · rw [isType_of_type? htype, isType_of_type? hnew, decide_eq_false (Ne.symm h.1),
      decide_eq_false (Ne.symm h.2.1)]
  · rw [isType_of_type? htype, isType_of_type? hnew, decide_eq_false (Ne.symm h.2.2.1),
      decide_eq_false (Ne.symm h.2.2.2)]

/-- The value of a field of a node that is looked through. -/
theorem get_rewrite {x : Symbol} {key : String} (ht : Derives .any s t) (hpassed : isPassed t)
    (hmember : t.isTypeIn memberTypes = false) (hk : isSyntaxKey key)
    (hvalue : Derives .any x (t.get key)) :
    (rewrite a c t).get key = rewrite a (c.at t key) (t.get key) := by
  have hc : contexts c t key = some (c.at t key) := by
    rw [contexts_passed hpassed, hmember, if_neg Bool.false_ne_true]
  rw [rewrite_passed ht.isObject hpassed, get_mapChildren hk, mapNodes_of_isNode hvalue.isNode,
    rewriteChild_some hc]

/-- The rewriting neither makes nor loses a `super(…)` call. -/
theorem isSuperCall_rewrite (ht : Derives .any s t) : isSuperCall (rewrite a c t) = isSuperCall t := by
  rw [isSuperCall, isSuperCall, isType_rewrite ht (by decide)]
  cases hstatement : t.isType "ExpressionStatement" with
  | false => rfl
  | true =>
    have htype := isType_iff.mp hstatement
    have hexpression : Derives .any .expression (t.get "expression") := ht.one htype rfl
    rw [get_rewrite ht (isPassed_of_type? htype (by decide)) (isTypeIn_false htype (by decide)) (by decide)
      hexpression,
      isType_rewrite hexpression (by decide)]
    cases hcall : (t.get "expression").isType "CallExpression" with
    | false => rfl
    | true =>
      have htype := isType_iff.mp hcall
      have hcallee : Derives .any .callee ((t.get "expression").get "callee") := hexpression.one htype rfl
      rw [get_rewrite hexpression (isPassed_of_type? htype (by decide)) (isTypeIn_false htype (by decide))
        (by decide) hcallee,
        isType_rewrite hcallee (by decide)]

theorem any_isSuperCall_map (hxs : ∀ y ∈ xs, ∃ x, Derives .any x y) (f : Tree → Tree)
    (hf : ∀ y ∈ xs, ∃ c, f y = rewrite a c y) :
    (xs.map fun y => if y.isNode then f y else y).any isSuperCall = xs.any isSuperCall := by
  rw [List.any_map, Bool.eq_iff_iff, List.any_eq_true, List.any_eq_true]
  refine exists_congr fun y => and_congr_right fun hy => ?_
  obtain ⟨x, hd⟩ := hxs y hy
  obtain ⟨c, hc⟩ := hf y hy
  rw [Function.comp, hd.isNode, if_pos rfl, hc, isSuperCall_rewrite hd]

/-- The parts of a frame rewritten. -/
theorem any_isSuperCall_mapChildren (ht : Derives .any s t) (h : t.isTypeIn frameTypes) :
    (statementsOf (mapChildren (rewriteChild a (contexts c t)) t)).any isSuperCall =
      (statementsOf t).any isSuperCall := by
  have hchild : ∀ key y, rewriteChild a (contexts c t) key y = rewrite a (frameContext c t) y :=
    fun key y => rewriteChild_some (contexts_frame_eq h key) y
  rw [statementsOf, statementsOf, isType_congr type?_mapChildren]
  rcases frame_cases ht h with ⟨hprogram, hslot⟩ | ⟨hprogram, hslot, hblock⟩
  · obtain ⟨xs, hxs, hall⟩ := fits_many_iff.mp (ht.get?_of_slot? hslot rfl).2
    rw [if_pos hprogram, if_pos hprogram, children, children, get_mapChildren (by decide), hxs]
    exact any_isSuperCall_map (fun y hy => ⟨_, hall y hy⟩) _ fun y _ => ⟨_, hchild _ y⟩
  · have htype : (t.get "body").type? = some "BlockStatement" := hblock.type_eq rfl
    have hpassed : isPassed (t.get "body") := isPassed_of_type? htype (by decide)
    have hplain := isPlain_of_type? htype (by decide)
    obtain ⟨xs, hxs, hall⟩ := fits_many_iff.mp (hblock.get?_of_slot? hblock.slot?_block rfl).2
    rw [hprogram, if_neg Bool.false_ne_true, if_neg Bool.false_ne_true, children, children,
      get_mapChildren (by decide), mapNodes_of_isNode hblock.isNode, hchild,
      rewrite_passed hblock.isObject hpassed, get_mapChildren (by decide), hxs]
    exact any_isSuperCall_map (fun y hy => ⟨_, hall y hy⟩) _ fun y _ =>
      ⟨_, rewriteChild_some (contexts_plain hplain rfl _) y⟩

theorem statementsOf_setStatements {t : Tree} (ht : Derives .any s t)
    (h : t.isTypeIn frameTypes) (xs : List Tree) : statementsOf (setStatements t xs) = xs := by
  rcases frame_cases ht h with ⟨hprogram, -⟩ | ⟨hprogram, -, hblock⟩
  · rw [setStatements, if_pos hprogram, statementsOf, isType, get_set_of_ne (by decide), ← isType,
      if_pos hprogram, children, get_set_self ht.isObject]
    rfl
  · rw [setStatements, hprogram, if_neg Bool.false_ne_true, statementsOf, isType,
      get_set_of_ne (by decide), ← isType, hprogram, if_neg Bool.false_ne_true,
      get_set_self ht.isObject, children, get_set_self hblock.isObject]
    rfl

/-- Declarations of aliases are no `super(…)` calls. -/
theorem any_isSuperCall_withDeclarations {t' : Tree} (ht : Derives .any s t)
    (h : t.isTypeIn frameTypes) :
    (statementsOf (withDeclarations derived (declarationsFor a c' t') t)).any isSuperCall =
      (statementsOf t).any isSuperCall := by
  unfold withDeclarations
  split
  · rfl
  · have hnew : (declarationsFor a c' t').any isSuperCall = false := by
      have hvar : ∀ name init, isSuperCall (var name init) = false := by
        intro name init
        have htype : (var name init).type? = some "VariableDeclaration" := by
          rw [var, declaration, type?_new]
        rw [isSuperCall, isType_of_type? htype]
        rfl
      rw [List.any_eq_false]
      intro d hd
      rw [declarationsFor, List.mem_append] at hd
      rcases hd with hd | hd
      all_goals
        split at hd
        · rw [List.mem_singleton.mp hd, hvar]
          exact Bool.false_ne_true
        · cases hd
    rw [statementsOf_setStatements ht h, List.any_append, List.any_append, hnew, Bool.or_false,
      ← List.any_append, List.take_append_drop]

/-- **A frame is the same frame after the lowering.** -/
theorem frameContext_rewrite (ht : Derives .any s t) (h : t.isTypeIn frameTypes)
    (hplace : c'.place = c.place) : frameContext c' (rewrite a c t) = frameContext c t := by
  have hinside := derives_rewritten (a := a) ht (contexts c t)
  have hframe := (isTypeIn_congr (type?_mapChildren (f := rewriteChild a (contexts c t))) _).trans h
  rw [frameContext, frameContext, hplace, rewrite_frame ht.isObject h,
    isType_congr (type?_withDeclarations.trans type?_mapChildren),
    any_isSuperCall_withDeclarations hinside hframe, any_isSuperCall_mapChildren ht h]

end

/-! ## The contexts of two lowerings -/

section

variable {c c' : Context} {s : Symbol} {t : Tree} {a : AliasNames}

/-- No arrow function of a tree stays one in a context. -/
structure LowersAll (c : Context) (t : Tree) : Prop where
  noSuper : mentions ordinaryFunctionTypes (·.isType "Super") t = false
  noNewTarget : mentions ordinaryFunctionTypes isNewTarget t = false
  noThis : c.superCallMissing → mentions ordinaryFunctionTypes (·.isType "ThisExpression") t = false

theorem mentions_child {kind : Tree → Bool} {stopAt : List String} (ht : t.isObject)
    (hstop : t.isTypeIn stopAt = false) (h : mentions stopAt kind t = false) (hp : p ∈ t.childNodes) :
    mentions stopAt kind p.2 = false := by
  rw [← Bool.not_eq_true, mentions_iff ht] at h
  exact Bool.eq_false_iff.mpr fun hp' => h (.inr ⟨hstop, p, hp, hp'⟩)

theorem LowersAll.child {d : Context} (h : LowersAll c t) (ht : t.isObject)
    (hstop : t.isTypeIn ordinaryFunctionTypes = false) (hmissing : d.superCallMissing = c.superCallMissing)
    (hp : p ∈ t.childNodes) : LowersAll d p.2 where
  noSuper := mentions_child ht hstop h.noSuper hp
  noNewTarget := mentions_child ht hstop h.noNewTarget hp
  noThis hd := mentions_child ht hstop (h.noThis (hmissing ▸ hd)) hp

/-- What is mentioned outside some types is mentioned outside fewer. -/
theorem mentions_mono {kind : Tree → Bool} {stopAt stopAt' : List String}
    (hsub : ∀ type ∈ stopAt, type ∈ stopAt') (ht : Derives .any s t)
    (h : mentions stopAt' kind t) : mentions stopAt kind t := by
  refine ht.inductionOnChildren (motive := fun t =>
    mentions stopAt' kind t = true → mentions stopAt kind t) ?_ h
  intro s t ht ih h
  rw [mentions_iff ht.isObject] at h ⊢
  refine h.imp id fun ⟨hstop, p, hp, h⟩ => ⟨?_, p, hp, ih p hp h⟩
  rw [isTypeIn, List.any_eq_false] at hstop ⊢
  exact fun type hmem => hstop type (hsub type hmem)

/-- Where all arrow functions are lowered, none is kept. -/
theorem LowersAll.arrow (h : LowersAll c t) (ht : Derives .any s t)
    (htype : t.type? = some "ArrowFunctionExpression") :
    isShunned c t = false ∧ staysArrow t = false := by
  have hsub : ∀ type ∈ ordinaryFunctionTypes, type ∈ ordinaryFunctionTypes ++ classTypes := by decide
  have hnone : ∀ {kind : Tree → Bool}, mentions ordinaryFunctionTypes kind t = false →
      mentions (ordinaryFunctionTypes ++ classTypes) kind t = false := by
    intro kind hnot
    by_contra hyes
    rw [mentions_mono hsub ht (by simpa using hyes)] at hnot
    cases hnot
  refine ⟨?_, ?_⟩
  · rw [isShunned, usesThis_eq ht htype]
    cases hmissing : c.superCallMissing with
    | false => rfl
    | true => exact hnone (h.noThis hmissing)
  · rw [staysArrow, usesSuper_eq ht htype, usesNewTarget_eq ht htype, hnone h.noSuper, h.noNewTarget]
    rfl

/-- **No arrow function stays one inside an arrow function that is lowered.** -/
theorem lowersAll_of_arrow (ht : Derives .any s t) (htype : t.type? = some "ArrowFunctionExpression")
    (hplain : t.headsArePlain) (hshunned : isShunned c t = false)
    (hstays : staysArrow t = false) : LowersAll c t := by
  have hheads : ∀ k ∈ t.nodes, k.isTypeIn classTypes → ∀ n ∈ k.headNodes,
      n.isTypeIn ["ThisExpression", "Super"] = false := by
    intro k hk hclass n hn
    have harrow := List.all_eq_true.mp hplain t ht.self_mem_nodes
    rw [isType_iff.mpr htype, Bool.not_true, Bool.false_or, List.all_eq_true] at harrow
    have hclass' := harrow k hk
    rw [hclass, Bool.not_true, Bool.false_or, List.all_eq_true] at hclass'
    simpa using hclass' n hn
  -- A class in the arrow function mentions neither `this` nor `super` where it stands.
  have hlook : ∀ type ∈ ["ThisExpression", "Super"],
      mentions (ordinaryFunctionTypes ++ classTypes) (·.isType type) t = false →
      mentions ordinaryFunctionTypes (·.isType type) t = false := by
    intro type hmem hnot
    have hkind : ∀ n : Tree, n.isType type → n.isTypeIn ["ThisExpression", "Super"] :=
      fun n hn => List.any_eq_true.mpr ⟨type, hmem, hn⟩
    by_contra hyes
    rw [mentions_of_plain hkind ht ?_ (by simpa using hyes)] at hnot
    · cases hnot
    · intro k hk hclass n hn
      have hno := hheads k hk hclass n hn
      rw [isTypeIn, List.any_eq_false] at hno
      simpa using hno type hmem
  rw [staysArrow, usesSuper_eq ht htype, usesNewTarget_eq ht htype, Bool.or_eq_false_iff] at hstays
  rw [isShunned, usesThis_eq ht htype] at hshunned
  refine ⟨hlook _ (by decide) hstays.1, hstays.2, fun hmissing => hlook _ (by decide) ?_⟩
  rwa [hmissing, Bool.true_and] at hshunned

/-- How a node of the first lowering is met by the second: in the same context, or inside a function that was
an arrow function. -/
inductive Again (c c' : Context) (t : Tree) : Prop
  | same (h : c' = c)
  | inFunction (harrow : c'.inArrow = false) (hplace : c'.place = c.place) (hall : LowersAll c t)

theorem Again.place (h : Again c c' t) : c'.place = c.place := by
  cases h with
  | same h => rw [h]
  | inFunction _ hplace _ => exact hplace

/-- The body of a class is where the context says so. -/
def AtClassBody (c : Context) (t : Tree) : Prop := c.place = .classBody → t.isType "ClassBody" = true

theorem atClassBody_child {d : Context} (ht : Derives .any s t) (hp : p ∈ t.childNodes)
    (hplace : d.place = placeOf c.place t p.1) : AtClassBody d p.2 := by
  intro hbody
  rw [hplace] at hbody
  unfold placeOf at hbody
  split at hbody
  · rename_i hclass
    rw [isDerivedClass, Bool.and_eq_true, Bool.and_eq_true, decide_eq_true_iff] at hclass
    obtain ⟨⟨hclass, -⟩, hkey⟩ := hclass
    obtain ⟨type, hmem, htype⟩ := isTypeIn_iff.mp hclass
    have hchild : Derives .any .classBody (t.get "body") := by
      rcases List.mem_pair.mp hmem with rfl | rfl
      · exact ht.one htype rfl
      · exact ht.one htype rfl
    rw [ht.child_eq_get hp (by rw [hkey]; exact hchild.isList), hkey]
    exact isType_iff.mpr (hchild.type_eq rfl)
  · split at hbody
    · split at hbody <;> cases hbody
    · split at hbody <;> cases hbody
    · cases hbody

/-- Nothing is known about the place of a part of an arrow function. -/
theorem placeOf_arrow (ht : Derives .any s t) (htype : t.type? = some "ArrowFunctionExpression")
    (hbody : AtClassBody c t) (hp : p ∈ t.childNodes) : placeOf c.place t p.1 = .elsewhere := by
  obtain ⟨slot, x, hslot, -, -⟩ := ht.child_rule htype hp
  have hkey : p.1 ≠ "value" := by
    have hkeys : ∀ rule ∈ rulesFor "ArrowFunctionExpression", rule.1 ≠ "value" := by decide
    exact hkeys _ hslot
  have hclass : isDerivedClass t = false := by
    rw [isDerivedClass, isTypeIn_of_type? htype]
    rfl
  unfold placeOf
  rw [hclass, Bool.false_and, if_neg Bool.false_ne_true]
  split
  · rename_i hplace
    have hclassBody := hbody hplace
    rw [isType_of_type? htype] at hclassBody
    cases hclassBody
  · simp [hkey]
  · rfl

end

/-! ## The lowering, twice -/

section

variable {c c' : Context} {s : Symbol} {t : Tree} {a : AliasNames}

/-- A changed node leads to the same places. -/
theorem placeOf_mapChildren {f : String → Tree → Tree} {place : Place}
    (hnode : ∀ p ∈ t.childNodes, (f p.1 p.2).isNode) (key : String) :
    placeOf place (mapChildren f t) key = placeOf place t key := by
  have hget : ∀ k, isSyntaxKey k → ∀ y ∈ nodesIn (t.get k), (f k y).isNode :=
    fun k hk y hy => hnode (k, y) (mem_childNodes_get hk hy)
  have hderived : isDerivedClass (mapChildren f t) = isDerivedClass t := by
    rw [isDerivedClass, isDerivedClass, isTypeIn_congr type?_mapChildren, get_mapChildren (by decide),
      test_mapNodes isNull isNull_of_isNode (fun _ _ => rfl) (hget _ (by decide))]
  unfold placeOf
  rw [hderived, get_mapChildren (k := "kind") (by decide),
    test_mapNodes (isStr · "constructor") (isStr_of_isNode · _) (fun _ _ => rfl) (hget _ (by decide))]

/-- The parts of a changed node that is looked through. -/
theorem contexts_mapChildren {f : String → Tree → Tree} (hpassed : isPassed t)
    (hnode : ∀ p ∈ t.childNodes, (f p.1 p.2).isNode) (hplace : c'.place = c.place)
    (key : String) : contexts c' (mapChildren f t) key =
      (contexts c t key).map fun d => { c' with place := d.place } := by
  have hpassed' : isPassed (mapChildren f t) := by
    rw [isPassed, isTypeIn_congr type?_mapChildren]
    exact hpassed
  have hcomputed : ((mapChildren f t).get "computed").isSet = (t.get "computed").isSet := by
    rw [get_mapChildren (by decide), test_mapNodes isSet isSet_of_isNode (fun xs _ => by cases xs <;> rfl)
      fun y hy => hnode ("computed", y) (mem_childNodes_get (by decide) hy)]
  have hreferring : isReferring (mapChildren f t) key = isReferring t key := by
    rw [isReferring, isReferring, isType_congr type?_mapChildren, hcomputed]
  have hat : c'.at (mapChildren f t) key = { c' with place := (c.at t key).place } := by
    rw [Context.at, Context.at, placeOf_mapChildren hnode, hplace]
  rw [contexts_passed hpassed', contexts_passed hpassed, isTypeIn_congr type?_mapChildren, hreferring, hat]
  split
  · split <;> rfl
  · rfl

/-- The law of the induction: what becomes of a node is settled wherever the second lowering meets it. -/
def SettlesIn (a : AliasNames) (t : Tree) : Prop :=
  ∀ c c', AtClassBody c t → Again c c' t → settled c' (rewrite a c t) = true

/-- A child of a node with its parts rewritten is a child of the node, rewritten. -/
theorem exists_child_of_rewritten (ht : Derives .any s t) {inside : String → Option Context}
    {q : String × Tree} (hq : q ∈ (mapChildren (rewriteChild a inside) t).childNodes) :
    ∃ p ∈ t.childNodes, q = (p.1, rewriteChild a inside p.1 p.2) := by
  rw [childNodes_mapChildren (isNode_rewriteChild ht inside)] at hq
  obtain ⟨p, hp, rfl⟩ := List.mem_map.mp hq
  exact ⟨p, hp, rfl⟩

/-- A frame: its parts are met in the same context. -/
theorem settlesIn_frame (ha : a.AreFresh used) (ht : Derives .any s t) (hframe : t.isTypeIn frameTypes)
    (ih : ∀ p ∈ t.childNodes, SettlesIn a p.2) : SettlesIn a t := by
  intro c c' _ hagain
  have hsame := frameContext_rewrite (a := a) (c := c) ht hframe hagain.place
  have hframe' := (isTypeIn_congr (type?_mapChildren (f := rewriteChild a (contexts c t))) _).trans hframe
  have ht' : Derives .any s (rewrite a c t) := derives_rewrite ht
  rw [rewrite_frame ht.isObject hframe] at hsame ht' ⊢
  refine settled_frame ht'.isObject ?_ ?_
  · rw [isTypeIn_congr type?_withDeclarations]
    exact hframe'
  · rw [hsame]
    refine settled_withDeclarations (derives_rewritten ht _) hframe' rfl
      (settled_declarationsFor ha rfl rfl) fun q hq => ?_
    obtain ⟨p, hp, rfl⟩ := exists_child_of_rewritten ht hq
    rw [rewriteChild_some (contexts_frame_eq hframe _)]
    exact ih p hp _ _ nofun (.same rfl)

section

variable (ht : Derives .any s t) (htype : t.type? = some "ArrowFunctionExpression")

include ht htype

/-- An arrow function that is kept as it is. -/
theorem settled_shunned (hshunned : isShunned c t) : settled c (rewrite a c t) := by
  rw [rewrite_shunned htype hshunned]
  refine (settled_iff ht.isObject).mpr ⟨?_, fun p _ d hd => ?_⟩
  · rw [isUnsettled, hshunned, isAliased_of_type? htype (by decide), isAliased_of_type? htype (by decide)]
    simp
  · rw [contexts_arrow htype, hshunned, if_pos rfl] at hd
    cases hd

/-- An arrow function that stays one with its parts rewritten. The second lowering may find that it need not
look at the parts any more. -/
theorem settled_stays (hshunned : isShunned c t = false) (hstays : staysArrow t)
    (ih : ∀ p ∈ t.childNodes, SettlesIn a p.2) : settled c (rewrite a c t) := by
  have hkept := staysArrow_rewritten (a := a) ht htype hshunned hstays
  rw [rewrite_arrow htype hshunned, hstays, if_pos rfl] at hkept ⊢
  have htype' := (type?_mapChildren (f := rewriteChild a (contexts c t))).trans htype
  refine (settled_iff (isObject_mapChildren.trans ht.isObject)).mpr ⟨?_, fun q hq d hd => ?_⟩
  · rw [isUnsettled, hkept, isAliased_of_type? htype' (by decide), isAliased_of_type? htype' (by decide)]
    simp
  · obtain ⟨p, hp, rfl⟩ := exists_child_of_rewritten ht hq
    rw [contexts_arrow htype'] at hd
    split at hd
    · cases hd
    · cases hd
      rw [rewriteChild_some (contexts_arrow_of htype hshunned _), Context.at, placeOf_mapChildren (isNode_rewriteChild ht _)]
      exact ih p hp _ _ (atClassBody_child (c := c) ht hp rfl) (.same rfl)

/-- An arrow function that becomes a function: the second lowering meets its parts outside of arrow
functions. -/
theorem settled_lowered (hbody : AtClassBody c t) (hall : LowersAll c t)
    (ih : ∀ p ∈ t.childNodes, SettlesIn a p.2) : settled c' (rewrite a c t) := by
  obtain ⟨hshunned, hstays⟩ := hall.arrow ht htype
  have hstop : t.isTypeIn ordinaryFunctionTypes = false := by
    rw [isTypeIn_of_type? htype]
    decide
  rw [rewrite_arrow htype hshunned, hstays, if_neg Bool.false_ne_true]
  refine settled_asFunction (derives_rewritten ht _) (type?_mapChildren.trans htype) fun q hq => ?_
  obtain ⟨p, hp, rfl⟩ := exists_child_of_rewritten ht hq
  rw [rewriteChild_some (contexts_arrow_of htype hshunned _)]
  refine ih p hp _ _ (atClassBody_child (c := c) ht hp rfl) (.inFunction rfl ?_ ?_)
  · exact (placeOf_arrow ht htype hbody hp).symm
  · exact hall.child (d := { c.at t p.1 with inArrow := true }) ht.isObject hstop rfl hp

theorem settlesIn_arrow (hplain : t.headsArePlain) (ih : ∀ p ∈ t.childNodes, SettlesIn a p.2) :
    SettlesIn a t := by
  intro c c' hbody hagain
  cases hagain with
  | inFunction _ _ hall => exact settled_lowered ht htype hbody hall ih
  | same h =>
    subst h
    cases hshunned : isShunned c' t with
    | true => exact settled_shunned ht htype hshunned
    | false =>
      cases hstays : staysArrow t with
      | true => exact settled_stays ht htype hshunned hstays ih
      | false =>
        exact settled_lowered ht htype hbody (lowersAll_of_arrow ht htype hplain hshunned hstays) ih

end

/-- A node that is looked through. -/
theorem settlesIn_passed (ht : Derives .any s t) (hpassed : isPassed t)
    (hstop : t.isTypeIn ordinaryFunctionTypes = false) (ih : ∀ p ∈ t.childNodes, SettlesIn a p.2) :
    SettlesIn a t := by
  intro c c' _ hagain
  have hpassed' : isPassed (mapChildren (rewriteChild a (contexts c t)) t) := by
    rw [isPassed, isTypeIn_congr type?_mapChildren]
    exact hpassed
  rw [rewrite_passed ht.isObject hpassed]
  refine (settled_iff (isObject_mapChildren.trans ht.isObject)).mpr
    ⟨isUnsettled_of_isPassed hpassed', fun q hq d' hd' => ?_⟩
  obtain ⟨p, hp, rfl⟩ := exists_child_of_rewritten ht hq
  rw [contexts_mapChildren hpassed (isNode_rewriteChild ht _) hagain.place] at hd'
  obtain ⟨d, hd, rfl⟩ := Option.map_eq_some_iff.mp hd'
  have hat : d = c.at t p.1 := by
    rw [contexts_passed hpassed] at hd
    split at hd
    · split at hd <;> cases hd
      rfl
    · exact (Option.some.inj hd).symm
  rw [rewriteChild_some hd]
  refine ih p hp _ _ (atClassBody_child (c := c) ht hp (by rw [hat]; rfl)) ?_
  cases hagain with
  | same h =>
    subst h
    rw [hat]
    exact .same rfl
  | inFunction hin hplace hall =>
    exact .inFunction hin rfl (hall.child ht.isObject hstop (by rw [hat]; rfl) hp)

/-- **What the lowering makes of a tree is settled** in the context in which the second lowering meets it. -/
theorem settlesIn_of_derives (ha : a.AreFresh used) (ht : Derives .any s t) (hplain : t.headsArePlain) :
    SettlesIn a t := by
  refine ht.inductionOnChildren (motive := fun t => t.headsArePlain = true → SettlesIn a t) ?_ hplain
  intro s t ht ih hplain
  have ih := fun p hp => ih p hp (List.all_eq_true.mpr fun arrow h =>
    List.all_eq_true.mp hplain arrow (ht.mem_nodes_of_child hp h))
  rcases node_cases t with hframe | htype | ⟨w, htype⟩ | hpassed
  · exact settlesIn_frame ha ht hframe ih
  · exact settlesIn_arrow ht htype hplain ih
  · intro c c' _ hagain
    rw [rewrite_leaf htype]
    split
    · exact settled_alias (by cases w <;> [exact ha.forThis.2; exact ha.forArguments.2]) t
    · rename_i hin
      refine settled_leaf htype ?_
      cases hagain with
      | same h =>
        subst h
        simpa using hin
      | inFunction harrow _ _ => exact isAliased_of_inArrow harrow
  · refine settlesIn_passed ht hpassed ?_ ih
    have hframe := (isPassed_iff.mp hpassed).1
    rw [isTypeIn, List.any_eq_false] at hframe ⊢
    exact fun type hmem => hframe type (List.mem_cons_of_mem _ hmem)

/-- **Lowering arrow functions twice is lowering them once.** In a program in which no class in an arrow
function has `this` or `super` in its extends clause or a computed key, the second lowering finds nothing to
do: it declares no alias, lowers no arrow function that the first one kept, and replaces neither `this` nor
`arguments`. -/
theorem lower_idempotent {t : Tree} (hprogram : isProgram t = true) (hplain : t.headsArePlain = true) :
    ∃ out out', lower t = .ok out ∧ lower out.tree = .ok out' ∧ out'.tree = out.tree := by
  have ht : Derives .any .program t := fits_one_iff.mp hprogram
  obtain ⟨a, ds, ha, hfirst⟩ := lower_eq_rewrite ht
  have ht' : Derives .any .program (rewrite a {} t) := derives_rewrite ht
  obtain ⟨a', ds', -, hsecond⟩ := lower_eq_rewrite ht'
  have hsettled := settlesIn_of_derives ha ht hplain {} {} nofun (.same rfl)
  exact ⟨_, _, hfirst, hsecond, (rewrite_of_settled ht' hsettled).1⟩

/-- `function f() { () => () => this; }` is lowered; `class A extends B { constructor() { () => this; } }`
and `class A extends B { constructor() { super(); () => super.f(() => this); } }` keep an arrow function each,
the second one with an alias in it. -/
def keptArrows : Tree :=
  let arrow := fun body => make "ArrowFunctionExpression"
    [("params", .list []), ("body", body), ("expression", .bool true)]
  let derived := fun statements => make "ClassDeclaration"
    [("id", identifier "A"), ("superClass", identifier "B"),
     ("body", make "ClassBody" [("body", .list [make "MethodDefinition"
      [("key", identifier "constructor"), ("kind", .str "constructor"),
       ("value", functionExpression [] (block statements))]])])]
  let receiver := arrow thisExpression
  make "Program" [("body", .list
    [functionDeclaration "f" [] (block [expressionStatement (arrow receiver)]),
     derived [expressionStatement receiver],
     derived [expressionStatement (call (make "Super" [])),
       expressionStatement (arrow (call (dot (make "Super" []) "f") [receiver]))]])]

theorem lower_idempotent_keptArrows : isProgram keptArrows = true ∧ keptArrows.headsArePlain = true ∧
    ∃ out out', lower keptArrows = .ok out ∧ lower out.tree = .ok out' ∧ out'.tree = out.tree := by
  have hprogram : isProgram keptArrows = true := by decide
  have hplain : keptArrows.headsArePlain = true := by decide
  exact ⟨hprogram, hplain, lower_idempotent hprogram hplain⟩

end

end Arrow
end Lower
end Downlevel
