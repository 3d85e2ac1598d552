import Downlevel.Proofs.Arrow.Rewrite
import Downlevel.Proofs.Grammar.Mentions

/-!
# `Proofs.Arrow.Mentions`: what arrow functions mention

Whether an arrow function is lowered depends on what it mentions: `this`, `super` and `new.target` outside
ordinary functions, the first two also outside classes. The extends clause and the computed keys of a class
are evaluated where the class stands; where they mention neither `this` nor `super`, it makes no difference
whether classes are looked into. An arrow function that stays because of what it mentions still mentions it
once it is rewritten.
-/

namespace Downlevel

namespace Tree

/-- The nodes that the evaluation of a class meets where it stands: those of its extends clause and of its
computed keys. -/
def headNodes (t : Tree) : List Tree :=
  (t.get "superClass").nodes ++
    (((t.get "body").children "body").filter fun m => (m.get "computed").isSet).flatMap
      (·.get "key" |>.nodes)

/-- Does no class in an arrow function have `this` or `super` in its extends clause or a computed key? -/
def headsArePlain (t : Tree) : Bool :=
  t.nodes.all fun arrow => !arrow.isType "ArrowFunctionExpression" ||
    arrow.nodes.all fun c => !c.isTypeIn classTypes ||
      c.headNodes.all (!·.isTypeIn ["ThisExpression", "Super"])

end Tree

namespace Grammar

open Tree

variable {labels : Labelling} {s : Symbol} {t : Tree} {stopAt : List String} {kind : Tree → Bool}

/-! ## Classes -/

variable (hkind : ∀ n, kind n → n.isTypeIn ["ThisExpression", "Super"])

include hkind in
theorem kind_eq_false {type : String} (htype : t.type? = some type)
    (h : type ∉ ["ThisExpression", "Super"]) : kind t = false := by
  cases hk : kind t with
  | false => rfl
  | true =>
    have hmem := hkind t hk
    rw [isTypeIn_of_type? htype, decide_eq_true_iff] at hmem
    exact absurd hmem h

include hkind in
/-- A member of a class mentions nothing but what its computed key does. -/
theorem mentions_member (ht : Derives labels .method t)
    (hkey : (t.get "computed").isSet → ∀ n ∈ (t.get "key").nodes, kind n = false) :
    mentions ordinaryFunctionTypes kind t = false := by
  have htype : t.type? = some "MethodDefinition" := ht.type_eq rfl
  refine mentions_eq_false ht.isObject (kind_eq_false hkind htype (by decide)) fun p hp => ?_
  obtain ⟨slot, x, hslot, hx, hd⟩ := ht.child_rule htype hp
  have hrules : rulesFor "MethodDefinition" =
      [("key", keySlot), ("value", .one .function), ("kind", .text)] := rfl
  rw [hrules] at hslot
  simp only [List.mem_cons, List.not_mem_nil, or_false, Prod.mk.injEq] at hslot
  rcases hslot with ⟨hk, rfl⟩ | ⟨hk, rfl⟩ | ⟨hk, rfl⟩
  · rw [keySlot, Slot.resolve, Trait.holds] at hx
    cases hcomputed : (t.get "computed").isSet with
    | true =>
      rw [hcomputed, if_pos rfl] at hx
      cases hx
      have hfits := ht.part htype (k := "key") rfl
      rw [keySlot, Slot.resolve, Trait.holds, hcomputed, if_pos rfl] at hfits
      have hself := ht.child_eq_get hp (by rw [hk]; exact (fits_one_iff.mp hfits).isList)
      refine hd.mentions_of_nodes ?_
      rw [hself, hk]
      exact hkey hcomputed
    | false =>
      rw [hcomputed, if_neg Bool.false_ne_true] at hx
      cases hx
      obtain ⟨type, hmem, htype'⟩ := hd.type
      have hnot : type ∉ ["ThisExpression", "Super"] := by
        rw [Symbol.types, List.mem_cons, List.mem_singleton] at hmem
        rcases hmem with rfl | rfl <;> decide
      rw [hd.mentions_name htype' hmem, kind_eq_false hkind htype' hnot]
  · cases hx
    have htype' : p.2.type? = some "FunctionExpression" := hd.type_eq rfl
    rw [mentions_eq hd.isObject, kind_eq_false hkind htype' (by decide), isTypeIn_of_type? htype']
    simp [ordinaryFunctionTypes]
  · cases hx

include hkind in
/-- A class mentions nothing but what its extends clause and its computed keys do. -/
theorem mentions_class (ht : Derives labels s t) (hclass : t.isTypeIn classTypes)
    (hheads : ∀ n ∈ t.headNodes, kind n = false) : mentions ordinaryFunctionTypes kind t = false := by
  obtain ⟨type, hmem, htype⟩ := isTypeIn_iff.mp hclass
  obtain ⟨name, hrules, hname, hnot⟩ : ∃ name, rulesFor type =
      [("id", name), ("superClass", .optional .expression), ("body", .one .classBody)] ∧
      (name = nameSlot ∨ name = .optional .identifier) ∧ type ∉ ["ThisExpression", "Super"] := by
    rcases List.mem_pair.mp hmem with rfl | rfl
    · exact ⟨_, rfl, .inl rfl, by decide⟩
    · exact ⟨_, rfl, .inr rfl, by decide⟩
  have hparts := ht.parts
  rw [rulesOf_of_type? htype, hrules] at hparts
  rw [headNodes, List.forall_mem_append] at hheads
  refine mentions_eq_false ht.isObject (kind_eq_false hkind htype hnot) fun p hp => ?_
  obtain ⟨slot, x, hslot, hx, hd⟩ := ht.child_rule htype hp
  rw [hrules] at hslot
  simp only [List.mem_cons, List.not_mem_nil, or_false, Prod.mk.injEq] at hslot
  rcases hslot with ⟨hk, rfl⟩ | ⟨hk, rfl⟩ | ⟨hk, rfl⟩
  · have hidentifier : x = .identifier := by
      rcases hname with rfl | rfl
      · rw [nameSlot, Slot.resolve] at hx
        split at hx <;> cases hx <;> rfl
      · cases hx
        rfl
    subst hidentifier
    have htype' : p.2.type? = some "Identifier" := hd.type_eq rfl
    rw [hd.mentions_name htype' (by decide), kind_eq_false hkind htype' (by decide)]
  · have hself : p.2 = t.get p.1 := by
      refine ht.child_eq_get hp ?_
      rw [hk]
      rcases fits_optional_iff.mp (hparts ("superClass", .optional .expression) (by simp)) with h | h
      · rw [h]
        rfl
      · exact h.isList
    refine hd.mentions_of_nodes ?_
    rw [hself, hk]
    exact hheads.1
  · cases hx
    have hbody := fits_one_iff.mp (hparts ("body", .one .classBody) (by simp))
    have hself := ht.child_eq_get hp (by rw [hk]; exact hbody.isList)
    rw [hk] at hself
    rw [← hself] at hheads
    have htype' : p.2.type? = some "ClassBody" := hd.type_eq rfl
    refine mentions_eq_false hd.isObject (kind_eq_false hkind htype' (by decide)) fun q hq => ?_
    obtain ⟨slot, x, hslot, hx, hd'⟩ := hd.child_rule htype' hq
    obtain ⟨hk', rfl⟩ := Prod.mk.inj (List.mem_singleton.mp hslot)
    cases hx
    have hmembers := hd.many htype' (k := "body") rfl
    have hmem := hd.child_mem_children hq (by rw [hk']; exact hmembers.1)
    rw [hk'] at hmem
    refine mentions_member hkind hd' fun hcomputed n hn => hheads.2 n ?_
    exact List.mem_flatMap.mpr ⟨q.2, List.mem_filter.mpr ⟨hmem, hcomputed⟩, hn⟩

include hkind in
/-- Where the heads of classes are plain, classes need not be looked into. -/
theorem mentions_of_plain (ht : Derives labels s t)
    (hplain : ∀ c ∈ t.nodes, c.isTypeIn classTypes → ∀ n ∈ c.headNodes, kind n = false)
    (h : mentions ordinaryFunctionTypes kind t) :
    mentions (ordinaryFunctionTypes ++ classTypes) kind t := by
  refine ht.inductionOnChildren (motive := fun t =>
    (∀ c ∈ t.nodes, c.isTypeIn classTypes → ∀ n ∈ c.headNodes, kind n = false) →
    mentions ordinaryFunctionTypes kind t →
    mentions (ordinaryFunctionTypes ++ classTypes) kind t) ?_ hplain h
  intro s t ht ih hplain h
  cases hclass : t.isTypeIn classTypes with
  | true =>
    rw [mentions_class hkind ht hclass (hplain t ht.self_mem_nodes hclass)] at h
    cases h
  | false =>
    rw [mentions_iff ht.isObject] at h ⊢
    refine h.imp id fun ⟨hstop, p, hp, h⟩ => ⟨?_, p, hp, ih p hp ?_ h⟩
    · rw [isTypeIn, List.any_append, ← isTypeIn, ← isTypeIn, hstop, hclass]
      rfl
    · exact fun c hc => hplain c (ht.mem_nodes_of_child hp hc)

end Grammar

namespace Lower
namespace Arrow

open Tree Node Grammar

/-! ## Mentions that stay -/

section

variable {s : Symbol} {t : Tree} {stopAt : List String} {kind : Tree → Bool} {a : AliasNames} {c : Context}

/-- What a child mentions once it is changed the changed node mentions. -/
theorem mentions_mapChildren {f : String → Tree → Tree} (ht : t.isObject)
    (hnode : ∀ p ∈ t.childNodes, (f p.1 p.2).isNode) (hstop : t.isTypeIn stopAt = false)
    {p : String × Tree} (hp : p ∈ t.childNodes) (h : mentions stopAt kind (f p.1 p.2)) :
    mentions stopAt kind (mapChildren f t) := by
  rw [mentions_iff (isObject_mapChildren.trans ht), isTypeIn_congr type?_mapChildren,
    childNodes_mapChildren hnode]
  exact .inr ⟨hstop, _, List.mem_map_of_mem hp, h⟩

theorem isNode_rewriteChild (ht : Derives .any s t) (inside : String → Option Context)
    (p : String × Tree) (hp : p ∈ t.childNodes) : (rewriteChild a inside p.1 p.2).isNode := by
  obtain ⟨-, x, -, -, hd⟩ := ht.child hp
  exact (derives_rewriteChild hd fun _ _ hd => derives_rewrite hd).isNode

/-- A mention stays if it keeps the arrow functions around it arrow functions. -/
theorem mentions_rewrite (hfunctions : ∀ type ∈ ordinaryFunctionTypes, type ∈ stopAt)
    (hkind : ∀ {s t} c, Derives .any s t → kind t →
      isPassed t ∧ kind (mapChildren (rewriteChild a (contexts c t)) t))
    (hstays : ∀ {s t}, Derives .any s t → t.type? = some "ArrowFunctionExpression" →
      mentions stopAt kind t → staysArrow t)
    (ht : Derives .any s t) (hprogram : t.isType "Program" = false)
    (h : mentions stopAt kind t) : mentions stopAt kind (rewrite a c t) := by
  refine ht.inductionOnChildren (motive := fun t => ∀ c, t.isType "Program" = false →
    mentions stopAt kind t → mentions stopAt kind (rewrite a c t)) ?_ c hprogram h
  intro s t ht ih c hprogram h
  have hmentions := h
  rw [mentions_iff ht.isObject] at h
  rcases h with h | ⟨hstop, p, hp, h⟩
  · obtain ⟨hpassed, hkept⟩ := hkind c ht h
    rw [rewrite_passed ht.isObject hpassed, mentions_eq (isObject_mapChildren.trans ht.isObject), hkept,
      Bool.true_or]
  · -- The child still mentions it, and the node itself is only rewritten inside.
    have hinside : mentions stopAt kind (mapChildren (rewriteChild a (contexts c t)) t) := by
      refine mentions_mapChildren ht.isObject (isNode_rewriteChild ht _) hstop hp ?_
      cases hc : contexts c t p.1 with
      | none => rwa [rewriteChild_none hc]
      | some c' =>
        rw [rewriteChild_some hc]
        exact ih p hp c' (ht.child_ne_program hp) h
    rcases node_cases t with hframe | htype | ⟨w, htype⟩ | hpassed
    · -- A frame is the program, or it is not looked into.
      obtain ⟨type, hmem, htype⟩ := isTypeIn_iff.mp hframe
      rcases List.mem_cons.mp hmem with rfl | hmem
      · cases hprogram.symm.trans (isType_iff.mpr htype)
      · cases hstop.symm.trans (isTypeIn_of_mem htype (hfunctions type hmem))
    · cases hshunned : isShunned c t with
      | true => rwa [rewrite_shunned htype hshunned]
      | false => rwa [rewrite_arrow htype hshunned, hstays ht htype hmentions, if_pos rfl]
    · have hleaf : t.childNodes = [] := by
        cases w with
        | receiver => exact ht.childNodes_eq_nil htype (List.forall_mem_nil _)
        | arguments => exact ht.childNodes_eq_nil htype (List.forall_mem_singleton.mpr rfl)
      rw [hleaf] at hp
      cases hp
    · rwa [rewrite_passed ht.isObject hpassed]

end

section

variable {s : Symbol} {t : Tree} {a : AliasNames} {c : Context}

theorem usesThis_eq (ht : Derives .any s t) (htype : t.type? = some "ArrowFunctionExpression") :
    t.usesThis = mentions (ordinaryFunctionTypes ++ classTypes) (·.isType "ThisExpression") t :=
  ht.any_nodes (by rw [isTypeIn_of_type? htype]; decide)

theorem usesSuper_eq (ht : Derives .any s t) (htype : t.type? = some "ArrowFunctionExpression") :
    t.usesSuper = mentions (ordinaryFunctionTypes ++ classTypes) (·.isType "Super") t :=
  ht.any_nodes (by rw [isTypeIn_of_type? htype]; decide)

/-- `new.target`. -/
def isNewTarget (t : Tree) : Bool := t.isType "MetaProperty" && ((t.get "meta").get "name").isStr "new"

theorem usesNewTarget_eq (ht : Derives .any s t) (htype : t.type? = some "ArrowFunctionExpression") :
    t.usesNewTarget = mentions ordinaryFunctionTypes isNewTarget t :=
  ht.any_nodes (by rw [isTypeIn_of_type? htype]; decide)

/-- `new.target` is not changed. -/
theorem isNewTarget_mapChildren (ht : Derives .any s t) (h : isNewTarget t) :
    isNewTarget (mapChildren (rewriteChild a (contexts c t)) t) := by
  rw [isNewTarget, Bool.and_eq_true] at h
  have htype := isType_iff.mp h.1
  have hmeta : Derives .any .identifier (t.get "meta") := ht.one htype rfl
  have hsame : rewriteChild a (contexts c t) "meta" (t.get "meta") = t.get "meta" := by
    cases hc : contexts c t "meta" with
    | none => rw [rewriteChild_none hc]
    | some c' =>
      have hname : ((t.get "meta").get "name").isStr "arguments" = false := by
        cases hv : (t.get "meta").get "name" with
        | str name =>
          have hnew := h.2
          rw [hv, isStr, decide_eq_true_iff] at hnew
          subst hnew
          rfl
        | _ => rfl
      rw [rewriteChild_some hc, rewrite_leaf (w := .arguments) (hmeta.type_eq rfl), isAliased, hname,
        Bool.false_and, Bool.false_and, Bool.and_false, if_neg Bool.false_ne_true]
  rw [isNewTarget, isType_congr type?_mapChildren, h.1, get_mapChildren (by decide),
    mapNodes_of_isNode hmeta.isNode, hsame, h.2]
  rfl

/-- **What stays an arrow function stays one** once its parts are rewritten. -/
theorem staysArrow_rewritten (ht : Derives .any s t)
    (htype : t.type? = some "ArrowFunctionExpression") (hshunned : isShunned c t = false)
    (h : staysArrow t) : staysArrow (rewrite a c t) := by
  have hprogram : t.isType "Program" = false := by
    rw [isType_of_type? htype]
    decide
  have ht' : Derives .any s (rewrite a c t) := derives_rewrite ht
  have htype' : (rewrite a c t).type? = some "ArrowFunctionExpression" := by
    rw [rewrite_arrow htype hshunned, h, if_pos rfl, type?_mapChildren, htype]
  rw [staysArrow, usesSuper_eq ht htype, usesNewTarget_eq ht htype, Bool.or_eq_true] at h
  rw [staysArrow, usesSuper_eq ht' htype', usesNewTarget_eq ht' htype', Bool.or_eq_true]
  refine h.imp (mentions_rewrite (by decide) ?_ ?_ ht hprogram)
    (mentions_rewrite (fun _ => id) ?_ ?_ ht hprogram)
  · intro s t c _ hsuper
    exact ⟨isPassed_of_type? (isType_iff.mp hsuper) (by decide), by rwa [isType_congr type?_mapChildren]⟩
  · intro s t ht htype h
    rw [staysArrow, usesSuper_eq ht htype, h, Bool.true_or]
  · intro s t c ht htarget
    refine ⟨?_, isNewTarget_mapChildren ht htarget⟩
    rw [isNewTarget, Bool.and_eq_true] at htarget
    exact isPassed_of_type? (isType_iff.mp htarget.1) (by decide)
  · intro s t ht htype h
    rw [staysArrow, usesNewTarget_eq ht htype, h, Bool.or_true]

end

end Arrow
end Lower
end Downlevel
