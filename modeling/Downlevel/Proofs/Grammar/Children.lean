import Downlevel.Proofs.Grammar.Regular

/-!
# `Proofs.Grammar.Children`: nodes right below a node

The nodes of a derived tree are its root and the nodes of its children. A child stands in a field that holds
syntax, alone or in a list, and the grammar derives it from what the field may hold. What is shown of a node
from what holds of its children holds of every derived tree.
-/

namespace Downlevel

namespace Tree

/-- The nodes among a value and its items. -/
def nodesIn (v : Tree) : List Tree := (v :: v.items).filter (·.isNode)

/-- The nodes right below a node, with the keys of their fields. -/
def childNodes (t : Tree) : List (String × Tree) :=
  (t.fields.filter (isSyntaxKey ·.1)).flatMap fun f => (nodesIn f.2).map fun y => (f.1, y)

theorem mem_nodesIn {v y : Tree} : y ∈ nodesIn v ↔ (y = v ∨ y ∈ v.items) ∧ y.isNode := by
  rw [nodesIn, List.mem_filter, List.mem_cons]

theorem mem_childNodes {t : Tree} {p : String × Tree} :
    p ∈ t.childNodes ↔ ∃ v, (p.1, v) ∈ t.fields ∧ isSyntaxKey p.1 ∧ p.2 ∈ nodesIn v := by
  obtain ⟨k, y⟩ := p
  rw [childNodes, List.mem_flatMap]
  constructor
  · rintro ⟨f, hf, hy⟩
    obtain ⟨y', hy', heq⟩ := List.mem_map.mp hy
    cases heq
    rw [List.mem_filter] at hf
    exact ⟨f.2, hf.1, hf.2, hy'⟩
  · rintro ⟨v, hv, hk, hy⟩
    exact ⟨(k, v), List.mem_filter.mpr ⟨hv, hk⟩, List.mem_map_of_mem hy⟩

/-- The nodes in a field that holds syntax are children. -/
theorem mem_childNodes_get {t y : Tree} {key : String} (hk : isSyntaxKey key)
    (hy : y ∈ nodesIn (t.get key)) : (key, y) ∈ t.childNodes := by
  rw [get] at hy
  cases hget : t.get? key with
  | none =>
    rw [hget] at hy
    cases hy
  | some v =>
    rw [hget] at hy
    exact mem_childNodes.mpr ⟨v, mem_of_lookup_eq_some hget, hk, hy⟩

/-- What is not visited has no nodes. -/
theorem partNodes_of_not_visited {stopAt : List String} {t : Tree} (h : Node.isVisited t = false) :
    partNodes stopAt t = [] := by
  rw [Node.isVisited, Bool.or_eq_false_iff] at h
  cases t with
  | obj m fs => rw [partNodes_obj, h.1, Bool.not_false, if_pos rfl]
  | list xs => cases h.2
  | _ => rfl

theorem partNodes_eq_nodesIn {stopAt : List String} {v : Tree} (hflat : ∀ y ∈ v.items, y.isList = false) :
    partNodes stopAt v = (nodesIn v).flatMap (partNodes stopAt) := by
  cases v with
  | list xs =>
    have hself : (Tree.list xs).isNode = false := rfl
    rw [partNodes_list, nodesIn, List.filter_cons, hself, if_neg Bool.false_ne_true]
    have hitems : ∀ ys : List Tree, (∀ y ∈ ys, y.isList = false) →
        ys.flatMap (partNodes stopAt) = (ys.filter (·.isNode)).flatMap (partNodes stopAt) := by
      intro ys hys
      induction ys with
      | nil => rfl
      | cons y ys ih =>
        rw [List.forall_mem_cons] at hys
        rw [List.flatMap_cons, ih hys.2, List.filter_cons]
        cases hnode : y.isNode with
        | true => rw [if_pos rfl, List.flatMap_cons]
        | false =>
          have hskipped : Node.isVisited y = false := by
            rw [Node.isVisited, hnode, hys.1, Bool.or_false]
          rw [partNodes_of_not_visited hskipped, if_neg Bool.false_ne_true, List.nil_append]
    exact hitems xs hflat
  | obj m fs =>
    have hitems : (Tree.obj m fs).items = [] := rfl
    rw [nodesIn, hitems, List.filter_singleton]
    cases hnode : (Tree.obj m fs).isNode with
    | true => simp
    | false =>
      rw [partNodes_of_not_visited (by rw [Node.isVisited, hnode]; rfl)]
      rfl
  | _ => rfl

end Tree

namespace Grammar

open Tree Node

variable {labels : Labelling} {s : Symbol} {t : Tree}

section

variable (ht : Derives labels s t)

include ht

/-- The nodes in a field of a derived node are derived. -/
theorem derives_of_mem {k : String} {v y : Tree} (hf : (k, v) ∈ t.fields) (hk : isSyntaxKey k)
    (hy : y = v ∨ y ∈ v.items) (hnode : y.isNode) :
    ∃ slot x, slot? s t k = some slot ∧ slot.content? = some x ∧ Derives labels x y := by
  have hvisited : isVisited v := by
    rcases hy with rfl | hy
    · rw [isVisited, hnode, Bool.true_or]
    · cases v with
      | list xs => rfl
      | _ => cases hy
  have hfits := ht.fields _ hf
  cases hslot : slot? s t k with
  | none =>
    rw [hslot] at hfits
    rw [isVisited_of_isPlain (isPlaceKey_of_isSyntaxKey hk) (by simp) hfits] at hvisited
    cases hvisited
  | some slot =>
    rw [hslot] at hfits
    obtain ⟨x, hx⟩ := Option.isSome_iff_exists.mp (isNode_of_isVisited hfits hvisited).1
    exact ⟨slot, x, rfl, hx, derives_of_isNode hx hfits hy hnode⟩

/-- Children are derived. -/
theorem Derives.child {p : String × Tree} (hp : p ∈ t.childNodes) :
    ∃ slot x, slot? s t p.1 = some slot ∧ slot.content? = some x ∧ Derives labels x p.2 := by
  obtain ⟨v, hv, hk, hy⟩ := mem_childNodes.mp hp
  obtain ⟨hy, hnode⟩ := mem_nodesIn.mp hy
  exact derives_of_mem ht hv hk hy hnode

/-- A child stands in a field of the rules for its parent. -/
theorem Derives.child_rule {type : String} (htype : t.type? = some type) {p : String × Tree}
    (hp : p ∈ t.childNodes) : ∃ slot x, (p.1, slot) ∈ rulesFor type ∧
      (slot.resolve s t).content? = some x ∧ Derives labels x p.2 := by
  obtain ⟨slot, x, hslot, hx, hd⟩ := ht.child hp
  rw [slot?, rulesOf, htype, Option.map_some, Option.getD_some] at hslot
  obtain ⟨rule, hrule, rfl⟩ := Option.map_eq_some_iff.mp hslot
  exact ⟨rule, x, mem_of_lookup hrule, hx, hd⟩

/-- A child is the value of its field, or one of its items. -/
theorem Derives.mem_nodesIn_get {p : String × Tree} (hp : p ∈ t.childNodes) : p.2 ∈ nodesIn (t.get p.1) := by
  obtain ⟨v, hv, -, hy⟩ := mem_childNodes.mp hp
  rwa [ht.get_of_mem hv]

/-- Nodes without parts that hold syntax have no children. -/
theorem Derives.childNodes_eq_nil {type : String} (htype : t.type? = some type)
    (hrules : ∀ rule ∈ rulesFor type, (rule.2.resolve s t).content? = none) : t.childNodes = [] := by
  refine List.eq_nil_iff_forall_not_mem.mpr fun p hp => ?_
  obtain ⟨slot, x, hslot, hx, -⟩ := ht.child_rule htype hp
  rw [hrules _ hslot] at hx
  cases hx

end

/-- No list stands in a list. -/
theorem isList_of_mem_items {slot : Slot} {v y : Tree} (h : fits labels slot v)
    (hy : y ∈ v.items) : y.isList = false := by
  cases v with
  | list xs =>
    obtain ⟨x, hx⟩ := Option.isSome_iff_exists.mp (isNode_of_isVisited h rfl).1
    rcases fits_content_cases hx h with heq | hd | ⟨ys, heq, hys⟩
    · cases heq
    · cases hd.isObject
    · cases heq
      rcases hys y hy with rfl | hd
      · rfl
      · exact hd.isList
  | _ => cases hy

theorem Derives.isList_of_mem_items (ht : Derives labels s t) {f : String × Tree} (hf : f ∈ t.fields)
    (hk : isSyntaxKey f.1) : ∀ y ∈ f.2.items, y.isList = false := by
  intro y hy
  have hfits := ht.fields f hf
  cases hslot : slot? s t f.1 with
  | none =>
    rw [hslot] at hfits
    have hskipped := isVisited_of_isPlain (isPlaceKey_of_isSyntaxKey hk) (by simp) hfits
    cases hv : f.2 with
    | list xs =>
      rw [hv] at hskipped
      cases hskipped
    | _ =>
      rw [hv] at hy
      cases hy
  | some slot =>
    rw [hslot] at hfits
    exact Grammar.isList_of_mem_items hfits hy

/-- The nodes of a tree, by its children, where some types are to stop at. -/
theorem Derives.nodes_eq_of_stopAt (ht : Derives labels s t) (stopAt : List String) :
    t.nodes stopAt = t :: t.childNodes.flatMap (partNodes stopAt ·.2) := by
  cases t with
  | obj m fs =>
    rw [nodes_obj ht.isNode, childNodes, List.flatMap_assoc]
    congr 1
    refine List.flatMap_congr fun f hf => ?_
    rw [List.mem_filter] at hf
    rw [partNodes_eq_nodesIn (ht.isList_of_mem_items hf.1 hf.2), List.flatMap_map]
  | _ => cases ht.isObject

/-- **The nodes of a tree** are its root and the nodes of its children. -/
theorem Derives.nodes_eq (ht : Derives labels s t) : t.nodes = t :: t.childNodes.flatMap (·.2.nodes) := by
  rw [ht.nodes_eq_of_stopAt []]
  simp only [partNodes_nil]

/-- The nodes of a part: itself alone, if it is of a type to stop at. -/
theorem Derives.partNodes_eq (ht : Derives labels s t) (stopAt : List String) :
    partNodes stopAt t = if t.isTypeIn stopAt then [t] else t.nodes stopAt := by
  cases t with
  | obj m fs =>
    rw [partNodes_obj, ht.isNode, if_neg (by simp), nodes_obj ht.isNode]
  | _ => cases ht.isObject

/-- **What holds of a node if it holds of its children holds of every derived tree.** -/
theorem Derives.inductionOnChildren {motive : Tree → Prop}
    (step : ∀ {s t}, Derives labels s t → (∀ p ∈ t.childNodes, motive p.2) → motive t)
    (ht : Derives labels s t) : motive t := by
  -- A value in a field is a node, or it is a list of them: the induction is on both.
  have hall : ∀ v : Tree, ∀ y, (y = v ∨ y ∈ v.items) → ∀ s, Derives labels s y → motive y := by
    intro v
    induction v using inductionOnParts with
    | scalar v hv =>
      rintro y (rfl | hy) s hd
      · cases y with
        | obj m fs => cases hv
        | _ => cases hd.isObject
      · cases v with
        | list xs => cases hv
        | _ => cases hy
    | list xs ih =>
      rintro y (rfl | hy) s hd
      · cases hd.isObject
      · exact ih y hy y (.inl rfl) s hd
    | obj m fs ih =>
      rintro y (rfl | hy) s hd
      · refine step hd fun p hp => ?_
        obtain ⟨-, x, -, -, hx⟩ := hd.child hp
        obtain ⟨v, hv, -, hy⟩ := mem_childNodes.mp hp
        exact ih _ hv p.2 (mem_nodesIn.mp hy).1 x hx
      · cases hy
  exact hall t t (.inl rfl) s ht

/-- A law that children inherit holds of all nodes. -/
theorem Derives.forall_nodes (law : Tree → Prop) (ht : Derives labels s t)
    (step : ∀ {s t}, Derives labels s t → law t → ∀ p ∈ t.childNodes, law p.2) (hlaw : law t) :
    ∀ n ∈ t.nodes, law n := by
  refine ht.inductionOnChildren (motive := fun t => law t → ∀ n ∈ t.nodes, law n) ?_ hlaw
  intro s t ht ih hlaw n hn
  rw [ht.nodes_eq, List.mem_cons, List.mem_flatMap] at hn
  rcases hn with rfl | ⟨p, hp, hn⟩
  · exact hlaw
  · exact ih p hp (step ht hlaw p hp) n hn

end Grammar
end Downlevel
