import Downlevel.Proofs.Grammar.Remake

/-!
# `Proofs.Grammar.Mentions`: what a tree mentions

A tree mentions a node of some kind if there is one in it, the insides of some types apart. What a derived
tree mentions is what its children do, and so it is with the list of its nodes.
-/

namespace Downlevel

open Node

namespace Tree

/-- Is there a node of a kind in a tree, where the insides of some types are not looked at? -/
def mentions (stopAt : List String) (kind : Tree → Bool) : Tree → Bool :=
  meets (fun _ t _ => if t.isTypeIn stopAt then none else some ()) (fun _ => kind) ()

theorem mentions_eq {stopAt : List String} {kind : Tree → Bool} {t : Tree} (h : t.isObject) :
    mentions stopAt kind t =
      (kind t || (!t.isTypeIn stopAt && t.childNodes.any (mentions stopAt kind ·.2))) := by
  rw [mentions, meets_eq h]
  congr 1
  cases hstop : t.isTypeIn stopAt with
  | true =>
    rw [Bool.not_true, Bool.false_and, List.any_eq_false]
    intro p _
    simp [meetsChild]
  | false =>
    rw [Bool.not_false, Bool.true_and]
    simp only [Bool.false_eq_true, if_false]
    rfl

section

variable {stopAt : List String} {kind : Tree → Bool} {t : Tree}

theorem mentions_iff (h : t.isObject) : mentions stopAt kind t ↔
    kind t ∨ t.isTypeIn stopAt = false ∧ ∃ p ∈ t.childNodes, mentions stopAt kind p.2 := by
  rw [mentions_eq h, Bool.or_eq_true, Bool.and_eq_true, List.any_eq_true, Bool.not_eq_true']

theorem mentions_eq_false (h : t.isObject) (hkind : kind t = false)
    (hchildren : ∀ p ∈ t.childNodes, mentions stopAt kind p.2 = false) : mentions stopAt kind t = false := by
  rw [mentions_eq h, hkind, Bool.false_or, Bool.and_eq_false_iff, List.any_eq_false]
  exact .inr fun p hp => Bool.not_eq_true _ ▸ hchildren p hp

theorem mentions_list {xs : List Tree} (h : ∀ x ∈ xs, mentions stopAt kind x = false) :
    mentions stopAt kind (.list xs) = false := by
  rw [mentions, meets, meetsItems_eq, nodesIn_list, List.any_eq_false]
  intro x hx
  exact Bool.not_eq_true _ ▸ h x (List.mem_filter.mp hx).1

/-- The nodes in a value mention what it mentions. -/
theorem mentions_of_mem_nodesIn {v y : Tree} (h : mentions stopAt kind v = false) (hy : y ∈ nodesIn v) :
    mentions stopAt kind y = false := by
  have hvisited : isVisited v := by
    by_contra hnot
    rw [nodesIn_of_not_visited (by simpa using hnot)] at hy
    cases hy
  rw [mentions, meets_of_isVisited hvisited, List.any_eq_false] at h
  exact Bool.not_eq_true _ ▸ h y hy

/-- A new node mentions what its fields do. -/
theorem mentions_make {type : String} {fs : Fields} {place : Tree}
    (hkind : kind (located (make type fs) place) = false)
    (h : ∀ f ∈ fs, mentions stopAt kind f.2 = false) :
    mentions stopAt kind (located (make type fs) place) = false := by
  have hobject : (located (make type fs) place).isObject := by
    unfold located
    split <;> split <;> rfl
  refine mentions_eq_false hobject hkind fun p hp => ?_
  obtain ⟨v, hv, hy⟩ := mem_childNodes_make hp
  exact mentions_of_mem_nodesIn (h _ hv) hy

end

end Tree

namespace Grammar

open Tree

variable {labels : Labelling} {s : Symbol} {t : Tree} {stopAt : List String} {kind : Tree → Bool}

section

variable (ht : Derives labels s t)

include ht

theorem Derives.any_partNodes : (partNodes stopAt t).any kind = mentions stopAt kind t := by
  refine ht.inductionOnChildren
    (motive := fun t => (partNodes stopAt t).any kind = mentions stopAt kind t) ?_
  intro s t ht ih
  rw [ht.partNodes_eq, mentions_eq ht.isObject]
  cases hstop : t.isTypeIn stopAt with
  | true => simp
  | false =>
    rw [if_neg Bool.false_ne_true, ht.nodes_eq_of_stopAt, List.any_cons, List.any_flatMap,
      Bool.not_false, Bool.true_and]
    congr 1
    rw [Bool.eq_iff_iff, List.any_eq_true, List.any_eq_true]
    exact exists_congr fun p => and_congr_right fun hp => by rw [ih p hp]

/-- What the nodes of a tree are is what it mentions. -/
theorem Derives.any_nodes (h : t.isTypeIn stopAt = false) :
    (t.nodes stopAt).any kind = mentions stopAt kind t := by
  rw [← ht.any_partNodes, ht.partNodes_eq, h, if_neg Bool.false_ne_true]

/-- What is mentioned is one of the nodes. -/
theorem Derives.exists_of_mentions (h : mentions stopAt kind t) : ∃ n ∈ t.nodes, kind n := by
  refine ht.inductionOnChildren
    (motive := fun t => mentions stopAt kind t = true → ∃ n ∈ t.nodes, kind n) ?_ h
  intro s t ht ih h
  rw [ht.nodes_eq]
  rw [mentions_iff ht.isObject] at h
  rcases h with h | ⟨-, p, hp, h⟩
  · exact ⟨t, List.mem_cons_self, h⟩
  · obtain ⟨n, hn, hkind⟩ := ih p hp h
    exact ⟨n, List.mem_cons_of_mem _ (List.mem_flatMap.mpr ⟨p, hp, hn⟩), hkind⟩

theorem Derives.mentions_of_nodes (h : ∀ n ∈ t.nodes, kind n = false) : mentions stopAt kind t = false := by
  by_contra hnot
  obtain ⟨n, hn, hkind⟩ := ht.exists_of_mentions (Bool.not_eq_false _ ▸ hnot)
  cases (h n hn).symm.trans hkind

/-- The nodes of a child are nodes. -/
theorem Derives.mem_nodes_of_child {p : String × Tree} (hp : p ∈ t.childNodes) {n : Tree} (hn : n ∈ p.2.nodes) :
    n ∈ t.nodes := by
  rw [ht.nodes_eq]
  exact List.mem_cons_of_mem _ (List.mem_flatMap.mpr ⟨p, hp, hn⟩)

theorem Derives.self_mem_nodes : t ∈ t.nodes := by
  rw [ht.nodes_eq]
  exact List.mem_cons_self

/-- A child that does not stand in a list is the value of its field. -/
theorem Derives.child_eq_get {p : String × Tree} (hp : p ∈ t.childNodes) (h : (t.get p.1).isList = false) :
    p.2 = t.get p.1 := by
  rcases (mem_nodesIn.mp (ht.mem_nodesIn_get hp)).1 with heq | hmem
  · exact heq
  · cases hv : t.get p.1 with
    | list xs =>
      rw [hv] at h
      cases h
    | _ =>
      rw [hv] at hmem
      cases hmem

/-- A child that stands in a list is one of its items. -/
theorem Derives.child_mem_children {p : String × Tree} (hp : p ∈ t.childNodes) {xs : List Tree}
    (h : t.get p.1 = .list xs) : p.2 ∈ t.children p.1 := by
  obtain ⟨heq | hmem, hnode⟩ := mem_nodesIn.mp (ht.mem_nodesIn_get hp)
  · rw [heq, h] at hnode
    cases hnode
  · exact hmem

section

variable {type : String} (htype : t.type? = some type) (hname : type ∈ ["Identifier", "Literal"])

include htype hname

/-- Names and literals have no children. -/
theorem Derives.childNodes_name : t.childNodes = [] := by
  rw [List.mem_cons, List.mem_singleton] at hname
  rcases hname with rfl | rfl
  · exact ht.childNodes_eq_nil htype (List.forall_mem_singleton.mpr rfl)
  · exact ht.childNodes_eq_nil htype (List.forall_mem_singleton.mpr rfl)

/-- Names and literals mention nothing but themselves. -/
theorem Derives.mentions_name : mentions stopAt kind t = kind t := by
  rw [mentions_eq ht.isObject, ht.childNodes_name htype hname, List.any_nil, Bool.and_false, Bool.or_false]

end

/-- A program stands in no other node. -/
theorem Derives.child_ne_program {p : String × Tree} (hp : p ∈ t.childNodes) :
    p.2.isType "Program" = false := by
  obtain ⟨slot, x, hslot, hx, hd⟩ := ht.child hp
  have hall : ∀ rule ∈ rules, ∀ entry ∈ rule.2, Symbol.program ∉ entry.2.contents := by decide
  have hne : x ≠ .program := by
    rintro rfl
    obtain ⟨_, _, entry, -, hrs, hentry, hmem⟩ := mem_contents_of_slot? hslot hx
    exact hall _ hrs _ hentry hmem
  obtain ⟨type', hmem, htype'⟩ := hd.type
  rw [isType_of_type? htype', decide_eq_false_iff_not]
  rintro rfl
  cases x <;> first | exact hne rfl | exact absurd hmem (by decide)

end

end Grammar
end Downlevel
