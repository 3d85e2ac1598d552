import Downlevel.Lower.Block.Rename
import Downlevel.Proofs.Scope.Flatten
import Downlevel.Proofs.Scope.Lookup

/-!
# `Proofs.Block.Candidates`: the bindings and identifiers that renaming looks at

The bindings of a function are all bindings of its scopes, each listed once, and its candidates are the
movable ones among them. Where identifiers are told apart by their marks, a mark belongs to one binding
at most: to that of the identifier, or to that which the identifier refers to.
-/

namespace Downlevel
namespace Scope
namespace Analysis

variable {a : Analysis}

/-- Removing repetitions leaves none. -/
theorem nodup_eraseDups {α : Type} [BEq α] [LawfulBEq α] : ∀ xs : List α, xs.eraseDups.Nodup
  | [] => List.nodup_nil
  | x :: xs => by
    rw [List.eraseDups_cons, List.nodup_cons, List.mem_eraseDups, List.mem_filter]
    exact ⟨fun h => by simp at h, nodup_eraseDups (xs.filter fun y => !y == x)⟩
  termination_by xs => xs.length
  decreasing_by exact Nat.lt_succ_of_le (List.length_filter_le _ _)

/-- The bindings of a scope are listed once each. -/
theorem nodup_bindingsOf (a : Analysis) (n : Nat) : (a.bindingsOf n).Nodup := by
  have hown : (a.indexedBindings n).Nodup :=
    (a.pairwise_indexedBindings n).imp fun h => fun heq => by rw [heq] at h; exact Nat.lt_irrefl _ h
  rw [bindingsOf, List.nodup_flatMap]
  refine ⟨fun name _ => hown.filter _, (nodup_eraseDups _).imp fun hne => ?_⟩
  intro p hp hq
  simp only [List.mem_filter, beq_iff_eq] at hp hq
  exact hne (hp.2.symm.trans hq.2)

end Analysis
end Scope

namespace Lower
namespace Block

open Scope

variable {a : Analysis} {kept : List Nat} {i m : Nat} {b : Binding}

/-! ## Bindings of a function -/

theorem mem_functionBindings (h : a.IsTree) {f : Nat} :
    (i, b) ∈ functionBindings a f ↔ a.bindings[i]? = some b ∧ a.functionOf b.scope = f := by
  simp only [functionBindings, List.mem_flatMap, List.mem_filter, h.mem_flatten, beq_iff_eq,
    Analysis.mem_bindingsOf]
  constructor
  · rintro ⟨s, ⟨hs, hf⟩, hb, hscope⟩
    exact ⟨hb, by rw [hscope, h.functionOf_id hs, hf]⟩
  · rintro ⟨hb, hf⟩
    obtain ⟨s, hs, hid⟩ := h.exists_scope (h.bindings b (List.mem_of_getElem? hb))
    exact ⟨s, ⟨hs, by rw [← h.functionOf_id hs, hid, hf]⟩, hb, hid.symm⟩

theorem nodup_functionBindings (h : a.IsTree) (f : Nat) : (functionBindings a f).Nodup := by
  have hflat : (a.flatten.filter (·.function == f)).Pairwise fun x y => y.id ∉ a.around x.id :=
    h.pairwise_flatten.filter _
  rw [functionBindings, List.nodup_flatMap]
  refine ⟨fun s _ => a.nodup_bindingsOf s.id, hflat.imp_of_mem fun {s s'} hs hs' hnot => ?_⟩
  rintro ⟨i, b⟩ hp hq
  have hid : s'.id = s.id := (Analysis.mem_bindingsOf.mp hq).2.symm.trans (Analysis.mem_bindingsOf.mp hp).2
  have hmem : s ∈ a.scopes := h.mem_flatten.mp (List.mem_of_mem_filter hs)
  rw [hid] at hnot
  exact hnot (h.self_mem_around (h.id_lt hmem))

/-- The candidates of a function are its movable bindings. -/
theorem mem_candidates (h : a.IsTree) {f : Nat} :
    (i, b) ∈ candidates a kept f ↔
      a.bindings[i]? = some b ∧ a.functionOf b.scope = f ∧ isMovable kept f b := by
  rw [candidates, List.mem_mergeSort, List.mem_filter, mem_functionBindings h, and_assoc]

/-- A candidate is listed once. -/
theorem nodup_candidates (h : a.IsTree) (f : Nat) : ((candidates a kept f).map (·.1)).Nodup := by
  have hnodup : (candidates a kept f).Nodup :=
    (List.mergeSort_perm _ _).nodup_iff.mpr ((nodup_functionBindings h f).filter _)
  refine hnodup.map_on ?_
  rintro ⟨i, b⟩ hb ⟨j, c⟩ hc hij
  obtain rfl : i = j := hij
  have hsome := ((mem_candidates h).mp hb).1.symm.trans ((mem_candidates h).mp hc).1
  rw [Option.some.inj hsome]

/-- All `let` and `const` bindings. -/
theorem mem_blockBindings (h : a.IsTree) :
    (i, b) ∈ blockBindings a ↔ a.bindings[i]? = some b ∧ b.kind.isBlockScoped := by
  simp only [blockBindings, List.mem_flatMap, List.mem_filter, h.mem_flatten, Analysis.mem_bindingsOf]
  constructor
  · rintro ⟨s, _, ⟨hb, _⟩, hkind⟩
    exact ⟨hb, hkind⟩
  · rintro ⟨hb, hkind⟩
    obtain ⟨s, hs, hid⟩ := h.exists_scope (h.bindings b (List.mem_of_getElem? hb))
    exact ⟨s, hs, ⟨hb, hid.symm⟩, hkind⟩

/-! ## Marks of identifiers -/

/-- Are the identifiers of an analysis told apart by their marks? -/
structure HasDistinctMarks (a : Analysis) : Prop where
  bindings : ∀ b ∈ a.bindings, (b.identifier.mark?).isSome = true
  references : ∀ r ∈ a.references, (r.identifier.mark?).isSome = true
  nodup : (a.bindings.map (·.identifier.mark?) ++ a.references.map (·.identifier.mark?)).Nodup

namespace HasDistinctMarks

variable {i j : Nat}

theorem binding_inj (h : HasDistinctMarks a) {b c : Binding} (hb : a.bindings[i]? = some b)
    (hc : a.bindings[j]? = some c) (heq : b.identifier.mark? = c.identifier.mark?) : i = j := by
  have hlt : i < (a.bindings.map (·.identifier.mark?)).length := by
    rw [List.length_map]
    exact (List.getElem?_eq_some_iff.mp hb).1
  refine (List.getElem?_inj hlt (List.nodup_append.mp h.nodup).1).mp ?_
  rw [List.getElem?_map, List.getElem?_map, hb, hc, Option.map_some, Option.map_some, heq]

/-- An identifier that is declared is not referred with. -/
theorem disjoint (h : HasDistinctMarks a) {b : Binding} {r : Reference} (hb : b ∈ a.bindings)
    (hr : r ∈ a.references) : b.identifier.mark? ≠ r.identifier.mark? :=
  (List.nodup_append.mp h.nodup).2.2 _ (List.mem_map_of_mem hb) _ (List.mem_map_of_mem hr)

end HasDistinctMarks

theorem zip_resolutions (a : Analysis) :
    a.references.zip a.resolutions = a.references.map fun r => (r, a.resolve r) := by
  rw [Analysis.resolutions]
  induction a.references with
  | nil => rfl
  | cons r rs ih => rw [List.map_cons, List.map_cons, List.zip_cons_cons, ih]

/-- The marks that belong to a binding. -/
theorem mem_identifierMarks :
    m ∈ identifierMarks a a.resolutions (i, b) ↔ b.identifier.mark? = some m ∨
      ∃ r ∈ a.references, a.resolve r = some i ∧ r.identifier.mark? = some m := by
  simp only [identifierMarks, zip_resolutions, marksOf, List.mem_filterMap, List.mem_cons,
    List.mem_map, List.mem_filter, beq_iff_eq]
  constructor
  · rintro ⟨t, rfl | ⟨p, ⟨⟨r, hr, rfl⟩, hres⟩, rfl⟩, hm⟩
    · exact .inl hm
    · exact .inr ⟨r, hr, hres, hm⟩
  · rintro (hm | ⟨r, hr, hres, hm⟩)
    · exact ⟨b.identifier, .inl rfl, hm⟩
    · exact ⟨r.identifier, .inr ⟨(r, a.resolve r), ⟨⟨r, hr, rfl⟩, hres⟩, rfl⟩, hm⟩

/-- The mark of a reference belongs to what the reference means. -/
theorem resolve_of_mem_identifierMarks (h : HasDistinctMarks a) {r : Reference} (hb : a.bindings[i]? = some b)
    (hr : r ∈ a.references) (hrm : r.identifier.mark? = some m)
    (hm : m ∈ identifierMarks a a.resolutions (i, b)) : a.resolve r = some i := by
  rcases mem_identifierMarks.mp hm with hbm | ⟨r', hr', hres, hm'⟩
  · exact absurd (hbm.trans hrm.symm) (h.disjoint (List.mem_of_getElem? hb) hr)
  · obtain rfl := List.inj_on_of_nodup_map (List.nodup_append.mp h.nodup).2.1 hr hr' (hrm.trans hm'.symm)
    exact hres

/-- **A mark belongs to one binding at most.** -/
theorem identifierMarks_inj (h : HasDistinctMarks a) {j : Nat} {c : Binding} (hb : a.bindings[i]? = some b)
    (hc : a.bindings[j]? = some c) (hi : m ∈ identifierMarks a a.resolutions (i, b))
    (hj : m ∈ identifierMarks a a.resolutions (j, c)) : i = j := by
  rcases mem_identifierMarks.mp hi with hbm | ⟨r, hr, hres, hrm⟩
  · rcases mem_identifierMarks.mp hj with hcm | ⟨r, hr, _, hrm⟩
    · exact h.binding_inj hb hc (hbm.trans hcm.symm)
    · exact absurd (hbm.trans hrm.symm) (h.disjoint (List.mem_of_getElem? hb) hr)
  · have hres' := resolve_of_mem_identifierMarks h hc hr hrm hj
    exact Option.some.inj (hres.symm.trans hres')

end Block
end Lower
end Downlevel
