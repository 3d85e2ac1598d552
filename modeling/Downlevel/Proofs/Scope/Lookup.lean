import Downlevel.Proofs.Scope.Chain

/-!
# `Proofs.Scope.Lookup`: what a name means

A reference means the last binding of its name in the nearest scope around it that has one.
-/

namespace Downlevel.Scope.Analysis

variable {a : Analysis} {b : Binding} {i j n : Nat} {name : Option String}

/-! ## One scope -/

/-- The binding at a place of the list of bindings is one of this name in this scope. -/
def Declares (a : Analysis) (n : Nat) (name : Option String) (i : Nat) : Prop :=
  ∃ b, a.bindings[i]? = some b ∧ b.scope = n ∧ b.name = name

theorem mem_indexedBindings : (i, b) ∈ a.indexedBindings n ↔ a.bindings[i]? = some b ∧ b.scope = n := by
  simp only [indexedBindings, List.mem_filter, List.mem_map, Prod.mk.injEq, beq_iff_eq]
  constructor
  · rintro ⟨⟨p, hp, rfl, rfl⟩, hscope⟩
    exact ⟨List.mem_zipIdx_iff_getElem?.mp hp, hscope⟩
  · rintro ⟨hb, hscope⟩
    exact ⟨⟨(b, i), List.mem_zipIdx_iff_getElem?.mpr hb, rfl, rfl⟩, hscope⟩

/-- Grouping the bindings of a scope by name leaves out none and adds none. -/
theorem mem_bindingsOf : (i, b) ∈ a.bindingsOf n ↔ a.bindings[i]? = some b ∧ b.scope = n := by
  simp only [bindingsOf, List.mem_flatMap, List.mem_eraseDups, List.mem_map, List.mem_filter,
    beq_iff_eq, ← mem_indexedBindings]
  constructor
  · rintro ⟨_, _, hmem, _⟩
    exact hmem
  · intro hmem
    exact ⟨b.name, ⟨(i, b), hmem, rfl⟩, hmem, rfl⟩

/-- The bindings of a scope are listed in the order of their places. -/
theorem pairwise_indexedBindings (a : Analysis) (n : Nat) :
    (a.indexedBindings n).Pairwise fun p q => p.1 < q.1 := by
  refine List.Pairwise.filter _ (List.pairwise_map.mpr ?_)
  have hsnd : (a.bindings.zipIdx.map Prod.snd).Pairwise (· < ·) := by
    rw [List.zipIdx_map_snd]
    exact List.pairwise_lt_range'
  exact List.pairwise_map.mp hsnd

theorem lastBinding?_eq_some :
    a.lastBinding? name n = some i ↔ a.Declares n name i ∧ ∀ j, a.Declares n name j → j ≤ i := by
  have hmem : ∀ p, p ∈ (a.indexedBindings n).filter (·.2.name == name) ↔
      a.bindings[p.1]? = some p.2 ∧ p.2.scope = n ∧ p.2.name = name := by
    intro p
    rw [List.mem_filter, mem_indexedBindings, beq_iff_eq, and_assoc]
  have hsorted := (a.pairwise_indexedBindings n).filter (·.2.name == name)
  rw [lastBinding?, Option.map_eq_some_iff]
  constructor
  · rintro ⟨⟨k, b⟩, hlast, rfl⟩
    obtain ⟨init, hinit⟩ := List.getLast?_eq_some_iff.mp hlast
    have hkb := (hmem (k, b)).mp (by rw [hinit]; simp)
    refine ⟨⟨b, hkb⟩, fun j ⟨b', hj⟩ => ?_⟩
    have hjmem := (hmem (j, b')).mpr hj
    rw [hinit] at hjmem hsorted
    rcases List.mem_append.mp hjmem with hjmem | hjmem
    · exact Nat.le_of_lt ((List.pairwise_append.mp hsorted).2.2 _ hjmem _ (List.mem_singleton_self _))
    · cases List.mem_singleton.mp hjmem
      exact Nat.le_refl _
  · rintro ⟨⟨b, hb⟩, hmax⟩
    have hib := (hmem (i, b)).mpr hb
    obtain ⟨p, hp⟩ := List.getLast?_isSome.mpr (List.ne_nil_of_mem hib) |> Option.isSome_iff_exists.mp
    refine ⟨p, hp, Nat.le_antisymm (hmax p.1 ⟨p.2, ?_⟩) ?_⟩
    · exact (hmem p).mp (List.mem_of_getLast? hp)
    · obtain ⟨init, hinit⟩ := List.getLast?_eq_some_iff.mp hp
      rw [hinit] at hib hsorted
      rcases List.mem_append.mp hib with hib | hib
      · exact Nat.le_of_lt ((List.pairwise_append.mp hsorted).2.2 _ hib _ (List.mem_singleton_self _))
      · rw [← List.mem_singleton.mp hib]

theorem lastBinding?_eq_none : a.lastBinding? name n = none ↔ ∀ j, ¬ a.Declares n name j := by
  constructor
  · rintro hnone j ⟨b, hb, hscope, hname⟩
    rw [lastBinding?, Option.map_eq_none_iff, List.getLast?_eq_none_iff, List.filter_eq_nil_iff] at hnone
    exact hnone (j, b) (mem_indexedBindings.mpr ⟨hb, hscope⟩) (beq_iff_eq.mpr hname)
  · intro hno
    cases hlast : a.lastBinding? name n with
    | none => rfl
    | some i => exact absurd (lastBinding?_eq_some.mp hlast).1 (hno i)

/-! ## All scopes around a reference -/

theorem resolve_eq (a : Analysis) (r : Reference) :
    a.resolve r = (a.around r.scope).findSome? (a.lastBinding? r.name) := by
  rw [resolve, around]
  cases a.scope? r.scope <;> rfl

namespace IsTree

/-- The numbers of the scopes around a scope fall from the inside to the outside. -/
theorem pairwise_around (h : a.IsTree) (k : Nat) : (a.around k).Pairwise (· > ·) := by
  by_cases hk : k < a.scopes.length
  · obtain ⟨s, rest, _, hc, _, hround, _⟩ := h.exists_chain hk
    rw [hround]
    generalize s :: rest = chain at hc
    induction hc with
    | root _ _ => exact List.pairwise_singleton _ _
    | cons _ _ _ hlt ih =>
      refine List.pairwise_cons.mpr ⟨fun x hx => ?_, ih⟩
      obtain ⟨y, hy, rfl⟩ := List.mem_map.mp hx
      exact hlt y hy
  · rw [List.eq_nil_iff_forall_not_mem.mpr fun m hm => hk (h.lt_of_mem_around hm).1]
    exact .nil

/-- The scopes listed after a scope are around it. -/
theorem mem_around_of_split (h : a.IsTree) {k m : Nat} {inner outer : List Nat}
    (hround : a.around k = inner ++ n :: outer) (hm : m ∈ n :: outer) : m ∈ a.around n := by
  have hn : n ∈ a.around k := by rw [hround]; simp
  have hmk : m ∈ a.around k := by rw [hround]; exact List.mem_append_right _ hm
  rcases List.mem_cons.mp hm with rfl | hm
  · exact h.self_mem_around (h.lt_of_mem_around hn).2
  · refine (h.around_linear hmk hn).resolve_right fun hnm => ?_
    have hfall := h.pairwise_around k
    rw [hround, List.pairwise_append] at hfall
    have hgt : n > m := (List.pairwise_cons.mp hfall.2.1).1 m hm
    have hle := h.around_le hnm
    omega

/-- **A reference means the last binding of its name in the nearest scope that has one.** -/
theorem resolve_eq_some_iff (h : a.IsTree) {r : Reference} :
    a.resolve r = some i ↔ ∃ n ∈ a.around r.scope, a.Declares n r.name i ∧
      ∀ m ∈ a.around r.scope, ∀ j, a.Declares m r.name j → m ∈ a.around n ∧ (m = n → j ≤ i) := by
  rw [resolve_eq, List.findSome?_eq_some_iff]
  constructor
  · rintro ⟨inner, n, outer, hround, hlast, hinner⟩
    obtain ⟨hdecl, hmax⟩ := lastBinding?_eq_some.mp hlast
    have hn : n ∈ a.around r.scope := by rw [hround]; simp
    refine ⟨n, hn, hdecl, fun m hm j hj => ⟨?_, fun heq => hmax j (heq ▸ hj)⟩⟩
    rw [hround] at hm
    -- A scope before the nearest one does not declare the name.
    exact h.mem_around_of_split hround <| (List.mem_append.mp hm).resolve_left fun hm' =>
      lastBinding?_eq_none.mp (hinner m hm') j hj
  · rintro ⟨n, hn, hdecl, hnear⟩
    obtain ⟨inner, outer, hround⟩ := List.append_of_mem hn
    refine ⟨inner, n, outer, hround, ?_, fun m hm => ?_⟩
    · exact lastBinding?_eq_some.mpr ⟨hdecl, fun j hj => (hnear n hn j hj).2 rfl⟩
    · refine lastBinding?_eq_none.mpr fun j hj => ?_
      have hmem : m ∈ a.around r.scope := by rw [hround]; exact List.mem_append_left _ hm
      have hfall := h.pairwise_around r.scope
      rw [hround, List.pairwise_append] at hfall
      have hgt : m > n := hfall.2.2 m hm n List.mem_cons_self
      have hle := h.around_le (hnear m hmem j hj).1
      omega

theorem resolve_eq_none_iff {r : Reference} :
    a.resolve r = none ↔ ∀ m ∈ a.around r.scope, ∀ j, ¬ a.Declares m r.name j := by
  rw [resolve_eq, List.findSome?_eq_none_iff]
  exact forall₂_congr fun m _ => lastBinding?_eq_none

end IsTree

end Downlevel.Scope.Analysis
