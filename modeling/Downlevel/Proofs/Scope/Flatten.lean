import Downlevel.Proofs.Scope.Chain
import Mathlib.Data.List.Perm.Subperm

/-!
# `Proofs.Scope.Flatten`: all scopes, depth first

`flatten` lists every scope once, and a scope only after the scopes around it. The list still to be
looked at holds scopes of which no two are around a third; each step takes one of them and puts the
scopes right inside in its place.
-/

namespace Downlevel.Scope.Analysis

variable {a : Analysis} {s x c : ScopeInfo}

/-! ## Children -/

namespace IsTree

/-- What is around a scope right inside another one. -/
theorem around_child (h : a.IsTree) (hc : c ∈ a.childrenOf s.id) :
    a.around c.id = c.id :: a.around s.id := by
  obtain ⟨hmem, hparent⟩ := List.mem_filter.mp hc
  obtain ⟨rest, hchain, hsub⟩ := h.chains c hmem
  rw [beq_iff_eq, ScopeInfo.parent?, hchain.ancestors_eq, List.map_cons, List.drop_one,
    List.tail_cons] at hparent
  cases rest with
  | nil => cases hparent
  | cons p ps =>
    have hid : p.id = s.id := Option.some.inj hparent
    rw [h.around_id hmem, hchain.ancestors_eq, ← hid, h.around_id (hsub List.mem_cons_self),
      hchain.tail.ancestors_eq, List.map_cons]

/-- A scope inside another one is inside a scope right inside that one. -/
theorem exists_child (h : a.IsTree) (hx : x ∈ a.scopes) (hs : s.id ∈ a.around x.id)
    (hne : x.id ≠ s.id) : ∃ c ∈ a.childrenOf s.id, c.id ∈ a.around x.id := by
  obtain ⟨rest, hchain, hsub⟩ := h.chains x hx
  rw [h.around_id hx, hchain.ancestors_eq] at hs ⊢
  -- Along the chain, the scope just before the outer one is right inside it.
  induction rest generalizing x with
  | nil =>
    rw [List.map_cons, List.map_nil, List.mem_singleton] at hs
    exact absurd hs.symm hne
  | cons p ps ih =>
    rw [List.map_cons, List.mem_cons] at hs
    have hs := hs.resolve_left (Ne.symm hne)
    by_cases hp : p.id = s.id
    · refine ⟨x, List.mem_filter.mpr ⟨hx, ?_⟩, List.mem_cons_self⟩
      rw [ScopeInfo.parent?, hchain.ancestors_eq, ← hp]
      simp
    · obtain ⟨hp', hps⟩ := List.cons_subset.mp hsub
      obtain ⟨c, hc, hmem⟩ := ih hp' hp hs hchain.tail hps
      exact ⟨c, hc, List.mem_cons_of_mem _ hmem⟩

/-- Around every scope there is one that nothing is around. -/
theorem exists_root (h : a.IsTree) (hx : x ∈ a.scopes) :
    ∃ r ∈ a.scopes, r.parent?.isNone ∧ r.id ∈ a.around x.id := by
  obtain ⟨rest, hchain, hsub⟩ := h.chains x hx
  rw [h.around_id hx, hchain.ancestors_eq]
  induction rest generalizing x with
  | nil =>
    refine ⟨x, hx, ?_, List.mem_cons_self⟩
    rw [ScopeInfo.parent?, hchain.ancestors_eq]
    simp
  | cons p ps ih =>
    obtain ⟨hp, hps⟩ := List.cons_subset.mp hsub
    obtain ⟨r, hr, hnone, hmem⟩ := ih hp hchain.tail hps
    exact ⟨r, hr, hnone, List.mem_cons_of_mem _ hmem⟩

/-- Nothing is around a scope without a parent. -/
theorem around_root (h : a.IsTree) (hx : x ∈ a.scopes) (hroot : x.parent?.isNone) :
    a.around x.id = [x.id] := by
  obtain ⟨rest, hchain, _⟩ := h.chains x hx
  rw [h.around_id hx, hchain.ancestors_eq]
  cases rest with
  | nil => rfl
  | cons p ps =>
    rw [ScopeInfo.parent?, hchain.ancestors_eq] at hroot
    simp at hroot

end IsTree

/-! ## Independent scopes -/

/-- No two of the scopes are around a third one. -/
def IsIndependent (a : Analysis) (pending : List ScopeInfo) : Prop :=
  pending.Pairwise fun k l => ∀ n, k.id ∈ a.around n → l.id ∉ a.around n

/-- Is one of the scopes around this one? -/
def isCovered (a : Analysis) (pending : List ScopeInfo) (x : ScopeInfo) : Bool :=
  pending.any fun k => (a.around x.id).contains k.id

theorem isCovered_iff {pending : List ScopeInfo} :
    a.isCovered pending x ↔ ∃ k ∈ pending, k.id ∈ a.around x.id := by
  simp [isCovered]

namespace IsTree

/-- A scope is not around itself through one of its children. -/
theorem child_not_mem_around (h : a.IsTree) (hc : c ∈ a.childrenOf s.id) : c.id ∉ a.around s.id := by
  intro hmem
  have hround := h.around_child hc
  have hsuffix := (h.around_suffix hmem).length_le
  rw [hround, List.length_cons] at hsuffix
  omega

theorem nodup_scopes (h : a.IsTree) : a.scopes.Nodup := .of_map (·.id) h.nodup_ids

/-- Two scopes right inside one scope are not around a third. -/
theorem isIndependent_children (h : a.IsTree) (s : ScopeInfo) : a.IsIndependent (a.childrenOf s.id) := by
  have hnodup : (a.childrenOf s.id).Nodup := h.nodup_scopes.filter _
  refine hnodup.imp_of_mem fun {k l} hk hl hne n hkn hln => hne ?_
  have heq : k.id = l.id := by
    rcases h.around_linear hkn hln with hkl | hlk
    · rw [h.around_child hl, List.mem_cons] at hkl
      exact hkl.resolve_right (h.child_not_mem_around hk)
    · rw [h.around_child hk, List.mem_cons] at hlk
      exact (hlk.resolve_right (h.child_not_mem_around hl)).symm
  exact h.eq_of_id (List.mem_of_mem_filter hk) (List.mem_of_mem_filter hl) heq

theorem isIndependent_roots (h : a.IsTree) : a.IsIndependent (a.scopes.filter (·.parent?.isNone)) := by
  have hnodup : (a.scopes.filter (·.parent?.isNone)).Nodup := h.nodup_scopes.filter _
  refine hnodup.imp_of_mem fun {k l} hk hl hne n hkn hln => hne ?_
  obtain ⟨hk, hkroot⟩ := List.mem_filter.mp hk
  obtain ⟨hl, hlroot⟩ := List.mem_filter.mp hl
  have heq : k.id = l.id := by
    rcases h.around_linear hkn hln with hkl | hlk
    · rw [h.around_root hl hlroot, List.mem_singleton] at hkl
      exact hkl
    · rw [h.around_root hk hkroot, List.mem_singleton] at hlk
      exact hlk.symm
  exact h.eq_of_id hk hl heq

section

variable (h : a.IsTree) {rest : List ScopeInfo} (hs : s ∈ a.scopes) (hind : a.IsIndependent (s :: rest))

include h hs hind

/-- One step: a scope gives way to the scopes right inside it. -/
theorem isIndependent_step : a.IsIndependent (a.childrenOf s.id ++ rest) := by
  obtain ⟨hhead, hrest⟩ := List.pairwise_cons.mp hind
  refine List.pairwise_append.mpr ⟨h.isIndependent_children s, hrest, ?_⟩
  intro k hk l hl n hkn
  refine hhead l hl n (h.around_trans hkn ?_)
  rw [h.around_child hk]
  exact List.mem_cons_of_mem _ (h.self_mem_around (h.id_lt hs))

/-- What a step leaves to be listed: all that was, but the scope taken. -/
theorem isCovered_step (hx : x ∈ a.scopes) :
    a.isCovered (s :: rest) x ↔ x = s ∨ a.isCovered (a.childrenOf s.id ++ rest) x := by
  have hself := h.self_mem_around (h.id_lt hs)
  rw [isCovered_iff, isCovered_iff]
  constructor
  · rintro ⟨k, hk, hmem⟩
    rcases List.mem_cons.mp hk with rfl | hk
    · by_cases heq : x.id = k.id
      · exact .inl (h.eq_of_id hx hs heq)
      · obtain ⟨c, hc, hcmem⟩ := h.exists_child hx hmem heq
        exact .inr ⟨c, List.mem_append_left _ hc, hcmem⟩
    · exact .inr ⟨k, List.mem_append_right _ hk, hmem⟩
  · rintro (rfl | ⟨k, hk, hmem⟩)
    · exact ⟨x, List.mem_cons_self, hself⟩
    · rcases List.mem_append.mp hk with hk | hk
      · refine ⟨s, List.mem_cons_self, h.around_trans hmem ?_⟩
        rw [h.around_child hk]
        exact List.mem_cons_of_mem _ hself
      · exact ⟨k, List.mem_cons_of_mem _ hk, hmem⟩

/-- A scope is not around the scopes that have to be listed after it. -/
theorem not_around_of_covered (hx : a.isCovered (a.childrenOf s.id ++ rest) x) : x.id ∉ a.around s.id := by
  obtain ⟨k, hk, hmem⟩ := isCovered_iff.mp hx
  intro hround
  have hks : k.id ∈ a.around s.id := h.around_trans hround hmem
  rcases List.mem_append.mp hk with hk | hk
  · exact h.child_not_mem_around hk hks
  · exact (List.pairwise_cons.mp hind).1 k hk s.id (h.self_mem_around (h.id_lt hs)) hks

end

/-! ## The list of all scopes -/

/-- The scopes listed are those inside the pending ones, each after what is around it, as long as
there is fuel for all of them. -/
theorem flattenFrom_spec (h : a.IsTree) : ∀ (fuel : Nat) (pending : List ScopeInfo),
    pending ⊆ a.scopes → a.IsIndependent pending →
    (a.scopes.filter (a.isCovered pending)).length ≤ fuel →
    (∀ x, x ∈ a.flattenFrom fuel pending ↔ x ∈ a.scopes ∧ a.isCovered pending x) ∧
      (a.flattenFrom fuel pending).Pairwise fun x y => y.id ∉ a.around x.id
  | _, [], _, _, _ => by
    have hnil : ∀ fuel, a.flattenFrom fuel [] = [] := fun fuel => by cases fuel <;> rfl
    rw [hnil]
    exact ⟨fun x => by simp [isCovered], .nil⟩
  | 0, s :: rest, hsub, _, hfuel => by
    have hs := hsub List.mem_cons_self
    have hmem : s ∈ a.scopes.filter (a.isCovered (s :: rest)) :=
      List.mem_filter.mpr ⟨hs, isCovered_iff.mpr ⟨s, List.mem_cons_self, h.self_mem_around (h.id_lt hs)⟩⟩
    exact absurd (List.length_pos_of_mem hmem) (by omega)
  | fuel + 1, s :: rest, hsub, hind, hfuel => by
    obtain ⟨hs, hrest⟩ := List.cons_subset.mp hsub
    have hsub' : a.childrenOf s.id ++ rest ⊆ a.scopes :=
      List.append_subset.mpr ⟨List.filter_subset_self _, hrest⟩
    have hind' := h.isIndependent_step hs hind
    have hsnot : a.isCovered (a.childrenOf s.id ++ rest) s ≠ true := fun hcov =>
      h.not_around_of_covered hs hind hcov (h.self_mem_around (h.id_lt hs))
    -- The scope taken is one less to be listed.
    have hless : (a.scopes.filter (a.isCovered (a.childrenOf s.id ++ rest))).length + 1 ≤
        (a.scopes.filter (a.isCovered (s :: rest))).length := by
      have hnodup : (s :: a.scopes.filter (a.isCovered (a.childrenOf s.id ++ rest))).Nodup :=
        List.nodup_cons.mpr ⟨fun hmem => hsnot (List.mem_filter.mp hmem).2, h.nodup_scopes.filter _⟩
      refine (List.subperm_of_subset hnodup fun y hy => ?_).length_le
      rcases List.mem_cons.mp hy with rfl | hy
      · exact List.mem_filter.mpr ⟨hs, (h.isCovered_step hs hind hs).mpr (.inl rfl)⟩
      · obtain ⟨hys, hyc⟩ := List.mem_filter.mp hy
        exact List.mem_filter.mpr ⟨hys, (h.isCovered_step hs hind hys).mpr (.inr hyc)⟩
    obtain ⟨hmem, hpair⟩ := flattenFrom_spec h fuel _ hsub' hind' (by omega)
    refine ⟨fun x => ?_, List.pairwise_cons.mpr ⟨fun y hy => ?_, hpair⟩⟩
    · rw [flattenFrom, List.mem_cons, hmem]
      constructor
      · rintro (rfl | ⟨hx, hcov⟩)
        · exact ⟨hs, (h.isCovered_step hs hind hs).mpr (.inl rfl)⟩
        · exact ⟨hx, (h.isCovered_step hs hind hx).mpr (.inr hcov)⟩
      · rintro ⟨hx, hcov⟩
        exact ((h.isCovered_step hs hind hx).mp hcov).imp_right fun hcov => ⟨hx, hcov⟩
    · exact h.not_around_of_covered hs hind ((hmem y).mp hy).2

theorem flatten_spec (h : a.IsTree) : (∀ x, x ∈ a.flatten ↔ x ∈ a.scopes) ∧
    a.flatten.Pairwise fun x y => y.id ∉ a.around x.id := by
  obtain ⟨hmem, hpair⟩ := h.flattenFrom_spec a.scopes.length (a.scopes.filter (·.parent?.isNone))
    (List.filter_subset_self _) h.isIndependent_roots (List.length_filter_le _ _)
  refine ⟨fun x => (hmem x).trans ⟨And.left, fun hx => ⟨hx, isCovered_iff.mpr ?_⟩⟩, hpair⟩
  obtain ⟨r, hr, hnone, hround⟩ := h.exists_root hx
  exact ⟨r, List.mem_filter.mpr ⟨hr, hnone⟩, hround⟩

/-- **Every scope is listed.** -/
theorem mem_flatten (h : a.IsTree) : x ∈ a.flatten ↔ x ∈ a.scopes := h.flatten_spec.1 x

/-- **A scope is listed after the scopes around it, and only once.** -/
theorem pairwise_flatten (h : a.IsTree) : a.flatten.Pairwise fun x y => y.id ∉ a.around x.id :=
  h.flatten_spec.2

end IsTree

end Downlevel.Scope.Analysis
