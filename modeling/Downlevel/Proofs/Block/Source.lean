import Downlevel.Proofs.Scope.Relabel

/-!
# `Proofs.Block.Source`: programs that can be lowered

The objects of a program name their identifiers as programs do, so only identifiers are renamed. Where
the program shares no nodes, its identifiers are moreover told apart by their marks, once its nodes carry
marks, and their names are known.
-/

namespace Downlevel.Lower.Block

open Tree Scope Grammar

/-! ## New names -/

section

variable {a : Analysis} {kept : List Nat} {P : Nat × String → Prop}

theorem forall_assignNames : ∀ (cs : List (Nat × Binding)) (taken : List (Option String)) (w : Renamer),
    (∀ c ∈ cs, ∀ m ∈ identifierMarks a a.resolutions c, ∀ (names : NameSupply) (base : String),
      P (m, (names.fresh base).1)) →
    (∀ p ∈ w.changes, P p) → ∀ p ∈ (assignNames a a.resolutions cs taken w).changes, P p
  | [], _, _, _, h => h
  | c :: cs, taken, w, hcs, h => by
    rw [List.forall_mem_cons] at hcs
    unfold assignNames
    split
    · exact forall_assignNames cs _ w hcs.2 h
    · refine forall_assignNames cs _ _ hcs.2 (List.forall_mem_append.mpr ⟨h, ?_⟩)
      intro p hp
      obtain ⟨m, hm, rfl⟩ := List.mem_map.mp hp
      exact hcs.1 m hm _ _

/-- **What holds of the new names**: it holds of all fresh names of what can be renamed. -/
theorem forall_renameAll (htree : a.IsTree) (names : NameSupply)
    (h : ∀ i b, a.bindings[i]? = some b → ∀ m ∈ identifierMarks a a.resolutions (i, b),
      ∀ (names : NameSupply) (base : String), P (m, (names.fresh base).1)) :
    ∀ p ∈ (renameAll a kept names).changes, P p := by
  rw [renameAll]
  generalize a.flatten.filter _ = ss
  have hfold : ∀ (ss : List ScopeInfo) (w : Renamer), (∀ p ∈ w.changes, P p) →
      ∀ p ∈ (ss.foldl (renameFunction a a.resolutions kept) w).changes, P p := by
    intro ss
    induction ss with
    | nil => exact fun _ hw => hw
    | cons s ss ih =>
      intro w hw
      refine ih _ (forall_assignNames _ _ w (fun c hc => ?_) hw)
      exact h c.1 c.2 ((mem_candidates htree).mp hc).1
  exact hfold ss _ fun _ hp => absurd hp List.not_mem_nil

end

/-- New names start with an underscore. -/
theorem isUnderscored_renameAll (t : Tree) (kept : List Nat) (names : NameSupply) :
    IsUnderscored (renameAll (analyzeMarked t) kept names).changes := fun _ _ hname =>
  forall_renameAll (isTree_analyzeMarked t) names (P := fun p => p.2.toList.head? = some '_')
    (fun _ _ _ _ _ supply base => NameSupply.head?_fresh supply base) _ (mem_of_lookup hname)

/-- **Only identifiers are renamed**, where objects with one mark are of one type. -/
theorem renamesNames {t : Tree} (hnamed : ∀ o ∈ t.objects, isWellNamed o)
    (hcoherent : IsCoherent t) (kept : List Nat) (names : NameSupply) :
    RenamesNames (renameAll (analyzeMarked t) kept names).changes t := by
  intro o ho hsome
  rw [name?_eq] at hsome
  cases hm : o.mark? with
  | none =>
    rw [hm] at hsome
    cases hsome
  | some m =>
    rw [hm, Option.bind_some] at hsome
    obtain ⟨name, hname⟩ := Option.isSome_iff_exists.mp hsome
    -- The mark is that of an identifier, and so the object is one as well.
    obtain ⟨i, hi, him⟩ : ∃ i ∈ (analyzeMarked t).identifiers, i.mark? = some m := by
      refine forall_renameAll (isTree_analyzeMarked t) names
        (P := fun p => ∃ i ∈ (analyzeMarked t).identifiers, i.mark? = some p.1)
        (fun j b hb k hk _ _ => ?_) _ (mem_of_lookup hname)
      rcases mem_identifierMarks.mp hk with hbm | ⟨r, hr, -, hrm⟩
      · exact ⟨_, List.mem_append_left _ (List.mem_map_of_mem (List.mem_of_getElem? hb)), hbm⟩
      · exact ⟨_, List.mem_append_right _ (List.mem_map_of_mem hr), hrm⟩
    obtain ⟨hmem, htype, -⟩ := isNameIn_of_mem_identifiers hnamed hi
    rw [isTypeIn_congr (hcoherent o ho i hmem m hm him)] at htype
    exact (isNameIn_of_isTypeIn hnamed ho htype).2.2

/-! ## Programs without shared nodes -/

/-- A program whose nodes carry different marks and that names its identifiers as programs do. -/
structure IsSource (t : Tree) : Prop where
  marked : t.IsMarked
  nodup : t.marks.Nodup
  named : ∀ o ∈ t.objects, isWellNamed o = true

theorem isSource_identify {t : Tree} (h : isProgram t) (hshared : t.marks.Nodup) :
    IsSource t.identify where
  marked := isMarked_identify t
  nodup := nodup_marks_identify hshared
  named := isWellNamed_of_fits (fits_identify h)

/-- Without shared nodes, objects with one mark are one. -/
theorem isCoherent_of_nodup {t : Tree} (h : t.marks.Nodup) : IsCoherent t := by
  intro o ho o' ho' m hm hm'
  rw [eq_of_mark? (List.nodup_iff_count_le_one.mp h m) ho ho' hm hm']

namespace IsSource

variable {t : Tree}

theorem isNameIn (h : IsSource t) {i : Tree} (hi : i ∈ (analyzeMarked t).identifiers) :
    IsNameIn t i := isNameIn_of_mem_identifiers h.named hi

/-- The identifiers of a program are told apart by their marks. -/
theorem hasDistinctMarks (h : IsSource t) : HasDistinctMarks (analyzeMarked t) := by
  have hmarked : ∀ i ∈ (analyzeMarked t).identifiers, (i.mark?).isSome := fun i hi =>
    isSome_mark?_of_isMarked t h.marked i (h.isNameIn hi).1
  have hnodup : ((analyzeMarked t).identifiers.filterMap mark?).Nodup := by
    rw [List.nodup_iff_count_le_one]
    exact fun m => Nat.le_trans (count_identifiers_le m t) (List.nodup_iff_count_le_one.mp h.nodup m)
  have hsome : ∀ xs : List Tree, (∀ i ∈ xs, (i.mark?).isSome) →
      xs.map mark? = (xs.filterMap mark?).map some := by
    intro xs hxs
    induction xs with
    | nil => rfl
    | cons i xs ih =>
      obtain ⟨m, hm⟩ := Option.isSome_iff_exists.mp (hxs i List.mem_cons_self)
      rw [List.map_cons, List.filterMap_cons_some hm, List.map_cons, hm,
        ih fun j hj => hxs j (List.mem_cons_of_mem _ hj)]
  exact
    { bindings := fun b hb => hmarked _ (List.mem_append_left _ (List.mem_map_of_mem hb))
      references := fun r hr => hmarked _ (List.mem_append_right _ (List.mem_map_of_mem hr))
      nodup := by
        have hall : ((analyzeMarked t).identifiers.map mark?).Nodup := by
          rw [hsome _ hmarked]
          exact hnodup.map fun _ _ heq => Option.some.inj heq
        rwa [Analysis.identifiers, List.map_append, List.map_map, List.map_map] at hall }

theorem isNodal (h : IsSource t) : ∀ o ∈ t.objects, o.isNodal := by
  intro o ho
  have hwell := h.named o ho
  simp only [isWellNamed, Bool.and_eq_true] at hwell
  exact hwell.1.1.1

/-- The names of a program are known. -/
theorem knowsNames (h : IsSource t) : KnowsNames (.ofTree t) (analyzeMarked t) := by
  have hknown : ∀ i ∈ (analyzeMarked t).identifiers, ∀ name, i.name? = some name →
      name ∈ (NameSupply.ofTree t).used := by
    intro i hi name hname
    obtain ⟨hmem, htype, _⟩ := h.isNameIn hi
    obtain ⟨n, hn, hi⟩ := List.any_eq_true.mp htype
    have hnode := mem_nodes_of_mem_objects h.isNodal hmem (isNode_of_type? (isType_iff.mp hi))
    exact List.mem_filterMap.mpr ⟨_, hnode, (if_pos htype).trans hname⟩
  exact
    { bindings := fun b hb => hknown _ (List.mem_append_left _ (List.mem_map_of_mem hb))
      references := fun r hr => hknown _ (List.mem_append_right _ (List.mem_map_of_mem hr)) }

/-- The declarations of a program carry marks. -/
theorem isSome_mark?_declaration (h : IsSource t) {b : Binding} (hb : b ∈ (analyzeMarked t).bindings) :
    (b.declaration.mark?).isSome :=
  isSome_mark?_of_isMarked t h.marked _ (declaration_mem_objects hb)

end IsSource

end Downlevel.Lower.Block
