import Downlevel.Proofs.Settled.Twice
import Mathlib.Algebra.BigOperators.Ring.Finset
import Mathlib.Algebra.Order.BigOperators.Group.List

/-!
# `Proofs.Settled.Count`: one diagnostic for each construct that is left

A lowering that does all it can in one run leaves nothing behind without a word. The tally of the tree that it
leaves is the number of its diagnostics; being finite, it is also the number of the nodes of its kind. So the
diagnostics of a run can be counted off in its tree.
-/

namespace Downlevel

open Tree Node Grammar

/-! ## Counting by children -/

/-- If every node of one kind has exactly one child of another kind, and no other node has any, then there are
as many of the one as of the other, the root apart. -/
theorem Grammar.Derives.countP_of_children {labels : Labelling} {s : Symbol} {t : Tree}
    (upper lower : Tree → Bool) (ht : Derives labels s t)
    (h : ∀ n ∈ t.nodes, n.childNodes.countP (fun p => lower p.2) = if upper n then 1 else 0) :
    t.nodes.countP lower = t.nodes.countP upper + if lower t then 1 else 0 := by
  refine ht.inductionOnChildren (motive := fun t => (∀ n ∈ t.nodes,
    n.childNodes.countP (fun p => lower p.2) = if upper n then 1 else 0) →
      t.nodes.countP lower = t.nodes.countP upper + if lower t then 1 else 0) ?_ h
  intro s t ht ih h
  rw [ht.nodes_eq, List.forall_mem_cons] at h
  have hchildren : ∀ ps : Fields, (∀ p ∈ ps, p ∈ t.childNodes) →
      (ps.flatMap (·.2.nodes)).countP lower =
        (ps.flatMap (·.2.nodes)).countP upper + ps.countP fun p => lower p.2 := by
    intro ps hps
    induction ps with
    | nil => rfl
    | cons p ps ihps =>
      rw [List.forall_mem_cons] at hps
      have hp := ih p hps.1 fun n hn => h.2 n (List.mem_flatMap.mpr ⟨p, hps.1, hn⟩)
      rw [List.flatMap_cons, List.countP_append, List.countP_append, hp, ihps hps.2, List.countP_cons]
      omega
  rw [ht.nodes_eq, List.countP_cons, List.countP_cons, hchildren _ fun _ => id, h.1]

namespace Lower
namespace Survey

variable {C : Type} {S : Survey C} {contexts : String → Option C} {c : C} {labels : Labelling} {s : Symbol}
  {t : Tree}

theorem tallyItems_eq_sum (xs : List Tree) : S.tallyItems c xs = (xs.map (S.tally c)).sum := by
  induction xs with
  | nil => simp
  | cons x xs ih => rw [tallyItems_cons, ih, List.map_cons, List.sum_cons]

/-- The tally of a value is made up of those of the nodes in it. -/
theorem tally_eq_nodesIn {v : Tree} (hfit : S.IsFit (fun _ _ => True) c v) :
    S.tally c v = ((nodesIn v).map (S.tally c)).sum := by
  have hself : v.items = [] → S.IsSound (fun _ _ => True) c v →
      S.tally c v = ((nodesIn v).map (S.tally c)).sum := by
    intro hitems hsound
    rw [nodesIn, hitems, List.filter_singleton]
    cases hnode : v.isNode with
    | true => simp
    | false => simp [hsound.2 hnode]
  cases v with
  | list xs =>
    have hlist : (Tree.list xs).isNode = false := rfl
    rw [tally_list, nodesIn, List.filter_cons, hlist, if_neg Bool.false_ne_true, items, tallyItems_eq_sum]
    have hxs : ∀ y ∈ xs, S.IsSound (fun _ _ => True) c y := hfit
    clear hfit hself hlist
    induction xs with
    | nil => rfl
    | cons y ys ih =>
      rw [List.forall_mem_cons] at hxs
      rw [List.filter_cons]
      cases hnode : y.isNode with
      | true => rw [if_pos rfl, List.map_cons, List.map_cons, List.sum_cons, List.sum_cons, ih hxs.2]
      | false =>
        rw [if_neg Bool.false_ne_true, List.map_cons, List.sum_cons, hxs.1.2 hnode, zero_add, ih hxs.2]
  | _ => exact hself rfl hfit

theorem entry_eq_nodesIn (ht : Derives labels s t) {f : String × Tree} (hf : f ∈ t.fields)
    (hk : isSyntaxKey f.1) :
    S.entry contexts f.1 f.2 = ((nodesIn f.2).map (S.entry contexts f.1)).sum := by
  cases hc : contexts f.1 with
  | none =>
    have hzero : S.entry contexts f.1 = fun _ => 0 := by
      funext v
      rw [entry, hc]
    simp [hzero]
  | some c =>
    have hentry : S.entry contexts f.1 = S.tally c := funext fun v => entry_of_context hc hk
    rw [hentry]
    exact tally_eq_nodesIn (isFit_of_derives ht hf hk fun _ _ _ _ _ _ _ => trivial)

/-- **The tally of the fields of a node** is made up of the tallies of its children. -/
theorem tallyFields_eq_childNodes (ht : Derives labels s t) :
    S.tallyFields contexts t.fields = (t.childNodes.map fun p => S.entry contexts p.1 p.2).sum := by
  have hfields : ∀ fs : Fields, (∀ f ∈ fs, f ∈ t.fields) →
      S.tallyFields contexts fs = (((fs.filter (isSyntaxKey ·.1)).flatMap fun f =>
        (nodesIn f.2).map fun y => (f.1, y)).map fun p => S.entry contexts p.1 p.2).sum := by
    intro fs hfs
    induction fs with
    | nil => simp
    | cons f fs ih =>
      rw [List.forall_mem_cons] at hfs
      rw [tallyFields_cons, ih hfs.2, List.filter_cons]
      cases hk : isSyntaxKey f.1 with
      | true =>
        rw [if_pos rfl, List.flatMap_cons, List.map_append, List.sum_append, List.map_map,
          entry_eq_nodesIn ht hfs.1 hk]
        rfl
      | false => rw [if_neg Bool.false_ne_true, entry_of_skipped hk, zero_add]
  exact hfields t.fields fun _ => id

theorem tally_child_ne_top (ht : Derives labels s t) (h : S.tallyFields contexts t.fields ≠ ⊤)
    {p : String × Tree} (hp : p ∈ t.childNodes) : S.entry contexts p.1 p.2 ≠ ⊤ := by
  rw [tallyFields_eq_childNodes ht] at h
  intro htop
  refine h (top_unique ?_)
  rw [← htop]
  exact List.le_sum_of_mem (List.mem_map.mpr ⟨p, hp, rfl⟩)

/-- **A finite tally counts the nodes of a kind**, if each of them adds one to the tallies of its
children. -/
theorem count_eq_tally {kind : Tree → Bool} (admits : C → Prop)
    (hnode : ∀ {c s t}, admits c → Derives labels s t → S.tally c t ≠ ⊤ →
      ∃ contexts : String → C, (∀ k, admits (contexts k)) ∧
        S.tally c t = (if kind t then 1 else 0) + S.tallyFields (fun k => some (contexts k)) t.fields)
    (ht : Derives labels s t) (hc : admits c) (hfinite : S.tally c t ≠ ⊤) :
    (t.nodes.countP kind : ℕ∞) = S.tally c t := by
  refine ht.inductionOnChildren (motive := fun t => ∀ c, admits c → S.tally c t ≠ ⊤ →
    (t.nodes.countP kind : ℕ∞) = S.tally c t) ?_ c hc hfinite
  intro s t ht ih c hc hfinite
  obtain ⟨contexts, hcontexts, htally⟩ := hnode hc ht hfinite
  rw [htally, Ne, ENat.add_eq_top, not_or] at hfinite
  have hchildren : ∀ p ∈ t.childNodes, ((p.2.nodes.countP kind : ℕ) : ℕ∞) =
      S.entry (fun k => some (contexts k)) p.1 p.2 := by
    intro p hp
    have hentry := tally_child_ne_top ht hfinite.2 hp
    obtain ⟨v, -, hk, -⟩ := mem_childNodes.mp hp
    rw [entry_of_context (c := contexts p.1) rfl hk] at hentry ⊢
    exact ih p hp _ (hcontexts _) hentry
  rw [htally, tallyFields_eq_childNodes ht, ht.nodes_eq, List.countP_cons, List.countP_flatMap,
    Nat.cast_add, Nat.cast_list_sum, List.map_map, ← List.map_congr_left hchildren, add_comm]
  congr 1
  split <;> rfl

end Survey

open Survey

variable {labels : Labelling}

/-! ## Methods and defaults -/

/-- Lowerings that proceed node by node. -/
theorem count_surveyOf {types : List String} {worth : Tree → ℕ∞} {kind : Tree → Bool} {s : Symbol}
    {t : Tree} (hworth : ∀ t, worth t ≠ ⊤ → worth t = if kind t then 1 else 0)
    (ht : Derives labels s t) (hfinite : (surveyOf types worth).tally () t ≠ ⊤) :
    (t.nodes.countP (fun n => n.isTypeIn types && kind n) : ℕ∞) = (surveyOf types worth).tally () t := by
  refine count_eq_tally (fun _ => True) ?_ ht trivial hfinite
  intro c s t _ ht hfinite
  refine ⟨fun _ => (), fun _ => trivial, ?_⟩
  cases hin : t.isTypeIn types with
  | true =>
    rw [tally_surveyOf ht.isObject hin, Ne, ENat.add_eq_top, not_or] at hfinite
    rw [tally_surveyOf ht.isObject hin, hworth t hfinite.1, Bool.true_and]
  | false =>
    rw [tally_of_isObject ht.isObject, (surveyOf types worth).worth_other _ t hin,
      (surveyOf types worth).context_other _ t hin]
    rfl

/-- The lowering of a program, whose diagnostics are as many as the nodes of a kind that it leaves. -/
def CountsLeft (lower : Tree → Except Fault Lowered) (kind : Tree → Bool) (t : Tree) : Prop :=
  ∃ out, lower t = .ok out ∧ out.diagnostics.length = out.tree.nodes.countP kind

/-- The diagnostics of a run count what is left, if the tally of what is left does. -/
theorem countsLeft_of_counted {C : Type} {S : Survey C} {c : C} {good : C → Tree → Prop}
    {handle : Handler C Work} {kind : Tree → Bool} {t : Tree}
    (hcounted : HandlerFollows handle (S.Counted good))
    (hrun : ∃ out, run handle c t = .ok out ∧ Derives labels .program out.tree)
    (ht : Derives labels .program t) (hgood : good c t)
    (hcount : ∀ {u}, Derives labels .program u → S.tally c u ≠ ⊤ →
      (u.nodes.countP kind : ℕ∞) = S.tally c u) : CountsLeft (run handle c) kind t := by
  obtain ⟨out, hout, hd⟩ := hrun
  have hlength := length_of_counted hcounted ht hgood hout
  have hleft := hcount hd (by rw [← hlength]; exact ENat.natCast_ne_top _)
  exact ⟨out, hout, by exact_mod_cast hlength.trans hleft.symm⟩

namespace Method

/-- A method in an object. -/
def isMethod (n : Tree) : Bool := n.isTypeIn ["Property"] && (n.get "method").isSet

theorem count_left {t : Tree} (ht : Derives .any .program t) : CountsLeft lower isMethod t := by
  refine countsLeft_of_counted (counted_of_step isStepwise handle_keeps (by decide) property_counts)
    (derives_lower ht) ht (any_good ht) fun hu hfinite => count_surveyOf ?_ hu hfinite
  intro u hworth
  unfold worth at hworth ⊢
  split at hworth
  · split at hworth
    · simp_all
    · exact absurd rfl hworth
  · simp_all

end Method

namespace Default

/-- A function that gives a parameter a default. -/
def hasDefault (n : Tree) : Bool := n.isTypeIn functionTypes && (n.children "params").any isDefaulted

theorem count_left {t : Tree} (ht : Derives .any .program t) : CountsLeft lower hasDefault t := by
  refine countsLeft_of_counted (counted_of_step isStepwise handle_keeps (by decide) function_counts)
    (derives_lower ht) ht (any_good ht) fun hu hfinite => count_surveyOf ?_ hu hfinite
  intro u hworth
  have hany : (u.children "params").any isDefaulted =
      !((u.children "params").filter isDefaulted).isEmpty := by
    rw [Bool.eq_iff_iff]
    simp [List.filter_eq_nil_iff]
  unfold worth at hworth ⊢
  rw [hany]
  cases hempty : ((u.children "params").filter isDefaulted).isEmpty with
  | true => simp
  | false =>
    simp only [hempty, Bool.false_eq_true, if_false] at hworth ⊢
    -- What would be changed is not left, and what is left counts one.
    split at hworth
    · simp_all
    · split at hworth
      · simp_all
      · exact absurd rfl hworth

end Default

/-! ## Classes -/

namespace Class

/-- An exported class counts as it does elsewhere. -/
theorem tally_declaration_exported {s : Symbol} {t : Tree} (hd : Derives .strict s t)
    (hexported : isExportedClass t) :
    survey.tally .anywhere t = survey.tallyFields (fun _ => some .anywhere) t.fields := by
  obtain ⟨htype, hdeclaration⟩ := isExportedClass_iff.mp hexported
  obtain ⟨m, fs, hobj⟩ := isObject_of_type? hdeclaration
  have hobject : (t.get "declaration").isObject := by
    rw [hobj]
    rfl
  have hclass : (t.get "declaration").isTypeIn classTypes := isTypeIn_of_mem hdeclaration (by decide)
  have hpassed := tally_passed .exported hobject (by rw [hdeclaration]; decide)
    ⟨fun _ => rfl, fun _ => hdeclaration⟩ (isExportedClass_of_class hclass)
  rw [tally_exportedClass hd .anywhere hexported, hpassed, ← tally_class hobject hclass,
    tallyFields_of_keys hd htype exportKeys]
  simp [entry_some, isSyntaxKey, skippedKeys]

theorem count_left {t : Tree} (ht : Derives .strict .program t) :
    CountsLeft lower (·.isTypeIn classTypes) t := by
  refine countsLeft_of_counted handle_counted (derives_lower ht) ht ⟨.program, ht, nofun⟩
    fun hu hfinite => count_eq_tally (· = .anywhere) ?_ hu rfl hfinite
  rintro c s t rfl hd hfinite
  refine ⟨fun _ => .anywhere, fun _ => rfl, ?_⟩
  cases hclass : t.isTypeIn classTypes with
  | true =>
    rw [tally_class hd.isObject hclass, Ne, ENat.add_eq_top, not_or] at hfinite
    rw [tally_class hd.isObject hclass, (isLeftAlone_of_ne_top hfinite.1).2, if_pos rfl]
  | false =>
    have hother : ∀ type ∈ classTypes, t.type? ≠ some type := by
      intro type hmem htype
      rw [isTypeIn_of_type? htype] at hclass
      simp [hmem] at hclass
    rw [if_neg Bool.false_ne_true, zero_add]
    cases hexported : isExportedClass t with
    | true => exact tally_declaration_exported hd hexported
    | false =>
      exact tally_passed _ hd.isObject (hother _ (by decide))
        ⟨fun h => absurd h (hother _ (by decide)), nofun⟩ hexported

end Class

/-! ## Templates -/

namespace Template

variable {t : Tree} {s : Symbol}

/-- No template stands right below a node, unless a tag is in front of it. -/
def KeepsTagged (n : Tree) : Prop :=
  ∀ p ∈ n.childNodes, p.2.isType "TemplateLiteral" = true →
    n.isType "TaggedTemplateExpression" = true ∧ p.1 = "quasi"

/-- A template behind a tag counts what its expressions do. -/
theorem tally_template (hd : Derives .strict s t) (htype : t.type? = some "TemplateLiteral") :
    survey.tally .tagged t = survey.tallyFields (fun _ => some .anywhere) t.fields := by
  have hnot : t.isType "TaggedTemplateExpression" = false := by
    simp [isType_of_type? htype]
  have hworth : survey.worth .tagged t = 0 := by
    simp [survey, hnot, isType_iff.mpr htype]
  have hcontext : survey.context .tagged t = contextOf .tagged t := rfl
  obtain ⟨hquasis, hsegments⟩ := hd.many htype (k := "quasis") rfl
  have hnone : survey.tally .anywhere (t.get "quasis") = 0 := by
    rw [hquasis, tally_list, tallyItems_segments hsegments]
  rw [tally_of_isObject hd.isObject, hworth, hcontext, tallyFields_of_keys hd htype templateKeys,
    tallyFields_of_keys hd htype templateKeys]
  simp [entry, contextOf, hnot, isType_iff.mpr htype, isSyntaxKey, skippedKeys, hnone]

/-- A template that nothing stands in front of is changed. -/
theorem tally_template_anywhere (htype : t.type? = some "TemplateLiteral") :
    survey.tally .anywhere t = ⊤ := by
  obtain ⟨m, fs, rfl⟩ := isObject_of_type? htype
  have hworth : survey.worth .anywhere (.obj m fs) = ⊤ := by
    simp [survey, isType_of_type? htype]
  rw [tally_obj, hworth, top_add]

/-- What a finite tally says of a node, by its children. -/
theorem tally_cases {position : Position} (hd : Derives .strict s t) (hfinite : survey.tally position t ≠ ⊤) :
    (t.type? = some "TaggedTemplateExpression" ∧ survey.tally position t = 1 + survey.tallyFields
        (fun k => some (if k = "quasi" then .tagged else .anywhere)) t.fields) ∨
      (t.type? = some "TemplateLiteral" ∧ position = .tagged ∧
        survey.tally position t = survey.tallyFields (fun _ => some .anywhere) t.fields) ∨
      (t.type? ≠ some "TaggedTemplateExpression" ∧ t.type? ≠ some "TemplateLiteral" ∧
        survey.tally position t = survey.tallyFields (fun _ => some position) t.fields) := by
  by_cases htagged : t.type? = some "TaggedTemplateExpression"
  · refine .inl ⟨htagged, ?_⟩
    rw [tally_tagged hd htagged, tallyFields_of_keys hd htagged taggedKeys]
    simp [entry, isSyntaxKey, skippedKeys]
  · by_cases htemplate : t.type? = some "TemplateLiteral"
    · cases position with
      | tagged => exact .inr (.inl ⟨htemplate, rfl, tally_template hd htemplate⟩)
      | anywhere => exact absurd (tally_template_anywhere htemplate) hfinite
    · refine .inr (.inr ⟨htagged, htemplate, ?_⟩)
      have hother := not_template htagged htemplate
      rw [tally_of_isObject hd.isObject, survey.worth_other _ _ hother,
        survey.context_other _ _ hother, zero_add]

theorem count_tagged (hd : Derives .strict s t) (hfinite : survey.tally .anywhere t ≠ ⊤) :
    (t.nodes.countP (·.isType "TaggedTemplateExpression") : ℕ∞) = survey.tally .anywhere t := by
  refine count_eq_tally (fun _ => True) ?_ hd trivial hfinite
  intro position s t _ hd hfinite
  obtain ⟨htype, htally⟩ | ⟨htype, -, htally⟩ | ⟨htype, -, htally⟩ := tally_cases hd hfinite
  · exact ⟨_, fun _ => trivial, by rw [htally, if_pos (isType_iff.mpr htype)]⟩
  · refine ⟨fun _ => .anywhere, fun _ => trivial, ?_⟩
    rw [htally, if_neg (by simp [isType_of_type? htype]), zero_add]
  · refine ⟨fun _ => position, fun _ => trivial, ?_⟩
    rw [htally, if_neg (fun h => htype (isType_iff.mp h)), zero_add]

/-- A template stands behind a tag in every position that is visited as such. -/
def IsPlaced (t : Tree) : Prop :=
  ∃ position, survey.tally position t ≠ ⊤ ∧ (position = .tagged → t.isType "TemplateLiteral" = true)

/-- What stands below a node is placed, and it is no template unless a tag is in front of it. -/
theorem isPlaced_child (hd : Derives .strict s t) (h : IsPlaced t) {p : String × Tree} (hp : p ∈ t.childNodes) :
    IsPlaced p.2 ∧ (p.2.isType "TemplateLiteral" →
      t.isType "TaggedTemplateExpression" ∧ p.1 = "quasi") := by
  obtain ⟨position, hfinite, hposition⟩ := h
  obtain ⟨v, hv, hk, hy⟩ := mem_childNodes.mp hp
  -- Anywhere but behind a tag, a finite tally leaves no template.
  have hanywhere : ∀ contexts : String → Option Position, contexts p.1 = some .anywhere →
      survey.tallyFields contexts t.fields ≠ ⊤ →
      IsPlaced p.2 ∧ ¬ p.2.isType "TemplateLiteral" := by
    intro contexts hcontext hfields
    have hentry := tally_child_ne_top hd hfields hp
    rw [entry_of_context hcontext hk] at hentry
    exact ⟨⟨.anywhere, hentry, nofun⟩, fun htype => hentry (tally_template_anywhere (isType_iff.mp htype))⟩
  obtain ⟨htype, htally⟩ | ⟨-, -, htally⟩ | ⟨-, htemplate, htally⟩ := tally_cases hd hfinite
  · rw [htally, Ne, ENat.add_eq_top, not_or] at hfinite
    by_cases hquasi : p.1 = "quasi"
    · have hcontext : some (if p.1 = "quasi" then Position.tagged else .anywhere) = some .tagged :=
        congrArg some (if_pos hquasi)
      have hentry := tally_child_ne_top hd hfinite.2 hp
      rw [entry_of_context hcontext hk] at hentry
      refine ⟨⟨.tagged, hentry, fun _ => ?_⟩, fun _ => ⟨isType_iff.mpr htype, hquasi⟩⟩
      -- The grammar admits nothing else there.
      obtain ⟨slot, x, hslot, hx, hchild⟩ := hd.child hp
      rw [hquasi, slot?_one htype rfl (x := .template)] at hslot
      cases hslot
      cases hx
      exact isType_iff.mpr (hchild.type_eq rfl)
    · obtain ⟨hplaced, hnot⟩ := hanywhere _ (congrArg some (if_neg hquasi)) hfinite.2
      exact ⟨hplaced, fun h => absurd h hnot⟩
  · obtain ⟨hplaced, hnot⟩ := hanywhere _ rfl (htally ▸ hfinite)
    exact ⟨hplaced, fun h => absurd h hnot⟩
  · have hposition : position = .anywhere := by
      cases position with
      | anywhere => rfl
      | tagged => exact absurd (isType_iff.mp (hposition rfl)) htemplate
    subst hposition
    obtain ⟨hplaced, hnot⟩ := hanywhere _ rfl (htally ▸ hfinite)
    exact ⟨hplaced, fun h => absurd h hnot⟩

/-- A tagged template has one template right below it. -/
theorem count_quasi (hd : Derives .strict s t) (h : KeepsTagged t) :
    t.childNodes.countP (fun p => p.2.isType "TemplateLiteral") =
      if t.isType "TaggedTemplateExpression" then 1 else 0 := by
  cases htagged : t.isType "TaggedTemplateExpression" with
  | false =>
    rw [if_neg Bool.false_ne_true, List.countP_eq_zero]
    intro p hp htype
    rw [(h p hp htype).1] at htagged
    cases htagged
  | true =>
    have htype := isType_iff.mp htagged
    have hquasi := hd.one htype rfl (k := "quasi") (x := .template)
    have htemplate := isType_iff.mpr (hquasi.type_eq rfl)
    have hslot : slot? s t "quasi" = some (.one .template) := slot?_one htype rfl
    have hmem := mem_of_lookup_eq_some (hd.get?_of_slot? hslot rfl).1
    -- The templates below the node are those in the one field with this key.
    have hfields : ∀ fs : Fields, (∀ f ∈ fs, f ∈ t.fields) →
        ((fs.filter (isSyntaxKey ·.1)).flatMap fun f => (nodesIn f.2).map fun y => (f.1, y)).countP
          (fun p => p.2.isType "TemplateLiteral") = (fs.map (·.1)).count "quasi" := by
      intro fs hfs
      induction fs with
      | nil => rfl
      | cons f fs ih =>
        rw [List.forall_mem_cons] at hfs
        rw [List.map_cons, List.count_cons, ← ih hfs.2, List.filter_cons]
        by_cases hkey : f.1 = "quasi"
        · have hvalue : f.2 = t.get "quasi" := by
            rw [← hd.get_of_mem (k := f.1) hfs.1, hkey]
          have hnodes : nodesIn f.2 = [t.get "quasi"] := by
            rw [hvalue, nodesIn, hquasi.items, List.filter_singleton, hquasi.isNode]
            rfl
          simp [hkey, hnodes, htemplate, isSyntaxKey, skippedKeys, add_comm]
        · have hother : (f.1 == "quasi") = false := by simpa using hkey
          rw [hother, if_neg Bool.false_ne_true, add_zero]
          split
          · rename_i hk
            rw [List.flatMap_cons, List.countP_append, Nat.add_eq_right, List.countP_eq_zero]
            intro p hp htype
            obtain ⟨y, hy, rfl⟩ := List.mem_map.mp hp
            exact hkey (h (f.1, y) (mem_childNodes.mpr ⟨f.2, hfs.1, hk, hy⟩) htype).2
          · rfl
    rw [if_pos rfl, childNodes, hfields _ fun _ => id]
    exact List.count_eq_one_of_mem hd.distinct (List.mem_map.mpr ⟨_, hmem, rfl⟩)

theorem count_left (ht : Derives .strict .program t) :
    ∃ out, lower t = .ok out ∧ (∀ n ∈ out.tree.nodes, KeepsTagged n) ∧
      out.diagnostics.length = out.tree.nodes.countP (·.isType "TemplateLiteral") ∧
      out.diagnostics.length = out.tree.nodes.countP (·.isType "TaggedTemplateExpression") := by
  obtain ⟨out, hout, hd⟩ := derives_lower ht
  have hlength : (out.diagnostics.length : ℕ∞) = survey.tally .anywhere out.tree :=
    length_of_counted handle_counted ht ⟨.program, ht, Grammar.Symbol.noConfusion⟩ hout
  have hfinite : survey.tally .anywhere out.tree ≠ ⊤ := by
    rw [← hlength]
    exact ENat.natCast_ne_top _
  have hkeeps : ∀ n ∈ out.tree.nodes, KeepsTagged n ∧ ∃ s, Derives .strict s n := by
    intro n hn
    have hplaced := hd.forall_nodes (fun n => IsPlaced n ∧ ∃ s, Derives .strict s n)
      (fun hd h p hp => ⟨(isPlaced_child hd h.1 hp).1, by
        obtain ⟨-, x, -, -, hx⟩ := hd.child hp
        exact ⟨x, hx⟩⟩) ⟨⟨.anywhere, hfinite, nofun⟩, .program, hd⟩ n hn
    obtain ⟨hplaced, s, hs⟩ := hplaced
    exact ⟨fun p hp => (isPlaced_child hs hplaced hp).2, s, hs⟩
  have htagged : out.diagnostics.length = out.tree.nodes.countP (·.isType "TaggedTemplateExpression") := by
    exact_mod_cast hlength.trans (count_tagged hd hfinite).symm
  have hboth := hd.countP_of_children (·.isType "TaggedTemplateExpression") (·.isType "TemplateLiteral")
    fun n hn => by
      obtain ⟨hn, s, hs⟩ := hkeeps n hn
      exact count_quasi hs hn
  have hroot : out.tree.isType "TemplateLiteral" = false := by
    simp [isType_of_type? (hd.type_eq rfl)]
  rw [hroot, if_neg Bool.false_ne_true, add_zero] at hboth
  exact ⟨out, hout, fun n hn => (hkeeps n hn).1, htagged.trans hboth.symm, htagged⟩

end Template

/-! ## The lowerings together -/

namespace Pass

/-- **Nothing is left without a word.** The lowering of classes reports each class that it leaves; that of
templates leaves them behind a tag only, and reports each of these; that of defaults reports each function
that keeps one; and that of methods reports each method that stays one. None of these runs fails. -/
theorem length_diagnostics {t : Tree} (hwellFormed : isWellFormed t = true) :
    CountsLeft (Pass.lower .classes) (·.isTypeIn classTypes) t ∧
    (∃ out, Pass.lower .stringTemplates t = .ok out ∧ (∀ n ∈ out.tree.nodes, Template.KeepsTagged n) ∧
      out.diagnostics.length = out.tree.nodes.countP (·.isType "TemplateLiteral") ∧
      out.diagnostics.length = out.tree.nodes.countP (·.isType "TaggedTemplateExpression")) ∧
    CountsLeft (Pass.lower .defaultArguments) Default.hasDefault t ∧
    CountsLeft (Pass.lower .objectMethods) Method.isMethod t := by
  have ht : Derives .strict .program t := fits_one_iff.mp hwellFormed
  have hprogram : Derives .any .program t := fits_one_iff.mp (isWellFormed_iff.mp hwellFormed).1
  exact ⟨Class.count_left ht, Template.count_left ht, Default.count_left hprogram,
    Method.count_left hprogram⟩

theorem length_diagnostics_leftAlone :
    isWellFormed leftAlone = true ∧ CountsLeft (Pass.lower .classes) (·.isTypeIn classTypes) leftAlone ∧
    (∃ out, Pass.lower .stringTemplates leftAlone = .ok out ∧
      (∀ n ∈ out.tree.nodes, Template.KeepsTagged n) ∧
      out.diagnostics.length = out.tree.nodes.countP (·.isType "TemplateLiteral") ∧
      out.diagnostics.length = out.tree.nodes.countP (·.isType "TaggedTemplateExpression")) ∧
    CountsLeft (Pass.lower .defaultArguments) Default.hasDefault leftAlone ∧
    CountsLeft (Pass.lower .objectMethods) Method.isMethod leftAlone := by
  have hwellFormed : isWellFormed leftAlone = true := by decide
  exact ⟨hwellFormed, length_diagnostics hwellFormed⟩

end Pass
end Lower
end Downlevel
