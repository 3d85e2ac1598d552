import Downlevel.Proofs.Lower.Default
import Downlevel.Proofs.Lower.Method
import Downlevel.Proofs.Settled.Tally

/-!
# `Proofs.Settled.Step`: methods and defaults, lowered twice

Two lowerings visit all parts of a node first and then take a step at the node itself. For such a lowering
the laws of visits come down to two facts about its step: it reports what it leaves alone, and it does not
touch what it would leave alone.
-/

namespace Downlevel.Lower

open Tree Node Grammar Survey

/-! ## Lowering node by node -/

/-- Nothing is asked of the objects of a tree. -/
abbrev AnyGood : Unit → Tree → Prop := Good (regularContract Unit Work .any) .any

theorem admissible_regular {s : Symbol} {t : Tree} (contexts : String → Option Unit) :
    Admissible (regularContract Unit Work .any) .any s t contexts :=
  fun _ _ _ => ⟨fun _ _ => id, fun _ _ _ _ _ _ _ => trivial⟩

theorem any_good {s : Symbol} {t : Tree} (h : Derives .any s t) : AnyGood () t :=
  ⟨s, h, trivial⟩

/-- The diagnostic of a node that is left alone. -/
theorem length_of_decline {pass message : String} {node : Tree} {w w' : Work} {u : Unit}
    (h : Yields (decline pass message node) w u w') :
    (w'.diagnostics.length : ℕ∞) = w.diagnostics.length + 1 := by
  cases h
  simp

/-- A survey of all nodes in the same way. -/
noncomputable def surveyOf (types : List String) (worth : Tree → ℕ∞) : Survey Unit where
  types := types
  worth _ t := if t.isTypeIn types then worth t else 0
  context _ _ := fun _ => some ()
  worth_other _ t h := if_neg (by simp [h])
  context_other _ _ _ := rfl

section

variable {types : List String} {worth : Tree → ℕ∞} {step : Tree → Visit Work Tree}
  {handle : Handler Unit Work}

theorem tally_surveyOf {t : Tree} (h : t.isObject) (hin : t.isTypeIn types) :
    (surveyOf types worth).tally () t =
      worth t + (surveyOf types worth).tallyFields (fun _ => some ()) t.fields := by
  rw [tally_of_isObject h]
  exact congrArg (· + _) (if_pos hin)

/-- A step reports what it leaves alone. -/
def StepCounts (types : List String) (worth : Tree → ℕ∞) (step : Tree → Visit Work Tree) : Prop :=
  ∀ s t w t' w', Derives .any s t → t.isTypeIn types = true → Yields (step t) w t' w' →
    ∃ n : ℕ∞, (w'.diagnostics.length : ℕ∞) = w.diagnostics.length + n ∧
      (surveyOf types worth).tally () t' =
        n + (surveyOf types worth).tallyFields (fun _ => some ()) t.fields

/-- A step does not touch what it would leave alone. -/
def StepRests (types : List String) (worth : Tree → ℕ∞) (step : Tree → Visit Work Tree) : Prop :=
  ∀ s t w t' w', Derives .any s t → t.isTypeIn types = true → worth t ≠ ⊤ → Yields (step t) w t' w' →
    t' = t ∧ (w'.diagnostics.length : ℕ∞) = w.diagnostics.length + worth t

theorem counted_of_step (hhandle : IsStepwise handle types step)
    (hkeeps : HandlerKeeps (regularContract Unit Work .any) .any handle)
    (hblock : "BlockStatement" ∉ types) (hstep : StepCounts types worth step) :
    HandlerFollows handle ((surveyOf types worth).Counted AnyGood) := by
  rintro c m fs w o w' hparts h ⟨s, hd, -⟩
  rw [hhandle] at h
  obtain ⟨t₁, w₁, hdescend, h⟩ := h.bind_inv
  obtain ⟨gs, rfl, hd₁, htype, hcount⟩ := counted_descend hkeeps (fun _ => trivial)
    hblock hparts hd (admissible_regular _) hdescend
  rw [← tally_value]
  have htype₁ := isTypeIn_congr htype types
  cases hin : (Tree.obj m fs).isTypeIn types with
  | false =>
    rw [hin] at h htype₁
    obtain ⟨rfl, rfl⟩ := h.pure_inv
    rw [hcount, Outcome.value]
    exact congrArg _ (tally_other m gs htype₁).symm
  | true =>
    rw [hin] at h htype₁
    obtain ⟨t₂, w₂, hyields, h⟩ := h.bind_inv
    obtain ⟨rfl, rfl⟩ := h.pure_inv
    obtain ⟨n, hn, htally⟩ := hstep s _ w₁ t₂ w' hd₁ htype₁ hyields
    rw [hn, hcount, Outcome.value, htally, add_assoc, add_comm n]
    rfl

theorem unchanged_of_step (hhandle : IsStepwise handle types step) (hstep : StepRests types worth step) :
    HandlerFollows handle ((surveyOf types worth).Unchanged AnyGood) := by
  rintro c m fs w o w' hparts h ⟨s, hd, -⟩ hfinite
  rw [hhandle] at h
  obtain ⟨t₁, w₁, hdescend, h⟩ := h.bind_inv
  rw [tally_obj, Ne, ENat.add_eq_top, not_or] at hfinite
  obtain ⟨rfl, hcount⟩ := unchanged_descend hparts hd (admissible_regular _) hfinite.2 hdescend
  cases hin : (Tree.obj m fs).isTypeIn types with
  | false =>
    rw [hin] at h
    obtain ⟨rfl, rfl⟩ := h.pure_inv
    rw [hcount]
    exact ⟨rfl, congrArg _ (tally_other m fs hin).symm⟩
  | true =>
    rw [hin] at h
    obtain ⟨t₂, w₂, hyields, h⟩ := h.bind_inv
    obtain ⟨rfl, rfl⟩ := h.pure_inv
    have hworth : (surveyOf types worth).worth c (.obj m fs) = worth (.obj m fs) := if_pos hin
    rw [hworth] at hfinite
    obtain ⟨rfl, hn⟩ := hstep s _ w₁ t₂ w' hd hin hfinite.1 hyields
    rw [hn, hcount, tally_obj, hworth, add_assoc, add_comm (worth _)]
    exact ⟨rfl, rfl⟩

end

/-! ## Methods -/

namespace Method

/-- A method that uses `super` is left alone. -/
noncomputable def worth (t : Tree) : ℕ∞ :=
  if (t.get "method").isSet then if (t.get "value").usesSuper then 1 else ⊤ else 0

/-- What becomes of a property. -/
theorem property_cases {t t' : Tree} {w w' : Work} (h : Yields (property t) w t' w') :
    (worth t = 0 ∧ t' = t ∧ w' = w) ∨
      (worth t = 1 ∧ t' = t ∧ (w'.diagnostics.length : ℕ∞) = w.diagnostics.length + 1) ∨
      (worth t = ⊤ ∧ (t.get "method").isSet ∧ t' = t.set "method" (.bool false) ∧ w' = w) := by
  rw [property] at h
  cases hmethod : (t.get "method").isSet with
  | false =>
    rw [hmethod] at h
    obtain ⟨rfl, rfl⟩ := h.pure_inv
    exact .inl ⟨by simp [worth, hmethod], rfl, rfl⟩
  | true =>
    rw [hmethod] at h
    cases hsuper : (t.get "value").usesSuper with
    | true =>
      rw [hsuper] at h
      obtain ⟨_, w₁, hdecline, h⟩ := h.bind_inv
      obtain ⟨rfl, rfl⟩ := h.pure_inv
      exact .inr (.inl ⟨by simp [worth, hmethod, hsuper], rfl, length_of_decline hdecline⟩)
    | false =>
      rw [hsuper] at h
      obtain ⟨rfl, rfl⟩ := h.pure_inv
      exact .inr (.inr ⟨by simp [worth, hmethod, hsuper], rfl, rfl, rfl⟩)

theorem property_rests : StepRests ["Property"] worth property := by
  intro s t w t' w' hd htype hfinite h
  rcases property_cases h with ⟨hworth, rfl, rfl⟩ | ⟨hworth, rfl, hcount⟩ | ⟨hworth, -⟩
  · rw [hworth, add_zero]
    exact ⟨rfl, rfl⟩
  · rw [hworth]
    exact ⟨rfl, hcount⟩
  · exact absurd hworth hfinite

theorem property_counts : StepCounts ["Property"] worth property := by
  intro s t w t' w' hd hin h
  rcases property_cases h with ⟨hworth, rfl, rfl⟩ | ⟨hworth, rfl, hcount⟩ | ⟨-, hmethod, rfl, rfl⟩
  · refine ⟨0, (add_zero _).symm, ?_⟩
    rw [tally_surveyOf hd.isObject hin, hworth]
  · refine ⟨1, hcount, ?_⟩
    rw [tally_surveyOf hd.isObject hin, hworth]
  · -- The parts of the property stay, and it is no method any more.
    refine ⟨0, (add_zero _).symm, ?_⟩
    have htype : t.type? = some "Property" := isType_iff.mp (by simpa [isTypeIn] using hin)
    have hd' := derives_set_method hd htype hmethod
    have hin' : (t.set "method" (.bool false)).isTypeIn ["Property"] := by
      have htype' : (t.set "method" (.bool false)).type? = t.type? := by
        rw [type?, type?, get_set_of_ne (by decide)]
      rw [isTypeIn_congr htype']
      exact hin
    have hworth : worth (t.set "method" (.bool false)) = 0 := by
      rw [worth, get_set_self hd.isObject]
      rfl
    rw [tally_surveyOf hd'.isObject hin', hworth, tallyFields_set_other hd hd' ?_ (by decide)]
    rw [rulesOf_of_type? htype]
    rfl

theorem lower_settles {t : Tree} (ht : Derives .any .program t) : Settles lower t :=
  settles_of_laws (counted_of_step isStepwise handle_keeps (by decide) property_counts)
    (unchanged_of_step isStepwise property_rests) derives_lower any_good ht (any_good ht)

end Method

/-! ## Defaults -/

namespace Default

/-- Does the body of a function hold statements? -/
def hasStatements (t : Tree) : Bool := (t.get "body").isType "BlockStatement" && (t.get "body").has "body"

/-- A function with defaults is left alone if one belongs to a pattern, or refers to a name of the
body. -/
noncomputable def worth (t : Tree) : ℕ∞ :=
  if ((t.children "params").filter isDefaulted).isEmpty then 0
  else if hasPattern t then 1
  else if hasStatements t && (clashOf t).isSome then 1
  else ⊤

/-- The survey of functions with defaults. -/
noncomputable abbrev survey : Survey Unit := surveyOf functionTypes worth

theorem withStatements_of_hasStatements {t : Tree} (h : hasStatements t) : withStatements t = t := by
  rw [hasStatements, Bool.and_eq_true] at h
  rw [withStatements, if_pos h.1, if_pos h.2]

theorem hasStatements_withStatements {s : Symbol} {t : Tree} (hd : Derives .any s t)
    (hin : t.isTypeIn functionTypes) : hasStatements (withStatements t) := by
  obtain ⟨-, -, hblock⟩ := derives_withStatements hd hin
  rw [hasStatements, isType_iff.mpr (hblock.type_eq rfl), has,
    (hblock.get?_of_slot? hblock.slot?_block rfl).1]
  rfl

theorem children_withStatements (t : Tree) :
    (withStatements t).children "params" = t.children "params" := by
  rw [children, get_withStatements (by decide) (by decide), children]

/-- What becomes of a function, by its worth. -/
theorem function_worth {s : Symbol} {t t' : Tree} {w w' : Work} (hd : Derives .any s t)
    (hin : t.isTypeIn functionTypes) (h : Yields (function t) w t' w') :
    (worth t = 0 ∧ t' = t ∧ w' = w) ∨
      (worth t = 1 ∧ t' = t ∧ (w'.diagnostics.length : ℕ∞) = w.diagnostics.length + 1) ∨
      (t' = withStatements t ∧ (w'.diagnostics.length : ℕ∞) = w.diagnostics.length + 1 ∧
        worth (withStatements t) = 1 ∧ (hasStatements t = false → worth t = ⊤)) ∨
      (worth t = ⊤ ∧ w' = w ∧ hasPattern t = false ∧ t' = moved t) := by
  rcases function_cases h with ⟨hempty, rfl, rfl⟩ |
    ⟨hempty, ⟨hpattern, rfl, d, hd'⟩ | ⟨hpattern, ⟨hclash, rfl, d, hd'⟩ | ⟨hclash, rfl, rfl⟩⟩⟩
  · exact .inl ⟨by rw [worth, hempty, if_pos rfl], rfl, rfl⟩
  · exact .inr (.inl ⟨by simp [worth, hempty, hpattern], rfl, by simp [hd']⟩)
  · have hstatements := hasStatements_withStatements hd hin
    refine .inr (.inr (.inl ⟨rfl, by simp [hd'], ?_, fun hbody => ?_⟩))
    · have hsame : clashOf (withStatements t) = clashOf t := by
        rw [clashOf, withStatements_of_hasStatements hstatements, children_withStatements, clashOf]
      have hpattern' : hasPattern (withStatements t) = hasPattern t := by
        rw [hasPattern, children_withStatements, hasPattern]
      simp [worth, children_withStatements, hempty, hpattern', hpattern, hstatements, hsame, hclash]
    · simp [worth, hempty, hpattern, hbody]
  · exact .inr (.inr (.inr ⟨by simp [worth, hempty, hpattern, hclash], rfl, hpattern, rfl⟩))

theorem function_rests : StepRests functionTypes worth function := by
  intro s t w t' w' hd hin hfinite h
  rcases function_worth hd hin h with ⟨hworth, rfl, rfl⟩ | ⟨hworth, rfl, hcount⟩ |
    ⟨rfl, hcount, hworth, hbody⟩ | ⟨hworth, -⟩
  · rw [hworth, add_zero]
    exact ⟨rfl, rfl⟩
  · rw [hworth]
    exact ⟨rfl, hcount⟩
  · -- Left alone the second time, so the body holds statements already.
    have hstatements : hasStatements t := by
      cases hstatements : hasStatements t with
      | true => rfl
      | false => exact absurd (hbody hstatements) hfinite
    have hsame := withStatements_of_hasStatements hstatements
    rw [hsame] at hworth ⊢
    rw [hworth]
    exact ⟨rfl, hcount⟩
  · exact absurd hworth hfinite

/-! ### What moves -/

instance : survey.SparesBuilt where
  not_mem := show ∀ type ∈ builtTypes, type ∉ functionTypes by decide

section

variable {s : Symbol} {t : Tree} (hd : Derives .any s t) (hin : t.isTypeIn functionTypes)

include hd hin

/-- The parts of a function. -/
theorem tallyFields_function :
    survey.tallyFields (fun _ => some ()) t.fields =
      survey.tally () (t.get "id") +
        (survey.tallyItems () (t.children "params") + survey.tally () (t.get "body")) := by
  obtain ⟨params, hparams⟩ : ∃ params, t.get "params" = .list params := by
    obtain ⟨params, hparams, -⟩ := fits_many_iff.mp (hd.get?_of_slot? (slot?_params hin) rfl).2
    exact ⟨params, hparams⟩
  obtain ⟨type, hmem, htype⟩ := isTypeIn_iff.mp hin
  have hkeys : ∀ type ∈ functionTypes, (rulesFor type).map (·.1) = ["id", "params", "body"] := by decide
  rw [tallyFields_of_keys hd htype (hkeys type hmem)]
  simp [entry_some, isSyntaxKey, skippedKeys, children, hparams, items]

/-- Statements in place of an expression count the same. -/
theorem tallyFields_withStatements :
    survey.tallyFields (fun _ => some ()) (withStatements t).fields =
      survey.tallyFields (fun _ => some ()) t.fields := by
  obtain ⟨hd', htype', -⟩ := derives_withStatements hd hin
  have hin' : (withStatements t).isTypeIn functionTypes := by
    rw [isTypeIn_congr htype']
    exact hin
  rcases hd.function_body hin with ⟨hblock, -⟩ | ⟨-, hbody, hnot⟩
  · have hstatements : hasStatements t := by
      rw [hasStatements, isType_iff.mpr (hblock.type_eq rfl), has,
        (hblock.get?_of_slot? hblock.slot?_block rfl).1]
      rfl
    rw [withStatements_of_hasStatements hstatements]
  · have hget : (withStatements t).get "body" =
        block [returnStatement (some (t.get "body")) (t.get "body")] (t.get "body") ∧
          (withStatements t).get "id" = t.get "id" := by
      simp only [withStatements, hnot, Bool.false_eq_true, if_false, hbody.isSet, if_true]
      rw [get_set_of_ne (by decide), get_set_self hd.isObject, get_set_of_ne (by decide),
        get_set_of_ne (by decide)]
      exact ⟨rfl, rfl⟩
    rw [tallyFields_function hd' hin', tallyFields_function hd hin, children_withStatements, hget.1, hget.2,
      tally_block (spares (by decide)), tallyItems_cons, tally_returnStatement, tallyItems_nil, add_zero]

end

/-- A check counts what its default does. -/
theorem tally_check {target value : Tree} {x : Symbol} (htarget : Derives .any x target)
    (htype : target.type? = some "Identifier") :
    survey.tally () (check target value) = survey.tally () value := by
  obtain ⟨name, hname⟩ := htarget.text htype (k := "name") rfl
  have hsame : survey.tally () (sameName target) = 0 := by
    rw [sameName, tally_make (spares (by decide)), hname]
    simp [entry_some, isSyntaxKey, skippedKeys]
  rw [check, tally_ifStatement, tally_binary, hsame, tally_voidZero, tally_block (spares (by decide)),
    tallyItems_cons, tally_expressionStatement, tally_assign, hsame]
  simp

/-- Parameters and checks count what the parameters with their defaults did, and no default is left. -/
theorem tallyItems_checksOf {params : List Tree} (h : ∀ p ∈ params, Derives .any .pattern p)
    (hidentifiers : ∀ p ∈ params, isDefaulted p → (p.get "left").type? = some "Identifier") :
    survey.tallyItems () (params.map target) + survey.tallyItems () (checksOf params) =
        survey.tallyItems () params ∧
      (params.map target).filter isDefaulted = [] := by
  induction params with
  | nil => simp [checksOf]
  | cons p rest ih =>
    rw [List.forall_mem_cons] at h hidentifiers
    obtain ⟨hsum, hnone⟩ := ih h.2 hidentifiers.2
    rw [List.map_cons, checksOf_cons, tallyItems_cons, tallyItems_cons, List.filter_cons, target]
    cases hdefault : isDefaulted p with
    | false =>
      simp only [Bool.false_eq_true, if_false, hdefault]
      rw [add_assoc, hsum]
      exact ⟨rfl, hnone⟩
    | true =>
      have htype : p.type? = some "AssignmentPattern" := isType_iff.mp hdefault
      have hleft : Derives .any .pattern (p.get "left") := h.1.one htype rfl
      have hidentifier := hidentifiers.1 hdefault
      have hp : survey.tally () p = survey.tally () (p.get "left") + survey.tally () (p.get "right") := by
        rw [tally_of_type h.1 htype (by repeat constructor)
          (show "AssignmentPattern" ∉ functionTypes by decide)]
        simp
      rw [if_pos rfl, if_pos rfl, tallyItems_cons, checkOf, tally_check hleft hidentifier,
        add_add_add_comm, hsum, hp, isDefaulted, isType_of_type? hidentifier]
      exact ⟨rfl, hnone⟩

/-- A block counts what its statements do. -/
theorem tally_of_block {t : Tree} (h : Derives .any .block t) :
    survey.tally () t = survey.tallyItems () (t.children "body") := by
  obtain ⟨statements, hstatements, -⟩ := fits_many_iff.mp (h.get?_of_slot? h.slot?_block rfl).2
  rw [tally_of_type h (h.type_eq rfl) (by repeat constructor)
    (show "BlockStatement" ∉ functionTypes by decide)]
  simp [children, hstatements, items]

/-- A function whose defaults are moved counts the same. -/
theorem tally_moved {s : Symbol} {t : Tree} (hd : Derives .any s t) (hin : t.isTypeIn functionTypes)
    (hpattern : hasPattern t = false) :
    survey.tally () (moved t) = survey.tallyFields (fun _ => some ()) t.fields := by
  obtain ⟨hd', htype', hblock⟩ := derives_withStatements hd hin
  have hmoved := derives_moved hd hin hpattern
  have hparams := hd.function_params hin
  have hidentifiers := identifiers_of_hasPattern hpattern
  obtain ⟨hsum, hnone⟩ := tallyItems_checksOf hparams hidentifiers
  have hin' : (withStatements t).isTypeIn functionTypes := by
    rw [isTypeIn_congr htype']
    exact hin
  have htype : (moved t).type? = (withStatements t).type? := by
    rw [moved, type?_set (by decide), type?_set (by decide)]
  have hin'' : (moved t).isTypeIn functionTypes := by
    rw [isTypeIn_congr htype]
    exact hin'
  have hid : (moved t).get "id" = (withStatements t).get "id" := by
    rw [moved, get_set_of_ne (by decide), get_set_of_ne (by decide)]
  obtain ⟨hparams', hstatements⟩ := children_moved hd.isObject
  have hbody : Derives .any .block ((moved t).get "body") := by
    rw [moved, get_set_self ((isObject_set _ "params" _).trans hd'.isObject)]
    exact hblock.insert_many hblock.slot?_block (by decide) (derives_checksOf hparams hidentifiers) _
  have hworth : worth (moved t) = 0 := by
    simp [worth, hparams', hnone]
  rw [← tallyFields_withStatements hd hin, tally_surveyOf hmoved.isObject hin'', hworth, zero_add,
    tallyFields_function hmoved hin'', tallyFields_function hd' hin', hid, hparams', tally_of_block hbody,
    hstatements, tally_of_block hblock, children_withStatements, ← hsum, tallyItems_insert]
  ac_rfl

theorem function_counts : StepCounts functionTypes worth function := by
  intro s t w t' w' hd hin h
  obtain ⟨hd', htype', -⟩ := derives_withStatements hd hin
  rcases function_worth hd hin h with ⟨hworth, rfl, rfl⟩ | ⟨hworth, rfl, hcount⟩ |
    ⟨rfl, hcount, hworth, -⟩ | ⟨-, rfl, hpattern, rfl⟩
  · refine ⟨0, (add_zero _).symm, ?_⟩
    rw [tally_surveyOf hd.isObject hin, hworth]
  · refine ⟨1, hcount, ?_⟩
    rw [tally_surveyOf hd.isObject hin, hworth]
  · refine ⟨1, hcount, ?_⟩
    rw [tally_surveyOf hd'.isObject ((isTypeIn_congr htype' _).trans hin), hworth,
      tallyFields_withStatements hd hin]
  · refine ⟨0, (add_zero _).symm, ?_⟩
    rw [tally_moved hd hin hpattern, zero_add]

theorem lower_settles {t : Tree} (ht : Derives .any .program t) : Settles lower t :=
  settles_of_laws (counted_of_step isStepwise handle_keeps (by decide) function_counts)
    (unchanged_of_step isStepwise function_rests) derives_lower any_good ht (any_good ht)

end Default
end Downlevel.Lower
