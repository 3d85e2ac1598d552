import Downlevel.Proofs.Lower.Template
import Downlevel.Proofs.Settled.Step

/-!
# `Proofs.Settled.Template`: templates, lowered twice

Every template becomes a concatenation, those of tagged templates apart: they are reported, and only
searched. The concatenation holds all expressions of the template, as long as a segment follows each of
them.
-/

namespace Downlevel.Lower.Template

open Tree Node Grammar Survey

variable {s : Symbol} {t : Tree} {w : Work}

/-- The contexts in which the parts of a node are visited. -/
def contextOf (position : Position) (t : Tree) (key : String) : Option Position :=
  if t.isType "TaggedTemplateExpression" then
    if key = "tag" then some .anywhere else if key = "quasi" then some .tagged else none
  else if t.isType "TemplateLiteral" then
    match position with
    | .tagged => if key = "expressions" then some .anywhere else none
    | .anywhere => some .anywhere
  else some position

/-- A tagged template is left alone, and its template with it. -/
noncomputable def survey : Survey Position where
  types := ["TaggedTemplateExpression", "TemplateLiteral"]
  worth position t :=
    if t.isType "TaggedTemplateExpression" then 1
    else if t.isType "TemplateLiteral" then
      match position with
      | .tagged => 0
      | .anywhere => ⊤
    else 0
  context := contextOf
  worth_other _ t h := by
    rw [isTypeIn, List.any_eq_false] at h
    rw [if_neg (h _ (by decide)), if_neg (h _ (by decide))]
  context_other c t h := by
    rw [isTypeIn, List.any_eq_false] at h
    funext key
    unfold contextOf
    rw [if_neg (h _ (by decide)), if_neg (h _ (by decide))]

instance : survey.SparesBuilt where
  not_mem := show ∀ type ∈ builtTypes, type ∉ ["TaggedTemplateExpression", "TemplateLiteral"] by decide

/-! ## Concatenations -/

/-- Segments count nothing. -/
theorem tallyItems_segment {quasi : Tree} (h : Derives .strict .templateElement quasi) :
    survey.tallyItems .anywhere (segment quasi) = 0 := by
  have hliteral := derives_segment h
  unfold segment at hliteral ⊢
  simp only [] at hliteral ⊢
  split
  · rename_i hset
    rw [if_pos hset, List.forall_mem_singleton] at hliteral
    have htype : (literal ((quasi.get "value").get "cooked") quasi).type? = some "Literal" := by
      rw [literal, type?, get_located (by decide) (by decide)]
      rfl
    rw [tallyItems_cons, tallyItems_nil, add_zero]
    exact tally_of_leaf hliteral htype (by repeat constructor) (spares (by decide))
      (by decide)
  · exact tallyItems_nil

theorem tallyItems_segments {quasis : List Tree} (h : ∀ q ∈ quasis, Derives .strict .templateElement q) :
    survey.tallyItems .anywhere quasis = 0 := by
  induction quasis with
  | nil => exact tallyItems_nil
  | cons q qs ih =>
    rw [List.forall_mem_cons] at h
    have hq : survey.tally .anywhere q = 0 :=
      tally_of_leaf h.1 (h.1.type_eq rfl) (by repeat constructor)
        (show "TemplateElement" ∉ ["TaggedTemplateExpression", "TemplateLiteral"] by decide)
        (by decide)
    rw [tallyItems_cons, hq, ih h.2, add_zero]

theorem tallyItems_operands : ∀ {quasis expressions : List Tree},
    (∀ q ∈ quasis, Derives .strict .templateElement q) → expressions.length ≤ quasis.length →
    survey.tallyItems .anywhere (operands quasis expressions) = survey.tallyItems .anywhere expressions
  | [], [], _, _ => rfl
  | [], _ :: _, _, h => by cases h
  | q :: qs, [], hq, h => by
    rw [List.forall_mem_cons] at hq
    rw [operands, tallyItems_append, tallyItems_segment hq.1,
      tallyItems_operands hq.2 (Nat.zero_le _), zero_add]
  | q :: qs, e :: es, hq, h => by
    rw [List.forall_mem_cons] at hq
    rw [operands, tallyItems_append, tallyItems_segment hq.1, tallyItems_cons,
      tallyItems_operands hq.2 (Nat.le_of_succ_le_succ h), zero_add, tallyItems_cons]

theorem tallyItems_startWithString (es : List Tree) :
    survey.tallyItems .anywhere (startWithString es) = survey.tallyItems .anywhere es := by
  have hempty : survey.tally .anywhere (literal (.str "")) = 0 :=
    tally_literal _ rfl .null
  unfold startWithString
  split
  · rfl
  · split
    · rfl
    · rw [tallyItems_cons, hempty, zero_add]
  · split
    · rfl
    · rw [tallyItems_cons, hempty, zero_add]

theorem tally_foldl (es : List Tree) (first : Tree) :
    survey.tally .anywhere (es.foldl (fun sum t => binary "+" sum t) first) =
      survey.tally .anywhere first + survey.tallyItems .anywhere es := by
  induction es generalizing first with
  | nil => simp
  | cons e es ih =>
    rw [List.foldl_cons, ih, tally_binary, tallyItems_cons, add_assoc]

theorem isTypeIn_binary (left right : Tree) : (binary "+" left right).isTypeIn survey.types = false := by
  have htype : (binary "+" left right).type? = some "BinaryExpression" := rfl
  exact isTypeIn_false htype (spares (by decide))

/-- A concatenation is no template. -/
theorem isTypeIn_foldl : ∀ (es : List Tree) (first : Tree), first.isTypeIn survey.types = false →
    (es.foldl (fun sum t => binary "+" sum t) first).isTypeIn survey.types = false
  | [], _, h => h
  | e :: es, first, _ => by
    exact isTypeIn_foldl es _ (isTypeIn_binary first e)

/-- The operands are not a single one, unless it is a string. -/
theorem isTypeIn_startWithString {es rest : List Tree} {first : Tree}
    (h : startWithString es = first :: rest) :
    (rest.foldl (fun sum t => binary "+" sum t) first).isTypeIn survey.types = false := by
  cases rest with
  | cons e rest =>
    exact isTypeIn_foldl rest _ (isTypeIn_binary first e)
  | nil =>
    have hstring : isStringLiteral first := by
      unfold startWithString at h
      split at h
      · cases h
      · split at h
        · rename_i hliteral
          cases h
          exact hliteral
        · cases h
      · split at h <;> cases h
    rw [isStringLiteral, Bool.and_eq_true] at hstring
    exact isTypeIn_false (isType_iff.mp hstring.1) (spares (by decide))

theorem templateKeys : (rulesFor "TemplateLiteral").map (·.1) = ["quasis", "expressions"] := rfl

/-- A concatenation counts what the expressions of its template do. -/
theorem tally_concatenation (hd : Derives .strict s t) (htype : t.type? = some "TemplateLiteral") :
    survey.tally .anywhere (concatenation t) = survey.tallyFields (fun _ => some .anywhere) t.fields := by
  have hquasis : t.get "quasis" = .list (t.children "quasis") ∧
      ∀ q ∈ t.children "quasis", Derives .strict .templateElement q := hd.many htype rfl
  have hexpressions : t.get "expressions" = .list (t.children "expressions") := (hd.many htype rfl).1
  -- A segment follows each expression, so the concatenation holds all of them.
  have hlength : (t.children "expressions").length ≤ (t.children "quasis").length := by
    have hwritten := (agrees_iff.mp hd.agrees).2 rfl
    rw [isWritten, isType_iff.mpr htype, Bool.and_eq_true, Bool.not_true, Bool.false_or, beq_iff_eq] at hwritten
    omega
  rw [tallyFields_of_keys hd htype templateKeys]
  have hsum : survey.tally .anywhere (t.get "quasis") + survey.tally .anywhere (t.get "expressions") =
      survey.tallyItems .anywhere
        (startWithString (operands (t.children "quasis") (t.children "expressions"))) := by
    rw [tallyItems_startWithString, tallyItems_operands hquasis.2 hlength, hquasis.1, hexpressions,
      tally_list, tally_list, tallyItems_segments hquasis.2, zero_add]
  rw [List.map_cons, List.map_cons, List.map_nil, List.sum_cons, List.sum_cons, List.sum_nil,
    add_zero, entry_some rfl, entry_some rfl, hsum, concatenation]
  cases hes : startWithString (operands (t.children "quasis") (t.children "expressions")) with
  | nil => exact tally_literal _ rfl t
  | cons first rest =>
    show survey.tally .anywhere (located _ t) = _
    rw [tally_located (isTypeIn_startWithString hes), tally_foldl, tallyItems_cons]

/-! ## Contexts -/

/-- Where the template of a tagged template is searched. -/
def searched (key : String) : Option Position := if key = "expressions" then some .anywhere else none

theorem contextOf_tagged (htype : t.type? = some "TemplateLiteral") : contextOf .tagged t = searched := by
  funext key
  simp [contextOf, isType_of_type? htype, searched]

theorem tally_tagged_template {m : Option Nat} {fs : Fields}
    (htype : (Tree.obj m fs).type? = some "TemplateLiteral") :
    survey.tally .tagged (.obj m fs) = survey.tallyFields searched fs := by
  have hworth : survey.worth .tagged (.obj m fs) = 0 := by
    simp [survey, isType_of_type? htype]
  have hcontext : survey.context .tagged (.obj m fs) = searched := contextOf_tagged htype
  rw [tally_obj, hworth, hcontext, zero_add]

theorem admissible_searched (htype : t.type? = some "TemplateLiteral") :
    Admissible (contract .strict) .strict s t searched := by
  intro key c hc
  refine ⟨fun _ _ => id, fun slot x y hslot hx _ _ => ?_⟩
  unfold searched at hc
  split at hc
  · cases hc
    exact content?_ne_template hslot (by rw [htype]; decide) hx
  · cases hc

theorem admissible_anywhere (htype : t.type? ≠ some "TaggedTemplateExpression") :
    Admissible (contract .strict) .strict s t (fun _ => some .anywhere) := by
  intro key c hc
  cases hc
  exact ⟨fun _ _ => id, fun slot x y hslot hx _ _ => content?_ne_template hslot htype hx⟩

theorem not_template (htagged : t.type? ≠ some "TaggedTemplateExpression")
    (htemplate : t.type? ≠ some "TemplateLiteral") : t.isTypeIn survey.types = false := by
  show t.isTypeIn ["TaggedTemplateExpression", "TemplateLiteral"] = false
  rw [isTypeIn, List.any_eq_false]
  intro type hmem htype
  rcases List.mem_pair.mp hmem with rfl | rfl
  · exact htagged (isType_iff.mp htype)
  · exact htemplate (isType_iff.mp htype)

/-! ## Tagged templates -/

section

variable {s : Symbol} {t : Tree} (hd : Derives .strict s t) (htype : t.type? = some "TaggedTemplateExpression")

include hd htype

omit hd htype in
theorem taggedKeys : (rulesFor "TaggedTemplateExpression").map (·.1) = ["tag", "quasi"] := rfl

/-- A tagged template is reported, besides what is left alone in its parts. -/
theorem tally_tagged {position : Position} : survey.tally position t =
    1 + (survey.tally .anywhere (t.get "tag") + survey.tally .tagged (t.get "quasi")) := by
  have hworth : survey.worth position t = 1 := if_pos (isType_iff.mpr htype)
  have hcontext : ∀ key, survey.context position t key =
      if key = "tag" then some .anywhere else if key = "quasi" then some .tagged else none :=
    fun key => if_pos (isType_iff.mpr htype)
  have htag : survey.entry (survey.context position t) "tag" (t.get "tag") =
      survey.tally .anywhere (t.get "tag") := entry_of_context (hcontext "tag") rfl
  have hquasi : survey.entry (survey.context position t) "quasi" (t.get "quasi") =
      survey.tally .tagged (t.get "quasi") := entry_of_context (hcontext "quasi") rfl
  rw [tally_of_isObject hd.isObject, hworth, tallyFields_of_keys hd htype taggedKeys, List.map_cons, List.map_cons,
    List.map_nil, List.sum_cons, List.sum_cons, List.sum_nil, add_zero, htag, hquasi]

end

/-- A tagged template is reported, and its parts are visited. -/
theorem tagged_inv {L : Law Position Work} {m : Option Nat} {fs : Fields} {o : Outcome}
    {w' : Work} (hparts : PartsFollow L m fs (partsOf handle m fs)) (hd : Derives .strict s (.obj m fs))
    (htype : (Tree.obj m fs).type? = some "TaggedTemplateExpression")
    (h : Yields (handle .anywhere (.obj m fs) (partsOf handle m fs)) w o w') :
    ∃ tag quasi w₁ w₂, (L .anywhere ((Tree.obj m fs).get "tag") w tag w₁ ∧
        Good (contract .strict) .strict .anywhere ((Tree.obj m fs).get "tag")) ∧
      (L .tagged ((Tree.obj m fs).get "quasi") w₁ quasi w₂ ∧
        Good (contract .strict) .strict .tagged ((Tree.obj m fs).get "quasi")) ∧
      o = .keep (((Tree.obj m fs).set "tag" tag.value).set "quasi" quasi.value) ∧
      (w'.diagnostics.length : ℕ∞) = w₂.diagnostics.length + 1 := by
  have htagSlot : slot? s (.obj m fs) "tag" = some (.one .expression) := slot?_one htype rfl
  have hquasiSlot : slot? s (.obj m fs) "quasi" = some (.one .template) := slot?_one htype rfl
  have hquasi (tag : Tree) : ((Tree.obj m fs).set "tag" tag).has "quasi" :=
    isSome_get?_set (by rw [(hd.get?_of_slot? hquasiSlot rfl).1]; rfl)
  simp only [handle, htype] at h
  obtain ⟨v, _, hrequire, h₁⟩ := h.bind_inv
  obtain ⟨-, rfl⟩ := hrequire.lift_inv
  obtain ⟨tag, w₁, htag, h₂⟩ := h₁.bind_inv
  obtain ⟨quasi, w₂, hvisit, h₃⟩ := h₂.bind_inv
  obtain ⟨_, w₃, hdecline, h₄⟩ := h₃.bind_inv
  obtain ⟨rfl, rfl⟩ := h₄.pure_inv
  rw [if_pos (hquasi tag.value)]
  exact ⟨tag, quasi, w₁, w₂, follows_field hparts hd htagSlot Grammar.Symbol.noConfusion htag,
    follows_field hparts hd hquasiSlot rfl hvisit, rfl, length_of_decline hdecline⟩

/-! ## The laws -/

theorem handle_counted :
    HandlerFollows handle (survey.Counted (Good (contract .strict) .strict)) := by
  rintro position m fs w o w' hparts h ⟨s, hd, hadmits⟩
  have hinv : ∀ w, (contract .strict).invariant w := fun _ => trivial
  have hblock : "BlockStatement" ∉ survey.types := spares (by decide)
  rw [← tally_value]
  cases position with
  | tagged =>
    cases hadmits
    have htype := hd.type_eq rfl
    obtain ⟨t₁, hdescend, rfl⟩ := h.map_inv
    obtain ⟨gs, rfl, hd₁, htype₁, hcount⟩ := counted_descend handle_keeps hinv hblock hparts hd
      (admissible_searched htype) hdescend
    rw [hcount, Outcome.value, tally_tagged_template (htype₁.trans htype)]
  | anywhere =>
    have hregular := yields_of_keeps handle_keeps hinv hd hadmits h
    by_cases htagged : (Tree.obj m fs).type? = some "TaggedTemplateExpression"
    · obtain ⟨tag, quasi, w₁, w₂, ⟨hcount₁, hgood₁⟩, ⟨hcount₂, hgood₂⟩, rfl, hcount⟩ :=
        tagged_inv hparts hd htagged h
      rw [hcount, hcount₂ hgood₂, hcount₁ hgood₁, Outcome.value, tally_tagged (derives_of_regular hregular)
          (by rw [type?_set (by decide), type?_set (by decide)]; exact htagged),
        get_set_of_ne (by decide), get_set_self rfl, get_set_self rfl, tally_value, tally_value]
      ac_rfl
    unfold handle at h
    simp only [] at h
    split at h
    · exact absurd ‹_› htagged
    · rename_i htype
      obtain ⟨t₁, hdescend, rfl⟩ := h.map_inv
      obtain ⟨gs, rfl, hd₁, htype₁, hcount⟩ := counted_descend handle_keeps hinv hblock hparts
        hd (admissible_anywhere (by rw [htype]; decide)) hdescend
      rw [hcount, Outcome.value, tally_concatenation hd₁ (htype₁.trans htype)]
      rfl
    · rename_i htemplate
      obtain ⟨t₁, hdescend, rfl⟩ := Yields.map_inv h
      obtain ⟨gs, rfl, hd₁, htype₁, hcount⟩ := counted_descend handle_keeps hinv hblock hparts
        hd (admissible_anywhere htagged) hdescend
      have hother : (Tree.obj m gs).isTypeIn survey.types = false := by
        rw [isTypeIn_congr htype₁]
        exact not_template htagged htemplate
      rw [hcount, Outcome.value, tally_other m gs hother]

theorem handle_unchanged :
    HandlerFollows handle (survey.Unchanged (Good (contract .strict) .strict)) := by
  rintro position m fs w o w' hparts h ⟨s, hd, hadmits⟩ hfinite
  cases position with
  | tagged =>
    cases hadmits
    have htype := hd.type_eq rfl
    rw [tally_tagged_template htype] at hfinite ⊢
    obtain ⟨t₁, hdescend, rfl⟩ := h.map_inv
    obtain ⟨rfl, hcount⟩ := unchanged_descend hparts hd (admissible_searched htype)
      hfinite hdescend
    exact ⟨rfl, hcount⟩
  | anywhere =>
    by_cases htagged : (Tree.obj m fs).type? = some "TaggedTemplateExpression"
    · obtain ⟨tag, quasi, w₁, w₂, ⟨hfollows₁, hgood₁⟩, ⟨hfollows₂, hgood₂⟩, rfl, hcount⟩ :=
        tagged_inv hparts hd htagged h
      rw [tally_tagged hd htagged] at hfinite ⊢
      simp only [Ne, ENat.add_eq_top, not_or] at hfinite
      obtain ⟨rfl, hcount₁⟩ := hfollows₁ hgood₁ hfinite.2.1
      obtain ⟨rfl, hcount₂⟩ := hfollows₂ hgood₂ hfinite.2.2
      have htagSlot : slot? s (.obj m fs) "tag" = some (.one .expression) := slot?_one htagged rfl
      have hquasiSlot : slot? s (.obj m fs) "quasi" = some (.one .template) := slot?_one htagged rfl
      refine ⟨?_, by rw [hcount, hcount₂, hcount₁]; ac_rfl⟩
      rw [Outcome.value, Outcome.value, set_of_get? (hd.get?_of_slot? htagSlot rfl).1,
        set_of_get? (hd.get?_of_slot? hquasiSlot rfl).1]
    unfold handle at h
    simp only [] at h
    split at h
    · exact absurd ‹_› htagged
    · rename_i htype
      -- A template anywhere else would be changed.
      have hworth : survey.worth .anywhere (.obj m fs) = ⊤ := by
        simp [survey, isType_of_type? htype]
      rw [tally_obj, hworth, top_add] at hfinite
      exact absurd rfl hfinite
    · rename_i htemplate
      obtain ⟨t₁, hdescend, rfl⟩ := Yields.map_inv h
      rw [tally_other m fs (not_template htagged htemplate)] at hfinite ⊢
      obtain ⟨rfl, hcount⟩ := unchanged_descend hparts hd
        (admissible_anywhere htagged) hfinite hdescend
      exact ⟨rfl, hcount⟩

/-- **Templates are lowered once and for all.** -/
theorem lower_settles (ht : Derives .strict .program t) : Settles lower t :=
  settles_of_laws handle_counted handle_unchanged derives_lower
    (fun hu => ⟨.program, hu, Grammar.Symbol.noConfusion⟩) ht ⟨.program, ht, Grammar.Symbol.noConfusion⟩

end Downlevel.Lower.Template
