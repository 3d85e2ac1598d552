import Downlevel.Lower.Template
import Downlevel.Proofs.Grammar.Regular

/-!
# `Proofs.Lower.Template`: programs without templates are programs

The segments of a template are texts, so the operands of its concatenation are expressions, and so is
the concatenation. The template of a tagged template is the one place where no concatenation could
stand; it is only searched.
-/

namespace Downlevel.Lower.Template

open Tree Node Grammar

variable {labels : Labelling} {s : Symbol} {t : Tree}

/-! ## Concatenations -/

theorem derives_segment {quasi : Tree} (h : Derives labels .templateElement quasi) :
    ∀ e ∈ segment quasi, Derives labels .expression e := by
  have hvalue : isSegment labels (quasi.get "value") := h.segment (h.type_eq rfl) rfl
  -- The cooked form is a field of a record of scalars.
  have hcooked : isInert labels ((quasi.get "value").get "cooked") := by
    rw [isSegment, Bool.and_eq_true, Bool.and_eq_true] at hvalue
    cases hv : quasi.get "value" with
    | obj m fs =>
      rw [hv, isInert, Bool.and_eq_true, List.all_eq_true] at hvalue
      rw [Tree.get, Tree.get?]
      cases hl : lookup "cooked" (Tree.obj m fs).fields with
      | none => rfl
      | some w =>
        have hw := hvalue.1.2.2 _ (mem_of_lookup_eq_some hl)
        rw [Bool.and_eq_true] at hw
        cases w with
        | list xs => cases hw.2
        | obj m' fs' => cases hw.2
        | _ => rfl
    | _ => rfl
  intro e he
  rw [segment] at he
  split at he
  · rw [List.mem_singleton.mp he]
    exact derives_literal hcooked quasi (by decide)
  · cases he

theorem derives_operands : ∀ {quasis expressions : List Tree},
    (∀ q ∈ quasis, Derives labels .templateElement q) →
    (∀ e ∈ expressions, Derives labels .expression e) →
    ∀ e ∈ operands quasis expressions, Derives labels .expression e
  | [], _, _, _ => by
    intro e he
    cases he
  | q :: qs, [], hq, he => by
    rw [List.forall_mem_cons] at hq
    rw [operands]
    exact List.forall_mem_append.mpr ⟨derives_segment hq.1, derives_operands hq.2 he⟩
  | q :: qs, e :: es, hq, he => by
    rw [List.forall_mem_cons] at hq he
    rw [operands]
    exact List.forall_mem_append.mpr ⟨derives_segment hq.1,
      List.forall_mem_cons.mpr ⟨he.1, derives_operands hq.2 he.2⟩⟩

theorem derives_startWithString {es : List Tree} (h : ∀ e ∈ es, Derives labels .expression e) :
    ∀ e ∈ startWithString es, Derives labels .expression e := by
  have hempty : Derives labels .expression (literal (.str "")) := derives_literal rfl .null (by decide)
  unfold startWithString
  split
  · exact h
  · split
    · exact h
    · exact List.forall_mem_cons.mpr ⟨hempty, h⟩
  · split
    · exact h
    · exact List.forall_mem_cons.mpr ⟨hempty, h⟩

theorem derives_foldl {es : List Tree} (h : ∀ e ∈ es, Derives labels .expression e) :
    ∀ {first : Tree}, Derives labels .expression first →
      Derives labels .expression (es.foldl (fun sum t => binary "+" sum t) first) := by
  induction es with
  | nil => exact id
  | cons e es ih =>
    intro first hfirst
    rw [List.forall_mem_cons] at h
    exact ih h.2 (derives_binary (by decide) hfirst h.1 .null (by decide))

theorem derives_concatenation (h : Derives labels s t) (htype : t.type? = some "TemplateLiteral") :
    Derives labels .expression (concatenation t) := by
  have hquasis : ∀ q ∈ t.children "quasis", Derives labels .templateElement q := (h.many htype rfl).2
  have hexpressions : ∀ e ∈ t.children "expressions", Derives labels .expression e := (h.many htype rfl).2
  have hoperands := derives_startWithString (derives_operands hquasis hexpressions)
  rw [concatenation]
  cases hes : startWithString (operands (t.children "quasis") (t.children "expressions")) with
  | nil => exact derives_literal rfl t (by decide)
  | cons first rest =>
    rw [hes, List.forall_mem_cons] at hoperands
    exact derives_located (derives_foldl hoperands.2 hoperands.1) t

/-! ## The lowering -/

/-- The template of a tagged template is visited as such, and no other node. -/
def contract (labels : Labelling) : Contract Position Work where
  admits position s _ := match position with
    | .tagged => s = .template
    | .anywhere => s ≠ .template
  yields _ := Regular labels
  invariant _ := True

theorem expressionTypes_subset_of_template (h : "TemplateLiteral" ∈ s.types) (hs : s ≠ .template) :
    expressionTypes ⊆ s.types := by
  cases s <;> first | exact absurd rfl hs | revert h; decide

/-- Only the quasi of a tagged template is a template. -/
theorem content?_ne_template {key : String} {slot : Slot} (hslot : slot? s t key = some slot)
    (htype : t.type? ≠ some "TaggedTemplateExpression") {x : Symbol}
    (hx : slot.content? = some x) : x ≠ .template := content?_ne (by decide) hslot htype hx

theorem handle_keeps : HandlerKeeps (contract labels) labels handle := by
  intro position s t parts st hadmits ht hparts hst
  have hK : ∀ position x o, (contract labels).yields position x o → Regular labels x o := fun _ _ _ => id
  cases position with
  | tagged =>
    cases hadmits
    have htype : t.type? ≠ some "TaggedTemplateExpression" := by
      rw [ht.type_eq rfl]
      decide
    obtain ⟨t', st', hyields, ht', -, -, -⟩ := hparts.descend_regular ht
      (fun key => if key = "expressions" then some .anywhere else none)
      (fun key slot c x y hslot hc hx _ _ => by
        split at hc
        · cases hc
          exact content?_ne_template hslot htype hx
        · cases hc)
      (fun _ c _ => hK c) hst
    exact ⟨_, st', hyields.map _, regular_keep ht', trivial⟩
  | anywhere =>
    have hanywhere : t.type? ≠ some "TaggedTemplateExpression" → ∀ key slot x y,
        slot? s t key = some slot → slot.content? = some x →
        (y = t.get key ∨ y ∈ t.children key) → Derives labels x y →
        (contract labels).admits .anywhere x y :=
      fun htype key slot x y hslot hx _ _ => content?_ne_template hslot htype hx
    simp only [handle]
    split
    · rename_i htype
      have htag : slot? s t "tag" = some (.one .expression) := slot?_one htype rfl
      have hquasi : slot? s t "quasi" = some (.one .template) := slot?_one htype rfl
      obtain ⟨tag, st₁, hyields₁, htag', -⟩ :=
        hparts.one .anywhere ht htag (by decide) (fun _ => Grammar.Symbol.noConfusion) (hK _ _) hst
      obtain ⟨quasi, st₂, hyields₂, hquasi', hst₂⟩ :=
        hparts.one .tagged ht hquasi (by decide) (fun _ => rfl) (hK _ _) trivial
      refine ⟨_, _, (yields_require (ht.get?_of_slot? htag rfl).1).bind
        (hyields₁.bind (hyields₂.bind ((yields_modify _).bind (Yields.pure _ _)))), ?_, trivial⟩
      have hset := ht.set_slot htag (by decide) htag'.fits
      refine regular_keep ?_
      show Derives labels s (if (t.set "tag" tag).has "quasi" then _ else _)
      split
      · have hslot : slot? s (t.set "tag" tag) "quasi" = some (.one .template) :=
          (slot?_set (by decide) tag _).trans hquasi
        exact hset.set_slot hslot (by decide) hquasi'.fits
      · exact hset
    · rename_i htype
      obtain ⟨t', st', hyields, ht', htype', -, -⟩ := hparts.descend_regular ht (fun _ => some .anywhere)
        (fun key slot c x y hslot hc => by
          cases hc
          exact hanywhere (by rw [htype]; decide) key slot x y hslot)
        (fun _ c _ => hK c) hst
      refine ⟨_, st', hyields.map _, regular_keep ?_, trivial⟩
      exact (derives_concatenation ht' (htype'.trans htype)).as_expression
        (expressionTypes_subset_of_template (ht.mem_types htype) hadmits)
    · rename_i htagged _
      exact hparts.pass .anywhere ht (hanywhere htagged) (hK _) hst

/-- **A program without templates is a program.** -/
theorem derives_lower (ht : Derives labels .program t) :
    ∃ out, lower t = .ok out ∧ Derives labels .program out.tree :=
  run_program handle_keeps ht Grammar.Symbol.noConfusion (fun _ => id) fun _ => trivial

end Downlevel.Lower.Template
