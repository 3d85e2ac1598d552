import Downlevel.Lower.Diagnostic
import Downlevel.Proofs.Grammar.Visit

/-!
# `Proofs.Grammar.Regular`: regular outcomes

Most handlers put a node of the same symbol in the place of a node, or several statements in the place of
one. What such a handler leaves in the fields of a node fits there again, so the node itself stays
derivable however its parts are visited.
-/

namespace Downlevel.Grammar

open Tree Node Lower

variable {s x : Symbol} {t v : Tree} {slot : Slot} {key : String} {o : Outcome} {C : Type}
  {labels : Labelling}

/-! ## Symbols of fields -/

/-- The symbols of the nodes that a slot can hold, whatever the traits of its node. -/
def Slot.contents : Slot → List Symbol
  | .choice _ yes no => Slot.contents yes ++ Slot.contents no
  | slot => slot.content?.toList

theorem mem_contents_of_resolve (h : (slot.resolve s t).content? = some x) : x ∈ slot.contents := by
  induction slot with
  | choice trait yes no hyes hno =>
    rw [Slot.resolve] at h
    split at h
    · exact List.mem_append_left _ (hyes h)
    · exact List.mem_append_right _ (hno h)
  | one | optional | many | several | sparse =>
    cases h
    exact List.mem_singleton_self _
  | _ => cases h

/-- A symbol of a field is one that the rules for the type of the node mention. -/
theorem mem_contents_of_slot? (hslot : slot? s t key = some slot) (hx : slot.content? = some x) :
    ∃ type rs entry, t.type? = some type ∧ (type, rs) ∈ rules ∧ (key, entry) ∈ rs ∧ x ∈ entry.contents := by
  obtain ⟨type, rs, entry, htype, hrs, hentry, rfl⟩ := slot?_mem hslot
  exact ⟨type, rs, entry, htype, hrs, hentry, mem_contents_of_resolve hx⟩

/-- A symbol that only the rules for one type mention is in the fields of nodes of that type only. -/
theorem content?_ne {type : String} {y : Symbol} (hrules : ∀ rule ∈ rules, rule.1 ≠ type →
      ∀ entry ∈ rule.2, y ∉ entry.2.contents) (hslot : slot? s t key = some slot)
    (htype : t.type? ≠ some type) (hx : slot.content? = some x) : x ≠ y := by
  obtain ⟨_, rs, entry, htype', hrs, hentry, hmem⟩ := mem_contents_of_slot? hslot hx
  rintro rfl
  refine hrules _ hrs ?_ _ hentry hmem
  rintro rfl
  exact htype htype'

/-- A slot in which regular outcomes fit again: where one node has to stand, no item of a module does,
and a list that cannot be empty is no list of statements. -/
def Slot.isRegular : Slot → Bool
  | .one s => s != .moduleItem
  | .optional s => s != .moduleItem
  | .several s => s != .moduleItem && s != .statement
  | .choice _ yes no => Slot.isRegular yes && Slot.isRegular no
  | _ => true

theorem isRegular_resolve (h : slot.isRegular) : (slot.resolve s t).isRegular := by
  induction slot with
  | choice trait yes no hyes hno =>
    rw [Slot.isRegular, Bool.and_eq_true] at h
    rw [Slot.resolve]
    split
    · exact hyes h.1
    · exact hno h.2
  | _ => exact h

theorem isRegular_of_slot? (h : slot? s t key = some slot) : slot.isRegular := by
  have hrules : ∀ rule ∈ rules, ∀ entry ∈ rule.2, entry.2.isRegular := by decide
  obtain ⟨type, rs, entry, -, hrs, hentry, rfl⟩ := slot?_mem h
  exact isRegular_resolve (hrules _ hrs _ hentry)

/-- Nodes are not counted where they are statements. -/
theorem ne_of_isCounted (hregular : slot.isRegular) (hcounted : slot.isCounted) (hs : slot.content? = some s) :
    s ≠ .statement ∧ s ≠ .moduleItem := by
  cases slot with
  | many x =>
    cases hs
    refine ⟨?_, ?_⟩ <;>
    · rintro rfl
      cases hcounted
  | several x =>
    cases hs
    simpa [Slot.isRegular, and_comm] using hregular
  | _ => cases hcounted

/-! ## Regular outcomes -/

section

variable {labels : Labelling} {s : Symbol}

theorem regular_keep (h : Derives labels s t) : Regular labels s (.keep t) := .inl ⟨t, rfl, h⟩

/-- An outcome where no statement stands is a single node. -/
theorem Regular.keep (h : Regular labels s o) (hs : s ≠ .statement ∧ s ≠ .moduleItem) :
    ∃ t, o = .keep t ∧ Derives labels s t := by
  refine h.resolve_right ?_
  rintro ⟨ts, -, hs' | hs', -⟩
  · exact hs.1 hs'
  · exact hs.2 hs'

theorem Regular.inList (h : Regular labels s o) : ∀ t ∈ o.inList, Derives labels s t := by
  rcases h with ⟨t, rfl, ht⟩ | ⟨ts, rfl, -, hts⟩
  · exact List.forall_mem_singleton.mpr ht
  · exact hts

/-- A regular outcome fits where the node stood. -/
theorem Regular.refits (hslot : slot.symbol? = some s) (hregular : slot.isRegular)
    (h : Regular labels s o) : Refits labels slot v o := by
  rcases h with ⟨t, rfl, ht⟩ | ⟨ts, rfl, rfl | rfl, hts⟩
  · exact .inr (.inl ⟨t, rfl, ht.refills hslot⟩)
  · exact .inr (.inr ⟨ts, rfl, hslot, hts⟩)
  · cases slot with
    | one | optional =>
      cases hslot
      cases hregular
    | _ => cases hslot

end

section

variable {C σ : Type} {K : Contract C σ} {labels : Labelling} {c : C}

theorem slotAdmits_of (hv : fits labels slot v)
    (h : ∀ x y, slot.content? = some x → (y = v ∨ y ∈ v.items) → Derives labels x y →
      K.admits c x y) : K.SlotAdmits c slot v := by
  intro x hx y hy hnode
  exact h x y hx hy (derives_of_isNode hx hv hy hnode)

/-- A single node is admitted by its slot if it is. -/
theorem slotAdmits_of_derives {x : Symbol} (hx : slot.content? = some x) (hd : Derives labels x v)
    (h : K.admits c x v) : K.SlotAdmits c slot v := by
  intro x' hx' y hy _
  cases hx.symm.trans hx'
  rcases hy with rfl | hy
  · exact h
  · rw [hd.items] at hy
    cases hy

theorem content?_of_symbol? (h : slot.symbol? = some x) : slot.content? = some x := by
  cases slot <;> first | exact h | cases h

/-- What a visit leaves in a field fits there again if its outcomes do, alone and in lists. -/
theorem refits_of_outcomes (hv : fits labels slot v)
    (halone : ∀ s, slot.symbol? = some s → ∀ o, K.yields c s o → Refits labels slot v o)
    (hitem : ∀ s, slot.content? = some s → ∀ o, K.yields c s o → ∀ t ∈ o.inList, Derives labels s t)
    (hstays : slot.isCounted → ∀ s, slot.content? = some s → ∀ o, K.yields c s o → o.inList.length = 1)
    (h : K.SlotYields c slot v o) : Refits labels slot v o := by
  have hlength : slot.isCounted → ∀ s, slot.content? = some s → ∀ os : List Outcome,
      (∀ x ∈ os, K.yields c s x) → (os.flatMap Outcome.inList).length = os.length := by
    intro hcounted s hs os hos
    induction os with
    | nil => rfl
    | cons x os ih =>
      rw [List.forall_mem_cons] at hos
      rw [List.flatMap_cons, List.length_append, hstays hcounted s hs x hos.1, ih hos.2, List.length_cons,
        Nat.add_comm]
  cases slot with
  | one s => exact halone s rfl o h
  | optional s =>
    rcases h with h | ⟨-, rfl⟩
    · exact halone s rfl o h
    · exact .inr (.inl ⟨_, rfl, rfl, nofun⟩)
  | many s =>
    obtain ⟨os, rfl, hcount, hos⟩ := h
    have hitems : ∀ t ∈ os.flatMap Outcome.inList, Derives labels s t :=
      List.forall_mem_flatMap.mpr fun x hx => hitem s rfl x (hos x hx)
    exact .inr (.inl ⟨_, rfl, fits_many hitems, fun hcounted => (hlength hcounted s rfl os hos).trans hcount⟩)
  | several s =>
    obtain ⟨os, rfl, hcount, hos⟩ := h
    have hcount := (hlength rfl s rfl os hos).trans hcount
    refine .inr (.inl ⟨_, rfl, fits_several_iff.mpr ⟨_, rfl, fun hnil => ?_, List.forall_mem_flatMap.mpr
      fun x hx => hitem s rfl x (hos x hx)⟩, fun _ => hcount⟩)
    obtain ⟨xs, rfl, hne, -⟩ := fits_several_iff.mp hv
    rw [hnil] at hcount
    exact hne (List.length_eq_zero_iff.mp hcount.symm)
  | sparse s =>
    obtain ⟨os, rfl, hos⟩ := h
    refine .inr (.inl ⟨_, rfl, fits_sparse_iff.mpr ⟨_, rfl, List.forall_mem_flatMap.mpr fun x hx => ?_⟩, nofun⟩)
    rcases hos x hx with hx | ⟨-, rfl⟩
    · exact fun t ht => .inr (hitem s rfl x hx t ht)
    · exact List.forall_mem_singleton.mpr (.inl rfl)
  | _ =>
    cases h
    exact .inr (.inl ⟨v, rfl, hv, fun _ => rfl⟩)

/-- What a visit with regular outcomes leaves in a field fits there again. -/
theorem refits_of_regular (hregular : slot.isRegular) (hv : fits labels slot v)
    (hK : ∀ s, slot.content? = some s → ∀ o, K.yields c s o → Regular labels s o)
    (h : K.SlotYields c slot v o) : Refits labels slot v o := by
  refine refits_of_outcomes hv (fun s hs o ho => ?_) (fun s hs o ho => (hK s hs o ho).inList)
    (fun hcounted s hs o ho => ?_) h
  · exact (hK s (content?_of_symbol? hs) o ho).refits hs hregular
  · obtain ⟨t, rfl, -⟩ := (hK s hs o ho).keep (ne_of_isCounted hregular hcounted hs)
    rfl

variable {s : Symbol} {t : Tree} {parts : Parts C σ} {st : σ}

/-- All parts of a node can be visited, in contexts that admit them and give regular outcomes. -/
theorem PartsKeep.descend_regular (hparts : PartsKeep K labels s t parts) (ht : Derives labels s t)
    (contexts : String → Option C)
    (hadmits : ∀ key slot c x y, slot? s t key = some slot → contexts key = some c →
      slot.content? = some x → (y = t.get key ∨ y ∈ t.children key) → Derives labels x y →
      K.admits c x y)
    (hK : ∀ key c, contexts key = some c → ∀ x o, K.yields c x o → Regular labels x o)
    (hst : K.invariant st) :
    ∃ t' st', Yields (parts.descend contexts) st t' st' ∧ Derives labels s t' ∧
      t'.type? = t.type? ∧ t'.mark? = t.mark? ∧ K.invariant st' := by
  refine hparts.descend contexts st (fun key slot c v hslot hc hv => ?_) hst
  have hfits := ht.fields _ hv
  rw [hslot] at hfits
  refine ⟨slotAdmits_of hfits fun x y hx hy => ?_, fun o ho => ?_⟩
  · rw [← ht.get_of_mem hv] at hy
    exact hadmits key slot c x y hslot hc hx hy
  · exact refits_of_regular (isRegular_of_slot? hslot) hfits (fun x _ => hK key c hc x) ho

/-- A node can be passed over in a context that admits its parts. -/
theorem PartsKeep.pass (hparts : PartsKeep K labels s t parts) (c : C) (ht : Derives labels s t)
    (hadmits : ∀ key slot x y, slot? s t key = some slot → slot.content? = some x →
      (y = t.get key ∨ y ∈ t.children key) → Derives labels x y → K.admits c x y)
    (hK : ∀ x o, K.yields c x o → Regular labels x o) (hst : K.invariant st) :
    ∃ o st', Yields (passOver c parts) st o st' ∧ Regular labels s o ∧ K.invariant st' := by
  obtain ⟨t', st', hyields, ht', -, -, hst'⟩ := hparts.descend_regular ht (fun _ => some c)
    (fun key slot c' x y hslot hc => by cases hc; exact hadmits key slot x y hslot)
    (fun key c' hc => by cases hc; exact hK) hst
  exact ⟨_, st', hyields.map _, regular_keep ht', hst'⟩

section

variable {key : String} {x : Symbol} {slot : Slot}

/-- The value of a field that has to be there. -/
theorem Derives.get?_of_slot? (ht : Derives labels s t) (hslot : slot? s t key = some slot)
    (hoptional : slot.isOptional = false) :
    t.get? key = some (t.get key) ∧ fits labels slot (t.get key) := by
  obtain ⟨type, rs, entry, htype, hrs, hentry, rfl⟩ := slot?_mem hslot
  have hmem : (key, entry) ∈ rulesOf t := by
    rwa [rulesOf_of_type? htype, rulesFor_of_mem hrs]
  have hsome := (ht.complete _ hmem).resolve_left (by simp [hoptional])
  obtain ⟨v, hv⟩ := Option.isSome_iff_exists.mp hsome
  have hv : t.get? key = some v := hv
  have hfits := ht.fields (key, v) (mem_of_lookup_eq_some hv)
  rw [hslot] at hfits
  rw [Tree.get, hv]
  exact ⟨rfl, hfits⟩

/-- A single part can be visited. -/
theorem PartsKeep.field_one (hparts : PartsKeep K labels s t parts) (c : C)
    (ht : Derives labels s t) (hslot : slot? s t key = some (.one x))
    (hadmits : Derives labels x (t.get key) → K.admits c x (t.get key)) (hst : K.invariant st) :
    ∃ o st', Yields (parts.field key c) st o st' ∧ K.yields c x o ∧ K.invariant st' := by
  obtain ⟨hsome, hfits⟩ := ht.get?_of_slot? hslot rfl
  have hd := fits_one_iff.mp hfits
  exact hparts.field key _ c st hslot rfl (by rw [hsome]; rfl) (slotAdmits_of_derives rfl hd (hadmits hd)) hst

/-- The visit of a field that could be missing. -/
theorem PartsKeep.field_optional (hparts : PartsKeep K labels s t parts) (c : C)
    (ht : Derives labels s t) (hslot : slot? s t key = some (.optional x))
    (hnull : (t.get key).isNull = false)
    (hadmits : Derives labels x (t.get key) → K.admits c x (t.get key)) (hst : K.invariant st) :
    ∃ o st', Yields (parts.field key c) st o st' ∧ K.yields c x o ∧ K.invariant st' := by
  obtain ⟨type, rs, entry, htype, hrules, hentry, hresolve⟩ := slot?_mem hslot
  have hfits := ht.part htype (rule_of_mem hrules hentry)
  rw [hresolve] at hfits
  have hvalue : Derives labels x (t.get key) :=
    (fits_optional_iff.mp hfits).resolve_left fun h => by simp [h, isNull] at hnull
  obtain ⟨o, st', hyields, ho, hst'⟩ := hparts.field key _ c st hslot rfl
    (by rw [get?_of_get rfl hnull]; rfl) (slotAdmits_of_derives rfl hvalue (hadmits hvalue)) hst
  refine ⟨o, st', hyields, ho.resolve_right fun h => ?_, hst'⟩
  rw [hnull] at h
  cases h.1

theorem PartsKeep.one (hparts : PartsKeep K labels s t parts) (c : C) (ht : Derives labels s t)
    (hslot : slot? s t key = some (.one x)) (hx : x ≠ .statement ∧ x ≠ .moduleItem)
    (hadmits : Derives labels x (t.get key) → K.admits c x (t.get key))
    (hK : ∀ o, K.yields c x o → Regular labels x o) (hst : K.invariant st) :
    ∃ v st', Yields (parts.field key c) st (.keep v) st' ∧ Derives labels x v ∧ K.invariant st' := by
  obtain ⟨o, st', hyields, ho, hst'⟩ := hparts.field_one c ht hslot hadmits hst
  obtain ⟨v, rfl, hv⟩ := (hK o ho).keep hx
  exact ⟨v, st', hyields, hv, hst'⟩

end

end

/-! ## Handlers that can be given any node -/

/-- The contract of a handler that can be given any node in any context. -/
def regularContract (C σ : Type) (labels : Labelling) : Contract C σ where
  admits _ _ _ := True
  yields _ := Regular labels
  invariant _ := True

theorem PartsKeep.descend_all {σ : Type} {parts : Parts C σ}
    (hparts : PartsKeep (regularContract C σ labels) labels s t parts) (ht : Derives labels s t)
    (contexts : String → Option C) (st : σ) :
    ∃ t' st', Yields (parts.descend contexts) st t' st' ∧ Derives labels s t' ∧ t'.type? = t.type? := by
  obtain ⟨t', st', hyields, ht', htype, -, -⟩ := hparts.descend_regular ht contexts
    (fun _ _ _ _ _ _ _ _ _ _ => trivial) (fun _ _ _ _ _ => id) trivial
  exact ⟨t', st', hyields, ht', htype⟩

/-- A handler that visits the parts of every node, and then takes a step at nodes of some types. -/
def IsStepwise {σ : Type} (handle : Handler Unit σ) (types : List String) (step : Tree → Visit σ Tree) : Prop :=
  ∀ c t parts, handle c t parts = do
    let t' ← parts.descend fun _ => some ()
    if t.isTypeIn types then return .keep (← step t')
    return .keep t'

/-- Such a handler can be given any node if its step can. -/
theorem IsStepwise.keeps {σ : Type} {handle : Handler Unit σ} {types : List String}
    {step : Tree → Visit σ Tree} (h : IsStepwise handle types step)
    (hstep : ∀ {s t}, Derives labels s t → t.isTypeIn types → ∀ st, ∃ t' st',
      Yields (step t) st t' st' ∧ Derives labels s t') :
    HandlerKeeps (regularContract Unit σ labels) labels handle := by
  intro c s t parts st _ ht hparts _
  obtain ⟨t₁, st₁, hyields₁, ht₁, htype⟩ := hparts.descend_all ht (fun _ => some ()) st
  rw [h]
  cases hin : t.isTypeIn types with
  | false => exact ⟨.keep t₁, st₁, hyields₁.bind (Yields.pure _ _), regular_keep ht₁, trivial⟩
  | true =>
    obtain ⟨t₂, st₂, hyields₂, ht₂⟩ := hstep ht₁ ((isTypeIn_congr htype _).trans hin) st₁
    exact ⟨.keep t₂, st₂, hyields₁.bind (hyields₂.bind (Yields.pure _ _)), regular_keep ht₂, trivial⟩

/-! ## Effects -/

section

variable {σ : Type} {st : σ}

theorem ok_bind {α β : Type} (a : α) (f : α → Except Fault β) : (Except.ok a >>= f) = f a := rfl

theorem yields_modify (f : σ → σ) : Yields (modify f : Visit σ Unit) st () (f st) := rfl

theorem yields_get : Yields (get : Visit σ σ) st st st := rfl

theorem yields_set (st' : σ) : Yields (set st' : Visit σ PUnit) st () st' := rfl

theorem yields_liftM {α : Type} {x : Except Fault α} {a : α} (h : x = .ok a) :
    Yields (liftM x : Visit σ α) st a st := by
  rw [h]
  rfl

theorem yields_require (h : t.get? key = some v) : Yields (require t key : Visit σ Tree) st v st := by
  refine yields_liftM ?_
  rw [need, h]

end

/-! ## Whole programs -/

/-- A visit of a program gives a program. -/
theorem visit_program {σ : Type} {K : Contract C σ} {handle : Handler C σ} {c : C} {st : σ}
    (hhandle : HandlerKeeps K labels handle) (ht : Derives labels .program t)
    (hadmits : K.admits c .program t) (hK : ∀ o, K.yields c .program o → Regular labels .program o)
    (hst : K.invariant st) :
    ∃ t' st', Yields (visit handle c t) st (.keep t') st' ∧ Derives labels .program t' := by
  have hfits := ht.fits
  have hslot : K.SlotAdmits c (.one .program) t := by
    intro x hx y hy hnode
    cases hx
    rcases hy with rfl | hy
    · exact hadmits
    · rw [ht.items] at hy
      cases hy
  obtain ⟨o, st', hyields, ho, -⟩ := visit_keeps hhandle t c (.one .program) st rfl hfits hslot hst
  obtain ⟨t', rfl, ht'⟩ := (hK o ho).keep (by decide)
  exact ⟨t', st', hyields, ht'⟩

theorem run_program {K : Contract C Work} {handle : Handler C Work} {c : C}
    (hhandle : HandlerKeeps K labels handle) (ht : Derives labels .program t)
    (hadmits : K.admits c .program t) (hK : ∀ o, K.yields c .program o → Regular labels .program o)
    (hinv : ∀ w, K.invariant w) : ∃ out, run handle c t = .ok out ∧ Derives labels .program out.tree := by
  obtain ⟨t', w, hyields, ht'⟩ := visit_program hhandle ht hadmits hK (hinv { names := .ofTree t })
  refine ⟨⟨t', w.diagnostics⟩, ?_, ht'⟩
  rw [run, hyields]
  rfl

/-! ## Nodes in the place of others -/

section

variable {labels : Labelling} {s : Symbol} {t : Tree}

/-- The types of expressions that are nothing else. -/
def properExpressionTypes : List String :=
  ["ThisExpression", "ArrowFunctionExpression", "ClassExpression", "BinaryExpression", "CallExpression"]

theorem expressionTypes_subset {type : String} (h : type ∈ s.types)
    (htype : type ∈ properExpressionTypes) : expressionTypes ⊆ s.types := by
  have hall : ∀ type ∈ properExpressionTypes, type ∈ s.types → expressionTypes ⊆ s.types := by
    cases s <;> decide
  exact hall type htype h

/-- An expression can stand wherever all expressions can. -/
theorem Derives.as_expression (h : Derives labels .expression t) (hs : expressionTypes ⊆ s.types) :
    Derives labels s t := by
  obtain ⟨type, hmem, htype⟩ := h.type
  have hcontext : ∀ type ∈ expressionTypes, type ∉ contextTypes := by decide
  refine h.as htype (hs hmem) (hcontext type hmem) ?_
  rintro rfl
  exact absurd (hs (a := "ThisExpression") (by decide)) (by decide)

/-- A statement can stand among the items of a module. -/
theorem Derives.as_item (h : Derives labels .statement t) (hs : s = .statement ∨ s = .moduleItem) :
    Derives labels s t := by
  obtain ⟨type, hmem, htype⟩ := h.type
  rcases hs with rfl | rfl
  · exact h
  · exact h.widen htype (List.mem_append_left _ hmem) (by decide) (by decide)

/-- New nodes can be put between others of their symbol. -/
theorem Derives.insert_many {new : List Tree} (ht : Derives labels s t)
    (hslot : slot? s t key = some (.many x)) (hkey : key ∉ traitKeys) (hnew : ∀ c ∈ new, Derives labels x c)
    (n : Nat) :
    Derives labels s (t.set key (.list ((t.children key).take n ++ new ++ (t.children key).drop n))) := by
  obtain ⟨xs, hxs, hall⟩ := fits_many_iff.mp (ht.get?_of_slot? hslot rfl).2
  have hchildren : ∀ c ∈ t.children key, Derives labels x c := by
    rw [children, hxs]
    exact hall
  refine ht.set_slot hslot hkey (fits_many_iff.mpr ⟨_, rfl, ?_⟩)
  simp only [List.forall_mem_append]
  exact ⟨⟨fun c hc => hchildren c (List.mem_of_mem_take hc), hnew⟩,
    fun c hc => hchildren c (List.mem_of_mem_drop hc)⟩

theorem Derives.slot?_block (ht : Derives labels .block t) :
    slot? .block t "body" = some (.many .statement) := slot?_many (ht.type_eq rfl) rfl

/-! ## Functions -/

theorem slot?_params (h : t.isTypeIn functionTypes) :
    slot? s t "params" = some (.many .pattern) := by
  obtain ⟨type, hmem, htype⟩ := isTypeIn_iff.mp h
  simp only [functionTypes, List.mem_cons, List.not_mem_nil, or_false] at hmem
  rcases hmem with rfl | rfl | rfl
  all_goals exact slot?_many htype rfl

theorem Derives.function_params (ht : Derives labels s t) (h : t.isTypeIn functionTypes) :
    ∀ p ∈ t.children "params", Derives labels .pattern p := by
  obtain ⟨xs, hxs, hall⟩ := fits_many_iff.mp (ht.get?_of_slot? (slot?_params h) rfl).2
  rw [children, hxs]
  exact hall

/-- The property of a member is an expression if it is computed, a name if not. -/
theorem slot?_property (htype : t.type? = some "MemberExpression") : slot? s t "property" =
    some (.one (if (t.get "computed").isSet then .expression else .identifier)) := by
  have hslot : slot? s t "property" = some (Slot.resolve s t
      (.choice .computed (.one .expression) (.one .identifier))) := slot?_of_rule htype rfl
  rw [hslot, Slot.resolve, Trait.holds]
  split <;> rfl

/-- The body of an arrow function that is no block is an expression. -/
theorem Derives.arrow_body (ht : Derives labels s t) (h : t.type? = some "ArrowFunctionExpression") :
    (Derives labels .block (t.get "body") ∧ (t.get "expression").isSet = false) ∨
      (Derives labels .expression (t.get "body") ∧ (t.get "body").isType "BlockStatement" = false) := by
  have hbody : fits labels (Slot.resolve s t (.choice .concise (.one .expression) (.one .arrowBody)))
      (t.get "body") := ht.part h rfl
  rw [Slot.resolve, Trait.holds] at hbody
  have hnot : ∀ type ∈ expressionTypes, type ≠ "BlockStatement" := by decide
  cases hconcise : (t.get "expression").isSet with
  | true =>
    rw [hconcise, if_pos rfl] at hbody
    have hd := fits_one_iff.mp hbody
    obtain ⟨type, hmem, htype⟩ := hd.type
    exact .inr ⟨hd, by simp [isType_of_type? htype, hnot type hmem]⟩
  | false =>
    rw [hconcise, if_neg (by decide)] at hbody
    have hd := fits_one_iff.mp hbody
    obtain ⟨type, hmem, htype⟩ := hd.type
    rcases List.mem_cons.mp hmem with rfl | hmem
    · exact .inl ⟨hd.as htype (by decide) (by decide) (by decide), rfl⟩
    · have hcontext : ∀ type ∈ expressionTypes, type ∉ contextTypes := by decide
      exact .inr ⟨hd.as htype hmem (hcontext type hmem) (by decide),
        by simp [isType_of_type? htype, hnot type hmem]⟩

/-- The body of a function is a block, unless the function is an arrow and it is an expression. -/
theorem Derives.function_body (ht : Derives labels s t) (h : t.isTypeIn functionTypes) :
    (Derives labels .block (t.get "body") ∧ ∃ slot, slot? s t "body" = some slot ∧
        ∀ b, Derives labels .block b → fits labels slot b) ∨
      (t.type? = some "ArrowFunctionExpression" ∧ Derives labels .expression (t.get "body") ∧
        (t.get "body").isType "BlockStatement" = false) := by
  obtain ⟨type, hmem, htype⟩ := isTypeIn_iff.mp h
  have hordinary : slot? s t "body" = some (.one .block) →
      Derives labels .block (t.get "body") ∧ ∃ slot, slot? s t "body" = some slot ∧
        ∀ b, Derives labels .block b → fits labels slot b := fun hslot =>
    ⟨fits_one_iff.mp (ht.get?_of_slot? hslot rfl).2, _, hslot, fun _ => fits_one_iff.mpr⟩
  simp only [functionTypes, List.mem_cons, List.not_mem_nil, or_false] at hmem
  rcases hmem with rfl | rfl | rfl
  · exact .inl (hordinary (slot?_one htype rfl))
  · exact .inl (hordinary (slot?_one htype rfl))
  · rcases ht.arrow_body htype with ⟨hblock, hexpression⟩ | hexpression
    · have hslot : slot? s t "body" = some
          (Slot.resolve s t (.choice .concise (.one .expression) (.one .arrowBody))) :=
        slot?_of_rule htype rfl
      refine .inl ⟨hblock, _, hslot, fun b hb => ?_⟩
      rw [Slot.resolve, Trait.holds, hexpression, if_neg (by decide)]
      exact fits_one_iff.mpr (hb.as (hb.type_eq rfl) (by decide) (by decide) (by decide))
    · exact .inr ⟨htype, hexpression⟩

end

end Downlevel.Grammar
