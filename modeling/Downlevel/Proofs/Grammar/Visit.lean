import Downlevel.Proofs.Grammar.Build
import Downlevel.Proofs.Node.Follow

/-!
# `Proofs.Grammar.Visit`: visits of programs

A handler is given one node and its parts. A *contract* says in which contexts it can be given which
nodes, what it puts in their place, and what it keeps true of the state. If the handler keeps its
contract as long as its parts do, then every visit does, and it does not fail: an induction over the
tree, made once for all handlers.

Most handlers put a node of the same symbol in the place of a node, or several statements in the place
of one. What they leave in the fields of a node then fits there again.
-/

namespace Downlevel.Grammar

open Tree Node

variable {s : Symbol} {t v : Tree} {slot : Slot} {key : String}

/-! ## Outcomes -/

/-- A slot with a list in which every node has one node in its place after a visit. -/
def Slot.isCounted : Slot → Bool
  | .many s => s == .expression || s == .templateElement
  | .several _ => true
  | _ => false

theorem isCounted_eq_false (h : slot.isOptional ∨ slot.symbol?.isSome) : slot.isCounted = false := by
  cases slot with
  | many s | several s => rcases h with h | h <;> cases h
  | _ => rfl

section

variable (labels : Labelling)

/-- The usual outcome: a node of the same symbol, or several statements. -/
def Regular (s : Symbol) (o : Outcome) : Prop :=
  (∃ t, o = .keep t ∧ Derives labels s t) ∨
    ∃ ts, o = .splice ts ∧ (s = .statement ∨ s = .moduleItem) ∧ ∀ t ∈ ts, Derives labels s t

/-- A value can take the place of another in a field. -/
def Refills (slot : Slot) (v w : Tree) : Prop :=
  fits labels slot w = true ∧ (slot.isCounted = true → w.items.length = v.items.length)

/-- The outcome fits in the field in which a value stood. -/
def Refits (slot : Slot) (v : Tree) (o : Outcome) : Prop :=
  (o = .remove ∧ slot.isOptional = true) ∨ (∃ w, o = .keep w ∧ Refills labels slot v w) ∨
    ∃ ts, o = .splice ts ∧ slot.symbol? = some .statement ∧ ∀ t ∈ ts, Derives labels .statement t

end

/-- What a handler can be given, what it gives, and what it keeps true of the state. -/
structure Contract (C σ : Type) where
  admits : C → Symbol → Tree → Prop
  yields : C → Symbol → Outcome → Prop
  invariant : σ → Prop

/-- The symbol of the nodes in a slot. -/
def Slot.content? : Slot → Option Symbol
  | .one s => some s
  | .optional s => some s
  | .many s => some s
  | .several s => some s
  | .sparse s => some s
  | _ => none

namespace Contract

variable {C σ : Type} (K : Contract C σ)

/-- Can the nodes of a value be given to the handler? -/
def SlotAdmits (c : C) (slot : Slot) (v : Tree) : Prop :=
  ∀ s, slot.content? = some s → ∀ x, (x = v ∨ x ∈ v.items) → x.isNode = true → K.admits c s x

/-- The outcome of one node, or of none. -/
def ItemYields (c : C) (s : Symbol) (mayBeNull : Bool) (o : Outcome) : Prop :=
  K.yields c s o ∨ (mayBeNull = true ∧ o = .keep .null)

/-- The outcome of a value in a slot. -/
def SlotYields (c : C) (slot : Slot) (v : Tree) (o : Outcome) : Prop :=
  match slot with
  | .one s => K.yields c s o
  | .optional s => K.ItemYields c s v.isNull o
  | .many s | .several s => ∃ os : List Outcome, o = .keep (.list (os.flatMap Outcome.inList)) ∧
      os.length = v.items.length ∧ ∀ x ∈ os, K.yields c s x
  | .sparse s => ∃ os : List Outcome, o = .keep (.list (os.flatMap Outcome.inList)) ∧
      ∀ x ∈ os, K.ItemYields c s true x
  | _ => o = .keep v

end Contract

/-! ## Parts -/

section

variable {C σ : Type} (K : Contract C σ) (labels : Labelling)

/-- The parts of a node under visit keep the contract. -/
structure PartsKeep (s : Symbol) (t : Tree) (parts : Parts C σ) : Prop where
  field : ∀ key slot c st, slot? s t key = some slot → slot.content?.isSome →
    (t.get? key).isSome → K.SlotAdmits c slot (t.get key) → K.invariant st →
    ∃ o st', Yields (parts.field key c) st o st' ∧ K.SlotYields c slot (t.get key) o ∧ K.invariant st'
  descend : ∀ (contexts : String → Option C) st,
    (∀ key slot c v, slot? s t key = some slot → contexts key = some c → (key, v) ∈ t.fields →
      K.SlotAdmits c slot v ∧ ∀ o, K.SlotYields c slot v o → Refits labels slot v o) →
    K.invariant st →
    ∃ t' st', Yields (parts.descend contexts) st t' st' ∧ Derives labels s t' ∧
      t'.type? = t.type? ∧ t'.mark? = t.mark? ∧ K.invariant st'

/-- The handler keeps the contract as long as the parts of its node do. -/
def HandlerKeeps (handle : Handler C σ) : Prop :=
  ∀ (c : C) (s : Symbol) (t : Tree) (parts : Parts C σ) (st : σ), K.admits c s t →
    Derives labels s t → PartsKeep K labels s t parts → K.invariant st →
    ∃ o st', Yields (handle c t parts) st o st' ∧ K.yields c s o ∧ K.invariant st'

end

/-! ## Fields under visit -/

section

variable {labels : Labelling}

/-- What a visit makes of the fields of a node: each fits again, and those without syntax stay. -/
inductive Revised (labels : Labelling) (slotOf : String → Option Slot) :
    List (String × Tree) → List (String × Tree) → Prop
  | nil : Revised labels slotOf [] []
  | same {k : String} {v : Tree} {fs gs : List (String × Tree)} (h : Revised labels slotOf fs gs) :
      Revised labels slotOf ((k, v) :: fs) ((k, v) :: gs)
  | visited {k : String} {v w : Tree} {slot : Slot} {fs gs : List (String × Tree)}
      (hslot : slotOf k = some slot) (hvisited : isVisited v)
      (hw : Refills labels slot v w) (h : Revised labels slotOf fs gs) :
      Revised labels slotOf ((k, v) :: fs) ((k, w) :: gs)
  | removed {k : String} {v : Tree} {slot : Slot} {fs gs : List (String × Tree)}
      (hslot : slotOf k = some slot) (hvisited : isVisited v)
      (hoptional : slot.isOptional) (h : Revised labels slotOf fs gs) :
      Revised labels slotOf ((k, v) :: fs) gs

namespace Revised

variable {slotOf : String → Option Slot} {fs gs : Fields}

section

variable (h : Revised labels slotOf fs gs)

include h

theorem fit (hfs : ∀ f ∈ fs, FieldFits labels (slotOf f.1) f.1 f.2) :
    ∀ f ∈ gs, FieldFits labels (slotOf f.1) f.1 f.2 := by
  induction h with
  | nil => exact hfs
  | same h ih =>
    rw [List.forall_mem_cons] at hfs ⊢
    exact ⟨hfs.1, ih hfs.2⟩
  | visited hslot hvisited hw h ih =>
    rw [List.forall_mem_cons] at hfs ⊢
    refine ⟨?_, ih hfs.2⟩
    rw [hslot]
    exact hw.1
  | removed hslot hvisited hoptional h ih => exact ih (List.forall_mem_cons.mp hfs).2

/-- A field that cannot be missing stays. -/
theorem isSome_lookup {key : String} (hkey : ∀ slot, slotOf key = some slot → slot.isOptional = false)
    (hsome : (lookup key fs).isSome) : (lookup key gs).isSome := by
  induction h with
  | nil => exact hsome
  | same h ih =>
    rw [lookup] at hsome ⊢
    split
    · rfl
    · rename_i hne
      rw [if_neg hne] at hsome
      exact ih hsome
  | visited hslot hvisited hw h ih =>
    rw [lookup] at hsome ⊢
    split
    · rfl
    · rename_i hne
      rw [if_neg hne] at hsome
      exact ih hsome
  | @removed k v slot fs gs hslot hvisited hoptional h ih =>
    have hne : k ≠ key := by
      rintro rfl
      rw [hkey slot hslot] at hoptional
      cases hoptional
    rw [lookup, if_neg hne] at hsome
    exact ih hsome

/-- No field is added. -/
theorem sublist_keys : List.Sublist (gs.map (·.1)) (fs.map (·.1)) := by
  induction h with
  | nil => exact List.Sublist.refl _
  | same h ih => exact ih.cons_cons _
  | visited hslot hvisited hw h ih => exact ih.cons_cons _
  | removed hslot hvisited hoptional h ih => exact ih.cons _

/-- A field whose values are not visited stays as it is. -/
theorem lookup_eq {key : String} (hkey : ∀ v, (key, v) ∈ fs → isVisited v → slotOf key = none) :
    lookup key gs = lookup key fs := by
  induction h with
  | nil => rfl
  | @same k v fs gs h ih =>
    rw [lookup, lookup, ih fun w hw => hkey w (List.mem_cons_of_mem _ hw)]
  | @visited k v w slot fs gs hslot hvisited hw h ih =>
    have hne : k ≠ key := by
      rintro rfl
      rw [hkey v List.mem_cons_self hvisited] at hslot
      cases hslot
    rw [lookup, lookup, if_neg hne, if_neg hne, ih fun w hw => hkey w (List.mem_cons_of_mem _ hw)]
  | @removed k v slot fs gs hslot hvisited hoptional h ih =>
    have hne : k ≠ key := by
      rintro rfl
      rw [hkey v List.mem_cons_self hvisited] at hslot
      cases hslot
    rw [lookup, if_neg hne, ih fun w hw => hkey w (List.mem_cons_of_mem _ hw)]

/-- A list in which nodes are counted keeps its length. -/
theorem length_items {key : String} (hkey : ∀ slot, slotOf key = some slot → slot.isCounted) :
    ((lookup key gs).getD .null).items.length = ((lookup key fs).getD .null).items.length := by
  induction h with
  | nil => rfl
  | same h ih =>
    rw [lookup, lookup]
    split
    · rfl
    · exact ih
  | visited hslot hvisited hw h ih =>
    rw [lookup, lookup]
    split
    · rename_i heq
      subst heq
      exact hw.2 (hkey _ hslot)
    · exact ih
  | @removed k v slot fs gs hslot hvisited hoptional h ih =>
    have hne : k ≠ key := by
      rintro rfl
      cases (isCounted_eq_false (.inl hoptional)).symm.trans (hkey _ hslot)
    rw [ih, lookup, if_neg hne]

end

end Revised

/-- The traits on which a slot depends. -/
def Slot.traits : Slot → List Trait
  | .choice trait yes no => trait :: (Slot.traits yes ++ Slot.traits no)
  | _ => []

theorem resolve_congr_of_keys {t' : Tree}
    (h : ∀ trait ∈ slot.traits, ∀ key ∈ trait.keys, t'.get key = t.get key) :
    slot.resolve s t' = slot.resolve s t := by
  induction slot with
  | choice trait yes no hyes hno =>
    rw [Slot.resolve, Slot.resolve, holds_congr_of_keys (h trait List.mem_cons_self),
      hyes fun x hx => h x (List.mem_cons_of_mem _ (List.mem_append_left _ hx)),
      hno fun x hx => h x (List.mem_cons_of_mem _ (List.mem_append_right _ hx))]
  | _ => rfl

/-- A slot that holds a text or nothing. -/
def Slot.isPlain : Slot → Bool
  | .text => true
  | .optionalText => true
  | .operator => true
  | .keyword => true
  | _ => false

/-- What stands in a field without syntax is not visited. -/
theorem isVisited_of_isPlain {slot? : Option Slot} (hplace : isPlaceKey key = false)
    (hplain : ∀ slot ∈ slot?, slot.isPlain) (h : FieldFits labels slot? key v) :
    isVisited v = false := by
  cases slot? with
  | none =>
    have hinert := h.resolve_left (by simp [hplace])
    cases v with
    | list xs => cases hinert
    | obj m fs =>
      rw [isInert, Bool.and_eq_true, List.all_eq_true] at hinert
      show ((lookup "type" fs).isSome || false) = false
      cases hl : lookup "type" fs with
      | none => rfl
      | some w =>
        have hne := hinert.2 _ (mem_of_lookup_eq_some hl)
        simp at hne
    | _ => rfl
  | some slot =>
    have hslot := hplain slot rfl
    have hcases : (v = .null ∧ slot.isOptional) ∨
        ∃ text, v = .str text ∧ slot.admitsText text := by
      cases slot with
      | text | optionalText | operator | keyword =>
        exact fits_text_cases rfl rfl Slot.noConfusion h
      | _ => cases hslot
    rcases hcases with ⟨rfl, -⟩ | ⟨text, rfl, -⟩ <;> rfl

/-- The fields on which the slots of a node depend hold no syntax. -/
theorem isPlain_traitKey {rule : String × Slot} (hrule : rule ∈ rulesOf t) {trait : Trait}
    (htrait : trait ∈ rule.2.traits) (hkey : key ∈ trait.keys) :
    isPlaceKey key = false ∧ ∀ slot ∈ slot? s t key, slot.isPlain := by
  have hrules : ∀ r ∈ rules, ∀ entry ∈ r.2, ∀ x ∈ entry.2.traits, ∀ k ∈ x.keys,
      isPlaceKey k = false ∧ ∀ e ∈ r.2, e.1 = k → e.2.isPlain := by decide
  obtain ⟨type, rs, htype, hrs, hmem⟩ := rulesOf_mem hrule
  obtain ⟨hplace, hplain⟩ := hrules _ hrs _ hmem trait htrait key hkey
  refine ⟨hplace, fun slot hslot => ?_⟩
  obtain ⟨type', rs', entry, htype', hrs', hentry, rfl⟩ := slot?_mem hslot
  rw [htype] at htype'
  cases htype'
  have heq : rs' = rs := (rulesFor_of_mem hrs').symm.trans (rulesFor_of_mem hrs)
  have hisPlain := hplain _ (heq ▸ hentry) rfl
  cases entry with
  | choice x yes no => cases hisPlain
  | _ => exact hisPlain

/-- What a property or a method is does not depend on syntax. -/
theorem isPlain_propertyKey (hkey : key ∈ "computed" :: Trait.keys .callable) :
    isPlaceKey key = false ∧ ∀ slot ∈ slot? s t key, slot.isPlain := by
  have hrules : ∀ k ∈ "computed" :: Trait.keys .callable, isPlaceKey k = false ∧
      ∀ r ∈ rules, ∀ e ∈ r.2, e.1 = k → e.2.isPlain := by decide
  obtain ⟨hplace, hplain⟩ := hrules key hkey
  refine ⟨hplace, fun slot hslot => ?_⟩
  obtain ⟨type, rs, entry, -, hrs, hentry, rfl⟩ := slot?_mem hslot
  have hisPlain := hplain _ hrs _ hentry rfl
  cases entry with
  | choice x yes no => cases hisPlain
  | _ => exact hisPlain

theorem slot?_type : slot? s t "type" = none := by
  have hrules : ∀ r ∈ rules, ∀ e ∈ r.2, e.1 ≠ "type" := by decide
  cases h : slot? s t "type" with
  | none => rfl
  | some slot =>
    obtain ⟨type, rs, entry, -, hrs, hentry, -⟩ := slot?_mem h
    exact absurd rfl (hrules _ hrs _ hentry)

/-- The lists of a template are such that nodes are counted. -/
theorem isCounted_template (htype : t.type? = some "TemplateLiteral") (hslot : slot? s t key = some slot) :
    slot.isCounted := by
  have hrules : ∀ r ∈ rules, r.1 = "TemplateLiteral" → ∀ e ∈ r.2, e.2.isCounted := by decide
  obtain ⟨type, rs, entry, htype', hrs, hentry, rfl⟩ := slot?_mem hslot
  rw [htype] at htype'
  cases htype'
  have hcounted := hrules _ hrs rfl _ hentry
  cases entry with
  | choice x yes no => cases hcounted
  | _ => exact hcounted

/-- **A node whose fields are revised is derived again.** -/
theorem derives_revised {m : Option Nat} {fs gs : Fields} (h : Derives labels s (.obj m fs))
    (hr : Revised labels (slot? s (.obj m fs)) fs gs) :
    Derives labels s (.obj m gs) ∧ (Tree.obj m gs).type? = (Tree.obj m fs).type? := by
  have hkeep : ∀ key, (isPlaceKey key = false ∧ ∀ slot ∈ slot? s (.obj m fs) key,
      slot.isPlain) → (Tree.obj m gs).get key = (Tree.obj m fs).get key := by
    intro key hkey
    refine congrArg (Option.getD · .null) (hr.lookup_eq fun v hv hvisited => ?_)
    rw [isVisited_of_isPlain hkey.1 hkey.2 (h.fields _ hv)] at hvisited
    cases hvisited
  have htype : (Tree.obj m gs).type? = (Tree.obj m fs).type? := by
    show ((lookup "type" gs).getD .null).str? = ((lookup "type" fs).getD .null).str?
    rw [hr.lookup_eq fun _ _ _ => slot?_type]
  have hrules : rulesOf (.obj m gs) = rulesOf (.obj m fs) := by rw [rulesOf, rulesOf, htype]
  have hresolve : ∀ rule ∈ rulesOf (.obj m fs),
      rule.2.resolve s (.obj m gs) = rule.2.resolve s (.obj m fs) := fun rule hrule =>
    resolve_congr_of_keys fun trait htrait key hkey =>
      hkeep key (isPlain_traitKey hrule htrait hkey)
  have hslots : slot? s (.obj m gs) = slot? s (.obj m fs) := by
    funext key
    rw [slot?, slot?, hrules]
    cases hlookup : (rulesOf (.obj m fs)).lookup key with
    | none => rfl
    | some slot => exact congrArg some (hresolve _ (mem_of_lookup hlookup))
  refine ⟨⟨rfl, ?_, ?_, h.distinct.sublist hr.sublist_keys, ?_, ?_⟩, htype⟩
  · have hmark : (Tree.obj m gs).mark? = (Tree.obj m fs).mark? := rfl
    refine (agrees_congr hmark htype ?_).trans h.agrees
    have hflag := fun (key : String) hkey => hkeep key (isPlain_propertyKey hkey)
    rw [isWritten, isWritten, isType_congr htype, isType_congr htype, hflag "kind" (by decide),
      hflag "computed" (by decide)]
    cases htemplate : (Tree.obj m fs).isType "TemplateLiteral" with
    | false => rfl
    | true =>
      have hlength : ∀ key, ((Tree.obj m gs).children key).length = ((Tree.obj m fs).children key).length :=
        fun key => hr.length_items fun _ => isCounted_template (isType_iff.mp htemplate)
      rw [hlength, hlength]
  · have hcallable : Trait.holds s (.obj m gs) .callable = Trait.holds s (.obj m fs) .callable :=
      holds_congr_of_keys fun key hkey => hkeep key (isPlain_propertyKey (List.mem_cons_of_mem _ hkey))
    replace hcallable : isCallable (.obj m gs) = isCallable (.obj m fs) := hcallable
    rw [Symbol.admits, isTypeIn_congr htype, hcallable]
    exact h.admitted
  · intro rule hrule
    rw [hrules] at hrule
    rw [hresolve rule hrule]
    cases hoptional : (rule.2.resolve s (.obj m fs)).isOptional with
    | true => exact .inl rfl
    | false =>
      refine .inr (hr.isSome_lookup (fun slot hslot => ?_) ?_)
      · obtain ⟨type, rs, hof, hrs, hmem⟩ := rulesOf_mem hrule
        rw [slot?_of_rule hof (rule_of_mem hrs hmem)] at hslot
        cases hslot
        exact hoptional
      · exact (h.complete rule hrule).resolve_left (by simp [hoptional])
  · intro f hf
    rw [hslots]
    exact hr.fit h.fields f hf

end

/-! ## The visit -/

section

variable {C σ : Type} {K : Contract C σ} {labels : Labelling} {handle : Handler C σ}

/-- The slot of one item. -/
def itemSlot (s : Symbol) (mayBeNull : Bool) : Slot := if mayBeNull then .optional s else .one s

theorem isNode_of_isVisited (h : fits labels slot v) (hvisited : isVisited v) :
    slot.content?.isSome ∧ slot ≠ .segment := by
  cases v with
  | obj m fs =>
    rcases fits_object_cases h with ⟨s, hsymbol, -⟩ | ⟨-, hinert⟩
    · cases slot <;> simp_all [Slot.symbol?, Slot.content?]
    · rw [isInert, Bool.and_eq_true, List.all_eq_true] at hinert
      exfalso
      have hnode : (lookup "type" fs).isSome := by
        simpa [isVisited, isNode, isList] using hvisited
      obtain ⟨w, hw⟩ := Option.isSome_iff_exists.mp hnode
      have hne := hinert.2 _ (mem_of_lookup_eq_some hw)
      simp at hne
  | list xs => cases slot <;> simp_all [fits, Slot.items?, Slot.content?]
  | _ => cases hvisited

/-- In a slot that holds syntax stands a node, nothing, or a list of nodes and holes. -/
theorem fits_content_cases {x : Symbol} (hx : slot.content? = some x) (h : fits labels slot v) :
    v = .null ∨ Derives labels x v ∨ ∃ xs, v = .list xs ∧ ∀ y ∈ xs, y = .null ∨ Derives labels x y := by
  cases slot with
  | one s =>
    cases hx
    exact .inr (.inl (fits_one_iff.mp h))
  | optional s =>
    cases hx
    exact (fits_optional_iff.mp h).imp_right .inl
  | many s =>
    cases hx
    obtain ⟨xs, rfl, hxs⟩ := fits_many_iff.mp h
    exact .inr (.inr ⟨xs, rfl, fun y hy => .inr (hxs y hy)⟩)
  | several s =>
    cases hx
    obtain ⟨xs, rfl, -, hxs⟩ := fits_several_iff.mp h
    exact .inr (.inr ⟨xs, rfl, fun y hy => .inr (hxs y hy)⟩)
  | sparse s =>
    cases hx
    exact .inr (.inr (fits_sparse_iff.mp h))
  | _ => cases hx

/-- The nodes of a value that fits are derived from the symbol of its slot. -/
theorem derives_of_isNode {x : Symbol} {y : Tree} (hx : slot.content? = some x) (h : fits labels slot v)
    (hy : y = v ∨ y ∈ v.items) (hnode : y.isNode) : Derives labels x y := by
  rcases fits_content_cases hx h with rfl | hd | ⟨xs, rfl, hxs⟩
  · rcases hy with rfl | hy
    · cases hnode
    · cases hy
  · rcases hy with rfl | hy
    · exact hd
    · rw [hd.items] at hy
      cases hy
  · rcases hy with rfl | hy
    · cases hnode
    · refine (hxs y hy).resolve_left ?_
      rintro rfl
      cases hnode

theorem Derives.refills (h : Derives labels s t) (hslot : slot.symbol? = some s) : Refills labels slot v t := by
  refine ⟨(fits_node_iff hslot h.isObject).mpr h, fun hcounted => ?_⟩
  cases (isCounted_eq_false (.inr (by rw [hslot]; rfl))).symm.trans hcounted

/-- A contract about outcomes that fit again. -/
theorem inField_of_refits {o : Outcome} (h : Refits labels slot v o) :
    o.inField key v = [] ∧ slot.isOptional ∨
      ∃ w, o.inField key v = [(key, w)] ∧ Refills labels slot v w := by
  rcases h with ⟨rfl, hoptional⟩ | ⟨t, rfl, ht⟩ | ⟨ts, rfl, hslot, hts⟩
  · exact .inl ⟨rfl, hoptional⟩
  · exact .inr ⟨t, rfl, ht⟩
  · have hblock : Derives labels .statement (block ts v) := derives_block hts v (by decide)
    exact .inr ⟨block ts v, rfl, hblock.refills hslot⟩

theorem content?_itemSlot (s : Symbol) (mayBeNull : Bool) : (itemSlot s mayBeNull).content? = some s := by
  cases mayBeNull <;> rfl

/-- A field that holds syntax is visited by the contract. -/
def KeepsField (K : Contract C σ) (labels : Labelling) (handle : Handler C σ) (fs : Fields) : Prop :=
  ∀ key c slot v st, lookup key fs = some v → slot.content?.isSome → fits labels slot v →
    K.SlotAdmits c slot v → K.invariant st →
    ∃ o st', Yields (visitField handle c key fs) st o st' ∧ K.SlotYields c slot v o ∧ K.invariant st'

/-- All fields are visited by the contract, in contexts that admit them. -/
def KeepsFields (K : Contract C σ) (labels : Labelling) (handle : Handler C σ) (fs : Fields) : Prop :=
  ∀ (contexts : String → Option C) (slotOf : String → Option Slot) st,
    (∀ f ∈ fs, FieldFits labels (slotOf f.1) f.1 f.2) →
    (∀ key slot c v, slotOf key = some slot → contexts key = some c → (key, v) ∈ fs →
      K.SlotAdmits c slot v ∧ ∀ o, K.SlotYields c slot v o → Refits labels slot v o) →
    (∀ key, isPlaceKey key → slotOf key = none) → K.invariant st →
    ∃ gs st', Yields (visitFields handle contexts fs) st gs st' ∧ Revised labels slotOf fs gs ∧ K.invariant st'

/-- The parts of a node keep the contract if its fields do. -/
theorem partsKeep_of_fields {s : Symbol} {m : Option Nat} {fs : Fields} (hd : Derives labels s (.obj m fs))
    (hfield : KeepsField K labels handle fs) (hfields : KeepsFields K labels handle fs) :
    PartsKeep K labels s (.obj m fs) (partsOf handle m fs) := by
  refine ⟨?_, ?_⟩
  · intro key slot c st hslot hcontent hsome hadmits hst
    obtain ⟨v, hv⟩ := Option.isSome_iff_exists.mp hsome
    have hget : (Tree.obj m fs).get key = v := by rw [Tree.get, hv]; rfl
    have hfits := hd.fields (key, v) (mem_of_lookup_eq_some hv)
    rw [hslot] at hfits
    rw [hget] at hadmits ⊢
    exact hfield key c slot v st hv hcontent hfits hadmits hst
  · intro contexts st hgood hst
    obtain ⟨gs, st', hyields, hrevised, hst'⟩ := hfields contexts (slot? s (.obj m fs)) st hd.fields hgood
      (fun _ => slot?_of_isPlaceKey) hst
    obtain ⟨hderives, htype⟩ := derives_revised hd hrevised
    exact ⟨.obj m gs, st', hyields.map _, hderives, htype, rfl, hst'⟩

section

variable (hhandle : HandlerKeeps K labels handle)

include hhandle

set_option linter.unusedSectionVars false

mutual

/-- **Every visit keeps the contract**, for values in slots that hold syntax. -/
theorem visit_keeps :
    ∀ (v : Tree) (c : C) (slot : Slot) (st : σ), slot.content?.isSome →
      fits labels slot v → K.SlotAdmits c slot v → K.invariant st →
      ∃ o st', Yields (visit handle c v) st o st' ∧ K.SlotYields c slot v o ∧ K.invariant st'
  | .obj m fs, c, slot, st, hcontent, hfits, hadmits, hst => by
    -- A node is given to the handler, whose parts are visited by induction.
    have hnode : ∀ s, slot.symbol? = some s →
        ∃ o st', Yields (visit handle c (.obj m fs)) st o st' ∧ K.yields c s o ∧ K.invariant st' := by
      intro s hs
      have hd : Derives labels s (.obj m fs) := (fits_node_iff hs rfl).mp hfits
      have hin : K.admits c s (.obj m fs) := hadmits s (by cases slot <;> first | exact hs | cases hs) _ (.inl rfl) hd.isNode
      rw [visit]
      exact hhandle c s _ _ st hin hd (partsKeep_of_fields hd (visitField_keeps fs) (visitFields_keep fs)) hst
    cases slot with
    | one s => exact hnode s rfl
    | optional s =>
      obtain ⟨o, st', hyields, ho, hst'⟩ := hnode s rfl
      exact ⟨o, st', hyields, .inl ho, hst'⟩
    | many s | several s | sparse s => cases hfits
    | _ => cases hcontent
  | .list xs, c, slot, st, hcontent, hfits, hadmits, hst => by
    have hitems : ∀ s mayBeNull, slot.content? = some s →
        (∀ x ∈ xs, fits labels (itemSlot s mayBeNull) x) →
        ∃ (os : List Outcome) (st' : σ), Yields (visit handle c (.list xs)) st
          (.keep (.list (os.flatMap Outcome.inList))) st' ∧ os.length = xs.length ∧
          (∀ o ∈ os, K.ItemYields c s mayBeNull o) ∧ K.invariant st' := by
      intro s mayBeNull hs hxs
      obtain ⟨os, st', hyields, hlength, hos, hst'⟩ := visitItems_keep xs c s mayBeNull st
        hxs (fun x hx => hadmits s hs x (.inr hx)) hst
      exact ⟨os, st', hyields.map _, hlength, hos, hst'⟩
    obtain ⟨item, _, hslot, hxs⟩ := exists_items_of_fits hfits
    cases slot with
    | many s | several s =>
      cases hslot
      obtain ⟨os, st', hyields, hlength, hos, hst'⟩ := hitems s false rfl hxs
      refine ⟨_, st', hyields, ⟨os, rfl, hlength, fun o ho => ?_⟩, hst'⟩
      exact (hos o ho).resolve_right fun h => Bool.noConfusion h.1
    | sparse s =>
      cases hslot
      obtain ⟨os, st', hyields, -, hos, hst'⟩ := hitems s true rfl hxs
      exact ⟨_, st', hyields, ⟨os, rfl, hos⟩, hst'⟩
    | _ => cases hslot
  | .null, c, slot, st, hcontent, hfits, _, hst => by
    cases slot with
    | optional s => exact ⟨_, st, Yields.pure _ _, .inr ⟨rfl, rfl⟩, hst⟩
    | one s | many s | several s | sparse s => cases hfits
    | _ => cases hcontent
  | .str x, _, slot, _, hcontent, hfits, _, _ => by
    cases slot with
    | one | optional | many | several | sparse => cases hfits
    | _ => cases hcontent
  | .bool x, _, slot, _, _, hfits, _, _ => by cases hfits
  | .int x, _, slot, _, _, hfits, _, _ => by cases hfits
  | .real x, _, slot, _, _, hfits, _, _ => by cases hfits

theorem visitField_keeps : ∀ fs : Fields, KeepsField K labels handle fs
  | [], _, _, _, _, _, hlookup, _, _, _, _ => by cases hlookup
  | (k, w) :: rest, key, c, slot, v, st, hlookup, hcontent, hfits, hadmits, hst => by
    rw [lookup] at hlookup
    rw [visitField]
    split at hlookup
    · rename_i heq
      cases hlookup
      rw [if_pos heq]
      exact visit_keeps w c slot st hcontent hfits hadmits hst
    · rename_i hne
      rw [if_neg hne]
      exact visitField_keeps rest key c slot v st hlookup hcontent hfits hadmits hst

theorem visitFields_keep : ∀ fs : Fields, KeepsFields K labels handle fs
  | [], _, _, st, _, _, _, hst => ⟨[], st, Yields.pure _ _, .nil, hst⟩
  | (k, v) :: rest, contexts, slotOf, st, hfits, hgood, hplace, hst => by
    rw [List.forall_mem_cons] at hfits
    have htail := fun st hst => visitFields_keep rest contexts slotOf st hfits.2
      (fun key slot c w hslot hc hw => hgood key slot c w hslot hc (List.mem_cons_of_mem _ hw))
      hplace hst
    have hsame : Yields (visitEntry handle contexts k v) st [(k, v)] st →
        ∃ gs st', Yields (visitFields handle contexts ((k, v) :: rest)) st gs st' ∧
          Revised labels slotOf ((k, v) :: rest) gs ∧ K.invariant st' := by
      intro hhead
      obtain ⟨gs, st', hyields, hrevised, hst'⟩ := htail st hst
      exact ⟨_, st', yields_visitFields_cons hhead hyields, .same hrevised, hst'⟩
    cases hc : contexts k with
    | none =>
      refine hsame ?_
      rw [visitEntry, hc]
      exact Yields.pure _ _
    | some c =>
      cases hvisited : isSyntaxKey k && isVisited v with
      | false =>
        refine hsame ?_
        rw [visitEntry, hc]
        simp only [hvisited, Bool.false_eq_true, if_false]
        exact Yields.pure _ _
      | true =>
        obtain ⟨hwritten, hv⟩ := Bool.and_eq_true_iff.mp hvisited
        -- What is visited stands in a slot, since all else holds no nodes.
        obtain ⟨slot, hslot⟩ : ∃ slot, slotOf k = some slot := by
          cases hslot : slotOf k with
          | some slot => exact ⟨slot, rfl⟩
          | none =>
            have hfit := hfits.1
            rw [hslot] at hfit
            rw [isVisited_of_isPlain (isPlaceKey_of_isSyntaxKey hwritten) (by simp) hfit] at hv
            cases hv
        have hfit : fits labels slot v := by
          have hfit := hfits.1
          rw [hslot] at hfit
          exact hfit
        obtain ⟨hadmits, hrefits⟩ := hgood k slot c v hslot hc List.mem_cons_self
        obtain ⟨o, st₁, hyields, ho, hst₁⟩ := visit_keeps v c slot st
          (isNode_of_isVisited hfit hv).1 hfit hadmits hst
        have hhead : Yields (visitEntry handle contexts k v) st (o.inField k v) st₁ := by
          rw [visitEntry, hc]
          simp only [hvisited, if_true]
          exact hyields.map _
        obtain ⟨gs, st₂, htailYields, hrevised, hst₂⟩ := htail st₁ hst₁
        refine ⟨_, st₂, yields_visitFields_cons hhead htailYields, ?_, hst₂⟩
        rcases inField_of_refits (hrefits o ho) with ⟨hnil, hoptional⟩ | ⟨w, hone, hw⟩
        · rw [hnil]
          exact .removed hslot hv hoptional hrevised
        · rw [hone]
          exact .visited hslot hv hw hrevised

theorem visitItems_keep :
    ∀ (xs : List Tree) (c : C) (s : Symbol) (mayBeNull : Bool) (st : σ),
      (∀ x ∈ xs, fits labels (itemSlot s mayBeNull) x) →
      (∀ x ∈ xs, x.isNode → K.admits c s x) → K.invariant st →
      ∃ (os : List Outcome) (st' : σ), Yields (visitItems handle c xs) st (os.flatMap Outcome.inList) st' ∧
        os.length = xs.length ∧ (∀ o ∈ os, K.ItemYields c s mayBeNull o) ∧ K.invariant st'
  | [], _, _, _, st, _, _, hst => ⟨[], st, Yields.pure _ _, rfl, by simp, hst⟩
  | x :: rest, c, s, mayBeNull, st, hfits, hadmits, hst => by
    rw [List.forall_mem_cons] at hfits hadmits
    have hhead : ∃ (o : Outcome) (st' : σ), Yields (visitItem handle c x) st o.inList st' ∧
        K.ItemYields c s mayBeNull o ∧ K.invariant st' := by
      cases hnode : x.isNode with
      | true =>
        have hslot : K.SlotAdmits c (itemSlot s mayBeNull) x := by
          intro s' hs' y hy hynode
          rw [content?_itemSlot] at hs'
          cases hs'
          rcases hy with rfl | hy
          · exact hadmits.1 hnode
          · cases x with
            | obj m fs => cases hy
            | _ => cases hnode
        obtain ⟨o, st', hyields, ho, hst'⟩ := visit_keeps x c (itemSlot s mayBeNull) st
          (by rw [content?_itemSlot]; rfl) hfits.1 hslot hst
        refine ⟨o, st', ?_, ?_, hst'⟩
        · rw [visitItem, if_pos hnode]
          exact hyields.map _
        · cases mayBeNull with
          | false => exact .inl ho
          | true => exact ho.imp_right fun h => ⟨rfl, h.2⟩
      | false =>
        -- An item that is no node is a hole.
        have hnull : mayBeNull ∧ x = .null := by
          cases mayBeNull with
          | false =>
            have hisNode := (fits_one_iff.mp hfits.1).isNode
            rw [hnode] at hisNode
            cases hisNode
          | true =>
            refine ⟨rfl, (fits_optional_iff.mp hfits.1).resolve_right fun h => ?_⟩
            rw [h.isNode] at hnode
            cases hnode
        refine ⟨.keep .null, st, ?_, .inr ⟨hnull.1, rfl⟩, hst⟩
        rw [visitItem, if_neg (by simp [hnode]), hnull.2]
        exact Yields.pure _ _
    obtain ⟨o, st₁, hyields, ho, hst₁⟩ := hhead
    obtain ⟨os, st₂, htail, hlength, hos, hst₂⟩ :=
      visitItems_keep rest c s mayBeNull st₁ hfits.2 hadmits.2 hst₁
    exact ⟨o :: os, st₂, yields_visitItems_cons hyields htail, congrArg (· + 1) hlength,
      List.forall_mem_cons.mpr ⟨ho, hos⟩, hst₂⟩

end

end

end

end Downlevel.Grammar
