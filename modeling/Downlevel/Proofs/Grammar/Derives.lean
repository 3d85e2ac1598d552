import Downlevel.Proofs.Grammar.Basic

/-!
# `Proofs.Grammar.Derives`: what the grammar says of a node

The grammar derives a node from a symbol when the symbol admits it, its required fields are there and
all its fields fit. Here this is taken apart, for nodes that are given, and put together, for nodes that
are built or changed.
-/

namespace Downlevel.Grammar

open Tree

variable {key : String} {rs : List (String × Slot)} {t v t' : Tree} {slot : Slot} {fs : Fields}
  {s' : Symbol}

/-! ## Rules -/

theorem nodup_keys : ∀ rule ∈ rules, (rule.2.map (·.1)).Nodup := by decide

theorem lookup_of_mem {α : Type} {a : α} {entries : List (String × α)} (hnodup : (entries.map (·.1)).Nodup)
    (h : (key, a) ∈ entries) : entries.lookup key = some a := by
  induction entries with
  | nil => cases h
  | cons e rest ih =>
    obtain ⟨k, b⟩ := e
    rw [List.map_cons, List.nodup_cons] at hnodup
    rcases List.mem_cons.mp h with heq | hmem
    · cases heq
      exact List.lookup_cons_self
    · have hne : key ≠ k := by
        rintro rfl
        exact hnodup.1 (List.mem_map.mpr ⟨_, hmem, rfl⟩)
      rw [List.lookup_cons, beq_false_of_ne hne]
      exact ih hnodup.2 hmem

theorem rulesFor_of_mem {type : String} (h : (type, rs) ∈ rules) : rulesFor type = rs := by
  rw [rulesFor, lookup_of_mem (by decide) h]
  rfl

theorem rulesOf_of_type? {type : String} (h : t.type? = some type) : rulesOf t = rulesFor type := by
  rw [rulesOf, h]
  rfl

/-- The rules for a node are those for its type. -/
theorem rulesOf_mem {rule : String × Slot} (h : rule ∈ rulesOf t) :
    ∃ type rs, t.type? = some type ∧ (type, rs) ∈ rules ∧ rule ∈ rs := by
  rw [rulesOf] at h
  cases htype : t.type? with
  | none =>
    rw [htype] at h
    cases h
  | some type =>
    rw [htype] at h
    replace h : rule ∈ (rules.lookup type).getD [] := h
    cases hrs : rules.lookup type with
    | none =>
      rw [hrs] at h
      cases h
    | some rs =>
      rw [hrs] at h
      exact ⟨type, rs, rfl, mem_of_lookup hrs, h⟩

/-- The slot of a field, by the rules for the type of the node. -/
theorem slot?_mem {s : Symbol} (h : slot? s t key = some slot) :
    ∃ type rs entry, t.type? = some type ∧ (type, rs) ∈ rules ∧
      (key, entry) ∈ rs ∧ entry.resolve s t = slot := by
  rw [slot?, Option.map_eq_some_iff] at h
  obtain ⟨entry, hentry, hresolve⟩ := h
  obtain ⟨type, rs, htype, hrs, hmem⟩ := rulesOf_mem (mem_of_lookup hentry)
  exact ⟨type, rs, entry, htype, hrs, hmem, hresolve⟩

theorem rule_of_mem {type : String} (hrules : (type, rs) ∈ rules) (hslot : (key, slot) ∈ rs) :
    (rulesFor type).lookup key = some slot := by
  rw [rulesFor_of_mem hrules, lookup_of_mem (nodup_keys _ hrules) hslot]

/-- What stands in a field of a node of a known type. -/
theorem slot?_of_rule {s : Symbol} {type : String} (htype : t.type? = some type)
    (hrule : (rulesFor type).lookup key = some slot) : slot? s t key = some (slot.resolve s t) := by
  rw [slot?, rulesOf_of_type? htype, hrule]
  rfl

section

variable {s x : Symbol} {t : Tree} {type key : String}

section

variable (htype : t.type? = some type)

include htype

theorem slot?_one (hrule : (rulesFor type).lookup key = some (.one x)) : slot? s t key = some (.one x) :=
  slot?_of_rule htype hrule

theorem slot?_optional (hrule : (rulesFor type).lookup key = some (.optional x)) :
    slot? s t key = some (.optional x) :=
  slot?_of_rule htype hrule

theorem slot?_many (hrule : (rulesFor type).lookup key = some (.many x)) : slot? s t key = some (.many x) :=
  slot?_of_rule htype hrule

theorem slot?_several (hrule : (rulesFor type).lookup key = some (.several x)) :
    slot? s t key = some (.several x) :=
  slot?_of_rule htype hrule

end

end

/-! ## Nodes -/

/-- Does the value of a field fit? -/
def FieldFits (labels : Labelling) (slot? : Option Slot) (key : String) (v : Tree) : Prop :=
  match slot? with
  | some slot => fits labels slot v = true
  | none => isPlaceKey key = true ∨ isInert labels v = true

theorem fieldsFit_iff {labels : Labelling} {slotOf : String → Option Slot} :
    fieldsFit labels slotOf fs ↔ ∀ f ∈ fs, FieldFits labels (slotOf f.1) f.1 f.2 := by
  induction fs with
  | nil => simp [fieldsFit]
  | cons f rest ih =>
    obtain ⟨k, v⟩ := f
    rw [fieldsFit, Bool.and_eq_true, ih, List.forall_mem_cons]
    refine and_congr_left fun _ => ?_
    show _ ↔ FieldFits labels (slotOf k) k v
    unfold FieldFits
    cases slotOf k with
    | none => exact Bool.or_eq_true_iff
    | some slot => exact Iff.rfl

theorem itemsFit_iff {labels : Labelling} {xs : List Tree} :
    itemsFit labels slot xs ↔ ∀ x ∈ xs, fits labels slot x := by
  induction xs with
  | nil => simp [itemsFit]
  | cons x rest ih => simp [itemsFit, ih]

/-- **The grammar derives a node from a symbol.** -/
structure Derives (labels : Labelling) (s : Symbol) (t : Tree) : Prop where
  isObject : t.isObject = true
  agrees : labels.agrees t = true
  admitted : s.admits t = true
  distinct : (t.fields.map (·.1)).Nodup
  complete : ∀ rule ∈ rulesOf t, (rule.2.resolve s t).isOptional ∨ (t.get? rule.1).isSome = true
  fields : ∀ f ∈ t.fields, FieldFits labels (slot? s t f.1) f.1 f.2

section

variable {labels : Labelling} {s : Symbol} {t : Tree}

theorem fits_node_iff (hslot : slot.symbol? = some s) (h : t.isObject) :
    fits labels slot t ↔ Derives labels s t := by
  cases t with
  | obj m fs =>
    rw [fits, hslot]
    simp only [Bool.and_eq_true, List.all_eq_true, Bool.or_eq_true, fieldsFit_iff,
      hasDistinctKeys, decide_eq_true_eq]
    constructor
    · rintro ⟨⟨⟨⟨hagrees, hadmits⟩, hdistinct⟩, hcomplete⟩, hfields⟩
      exact ⟨rfl, hagrees, hadmits, hdistinct, hcomplete, hfields⟩
    · rintro ⟨-, hagrees, hadmits, hdistinct, hcomplete, hfields⟩
      exact ⟨⟨⟨⟨hagrees, hadmits⟩, hdistinct⟩, hcomplete⟩, hfields⟩
  | _ => cases h

theorem fits_one_iff : fits labels (.one s) t ↔ Derives labels s t := by
  cases ht : t.isObject with
  | true => exact fits_node_iff rfl ht
  | false =>
    constructor
    · intro h
      cases t with
      | obj m fs => cases ht
      | _ => cases h
    · intro h
      rw [h.isObject] at ht
      cases ht

theorem fits_optional_iff : fits labels (.optional s) t ↔ t = .null ∨ Derives labels s t := by
  cases ht : t.isObject with
  | true =>
    rw [fits_node_iff rfl ht]
    refine ⟨.inr, fun h => h.resolve_left ?_⟩
    rintro rfl
    cases ht
  | false =>
    constructor
    · intro h
      cases t with
      | obj m fs => cases ht
      | null => exact .inl rfl
      | _ => cases h
    · rintro (rfl | h)
      · rfl
      · rw [h.isObject] at ht
        cases ht

theorem fits_list_iff {item : Slot} {isNonempty : Bool} (hslot : slot.items? = some (item, isNonempty)) :
    fits labels slot t ↔ ∃ xs, t = .list xs ∧ (isNonempty → xs ≠ []) ∧
      ∀ x ∈ xs, fits labels item x := by
  constructor
  · intro h
    cases t with
    | list xs =>
      rw [fits, hslot] at h
      simp only [Bool.and_eq_true, itemsFit_iff] at h
      refine ⟨xs, rfl, ?_, h.2⟩
      rintro rfl rfl
      cases h.1
    | obj m fs =>
      rw [fits] at h
      cases slot <;> simp_all [Slot.items?, Slot.symbol?]
    | _ => cases slot <;> simp_all [Slot.items?, fits, Slot.isOptional, Slot.admitsText]
  · rintro ⟨xs, rfl, hne, hxs⟩
    rw [fits, hslot]
    simp only [Bool.and_eq_true, itemsFit_iff]
    refine ⟨?_, hxs⟩
    cases isNonempty with
    | false => rfl
    | true => simpa using hne rfl

/-- A list stands in a slot of items, and its items fit. -/
theorem exists_items_of_fits {xs : List Tree} (h : fits labels slot (.list xs)) :
    ∃ item isNonempty, slot.items? = some (item, isNonempty) ∧ ∀ x ∈ xs, fits labels item x := by
  cases hslot : slot.items? with
  | none =>
    rw [fits, hslot] at h
    cases h
  | some item =>
    rw [fits, hslot, Bool.and_eq_true] at h
    exact ⟨_, _, rfl, itemsFit_iff.mp h.2⟩

/-- An object is a node, or the value of a segment. -/
theorem fits_object_cases {m : Option Nat} {fs : Fields} (h : fits labels slot (.obj m fs)) :
    (∃ s, slot.symbol? = some s ∧ Derives labels s (.obj m fs)) ∨
      slot = .segment ∧ isInert labels (.obj m fs) := by
  cases hslot : slot.symbol? with
  | some s => exact .inl ⟨s, rfl, (fits_node_iff hslot rfl).mp h⟩
  | none =>
    rw [fits, hslot, Bool.and_eq_true, beq_iff_eq, isSegment, Bool.and_eq_true, Bool.and_eq_true] at h
    exact .inr ⟨h.1, h.2.1.2⟩

protected theorem Derives.fits (h : Derives labels s t) : fits labels (.one s) t := fits_one_iff.mpr h

theorem fits_many_iff :
    fits labels (.many s) t ↔ ∃ xs, t = .list xs ∧ ∀ x ∈ xs, Derives labels s x := by
  rw [fits_list_iff rfl]
  simp only [fits_one_iff, Bool.false_eq_true, false_implies, true_and]

theorem fits_many {xs : List Tree} (h : ∀ x ∈ xs, Derives labels s x) : fits labels (.many s) (.list xs) :=
  fits_many_iff.mpr ⟨xs, rfl, h⟩

theorem fits_several_iff :
    fits labels (.several s) t ↔ ∃ xs, t = .list xs ∧ xs ≠ [] ∧ ∀ x ∈ xs, Derives labels s x := by
  rw [fits_list_iff rfl]
  simp only [fits_one_iff, forall_const]

theorem fits_sparse_iff :
    fits labels (.sparse s) t ↔ ∃ xs, t = .list xs ∧ ∀ x ∈ xs, x = .null ∨ Derives labels s x := by
  rw [fits_list_iff rfl]
  simp only [fits_optional_iff, Bool.false_eq_true, false_implies, true_and]

/-- A slot without nodes holds a text, or nothing if it may. -/
theorem fits_text_cases (hsymbol : slot.symbol? = none) (hitems : slot.items? = none)
    (hsegment : slot ≠ .segment) (h : fits labels slot t) :
    (t = .null ∧ slot.isOptional) ∨ ∃ text, t = .str text ∧ slot.admitsText text := by
  cases t with
  | null => exact .inl ⟨rfl, h⟩
  | str text => exact .inr ⟨text, rfl, h⟩
  | list xs =>
    rw [fits, hitems] at h
    cases h
  | obj m fs =>
    rw [fits, hsymbol] at h
    simp [hsegment] at h
  | _ => cases h

theorem fits_text_iff : fits labels .text t ↔ ∃ text, t = .str text := by
  constructor
  · intro h
    rcases fits_text_cases rfl rfl Slot.noConfusion h with ⟨-, hno⟩ | ⟨text, rfl, -⟩
    · cases hno
    · exact ⟨text, rfl⟩
  · rintro ⟨text, rfl⟩
    rfl

theorem fits_segment_iff : fits labels .segment t ↔ isSegment labels t := by
  cases t with
  | obj m fs => rfl
  | _ => simp [fits, Slot.items?, Slot.isOptional, Slot.admitsText, isSegment, Tree.isObject]

/-! ## The parts of a node -/

section

variable (h : Derives labels s t)

include h

theorem Derives.type : ∃ type ∈ s.types, t.type? = some type := by
  have hadmitted := h.admitted
  rw [Symbol.admits, Bool.and_eq_true, isTypeIn_iff] at hadmitted
  exact hadmitted.1

/-- A node that a symbol with a single type admits. -/
theorem Derives.type_eq {type : String} (hs : s.types = [type]) : t.type? = some type := by
  obtain ⟨u, hu, htype⟩ := h.type
  rw [hs] at hu
  rwa [List.mem_singleton.mp hu] at htype

/-- The type of a node is one that its symbol admits. -/
theorem Derives.mem_types {type : String} (htype : t.type? = some type) : type ∈ s.types := by
  obtain ⟨u, hu, htype'⟩ := h.type
  rw [htype] at htype'
  cases htype'
  exact hu

theorem Derives.isNode : t.isNode := by
  obtain ⟨type, -, htype⟩ := h.type
  exact isNode_of_type? htype

theorem Derives.isSet : t.isSet := by
  obtain ⟨type, -, htype⟩ := h.type
  exact isSet_of_type? htype

theorem Derives.isNull : t.isNull = false := by
  have hobject := h.isObject
  cases t with
  | obj m fs => rfl
  | _ => cases hobject

/-- A node is no list. -/
theorem Derives.isList : t.isList = false := by
  cases t with
  | list xs => cases h.isObject
  | _ => rfl

theorem Derives.items : t.items = [] := by
  have hobject := h.isObject
  cases t with
  | obj m fs => rfl
  | _ => cases hobject

end

section

variable {type k : String} {slot : Slot} {x : Symbol}

section

variable (h : Derives labels s t) (htype : t.type? = some type)

include h htype

/-- The value of a field fits in the slot that the rules give it. -/
theorem Derives.part (hrule : (rulesFor type).lookup k = some slot) :
    fits labels (slot.resolve s t) (t.get k) := by
  rw [Tree.get]
  cases hv : t.get? k with
  | none =>
    have hmem : (k, slot) ∈ rulesOf t := by
      rw [rulesOf_of_type? htype]
      exact mem_of_lookup hrule
    rcases h.complete _ hmem with hoptional | hsome
    · exact hoptional
    · rw [hv] at hsome
      cases hsome
  | some v =>
    have hfits := h.fields (k, v) (mem_of_lookup_eq_some hv)
    rw [slot?_of_rule htype hrule] at hfits
    exact hfits

theorem Derives.one (hrule : (rulesFor type).lookup k = some (.one x)) : Derives labels x (t.get k) :=
  fits_one_iff.mp (h.part htype hrule)

theorem Derives.optional (hrule : (rulesFor type).lookup k = some (.optional x)) :
    t.get k = .null ∨ Derives labels x (t.get k) :=
  fits_optional_iff.mp (h.part htype hrule)

theorem Derives.many (hrule : (rulesFor type).lookup k = some (.many x)) :
    t.get k = .list (t.children k) ∧ ∀ c ∈ t.children k, Derives labels x c := by
  obtain ⟨xs, hxs, hall⟩ := fits_many_iff.mp (h.part htype hrule)
  rw [children, hxs]
  exact ⟨rfl, hall⟩

theorem Derives.several (hrule : (rulesFor type).lookup k = some (.several x)) :
    t.get k = .list (t.children k) ∧ t.children k ≠ [] ∧ ∀ c ∈ t.children k, Derives labels x c := by
  obtain ⟨xs, hxs, hne, hall⟩ := fits_several_iff.mp (h.part htype hrule)
  rw [children, hxs]
  exact ⟨rfl, hne, hall⟩

/-- A segment of a template. -/
theorem Derives.segment (hrule : (rulesFor type).lookup k = some .segment) : isSegment labels (t.get k) :=
  fits_segment_iff.mp (h.part htype hrule)

theorem Derives.text (hrule : (rulesFor type).lookup k = some .text) : ∃ text, t.get k = .str text :=
  fits_text_iff.mp (h.part htype hrule)

theorem Derives.keyword (hrule : (rulesFor type).lookup k = some .keyword) :
    ∃ text, t.get k = .str text ∧ text ∈ ["var", "let", "const"] := by
  obtain ⟨text, htext, hadmits⟩ :=
    (fits_text_cases rfl rfl Slot.noConfusion (h.part htype hrule)).resolve_left
      fun hnull => Bool.noConfusion hnull.2
  exact ⟨text, htext, List.contains_iff_mem.mp hadmits⟩

end

/-- Where every field stands only once, it is the one that is looked up. -/
theorem lookup_of_mem_fields (hdistinct : (fs.map (·.1)).Nodup) (hmem : (k, v) ∈ fs) :
    lookup k fs = some v := by
  induction fs with
  | nil => cases hmem
  | cons e rest ih =>
    obtain ⟨i, w⟩ := e
    rw [List.map_cons, List.nodup_cons] at hdistinct
    rw [lookup]
    rcases List.mem_cons.mp hmem with heq | hmem
    · cases heq
      rw [if_pos rfl]
    · have hne : i ≠ k := by
        rintro rfl
        exact hdistinct.1 (List.mem_map.mpr ⟨_, hmem, rfl⟩)
      rw [if_neg hne, ih hdistinct.2 hmem]

theorem get_of_mem_fields (hdistinct : (t.fields.map (·.1)).Nodup) (hmem : (k, v) ∈ t.fields) :
    t.get k = v := by
  rw [Tree.get, Tree.get?, lookup_of_mem_fields hdistinct hmem]
  rfl

theorem Derives.get_of_mem (h : Derives labels s t) (hmem : (k, v) ∈ t.fields) : t.get k = v :=
  get_of_mem_fields h.distinct hmem

/-- All parts of a node fit. -/
theorem Derives.parts (h : Derives labels s t) :
    ∀ rule ∈ rulesOf t, fits labels (rule.2.resolve s t) (t.get rule.1) := by
  intro rule hrule
  obtain ⟨type, rs, htype, hrs, hmem⟩ := rulesOf_mem hrule
  exact h.part htype (rule_of_mem hrs hmem)

/-- The fields that no rule mentions hold no syntax. -/
theorem Derives.rest (h : Derives labels s t) : ∀ f ∈ t.fields, (rulesOf t).lookup f.1 = none →
    isPlaceKey f.1 ∨ isInert labels f.2 := by
  intro f hf hlookup
  have hfits := h.fields f hf
  rw [slot?, hlookup] at hfits
  exact hfits

/-- The value of a field that no rule mentions holds no syntax. -/
theorem Derives.isInert_get (h : Derives labels s t) (hkey : (rulesOf t).lookup k = none)
    (hplace : isPlaceKey k = false) : isInert labels (t.get k) := by
  rw [Tree.get]
  cases hv : t.get? k with
  | none => rfl
  | some v =>
    refine (h.rest (k, v) (mem_of_lookup_eq_some hv) hkey).resolve_left ?_
    simp [hplace]

/-- A field that is not null is there. -/
theorem get?_of_get (h : t.get k = v) (hv : v.isNull = false) : t.get? k = some v := by
  rw [Tree.get] at h
  cases hget : t.get? k with
  | none =>
    rw [hget] at h
    rw [← h] at hv
    cases hv
  | some w =>
    rw [hget] at h
    exact congrArg some h

end

/-! ## Nodes that are changed -/

/-- A node is derived when its parts fit and its other fields hold no syntax. -/
theorem derives_of_parts (hobject : t.isObject) (hagrees : labels.agrees t)
    (hadmitted : s.admits t) (hdistinct : (t.fields.map (·.1)).Nodup)
    (hparts : ∀ rule ∈ rulesOf t, fits labels (rule.2.resolve s t) (t.get rule.1))
    (hrest : ∀ f ∈ t.fields, (rulesOf t).lookup f.1 = none →
      isPlaceKey f.1 ∨ isInert labels f.2) : Derives labels s t := by
  refine ⟨hobject, hagrees, hadmitted, hdistinct, fun rule hrule => ?_, fun f hf => ?_⟩
  · have hfits := hparts rule hrule
    cases hget : t.get? rule.1 with
    | none =>
      rw [Tree.get, hget] at hfits
      exact .inl hfits
    | some v => exact .inr rfl
  · cases hlookup : (rulesOf t).lookup f.1 with
    | none =>
      rw [slot?, hlookup]
      exact hrest f hf hlookup
    | some slot =>
      have hget : t.get f.1 = f.2 := get_of_mem_fields hdistinct hf
      rw [slot?, hlookup, ← hget]
      exact hparts _ (mem_of_lookup hlookup)

/-- The fields on which it depends whether a node is as a parser writes it. -/
def writtenKeys : List String := ["type", "computed", "kind", "quasis", "expressions"]

/-- The fields on which it depends what the rules are and what is asked of a node. -/
def traitKeys : List String := "method" :: "expression" :: writtenKeys

theorem get_set_of_not_mem {other : String} {keys : List String} (hkey : key ∉ keys) (hother : other ∈ keys)
    (v : Tree) : (t.set key v).get other = t.get other := by
  refine get_set_of_ne ?_ t v
  rintro rfl
  exact hkey hother

theorem type?_set (hkey : key ∉ traitKeys) (v : Tree) : (t.set key v).type? = t.type? := by
  rw [type?, type?, get_set_of_not_mem hkey (by decide)]

/-- The fields that a trait looks at. -/
def Trait.keys : Trait → List String
  | .computed => ["computed"]
  | .callable => ["kind", "method"]
  | .concise => ["expression"]
  | .exported => []
  | .inPattern => []

/-- Only the fields that are traits matter for them. -/
theorem holds_congr_of_keys {trait : Trait} (h : ∀ key ∈ trait.keys, t'.get key = t.get key) :
    trait.holds s t' = trait.holds s t := by
  cases trait with
  | computed => exact congrArg isSet (h "computed" (by decide))
  | callable =>
    show isCallable _ = isCallable _
    rw [isCallable, h "kind" (by decide), h "method" (by decide)]
    rfl
  | concise => exact congrArg isSet (h "expression" (by decide))
  | exported | inPattern => rfl

theorem holds_of_traitKeys (h : ∀ key ∈ traitKeys, t'.get key = t.get key) (trait : Trait) :
    trait.holds s t' = trait.holds s t := by
  have hkeys : trait.keys ⊆ traitKeys := by cases trait <;> decide
  exact holds_congr_of_keys fun key hkey => h key (hkeys hkey)

theorem holds_set (hkey : key ∉ traitKeys) (v : Tree) (trait : Trait) :
    trait.holds s (t.set key v) = trait.holds s t :=
  holds_of_traitKeys (fun _ hother => get_set_of_not_mem hkey hother v) trait

/-- The slots of a node depend on its traits only. -/
theorem resolve_congr (h : ∀ trait : Trait, trait.holds s' t' = trait.holds s t) (slot : Slot) :
    slot.resolve s' t' = slot.resolve s t := by
  induction slot with
  | choice trait yes no hyes hno => rw [Slot.resolve, Slot.resolve, h, hyes, hno]
  | _ => rfl

theorem slot?_congr (htype : t'.type? = t.type?) (h : ∀ trait : Trait, trait.holds s' t' = trait.holds s t) :
    slot? s' t' = slot? s t := by
  funext key
  rw [slot?, slot?, rulesOf, rulesOf, htype, funext (resolve_congr h)]

theorem agrees_iff : labels.agrees t ↔
    (∀ typeOf, labels.typeOf = some typeOf → ∀ m, t.mark? = some m → typeOf m = t.type?) ∧
      (labels.isStrict → isWritten t) := by
  rw [Labelling.agrees, Bool.and_eq_true, Bool.or_eq_true, Bool.not_eq_true', ← Bool.not_eq_true,
    ← imp_iff_not_or]
  cases labels.typeOf with
  | none => simp
  | some typeOf => cases t.mark? <;> simp

theorem agrees_congr (hmark : t'.mark? = t.mark?) (htype : t'.type? = t.type?)
    (hwritten : isWritten t' = isWritten t) : labels.agrees t' = labels.agrees t := by
  unfold Labelling.agrees
  rw [hmark, htype, hwritten]

theorem agrees_of_writtenKeys (hmark : t'.mark? = t.mark?)
    (h : ∀ key ∈ writtenKeys, t'.get key = t.get key) : labels.agrees t' = labels.agrees t := by
  have htype : t'.type? = t.type? := congrArg str? (h "type" (by decide))
  refine agrees_congr hmark htype ?_
  rw [isWritten, children, children, isType_congr htype, isType_congr htype, h "quasis" (by decide),
    h "expressions" (by decide), h "kind" (by decide), h "computed" (by decide)]
  rfl

/-- Only templates and methods can be other than a parser writes them. -/
theorem isWritten_of_type? {type : String} (htype : t.type? = some type)
    (h : type ∉ ["TemplateLiteral", "MethodDefinition"]) : isWritten t := by
  rw [List.mem_pair, not_or] at h
  rw [isWritten, isType_of_type? htype, isType_of_type? htype, decide_eq_false h.1, decide_eq_false h.2]
  rfl

theorem agrees_of_unmarked (h : t.mark? = none) (hwritten : isWritten t) : labels.agrees t := by
  rw [agrees_iff, h]
  exact ⟨nofun, fun _ => hwritten⟩

theorem mem_insert {f : String × Tree} (h : f ∈ insert key v fs) : f = (key, v) ∨ f ∈ fs := by
  induction fs with
  | nil => exact .inl (List.mem_singleton.mp h)
  | cons e rest ih =>
    obtain ⟨k, w⟩ := e
    rw [Tree.insert] at h
    split at h
    · rename_i heq
      rcases List.mem_cons.mp h with rfl | h
      · rw [heq]
        exact .inl rfl
      · exact .inr (List.mem_cons_of_mem _ h)
    · rcases List.mem_cons.mp h with rfl | h
      · exact .inr List.mem_cons_self
      · exact (ih h).imp id (List.mem_cons_of_mem _)

theorem keys_insert (key : String) (v : Tree) (fs : Fields) :
    (Tree.insert key v fs).map (·.1) =
      if key ∈ fs.map (·.1) then fs.map (·.1) else fs.map (·.1) ++ [key] := by
  induction fs with
  | nil => rfl
  | cons e rest ih =>
    obtain ⟨k, w⟩ := e
    rw [Tree.insert]
    by_cases heq : k = key
    · simp [heq]
    · have hne : key ≠ k := fun h => heq h.symm
      simp only [if_neg heq, List.map_cons, ih, List.mem_cons, hne, false_or]
      split <;> rfl

theorem distinct_set (h : (t.fields.map (·.1)).Nodup) : ((t.set key v).fields.map (·.1)).Nodup := by
  cases t with
  | obj m fs =>
    show ((Tree.insert key v fs).map (·.1)).Nodup
    rw [keys_insert]
    split
    · exact h
    · rename_i hnot
      exact List.nodup_append.mpr ⟨h, List.nodup_singleton _, fun a ha b hb =>
        fun heq => hnot (by rw [← List.mem_singleton.mp hb, ← heq]; exact ha)⟩
  | _ => exact h

theorem isSome_get?_set {other : String} (h : (t.get? other).isSome) :
    ((t.set key v).get? other).isSome := by
  cases t with
  | obj m fs =>
    show (lookup other (Tree.insert key v fs)).isSome = true
    by_cases heq : other = key
    · rw [heq, lookup_insert_self]
      rfl
    · rwa [lookup_insert_of_ne heq]
  | _ => exact h

/-- Writing a field that fits leaves the node derivable. -/
theorem derives_set (h : Derives labels s t) (hkey : key ∉ traitKeys)
    (hfits : FieldFits labels (slot? s t key) key v) : Derives labels s (t.set key v) := by
  have htype := type?_set hkey v (t := t)
  have hholds := holds_set hkey v (s := s) (t := t)
  have hslots := slot?_congr htype hholds
  refine ⟨(isObject_set t key v).trans h.isObject, ?_, ?_, distinct_set h.distinct, ?_, ?_⟩
  · rw [agrees_of_writtenKeys (mark?_set t key v) fun _ hother =>
      get_set_of_not_mem hkey (List.mem_of_mem_tail (List.mem_of_mem_tail hother)) v]
    exact h.agrees
  · have hcallable : isCallable (t.set key v) = isCallable t := hholds .callable
    rw [Symbol.admits, isTypeIn_congr htype, hcallable]
    exact h.admitted
  · intro rule hrule
    rw [rulesOf, htype] at hrule
    rw [resolve_congr hholds]
    exact (h.complete rule hrule).imp id isSome_get?_set
  · intro f hf
    rw [hslots]
    cases t with
    | obj m fs =>
      rcases mem_insert hf with rfl | hf
      · exact hfits
      · exact h.fields f hf
    | _ => cases hf

theorem slot?_set (hkey : key ∉ traitKeys) (v : Tree) (other : String) :
    slot? s (t.set key v) other = slot? s t other :=
  congrFun (slot?_congr (type?_set hkey v) (holds_set hkey v)) other

/-- Writing a field that holds syntax. -/
theorem Derives.set_slot (h : Derives labels s t) (hslot : slot? s t key = some slot) (hkey : key ∉ traitKeys)
    (hv : fits labels slot v) : Derives labels s (t.set key v) := by
  refine derives_set h hkey ?_
  rw [hslot]
  exact hv

/-- A field that can be missing can be dropped. -/
theorem Derives.erase (h : Derives labels s t) (hslot : slot? s t key = some slot)
    (hoptional : slot.isOptional) (hkey : key ∉ traitKeys) : Derives labels s (t.erase key) := by
  have hget : ∀ other ∈ traitKeys, (t.erase key).get other = t.get other := by
    intro other hother
    refine congrArg (Option.getD · .null) (get?_erase_of_ne ?_ t)
    rintro rfl
    exact hkey hother
  have htype : (t.erase key).type? = t.type? := congrArg str? (hget "type" (by decide))
  have hholds := holds_of_traitKeys hget (s := s)
  have hslots := slot?_congr htype hholds
  cases t with
  | obj m fs =>
    refine ⟨rfl, ?_, ?_, ?_, ?_, ?_⟩
    · rw [← h.agrees]
      refine agrees_of_writtenKeys rfl fun key hkey => hget key ?_
      exact List.mem_cons_of_mem _ (List.mem_cons_of_mem _ hkey)
    · have hcallable : isCallable ((Tree.obj m fs).erase key) = isCallable (.obj m fs) := hholds .callable
      rw [Symbol.admits, isTypeIn_congr htype, hcallable]
      exact h.admitted
    · exact List.Sublist.nodup (List.Sublist.map _ List.filter_sublist) h.distinct
    · intro rule hrule
      rw [rulesOf, htype] at hrule
      rw [resolve_congr hholds]
      by_cases heq : rule.1 = key
      · refine .inl ?_
        obtain ⟨type, rs, htype', hrs, hmem⟩ := rulesOf_mem hrule
        have hrule' := slot?_of_rule htype' (rule_of_mem hrs hmem) (s := s)
        rw [heq, hslot] at hrule'
        rwa [← Option.some.inj hrule']
      · rw [get?_erase_of_ne heq]
        exact h.complete rule hrule
    · intro f hf
      rw [hslots]
      exact h.fields f (List.mem_of_mem_filter hf)
  | _ => cases h.isObject

/-- Writing a field without syntax, on which the slots of other fields may depend. -/
theorem Derives.set_trait (h : Derives labels s t) (hne : key ∉ writtenKeys)
    (hkey : (rulesOf t).lookup key = none) (hv : isInert labels v) (hadmits : s.admits (t.set key v))
    (hparts : ∀ rule ∈ rulesOf t, fits labels (rule.2.resolve s (t.set key v)) (t.get rule.1)) :
    Derives labels s (t.set key v) := by
  have htype : (t.set key v).type? = t.type? := congrArg str? (get_set_of_not_mem hne (by decide) v)
  have hrules : rulesOf (t.set key v) = rulesOf t := by
    rw [rulesOf, rulesOf, htype]
  refine derives_of_parts ((isObject_set _ _ _).trans h.isObject) ?_ hadmits (distinct_set h.distinct) ?_ ?_
  · rw [agrees_of_writtenKeys (mark?_set _ _ _) fun _ hother => get_set_of_not_mem hne hother v]
    exact h.agrees
  · intro rule hrule
    rw [hrules] at hrule
    have hother : rule.1 ≠ key := by
      rintro rfl
      have hmem := List.lookup_eq_none_iff.mp hkey rule hrule
      simp at hmem
    rw [get_set_of_ne hother]
    exact hparts rule hrule
  · intro f hf hlookup
    rw [hrules] at hlookup
    cases t with
    | obj m fs =>
      rcases mem_insert hf with rfl | hf
      · exact .inr hv
      · exact h.rest f hf hlookup
    | _ => cases hf

/-- No rule mentions a place in the text. -/
theorem slot?_of_isPlaceKey (h : isPlaceKey key) : slot? s t key = none := by
  have hrules : ∀ rule ∈ rules, ∀ entry ∈ rule.2, isPlaceKey entry.1 = false := by decide
  cases hslot : slot? s t key with
  | none => rfl
  | some slot =>
    obtain ⟨type, rs, entry, -, hrs, hentry, -⟩ := slot?_mem hslot
    have hplace := hrules _ hrs _ hentry
    rw [h] at hplace
    cases hplace

theorem not_mem_traitKeys (h : isPlaceKey key) : key ∉ traitKeys := by
  have hkeys : ∀ key ∈ traitKeys, isPlaceKey key = false := by decide
  intro hkey
  cases h.symm.trans (hkeys key hkey)

theorem derives_located {node : Tree} (h : Derives labels s node) (place : Tree) :
    Derives labels s (Node.located node place) := by
  refine located_of h (fun key v hplace hnode => derives_set hnode (not_mem_traitKeys hplace) ?_) place
  rw [slot?_of_isPlaceKey hplace]
  exact .inl hplace

/-! ## Nodes that are built -/

/-- Are these the keys of a new node, each of them once and with all that the rules ask for? -/
def isForm (rs : List (String × Slot)) (keys : List String) : Bool :=
  (rs.lookup "type").isNone && ("type" :: keys).Nodup && rs.all fun rule => rule.2.isOptional || rule.1 ∈ keys

/-- A new node, of a type that the symbol admits. -/
theorem derives_make {type : String} (hs : type ∈ s.types) (hpattern : s ≠ .patternProperty)
    (hwritten : type ∉ ["TemplateLiteral", "MethodDefinition"])
    (hrules : rulesFor type = rs) (hform : isForm rs (fs.map (·.1))) (hfields : ∀ f ∈ fs,
      FieldFits labels ((rs.lookup f.1).map (Slot.resolve s (Node.make type fs))) f.1 f.2) :
    Derives labels s (Node.make type fs) := by
  have hof : rulesOf (Node.make type fs) = rs := hrules
  rw [isForm, Bool.and_eq_true, Bool.and_eq_true, decide_eq_true_iff, Option.isNone_iff_eq_none,
    List.all_eq_true] at hform
  obtain ⟨⟨htype, hdistinct⟩, hcomplete⟩ := hform
  refine ⟨rfl, agrees_of_unmarked rfl (isWritten_of_type? rfl hwritten), ?_, hdistinct, ?_, ?_⟩
  · rw [Symbol.admits, Bool.and_eq_true]
    exact ⟨isTypeIn_of_mem rfl hs, by simp [hpattern]⟩
  · rw [hof]
    intro rule hrule
    rcases Bool.or_eq_true_iff.mp (hcomplete rule hrule) with hoptional | hkey
    · cases hslot : rule.2 <;> simp_all [Slot.isOptional, Slot.resolve]
    · obtain ⟨⟨_, v⟩, hmem, rfl⟩ := List.mem_map.mp (of_decide_eq_true hkey)
      have hget : (Node.make type fs).get? _ = some v :=
        lookup_of_mem_fields hdistinct (List.mem_cons_of_mem _ hmem)
      exact .inr (Option.isSome_of_eq_some hget)
  · intro f hf
    rw [slot?, hof]
    rcases List.mem_cons.mp hf with rfl | hf
    · rw [htype]
      exact .inr rfl
    · exact hfields f hf

/-! ## One node, several symbols -/

/-- The types of nodes whose rules depend on where they stand. -/
def contextTypes : List String := ["FunctionDeclaration", "ClassDeclaration", "Property"]

/-- Does a slot depend on where the node stands? -/
def Slot.hasContext : Slot → Bool
  | .choice .exported _ _ => true
  | .choice .inPattern _ _ => true
  | .choice _ yes no => Slot.hasContext yes || Slot.hasContext no
  | _ => false

theorem resolve_of_hasContext (h : slot.hasContext = false) : slot.resolve s' t = slot.resolve s t := by
  induction slot with
  | choice trait yes no hyes hno =>
    cases trait with
    | exported | inPattern => cases h
    | computed | callable | concise =>
      have h := Bool.or_eq_false_iff.mp h
      rw [Slot.resolve, Slot.resolve, hyes h.1, hno h.2]
      rfl
  | _ => rfl

/-- A node stands for every symbol that admits its type and for which its rules are the same. -/
theorem Derives.transport (h : Derives labels s t) (hadmits : s'.admits t)
    (hresolve : ∀ rule ∈ rulesOf t, rule.2.resolve s' t = rule.2.resolve s t) : Derives labels s' t := by
  have hslots : slot? s' t = slot? s t := by
    funext key
    rw [slot?, slot?]
    cases hlookup : (rulesOf t).lookup key with
    | none => rfl
    | some slot => exact congrArg some (hresolve _ (mem_of_lookup hlookup))
  refine ⟨h.isObject, h.agrees, hadmits, h.distinct, fun rule hrule => ?_, fun f hf => ?_⟩
  · rw [hresolve rule hrule]
    exact h.complete rule hrule
  · rw [hslots]
    exact h.fields f hf

theorem admits_of_mem {type : String} (htype : t.type? = some type) (hs : type ∈ s'.types)
    (hpattern : s' ≠ .patternProperty) : s'.admits t := by
  rw [Symbol.admits, isTypeIn_of_type? htype]
  simp [hs, hpattern]

section

variable {type : String} (h : Derives labels s t) (htype : t.type? = some type) (hs : type ∈ s'.types)

include h htype hs

/-- A node whose rules do not depend on where it stands, for another symbol that admits its type. -/
theorem Derives.as (hcontext : type ∉ contextTypes) (hpattern : s' ≠ .patternProperty) :
    Derives labels s' t := by
  have hrules : ∀ rule ∈ rules, rule.1 ∉ contextTypes →
      ∀ entry ∈ rule.2, entry.2.hasContext = false := by decide
  refine h.transport (admits_of_mem htype hs hpattern) fun rule hrule => ?_
  obtain ⟨type', rs, htype', hrs, hmem⟩ := rulesOf_mem hrule
  rw [htype] at htype'
  cases htype'
  exact resolve_of_hasContext (hrules _ hrs hcontext _ hmem)

/-- A node for another symbol of its kind: neither stands behind `export default` or in a pattern. -/
theorem Derives.widen (hplain : s ≠ .defaultExport ∧ s ≠ .patternProperty)
    (hplain' : s' ≠ .defaultExport ∧ s' ≠ .patternProperty) : Derives labels s' t := by
  refine h.transport (admits_of_mem htype hs hplain'.2) fun rule _ => resolve_congr ?_ _
  intro trait
  cases trait with
  | computed | callable | concise => rfl
  | exported => simp [Trait.holds, hplain.1, hplain'.1]
  | inPattern => simp [Trait.holds, hplain.2, hplain'.2]

end

end

end Downlevel.Grammar
