import Downlevel.Proofs.Scope.Congruence
import Downlevel.Proofs.Scope.Reading

/-!
# `Proofs.Scope.Agreement`: outlines are lexical

The leaves of the outline of a program are identifiers of the program, each with the scopes that are around its
place, and they declare exactly the identifiers that are declared at their places.
-/

namespace Downlevel.Scope

open Tree Grammar

/-! ## Occurrences -/

mutual

theorem map_snd_occurrences : ∀ (t : Tree) (place : Place), (occurrences place t).map (·.2) = t.objects
  | .obj m fs, place => by
    rw [occurrences, List.map_cons, map_snd_occurrencesInFields fs, objects]
  | .list xs, place => map_snd_occurrencesInItems xs place
  | .null, _ | .bool _, _ | .int _, _ | .real _, _ | .str _, _ => rfl

theorem map_snd_occurrencesInFields : ∀ (fs : Fields) (place : Place) (node : Tree),
    (occurrencesInFields place node fs).map (·.2) = objectsOfFields fs
  | [], _, _ => rfl
  | (k, v) :: rest, place, node => by
    rw [occurrencesInFields, objectsOfFields, List.map_append, map_snd_occurrencesInFields rest]
    split
    · rfl
    · rw [map_snd_occurrences v]

theorem map_snd_occurrencesInItems : ∀ (xs : List Tree) (place : Place),
    (occurrencesInItems place xs).map (·.2) = objectsOfItems xs
  | [], _ => rfl
  | t :: rest, place => by
    rw [occurrencesInItems, objectsOfItems, List.map_append, map_snd_occurrences t,
      map_snd_occurrencesInItems rest]

end

section

variable {labels : Labelling} {place : Place} {o : Place × Tree} {v : Tree}

theorem mem_objects_of_mem_occurrences (h : o ∈ occurrences place v) : o.2 ∈ v.objects := by
  rw [← map_snd_occurrences v place]
  exact List.mem_map_of_mem h

/-- Records hold no identifiers. -/
theorem not_isType_of_isInert (h : isInert labels v) (ho : o ∈ occurrences place v)
    (name : String) : ¬ o.2.isType name := by
  have hmem := mem_objects_of_mem_occurrences ho
  intro htype
  cases v with
  | obj m fs =>
    rw [objects, objectsOfFields_of_isInert h, List.mem_singleton] at hmem
    rw [isType_iff, hmem, type?_of_isInert rfl h] at htype
    cases htype
  | list xs => cases h
  | null | bool _ | int _ | real _ | str _ => cases hmem

/-- An identifier is the only one that it holds. -/
theorem eq_of_mem_occurrences_identifier (h : Derives labels .identifier v) (ho : o ∈ occurrences place v)
    (htype : o.2.isType "Identifier") : o = (place, v) := by
  cases v with
  | obj m fs =>
    rcases List.mem_cons.mp ho with heq | ho
    · exact heq
    · obtain ⟨f, hf, hplace, ho⟩ := mem_occurrencesInFields.mp ho
      have hget : (Tree.obj m fs).get f.1 = f.2 := h.get_of_mem hf
      by_cases hname : f.1 = "name"
      · obtain ⟨text, htext⟩ := h.text (h.type_eq rfl) (k := "name") rfl
        rw [← hget, hname, htext] at ho
        cases ho
      · -- Any other field is a record.
        have hrest : (rulesOf (Tree.obj m fs)).lookup f.1 = none := by
          have hrules : rulesFor "Identifier" = [("name", .text)] := rfl
          rw [rulesOf_of_type? (h.type_eq rfl), hrules]
          simp only [List.lookup_cons, List.lookup_nil, beq_eq_false_iff_ne.mpr hname]
        have hinert := (h.rest f hf hrest).resolve_left (by simp [hplace])
        exact absurd htype (not_isType_of_isInert hinert ho _)
  | null | bool _ | int _ | real _ | str _ | list _ => cases h.isObject

end

/-! ## Places and chains of scopes -/

/-- The scopes of a chain are those around a place. -/
structure Surrounds (place : Place) (chain : List Tag) : Prop where
  scopes : chain.map (·.2) = scopesAt place
  functions : ∀ tag ∈ chain, tag.1.isFunction = isFunctionNode tag.2

/-- The names at a place are declared, or not. -/
structure IsDeclaring (isBinding : Bool) (b : Binder) (place : Place) : Prop where
  declared : declaredAt place = if isBinding then some b.kind else none
  hoisted : isBinding → b.hoisted = (b.kind == .var)

/-- A place where something is read in a role. -/
structure Stands (role : Role) (b : Binder) (place : Place) (chain : List Tag) : Prop where
  surrounds : Surrounds place chain
  declaring : IsDeclaring role.isBinding b place
  body : Place.isBody place = role.isBody

namespace Reading

/-- The conditions that matter turn out as they do for a node. -/
structure Describes (r : Reading) (t : Tree) : Prop where
  type : t.type? = some r.type
  holding : ∀ c ∈ r.conditions, r.holding.contains c = c.holds t
  holds : ∀ c ∈ r.holding, c.holds t = true

theorem describes_ofNode (role : Role) {type : String} {t : Tree} (h : t.type? = some type) :
    (ofNode role type t).Describes t where
  type := h
  holding := by
    intro c hc
    rw [Bool.eq_iff_iff, List.contains_iff_mem]
    exact List.mem_filter.trans (and_iff_right hc)
  holds := fun _ hc => (List.mem_filter.mp hc).2

variable {r : Reading} {t : Tree} {b : Binder} {place : Place} {chain : List Tag} {opened : List ScopeType}
  {key : String} {manner : Manner}

section

variable (hr : r.Describes t)

include hr

theorem isTypeIn_eq (names : List String) : t.isTypeIn names = names.contains r.type := by
  rw [isTypeIn_of_type? hr.type, List.contains_eq_mem]

theorem isType_eq (name : String) : t.isType name = (r.type == name) := by
  rw [Bool.eq_iff_iff, isType_iff, hr.type, beq_iff_eq, Option.some.injEq]

theorem opens_eq (hlexical : r.isLexical) (hbody : Place.isBody place = r.role.isBody) :
    (⟨t, key⟩ : Frame).opens place = r.opens key := by
  have hclass : (r.type == "ClassExpression" && !(t.get "id").isObject) =
      (r.type == "ClassExpression" && !r.holding.contains (.isObject "id")) := by
    cases hc : r.type == "ClassExpression" with
    | false => rfl
    | true =>
      simp only [isLexical, Bool.and_eq_true, bne, hc, Bool.not_true, Bool.false_or] at hlexical
      rw [hr.holding _ (List.contains_iff_mem.mp hlexical.2)]
      rfl
  simp only [Frame.opens, opens, hr.type, Option.bind_some, isType_eq hr, hbody, hclass]

/-- The scopes around a field. -/
theorem surrounds_of_isInside (hlexical : r.isLexical) (hbody : Place.isBody place = r.role.isBody)
    (hinside : r.isInside opened key) (h : Surrounds place chain) :
    Surrounds (⟨t, key⟩ :: place) (openedIn t opened chain) := by
  have hopens : (⟨t, key⟩ : Frame).opens place = r.opens key := opens_eq hr hlexical hbody
  unfold isInside at hinside
  split at hinside
  · rw [Bool.not_eq_true'] at hinside
    refine ⟨?_, h.functions⟩
    rw [scopesAt, hopens, hinside]
    exact h.scopes
  · rename_i type
    rw [Bool.and_eq_true, beq_iff_eq] at hinside
    refine ⟨?_, List.forall_mem_cons.mpr ⟨?_, h.functions⟩⟩
    · rw [scopesAt, hopens, hinside.1, if_pos rfl, ← h.scopes]
      rfl
    · rw [isFunctionNode, isTypeIn_eq hr]
      exact hinside.2
  · cases hinside

/-- What a field declares. -/
theorem isDeclaring_of_passes {isBinding : Bool} (hpasses : r.passes manner isBinding key)
    (h : IsDeclaring r.role.isBinding b place) :
    IsDeclaring isBinding (manner.binder t b) (⟨t, key⟩ :: place) := by
  unfold passes at hpasses
  have hdeclared := Eq.refl (declaredAt (⟨t, key⟩ :: place))
  conv_rhs at hdeclared => rw [declaredAt, hr.type]
  split at hpasses
  · rename_i hpassage
    rw [hpassage] at hdeclared
    rw [Bool.and_eq_true, beq_iff_eq, beq_iff_eq] at hpasses
    rw [hpasses.1, hpasses.2]
    exact ⟨hdeclared.trans h.declared, h.hoisted⟩
  · rename_i kind hpassage
    rw [hpassage] at hdeclared
    rw [Bool.and_eq_true, Bool.and_eq_true, beq_iff_eq, bne_iff_ne] at hpasses
    rw [hpasses.1.1, hpasses.1.2]
    exact ⟨hdeclared, fun _ => (beq_eq_false_iff_ne.mpr hpasses.2).symm⟩
  · rename_i hpassage
    rw [hpassage] at hdeclared
    rw [Bool.and_eq_true, beq_iff_eq] at hpasses
    rw [hpasses.1, hpasses.2]
    -- The keyword says whether the names are hoisted.
    simp only [Manner.binder, keywordKind] at hdeclared ⊢
    refine ⟨?_, fun _ => ?_⟩
    · rw [hdeclared, if_pos rfl]
      split
      · rfl
      · split <;> rfl
    · split
      · rfl
      · split <;> rfl
  · rename_i hpassage
    rw [hpassage] at hdeclared
    rw [Bool.not_eq_true'] at hpasses
    rw [hpasses]
    exact ⟨hdeclared, fun h => absurd h Bool.false_ne_true⟩

theorem stands_of_reads {role : Role} (hlexical : r.isLexical) (hreads : r.reads opened manner role key)
    (h : Stands r.role b place chain) :
    Stands role (manner.binder t b) (⟨t, key⟩ :: place) (openedIn t opened chain) := by
  simp only [reads, Bool.and_eq_true, beq_iff_eq] at hreads
  refine ⟨surrounds_of_isInside hr hlexical h.body hreads.1.1.1.1 h.surrounds,
    isDeclaring_of_passes hr hreads.1.1.1.2 h.declaring, ?_⟩
  rw [hreads.1.1.2, Place.isBody, isTypeIn_eq hr]

end

end Reading

/-! ## Leaves and occurrences -/

/-- A single item comes from an identifier at a place. -/
def Item.ComesFrom (o : Place × Tree) : Item → Prop
  | .declare identifier kind hoisted _ => identifier = o.2 ∧ o.2.isType "Identifier" = true ∧
      declaredAt o.1 = some kind ∧ hoisted = (kind == .var)
  | .refer identifier _ => identifier = o.2
  | _ => True

/-- A leaf comes from an occurrence, with the scopes around it. -/
structure Matches (l : Leaf) (o : Place × Tree) : Prop where
  surrounds : Surrounds o.1 l.1
  item : l.2.ComesFrom o

/-- Does an item declare? -/
def Item.isDeclaration : Item → Bool
  | .declare _ _ _ _ => true
  | _ => false

/-- Leaves come from occurrences, and all declared identifiers among these are declared by leaves. -/
structure Agrees (leaves : List Leaf) (os : List (Place × Tree)) : Prop where
  sound : ∀ l ∈ leaves, ∃ o ∈ os, Matches l o
  complete : ∀ o ∈ os, o.2.isType "Identifier" → (declaredAt o.1).isSome →
    ∃ l ∈ leaves, l.2.isDeclaration ∧ Matches l o

theorem Agrees.nil : Agrees [] [] := ⟨nofun, nofun⟩

theorem Agrees.append {leaves leaves' : List Leaf} {os os' : List (Place × Tree)} (h : Agrees leaves os)
    (h' : Agrees leaves' os') : Agrees (leaves ++ leaves') (os ++ os') where
  sound := by
    intro l hl
    rcases List.mem_append.mp hl with hl | hl
    · obtain ⟨o, ho, hmatch⟩ := h.sound l hl
      exact ⟨o, List.mem_append_left _ ho, hmatch⟩
    · obtain ⟨o, ho, hmatch⟩ := h'.sound l hl
      exact ⟨o, List.mem_append_right _ ho, hmatch⟩
  complete := by
    intro o ho htype hdeclared
    rcases List.mem_append.mp ho with ho | ho
    · obtain ⟨l, hl, hmatch⟩ := h.complete o ho htype hdeclared
      exact ⟨l, List.mem_append_left _ hl, hmatch⟩
    · obtain ⟨l, hl, hmatch⟩ := h'.complete o ho htype hdeclared
      exact ⟨l, List.mem_append_right _ hl, hmatch⟩

/-- Lists agree if their items do. -/
theorem agrees_items {role : Role} {b : Binder} {place : Place} {chain : List Tag} {xs : List Tree}
    (h : ∀ x ∈ xs, Agrees (leavesOf chain (outline role b x)) (occurrences place x)) :
    Agrees (leavesOf chain (outlineItems role b xs)) (occurrencesInItems place xs) := by
  induction xs with
  | nil => exact Agrees.nil
  | cons x xs ih =>
    rw [List.forall_mem_cons] at h
    rw [outlineItems, leavesOf_append, occurrencesInItems]
    exact h.1.append (ih h.2)

/-! ## What declares nothing -/

/-- The fields of what declares nothing declare nothing. -/
theorem mute_rules : ∀ s ∈ muteSymbols, ∀ type ∈ s.types, ∀ rule ∈ rulesFor type,
    isMuteSlot rule.2 ∧ (passage? (some type) rule.1 = none ∨
      passage? (some type) rule.1 = some .through) := by decide +kernel

theorem resolve_of_isMuteSlot {s : Symbol} {t : Tree} {slot : Slot} (h : isMuteSlot slot) :
    slot.resolve s t = slot := by
  cases slot with
  | choice _ _ _ => cases h
  | _ => rfl

/-- **What declares nothing declares nothing**, where nothing is declared. -/
theorem declaredAt_of_mute {labels : Labelling} (v : Tree) : ∀ (slot : Slot) (place : Place), fits labels slot v →
    isMuteSlot slot → declaredAt place = none → ∀ o ∈ occurrences place v,
      o.2.isType "Identifier" → declaredAt o.1 = none := by
  induction v using inductionOnParts with
  | scalar v hscalar =>
    intro slot place _ _ _ o ho
    have hmem := mem_objects_of_mem_occurrences ho
    rw [objects_of_isScalar hscalar] at hmem
    cases hmem
  | list xs ih =>
    intro slot place h hmute hplace o ho htype
    obtain ⟨x, hx, ho⟩ := mem_occurrencesInItems.mp ho
    obtain ⟨item, _, hs, hfits⟩ := exists_items_of_fits h
    have hitem : isMuteSlot item := by
      cases slot <;> cases hs <;> exact hmute
    exact ih x hx item place (hfits x hx) hitem hplace o ho htype
  | obj m fs ih =>
    intro slot place h hmute hplace o ho htype
    rcases fits_object_cases h with ⟨s, hs, hd⟩ | ⟨-, hinert⟩
    · have hsmute : s ∈ muteSymbols := by
        cases slot <;> cases hs <;> exact List.contains_iff_mem.mp hmute
      rcases List.mem_cons.mp ho with rfl | ho
      · exact hplace
      obtain ⟨f, hf, hkey, ho⟩ := mem_occurrencesInFields.mp ho
      obtain ⟨type, hmem, ht⟩ := hd.type
      have hfits := hd.fields _ hf
      cases hslot : (rulesOf (Tree.obj m fs)).lookup f.1 with
      | none =>
        have hinert := (hd.rest _ hf hslot).resolve_left (by simp [hkey])
        exact absurd htype (not_isType_of_isInert hinert ho _)
      | some slot =>
        rw [slot?, hslot] at hfits
        rw [rulesOf_of_type? ht] at hslot
        obtain ⟨hmute, hpassage⟩ := mute_rules s hsmute type hmem _ (mem_of_lookup hslot)
        replace hfits : fits labels (slot.resolve s _) f.2 := hfits
        rw [resolve_of_isMuteSlot hmute] at hfits
        refine ih f hf slot _ hfits hmute ?_ o ho htype
        rw [declaredAt, ht]
        rcases hpassage with hpassage | hpassage
        · rw [hpassage]
        · rw [hpassage]
          exact hplace
    · exact absurd htype (not_isType_of_isInert hinert ho _)

/-! ## Fields -/

/-- Records are read without a trace. -/
theorem outline_of_isInert {labels : Labelling} {v : Tree} {b : Binder} (h : isInert labels v) : outline .visit b v = [] := by
  cases v with
  | obj m fs =>
    have htype : (Tree.obj m fs).type? = none := type?_of_isInert rfl h
    rw [isInert, Bool.and_eq_true, List.all_eq_true] at h
    have hfields : ∀ gs : Fields, gs ⊆ fs → outlineFields b gs = [] := by
      intro gs hgs
      induction gs with
      | nil => rfl
      | cons g rest ih =>
        obtain ⟨k, w⟩ := g
        have hscalar := (Bool.and_eq_true_iff.mp (h.2 (k, w) (hgs List.mem_cons_self))).2
        rw [outlineFields, ih fun x hx => hgs (List.mem_cons_of_mem _ hx), outline_scalar hscalar]
        simp
    rw [outline, htype]
    show outlineFields b fs ++ [] = []
    rw [hfields fs fun x hx => hx, List.append_nil]
  | list xs => cases h
  | null | bool _ | int _ | real _ | str _ => rfl

/-- What is said of the leaves of the parts of a node. -/
def FieldsAgree (labels : Labelling) (fs : List (String × Tree)) : Prop :=
  ∀ f ∈ fs, ∀ (slot : Slot) (role : Role) (b : Binder) (place : Place) (chain : List Tag),
    fits labels slot f.2 = true → role.suits slot = true → Stands role b place chain →
    Agrees (leavesOf chain (outline role b f.2)) (occurrences place f.2)

namespace Reading

section

variable {labels : Labelling} {s : Symbol} {m : Option Nat} {fs : Fields} {r : Reading}
  {b : Binder} {place : Place} {chain : List Tag} {k : String} {v : Tree}

section

variable (hd : Derives labels s (.obj m fs)) (hr : r.Describes (.obj m fs))

include hd hr

/-- The slot of a field is one of those that the reading allows. -/
theorem exists_slot (hs : s ∈ r.role.symbols) (hcomputed : (.isSet "computed") ∈ r.conditions)
    (hrule : (rulesFor r.type).any (·.1 == k)) (hmem : (k, v) ∈ fs) :
    ∃ slot ∈ r.slots k, fits labels slot v := by
  have hfits : FieldFits labels (slot? s (.obj m fs) k) k v := hd.fields (k, v) hmem
  have hrules : rulesOf (Tree.obj m fs) = rulesFor r.type := rulesOf_of_type? hr.type
  obtain ⟨rule, hrule, hkey⟩ := List.any_eq_true.mp hrule
  rw [beq_iff_eq] at hkey
  cases hlookup : (rulesFor r.type).lookup k with
  | none =>
    rw [List.lookup_eq_none_iff] at hlookup
    have hno := hlookup rule hrule
    rw [hkey] at hno
    simp at hno
  | some slot =>
    rw [slot?, hrules, hlookup] at hfits
    refine ⟨slot.resolve s (.obj m fs), ?_, hfits⟩
    have hpossible := resolve_mem_possibleSlots hd.admitted slot
    rw [(types_of_symbols hs).2] at hpossible
    rw [slots, hlookup, hr.holding _ hcomputed]
    exact hpossible

/-- The values of fields agree. -/
theorem agrees_read (hs : s ∈ r.role.symbols) (hlexical : r.isLexical) (h : Stands r.role b place chain)
    (hparts : FieldsAgree labels fs) {opened : List ScopeType} {manner : Manner} {role : Role}
    (hreads : r.reads opened manner role k) (hmem : (k, v) ∈ fs) :
    Agrees (leavesOf (openedIn (.obj m fs) opened chain) (outline role (manner.binder (.obj m fs) b) v))
      (occurrences (⟨.obj m fs, k⟩ :: place) v) := by
  have hstands := stands_of_reads hr hlexical hreads h
  simp only [reads, Bool.and_eq_true] at hreads
  obtain ⟨slot, hslot, hfits⟩ := exists_slot hd hr hs
    (List.mem_append_right _ List.mem_cons_self) hreads.1.2 hmem
  exact hparts (k, v) hmem slot role _ _ _ hfits (List.all_eq_true.mp hreads.2 slot hslot) hstands

/-- The value of a name field that is an object is an identifier. -/
theorem derives_name (hs : s ∈ r.role.symbols) (hname : r.isNameField k) (hmem : (k, v) ∈ fs)
    (hobject : v.isObject) : Derives labels .identifier v := by
  rw [isNameField, Bool.and_eq_true] at hname
  obtain ⟨slot, hslot, hfits⟩ := exists_slot hd hr hs
    (List.mem_append_right _ List.mem_cons_self) hname.1 hmem
  have hsymbol := List.all_eq_true.mp hname.2 slot hslot
  rw [beq_iff_eq] at hsymbol
  exact (fits_node_iff hsymbol hobject).mp hfits

/-- A field that a condition asks about holds an object. -/
theorem exists_name (hs : s ∈ r.role.symbols) (hname : r.isNameField k)
    (hasked : [Condition.isObject k, .isIdentifier k].any r.holding.contains) :
    ∃ v, (k, v) ∈ fs ∧ (Tree.obj m fs).get k = v ∧ Derives labels .identifier v := by
  have hobject : ((Tree.obj m fs).get k).isObject := by
    obtain ⟨c, hc, hholding⟩ := List.any_eq_true.mp hasked
    have hholds := hr.holds c (List.contains_iff_mem.mp hholding)
    rcases List.mem_cons.mp hc with rfl | hc
    · exact hholds
    · cases List.mem_singleton.mp hc
      obtain ⟨m', fs', hv⟩ := isObject_of_type? (isType_iff.mp hholds)
      rw [hv]
      rfl
  have hget : (Tree.obj m fs).get? k = some ((Tree.obj m fs).get k) := by
    refine get?_of_get rfl ?_
    cases hv : (Tree.obj m fs).get k with
    | null =>
      rw [hv] at hobject
      cases hobject
    | _ => rfl
  have hmem : (k, (Tree.obj m fs).get k) ∈ fs := mem_of_lookup_eq_some hget
  exact ⟨_, hmem, rfl, derives_name hd hr hs hname hmem hobject⟩

end

/-- The leaves of a single step, for a node whose fields are read. -/
abbrev leavesAt (m : Option Nat) (fs : List (String × Tree)) (b : Binder) (chain : List Tag) (act : Act) :
    List Leaf :=
  leavesOfAct (.obj m fs) b (fun role b k => outlineField role b k fs) (fun _ => outlineFields b fs)
    chain act

/-- A declared identifier comes from itself. -/
theorem matches_self (hr : r.Describes (.obj m fs)) (h : Stands r.role b place chain)
    (hname : r.type = "Identifier") (hbinding : r.role.isBinding) :
    Matches (chain, .declare (.obj m fs) b.kind b.hoisted b.declaration) (place, .obj m fs) where
  surrounds := h.surrounds
  item := by
    have hdeclaring := h.declaring
    rw [hbinding] at hdeclaring
    refine ⟨rfl, ?_, hdeclaring.declared, hdeclaring.hoisted rfl⟩
    rw [isType_eq hr, hname]
    rfl

/-- A declared name comes from its field. -/
theorem matches_name (hr : r.Describes (.obj m fs)) (hlexical : r.isLexical)
    (h : Stands r.role b place chain)
    {opened : List ScopeType} {manner : Manner} (hinside : r.isInside opened k)
    (hpasses : r.passes manner true k) (hv : Derives labels .identifier v)
    (hget : (Tree.obj m fs).get k = v) :
    Matches (openedIn (.obj m fs) opened chain, .declare ((Tree.obj m fs).get k)
        (manner.binder (.obj m fs) b).kind (manner.binder (.obj m fs) b).hoisted
        (manner.binder (.obj m fs) b).declaration)
      (⟨.obj m fs, k⟩ :: place, v) where
  surrounds := surrounds_of_isInside hr hlexical h.body hinside h.surrounds
  item := by
    have hdeclaring := isDeclaring_of_passes hr hpasses h.declaring
    exact ⟨hget, isType_iff.mpr (hv.type_eq rfl), hdeclaring.declared, hdeclaring.hoisted rfl⟩

section

variable (hd : Derives labels s (.obj m fs)) (hr : r.Describes (.obj m fs)) (hs : s ∈ r.role.symbols)

include hd hr hs

/-- **What a single step finds is there.** -/
theorem sound_act (hlexical : r.isLexical) (h : Stands r.role b place chain) (hparts : FieldsAgree labels fs) :
    ∀ act : Act, r.accepts act →
    ∀ l ∈ leavesAt m fs b chain act, ∃ o ∈ occurrences place (.obj m fs), Matches l o
  | (opened, .declare none manner), haccepts, l, hl => by
    simp only [accepts, Bool.and_eq_true, List.isEmpty_iff, beq_iff_eq] at haccepts
    obtain ⟨⟨⟨rfl, hname⟩, hbinding⟩, rfl⟩ := haccepts
    cases List.mem_singleton.mp hl
    exact ⟨_, List.mem_cons_self, matches_self hr h hname hbinding⟩
  | (opened, .declare (some k) manner), haccepts, l, hl => by
    simp only [accepts, Bool.and_eq_true, Bool.not_eq_true'] at haccepts
    obtain ⟨⟨⟨⟨hinside, hpasses⟩, hname⟩, hplace⟩, hasked⟩ := haccepts
    obtain ⟨v, hmem, hget, hv⟩ := exists_name hd hr hs hname hasked
    cases List.mem_singleton.mp hl
    refine ⟨(⟨.obj m fs, k⟩ :: place, v), ?_, matches_name hr hlexical h hinside hpasses hv hget⟩
    refine List.mem_cons_of_mem _ (mem_occurrencesInFields.mpr ⟨_, hmem, hplace, ?_⟩)
    cases v with
    | obj m' fs' => exact List.mem_cons_self
    | null | bool _ | int _ | real _ | str _ | list _ => cases hv.isObject
  | (opened, .refer write), haccepts, l, hl => by
    simp only [accepts, List.isEmpty_iff] at haccepts
    subst haccepts
    cases List.mem_singleton.mp hl
    exact ⟨_, List.mem_cons_self, h.surrounds, rfl⟩
  | (opened, .issue code k), haccepts, l, hl => by
    simp only [accepts, List.isEmpty_iff] at haccepts
    subst haccepts
    cases List.mem_singleton.mp hl
    exact ⟨_, List.mem_cons_self, h.surrounds, trivial⟩
  | (opened, .read manner role k), haccepts, l, hl => by
    simp only [accepts, Bool.and_eq_true, Bool.not_eq_true'] at haccepts
    rw [leavesAt, leavesOfAct, Step.items, outlineField_eq _ _ _ m] at hl
    rcases get_eq_null_or_mem m fs k with hnull | hmem
    · rw [hnull] at hl
      cases hl
    · obtain ⟨o, ho, hmatch⟩ := (agrees_read hd hr hs hlexical h hparts haccepts.1 hmem).sound l hl
      exact ⟨o, List.mem_cons_of_mem _ (mem_occurrencesInFields.mpr ⟨_, hmem, haccepts.2, ho⟩), hmatch⟩
  | (opened, .readAll), haccepts, l, hl => by
    simp only [accepts, Bool.and_eq_true, List.isEmpty_iff, List.all_eq_true] at haccepts
    obtain ⟨rfl, hall⟩ := haccepts
    obtain ⟨f, hf, hplace, hl⟩ := mem_leavesOf_outlineFields.mp hl
    cases hrule : (rulesOf (Tree.obj m fs)).lookup f.1 with
    | none =>
      rw [outline_of_isInert ((hd.rest f hf hrule).resolve_left (by simp [hplace]))] at hl
      cases hl
    | some slot =>
      rw [rulesOf_of_type? hr.type] at hrule
      obtain ⟨o, ho, hmatch⟩ := (agrees_read (k := f.1) (v := f.2) hd hr hs hlexical h hparts
        (hall _ (mem_of_lookup hrule)) hf).sound l hl
      exact ⟨o, List.mem_cons_of_mem _ (mem_occurrencesInFields.mpr ⟨f, hf, hplace, ho⟩), hmatch⟩

/-- **What a single step looks at, it declares.** -/
theorem complete_act (hlexical : r.isLexical) (h : Stands r.role b place chain)
    (hparts : FieldsAgree labels fs) {f : String × Tree} (hf : f ∈ fs) (hplace : isPlaceKey f.1 = false)
    (hrule : (rulesFor r.type).any (·.1 == f.1)) {o : Place × Tree}
    (ho : o ∈ occurrences (⟨.obj m fs, f.1⟩ :: place) f.2) (htype : o.2.isType "Identifier")
    (hdeclared : (declaredAt o.1).isSome) : ∀ act : Act, r.accepts act →
    looksAt f.1 act → ∃ l ∈ leavesAt m fs b chain act, l.2.isDeclaration ∧ Matches l o
  | (opened, .declare (some k) manner), haccepts, hlooks => by
    simp only [accepts, Bool.and_eq_true, Bool.not_eq_true'] at haccepts
    obtain ⟨⟨⟨⟨hinside, hpasses⟩, hname⟩, -⟩, hasked⟩ := haccepts
    rw [looksAt, beq_iff_eq] at hlooks
    subst hlooks
    obtain ⟨v, hmem, hget, hv⟩ := exists_name hd hr hs hname hasked
    have hvalue : f.2 = v := (hd.get_of_mem hf).symm.trans hget
    rw [hvalue] at ho
    rw [eq_of_mem_occurrences_identifier hv ho htype]
    exact ⟨_, List.mem_singleton.mpr rfl, rfl, matches_name hr hlexical h hinside hpasses hv hget⟩
  | (opened, .read manner role k), haccepts, hlooks => by
    simp only [accepts, Bool.and_eq_true] at haccepts
    rw [looksAt, beq_iff_eq] at hlooks
    subst hlooks
    obtain ⟨l, hl, hdeclares, hmatch⟩ := (agrees_read (k := f.1) (v := f.2) hd hr hs hlexical h hparts
      haccepts.1 hf).complete o ho htype hdeclared
    refine ⟨l, ?_, hdeclares, hmatch⟩
    rwa [leavesAt, leavesOfAct, Step.items, outlineField_eq _ _ _ m, get_of_mem_fields hd.distinct hf]
  | (opened, .readAll), haccepts, hlooks => by
    simp only [accepts, Bool.and_eq_true, List.isEmpty_iff, List.all_eq_true] at haccepts
    obtain ⟨rfl, hall⟩ := haccepts
    obtain ⟨rule, hmem, hkey⟩ := List.any_eq_true.mp hrule
    rw [beq_iff_eq] at hkey
    have hreads := hall rule hmem
    rw [hkey] at hreads
    obtain ⟨l, hl, hdeclares, hmatch⟩ := (agrees_read (k := f.1) (v := f.2) hd hr hs hlexical h hparts
      hreads hf).complete o ho htype hdeclared
    exact ⟨l, mem_leavesOf_outlineFields.mpr ⟨f, hf, hplace, hl⟩, hdeclares, hmatch⟩

/-- Where no step looks, nothing is declared. -/
theorem declaredAt_of_skips (h : Stands r.role b place chain) {f : String × Tree} (hf : f ∈ fs)
    (hrule : (rulesFor r.type).any (·.1 == f.1)) (hskips : r.skips f.1) {o : Place × Tree}
    (ho : o ∈ occurrences (⟨.obj m fs, f.1⟩ :: place) f.2) (htype : o.2.isType "Identifier") :
    declaredAt o.1 = none := by
  rw [skips, Bool.or_eq_true, Bool.and_eq_true, Bool.and_eq_true] at hskips
  rcases hskips with ⟨hname, hasked⟩ | ⟨hmute, hpassage⟩
  · -- The field would be looked at if it held an identifier.
    exfalso
    obtain ⟨c, hc, hfails⟩ := List.any_eq_true.mp hasked
    rw [Bool.and_eq_true, Bool.not_eq_true'] at hfails
    rw [hr.holding c (List.contains_iff_mem.mp hfails.1)] at hfails
    have hget : (Tree.obj m fs).get f.1 = f.2 := hd.get_of_mem hf
    have hobject : f.2.isObject := by
      cases hv : f.2 with
      | obj m' fs' => rfl
      | list xs =>
        rw [isNameField, Bool.and_eq_true] at hname
        obtain ⟨slot, hslot, hfits⟩ := exists_slot (k := f.1) (v := f.2) hd hr hs
          (List.mem_append_right _ List.mem_cons_self) hname.1 hf
        have hsymbol := List.all_eq_true.mp hname.2 slot hslot
        rw [beq_iff_eq] at hsymbol
        rw [hv] at hfits
        cases slot <;> cases hsymbol <;> cases hfits
      | null | bool _ | int _ | real _ | str _ =>
        rw [hv] at ho
        cases ho
    have hv := derives_name (k := f.1) (v := f.2) hd hr hs hname hf hobject
    rcases List.mem_cons.mp hc with rfl | hc
    · rw [Condition.holds, hget, hobject] at hfails
      cases hfails.2
    · cases List.mem_singleton.mp hc
      rw [Condition.holds, hget, isType_iff.mpr (hv.type_eq rfl)] at hfails
      cases hfails.2
  · obtain ⟨slot, hslot, hfits⟩ := exists_slot (k := f.1) (v := f.2) hd hr hs
      (List.mem_append_right _ List.mem_cons_self) hrule hf
    refine declaredAt_of_mute f.2 slot _ hfits (List.all_eq_true.mp hmute slot hslot) ?_ o ho htype
    rw [declaredAt, hr.type]
    split at hpassage
    · rename_i hthrough
      rw [hthrough]
      rw [Bool.not_eq_true'] at hpassage
      have hdeclared := h.declaring.declared
      rw [hpassage] at hdeclared
      exact hdeclared
    · cases hpassage
    · rename_i hnone
      rw [hnone]

end

end

end Reading

/-! ## Trees -/

section

variable {labels : Labelling} {s : Symbol} {role : Role} {b : Binder} {place : Place} {chain : List Tag}

/-- **The leaves of a node**, given those of its parts. -/
theorem agrees_node {m : Option Nat} {fs : Fields} (hd : Derives labels s (.obj m fs))
    (hs : s ∈ role.symbols) (h : Stands role b place chain) (hparts : FieldsAgree labels fs) :
    Agrees (leavesOf chain (outline role b (.obj m fs))) (occurrences place (.obj m fs)) := by
  obtain ⟨type, hmem, ht⟩ := hd.type
  have hr := Reading.describes_ofNode role ht
  have hlexical := Reading.isLexical_of_mem (r := .ofNode role type (.obj m fs)) (mem_nodeRoles hs)
    ((types_of_symbols hs).1 hmem)
    (List.mem_map_of_mem (List.mem_sublists.mpr List.filter_sublist))
  -- The reading only replaces the conditions by how they turn out.
  generalize hreading : Reading.ofNode role type (.obj m fs) = r at hr hlexical
  have hrole : r.role = role := by rw [← hreading]; rfl
  have htype : r.type = type := by rw [← hreading]; rfl
  have hleaves : leavesOf chain (outline role b (.obj m fs)) =
      r.acts.flatMap (Reading.leavesAt m fs b chain) := by
    rw [outline, ht, Reading.acts, Reading.steps, hrole, htype]
    refine (leavesOf_itemsOf (t := .obj m fs) _ [] false (stepsGuarded_stepsIn _ _) nofun).trans ?_
    rw [actsOf_congr]
    intro c hc
    refine (hr.holding c (List.mem_append_left _ ?_)).symm
    rw [Reading.steps, hrole, htype]
    exact hc
  subst hrole
  have hall := hlexical
  simp only [Reading.isLexical, Bool.and_eq_true] at hall
  obtain ⟨⟨⟨haccepts, hfields⟩, hself⟩, -⟩ := hall
  rw [hleaves]
  refine ⟨?_, ?_⟩
  · intro l hl
    obtain ⟨act, hact, hl⟩ := List.mem_flatMap.mp hl
    exact Reading.sound_act hd hr hs hlexical h hparts act (List.all_eq_true.mp haccepts act hact) l hl
  · intro o ho hidentifier hdeclared
    rcases List.mem_cons.mp ho with rfl | ho
    · -- The node itself is declared.
      have hbinding : r.role.isBinding := by
        by_contra hno
        rw [h.declaring.declared, if_neg hno] at hdeclared
        cases hdeclared
      rw [Reading.isType_eq hr] at hidentifier
      rw [hidentifier, hbinding] at hself
      obtain ⟨act, hact, hdeclares⟩ := List.any_eq_true.mp hself
      have haccept := List.all_eq_true.mp haccepts act hact
      obtain ⟨opened, step⟩ := act
      cases step with
      | declare key manner =>
        cases key with
        | some key => cases hdeclares
        | none =>
          simp only [Reading.accepts, Bool.and_eq_true, List.isEmpty_iff, beq_iff_eq] at haccept
          obtain ⟨⟨⟨rfl, hname⟩, -⟩, rfl⟩ := haccept
          exact ⟨_, List.mem_flatMap.mpr ⟨_, hact, List.mem_singleton.mpr rfl⟩, rfl,
            Reading.matches_self hr h hname hbinding⟩
      | _ => cases hdeclares
    · obtain ⟨f, hf, hplace, ho⟩ := mem_occurrencesInFields.mp ho
      cases hrule : (rulesOf (Tree.obj m fs)).lookup f.1 with
      | none =>
        have hinert := (hd.rest f hf hrule).resolve_left (by simp [hplace])
        exact absurd hidentifier (not_isType_of_isInert hinert ho _)
      | some slot =>
        rw [rulesOf_of_type? hr.type] at hrule
        have hentry := mem_of_lookup hrule
        have hany : (rulesFor r.type).any (·.1 == f.1) :=
          List.any_eq_true.mpr ⟨_, hentry, beq_self_eq_true _⟩
        have hlooked := List.all_eq_true.mp hfields _ hentry
        rw [Bool.or_eq_true] at hlooked
        rcases hlooked with hlooked | hskips
        · obtain ⟨act, hact, hlooks⟩ := List.any_eq_true.mp hlooked
          obtain ⟨l, hl, hdeclares, hmatch⟩ := Reading.complete_act hd hr hs hlexical h hparts hf hplace
            hany ho hidentifier hdeclared act (List.all_eq_true.mp haccepts act hact) hlooks
          exact ⟨l, List.mem_flatMap.mpr ⟨act, hact, hl⟩, hdeclares, hmatch⟩
        · rw [Reading.declaredAt_of_skips hd hr hs h hf hany hskips ho hidentifier] at hdeclared
          cases hdeclared

/-- **The leaves of a tree come from its identifiers**, and all that is declared in it is declared by them. -/
theorem agrees_outline (t : Tree) : ∀ (slot : Slot) (role : Role) (b : Binder) (place : Place)
    (chain : List Tag), fits labels slot t → role.suits slot → Stands role b place chain →
    Agrees (leavesOf chain (outline role b t)) (occurrences place t) := by
  induction t using inductionOnParts with
  | scalar t hscalar =>
    intro slot role b place chain _ _ _
    cases t with
    | obj m fs | list xs => cases hscalar
    | _ => exact Agrees.nil
  | list xs ih =>
    intro slot role b place chain hfits hsuits h
    obtain ⟨item, _, hs, hfits⟩ := exists_items_of_fits hfits
    obtain ⟨s, hslots⟩ : ∃ s, role.suits slot = (role.ofItems?.any fun r => r.symbols.contains s &&
        r.isBinding == role.isBinding && r.isBody == role.isBody) ∧
        (item = .one s ∨ item = .optional s) := by
      cases slot <;> cases hs
      · exact ⟨_, rfl, .inl rfl⟩
      · exact ⟨_, rfl, .inl rfl⟩
      · exact ⟨_, rfl, .inr rfl⟩
    rw [hslots.1] at hsuits
    cases hr : role.ofItems? with
    | none =>
      rw [hr] at hsuits
      cases hsuits
    | some r =>
      rw [hr, Option.any_some, Bool.and_eq_true, Bool.and_eq_true, beq_iff_eq, beq_iff_eq] at hsuits
      have hitem : r.suits item := by
        rcases hslots.2 with heq | heq
        · rw [heq]
          exact hsuits.1.1
        · rw [heq]
          exact hsuits.1.1
      have hstands : Stands r b place chain := by
        refine ⟨h.surrounds, ?_, ?_⟩
        · rw [hsuits.1.2]
          exact h.declaring
        · rw [hsuits.2]
          exact h.body
      rw [outline, hr]
      exact agrees_items fun x hx =>
        ih x hx item r b place chain (hfits x hx) hitem hstands
  | obj m fs ih =>
    intro slot role b place chain hfits hsuits h
    rcases fits_object_cases hfits with ⟨s, hs, hd⟩ | ⟨rfl, hinert⟩
    · have hmem : s ∈ role.symbols := by
        cases slot <;> cases hs <;> exact List.contains_iff_mem.mp hsuits
      exact agrees_node hd hmem h ih
    · rw [Role.suits, beq_iff_eq] at hsuits
      rw [hsuits, outline_of_isInert hinert]
      exact ⟨nofun, fun o ho htype => absurd htype (not_isType_of_isInert hinert ho _)⟩

/-- **The outline of a program is lexical.** -/
theorem agrees_ofProgram {t : Tree} (hd : Derives labels .program t) :
    Agrees ((ofProgram t).leaves []) (occurrences [] t) := by
  have ht : t.type? = some "Program" := hd.type_eq rfl
  cases t with
  | obj m fs =>
    obtain ⟨hlist, hitems⟩ := hd.many ht (k := "body") rfl
    generalize hbody : (Tree.obj m fs).children "body" = body at hlist hitems
    have hget := get?_of_get hlist rfl
    have hmem : ("body", Tree.list body) ∈ fs := mem_of_lookup_eq_some hget
    -- The body is read in the scope of the program.
    have hopens : (⟨.obj m fs, "body"⟩ : Frame).opens [] := by
      simp only [Frame.opens, ht, isType_of_type? ht]
      rfl
    have hstands : ∀ type : ScopeType, type.isFunction →
        Stands .visit ⟨.var, true, .obj m fs⟩ [⟨.obj m fs, "body"⟩] [(type, .obj m fs)] := by
      intro type htype
      refine ⟨⟨?_, ?_⟩, ⟨?_, nofun⟩, ?_⟩
      · rw [scopesAt, hopens]
        rfl
      · intro tag htag
        cases List.mem_singleton.mp htag
        rw [htype, isFunctionNode, isTypeIn_of_type? ht]
        decide
      · rw [declaredAt, ht]
        rfl
      · rw [Place.isBody, isTypeIn_of_type? ht]
        rfl
    have hagrees := agrees_outline (.list body) (.many .moduleItem) .visit _ _ _
      (fits_many_iff.mpr ⟨body, rfl, hitems⟩) (by decide)
      (hstands (if ((Tree.obj m fs).get "sourceType").isStr "module" then .module else .global)
        (by split <;> rfl))
    rw [ofProgram, Item.leaves, outlineField_eq _ _ _ m, fields, hlist]
    refine ⟨?_, ?_⟩
    · intro l hl
      obtain ⟨o, ho, hmatch⟩ := hagrees.sound l hl
      exact ⟨o, List.mem_cons_of_mem _ (mem_occurrencesInFields.mpr ⟨_, hmem, rfl, ho⟩), hmatch⟩
    · intro o ho htype hdeclared
      rcases List.mem_cons.mp ho with rfl | ho
      · cases hdeclared
      · obtain ⟨f, hf, hplace, ho⟩ := mem_occurrencesInFields.mp ho
        by_cases hkey : f.1 = "body"
        · have hvalue : f.2 = .list body := by
            rw [← hlist, ← hkey]
            exact (hd.get_of_mem hf).symm
          rw [hvalue, hkey] at ho
          exact hagrees.complete o ho htype hdeclared
        · have hrule : (rulesOf (Tree.obj m fs)).lookup f.1 = none := by
            have hrules : rulesFor "Program" = [("body", .many .moduleItem)] := rfl
            rw [rulesOf_of_type? ht, hrules]
            simp only [List.lookup_cons, List.lookup_nil, beq_eq_false_iff_ne.mpr hkey]
          have hinert := (hd.rest f hf hrule).resolve_left (by simp [hplace])
          exact absurd htype (not_isType_of_isInert hinert ho _)
  | null | bool _ | int _ | real _ | str _ | list _ => cases hd.isObject

end

end Downlevel.Scope
