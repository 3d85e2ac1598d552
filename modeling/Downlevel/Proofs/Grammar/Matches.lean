import Downlevel.Proofs.Block.Apply
import Downlevel.Proofs.Grammar.Objects

/-!
# `Proofs.Grammar.Matches`: programs that differ in marks and names

Two trees match when they differ at most in the marks of their objects, in texts called `name` and in
places of the text. The grammar tells such trees apart only by the labelling: so marking a program or
renaming its identifiers leaves a program.
-/

namespace Downlevel.Grammar

open Tree Scope Lower Block

variable {key : String} {t t' : Tree} {slot : Slot}

/-! ## Matching trees -/

mutual

/-- Do two trees differ at most in marks, names and places, and are their marks related? -/
def Matches (R : Option Nat → Option Nat → Prop) : Tree → Tree → Prop
  | .list xs, t' => ∃ ys, t' = .list ys ∧ ItemsMatch R xs ys
  | .obj m fs, t' => ∃ m' gs, t' = .obj m' gs ∧ R m m' ∧ FieldsMatch R fs gs
  | .null, t' => t' = .null
  | .bool b, t' => t' = .bool b
  | .int n, t' => t' = .int n
  | .real d, t' => t' = .real d
  | .str s, t' => t' = .str s

def ItemsMatch (R : Option Nat → Option Nat → Prop) : List Tree → List Tree → Prop
  | [], ys => ys = []
  | x :: xs, ys => ∃ y ys', ys = y :: ys' ∧ Matches R x y ∧ ItemsMatch R xs ys'

def FieldsMatch (R : Option Nat → Option Nat → Prop) : List (String × Tree) → List (String × Tree) → Prop
  | [], gs => gs = []
  | (k, v) :: fs, gs => ∃ w gs', gs = (k, w) :: gs' ∧
      (isPlaceKey k = true ∧ isScalar w = isScalar v ∨ Matches R v w ∨
        k = "name" ∧ ∃ a b, v = .str a ∧ w = .str b) ∧
      FieldsMatch R fs gs'

end

mutual

theorem Matches.refl : ∀ t : Tree, Matches Eq t t
  | .list xs => ⟨xs, rfl, ItemsMatch.refl xs⟩
  | .obj m fs => ⟨m, fs, rfl, rfl, FieldsMatch.refl fs⟩
  | .null | .bool _ | .int _ | .real _ | .str _ => rfl

theorem ItemsMatch.refl : ∀ xs : List Tree, ItemsMatch Eq xs xs
  | [] => rfl
  | x :: xs => ⟨x, xs, rfl, Matches.refl x, ItemsMatch.refl xs⟩

theorem FieldsMatch.refl : ∀ fs : Fields, FieldsMatch Eq fs fs
  | [] => rfl
  | (_, v) :: fs => ⟨v, fs, rfl, .inr (.inl (Matches.refl v)), FieldsMatch.refl fs⟩

end

/-- A mark that stays, or a new one from `first` on. -/
def IsMarkFrom (first : Nat) (m m' : Option Nat) : Prop := m' = m ∨ ∃ n, first ≤ n ∧ m' = some n

mutual

theorem matches_markFrom {first : Nat} : ∀ (t : Tree) (next : Nat), first ≤ next →
    Matches (IsMarkFrom first) t (markFrom next t).1
  | .list xs, next, h => ⟨_, rfl, itemsMatch_markItems xs next h⟩
  | .obj (some m) fs, next, h => ⟨some m, _, rfl, .inl rfl, fieldsMatch_markFields fs next h⟩
  | .obj none fs, next, h =>
    ⟨some next, _, rfl, .inr ⟨next, h, rfl⟩, fieldsMatch_markFields fs _ (Nat.le_succ_of_le h)⟩
  | .null, _, _ | .bool _, _, _ | .int _, _, _ | .real _, _, _ | .str _, _, _ => rfl

theorem itemsMatch_markItems {first : Nat} : ∀ (xs : List Tree) (next : Nat), first ≤ next →
    ItemsMatch (IsMarkFrom first) xs (markItems next xs).1
  | [], _, _ => rfl
  | x :: xs, next, h => ⟨_, _, rfl, matches_markFrom x next h,
      itemsMatch_markItems xs _ (Nat.le_trans h (count_marks_markFrom x next).1)⟩

theorem fieldsMatch_markFields {first : Nat} : ∀ (fs : Fields) (next : Nat),
    first ≤ next → FieldsMatch (IsMarkFrom first) fs (markFields next fs).1
  | [], _, _ => rfl
  | (k, v) :: fs, next, h => by
    unfold markFields
    split
    · rename_i hplace
      exact ⟨v, _, rfl, .inl ⟨hplace, rfl⟩, fieldsMatch_markFields fs next h⟩
    · exact ⟨_, _, rfl, .inr (.inl (matches_markFrom v next h)),
        fieldsMatch_markFields fs _ (Nat.le_trans h (count_marks_markFrom v next).1)⟩

end

/-- A name can be replaced by another one. -/
theorem FieldsMatch.insert_name {R : Option Nat → Option Nat → Prop} {s : String}
    (name : String) : ∀ {fs gs : Fields}, FieldsMatch R fs gs →
    lookup "name" fs = some (.str s) →
    FieldsMatch R fs (Tree.insert "name" (.str name) gs)
  | [], _, _, hname => by cases hname
  | (k, v) :: fs, _, ⟨w, gs, rfl, hvw, hrest⟩, hname => by
    rw [lookup] at hname
    rw [Tree.insert]
    by_cases hk : k = "name"
    · rw [if_pos hk] at hname ⊢
      exact ⟨_, gs, rfl, .inr (.inr ⟨hk, s, name, Option.some.inj hname, rfl⟩), hrest⟩
    · rw [if_neg hk] at hname ⊢
      exact ⟨w, _, rfl, hvw, hrest.insert_name name hname⟩

theorem isScalar_apply (r : Renaming) (t : Tree) : isScalar (r.apply t) = isScalar t := by
  cases t with
  | obj m fs =>
    rw [apply_obj]
    split <;> rfl
  | _ => rfl

mutual

/-- Renaming identifiers changes names only. -/
theorem matches_apply {r : Renaming} : ∀ t : Tree, RenamesNames r t → Matches Eq t (r.apply t)
  | .list xs, h => ⟨_, rfl, itemsMatch_applyItems xs h⟩
  | .obj m fs, h => by
    have hfields := fieldsMatch_applyFields fs fun o ho => h o (List.mem_cons_of_mem _ ho)
    rw [apply_obj]
    split
    · rename_i name hname
      -- What is renamed has a name.
      have hsome := h _ List.mem_cons_self (by rw [name?_eq, mark?, hname]; rfl)
      obtain ⟨s, hs⟩ := Option.isSome_iff_exists.mp hsome
      have hlookup : lookup "name" fs = some (.str s) := by
        rw [name?, Tree.get, get?, fields] at hs
        cases hl : lookup "name" fs with
        | none => rw [hl] at hs; cases hs
        | some v =>
          rw [hl] at hs
          cases v with
          | str u => rw [Option.some.inj hs]
          | _ => cases hs
      exact ⟨m, _, rfl, rfl, hfields.insert_name name hlookup⟩
    · exact ⟨m, _, rfl, rfl, hfields⟩
  | .null, _ | .bool _, _ | .int _, _ | .real _, _ | .str _, _ => rfl

theorem itemsMatch_applyItems {r : Renaming} : ∀ xs : List Tree, RenamesNames r (.list xs) →
    ItemsMatch Eq xs (r.applyItems xs)
  | [], _ => rfl
  | x :: xs, h => ⟨_, _, rfl, matches_apply x fun o ho => h o (List.mem_append_left _ ho),
      itemsMatch_applyItems xs fun o ho => h o (List.mem_append_right _ ho)⟩

theorem fieldsMatch_applyFields {r : Renaming} : ∀ fs : Fields,
    (∀ o ∈ objectsOfFields fs, (r.name? o).isSome → (o.name?).isSome) →
    FieldsMatch Eq fs (r.applyFields fs)
  | [], _ => rfl
  | (k, v) :: fs, h => by
    have hrest := fieldsMatch_applyFields fs fun o ho => h o (List.mem_append_right _ ho)
    by_cases hplace : isPlaceKey k
    · exact ⟨_, _, rfl, .inl ⟨hplace, isScalar_apply r v⟩, hrest⟩
    · refine ⟨_, _, rfl, .inr (.inl (matches_apply v fun o ho => ?_)), hrest⟩
      exact h o (List.mem_append_left _ (by rwa [if_neg hplace]))

end

/-! ## What they have in common -/

section

variable {R : Option Nat → Option Nat → Prop} {t t' : Tree}

theorem Matches.shape (h : Matches R t t') : t'.isObject = t.isObject ∧ t'.str? = t.str? ∧
    (∀ s, t'.isStr s = t.isStr s) ∧ isScalar t' = isScalar t := by
  cases t with
  | obj m fs =>
    obtain ⟨m', gs, rfl, -⟩ := h
    exact ⟨rfl, rfl, fun _ => rfl, rfl⟩
  | list xs =>
    obtain ⟨ys, rfl, -⟩ := h
    exact ⟨rfl, rfl, fun _ => rfl, rfl⟩
  | _ =>
    cases h
    exact ⟨rfl, rfl, fun _ => rfl, rfl⟩

theorem Matches.isObject (h : Matches R t t') : t'.isObject = t.isObject := h.shape.1

theorem Matches.str? (h : Matches R t t') : t'.str? = t.str? := h.shape.2.1

theorem Matches.isStr (h : Matches R t t') (s : String) : t'.isStr s = t.isStr s := h.shape.2.2.1 s

theorem ItemsMatch.isEmpty {xs ys : List Tree} (h : ItemsMatch R xs ys) : ys.isEmpty = xs.isEmpty := by
  cases xs with
  | nil => rw [h]
  | cons x xs => obtain ⟨y, ys, rfl, -⟩ := h; rfl

theorem ItemsMatch.length : ∀ {xs ys : List Tree}, ItemsMatch R xs ys → ys.length = xs.length
  | [], _, h => by rw [h]
  | _ :: _, _, ⟨_, _, rfl, _, hrest⟩ => congrArg (· + 1) hrest.length

theorem Matches.length_items (h : Matches R t t') : t'.items.length = t.items.length := by
  cases t with
  | obj m fs =>
    obtain ⟨m', gs, rfl, -⟩ := h
    rfl
  | list xs =>
    obtain ⟨ys, rfl, hitems⟩ := h
    exact hitems.length
  | _ =>
    cases h
    rfl

theorem FieldsMatch.keys : ∀ {fs gs : Fields}, FieldsMatch R fs gs →
    gs.map (·.1) = fs.map (·.1)
  | [], _, h => by rw [h]
  | (k, v) :: fs, _, ⟨w, gs, rfl, _, hrest⟩ => congrArg (k :: ·) hrest.keys

theorem Matches.isSet (h : Matches R t t') : t'.isSet = t.isSet := by
  cases t with
  | obj m fs =>
    obtain ⟨m', gs, rfl, -, hfields⟩ := h
    have hempty := congrArg List.isEmpty hfields.keys
    rw [List.isEmpty_map, List.isEmpty_map] at hempty
    simp only [Tree.isSet, hempty]
  | list xs =>
    obtain ⟨ys, rfl, hitems⟩ := h
    simp only [Tree.isSet, hitems.isEmpty]
  | _ => cases h; rfl

theorem FieldsMatch.isSome_lookup : ∀ {fs gs : Fields},
    FieldsMatch R fs gs → (lookup key gs).isSome = (lookup key fs).isSome
  | [], _, h => by rw [h]
  | (k, v) :: fs, _, ⟨w, gs, rfl, _, hrest⟩ => by
    rw [lookup, lookup]
    split
    · rfl
    · exact hrest.isSome_lookup

/-- The fields match, names and places apart. -/
theorem FieldsMatch.lookup (hplace : isPlaceKey key = false) (hname : key ≠ "name") :
    ∀ {fs gs : Fields}, FieldsMatch R fs gs →
    Matches R ((lookup key fs).getD .null) ((lookup key gs).getD .null)
  | [], _, h => by rw [h]; rfl
  | (k, v) :: fs, _, ⟨w, gs, rfl, hvw, hrest⟩ => by
    rw [Tree.lookup, Tree.lookup]
    split
    · rename_i heq
      subst heq
      rcases hvw with h | h | h
      · rw [hplace] at h
        cases h.1
      · exact h
      · exact absurd h.1 hname
    · exact hrest.lookup hplace hname

theorem Matches.get (hplace : isPlaceKey key = false) (hname : key ≠ "name") (h : Matches R t t') :
    Matches R (t.get key) (t'.get key) := by
  cases t with
  | obj m fs =>
    obtain ⟨m', gs, rfl, -, hfields⟩ := h
    exact hfields.lookup hplace hname
  | list xs =>
    obtain ⟨ys, rfl, -⟩ := h
    rfl
  | _ =>
    cases h
    rfl

section

variable (h : Matches R t t')

include h

theorem Matches.type? : t'.type? = t.type? := (h.get rfl (by decide)).str?

theorem Matches.isCallable : isCallable t' = isCallable t := by
  rw [Grammar.isCallable, Grammar.isCallable, (h.get rfl (by decide)).isStr,
    (h.get rfl (by decide)).isStr, (h.get rfl (by decide)).isSet]

theorem Matches.holds (s : Symbol) (trait : Trait) : trait.holds s t' = trait.holds s t := by
  cases trait with
  | computed => exact (h.get rfl (by decide)).isSet
  | callable => exact h.isCallable
  | concise => exact (h.get rfl (by decide)).isSet
  | exported => rfl
  | inPattern => rfl

theorem Matches.rulesOf : rulesOf t' = rulesOf t := by
  rw [Grammar.rulesOf, Grammar.rulesOf, h.type?]

theorem Matches.admits (s : Symbol) : s.admits t' = s.admits t := by
  rw [Symbol.admits, Symbol.admits, isTypeIn_congr h.type?, h.isCallable]

theorem Matches.isWritten : isWritten t' = isWritten t := by
  rw [Grammar.isWritten, Grammar.isWritten, children, children, children, children, isType_congr h.type?,
    isType_congr h.type?, (h.get rfl (by decide)).length_items, (h.get rfl (by decide)).length_items,
    (h.get rfl (by decide)).isStr, (h.get rfl (by decide)).isSet]

theorem Matches.isScalar : isScalar t' = isScalar t := h.shape.2.2.2

end

end

/-! ## The grammar -/

section

variable {R : Option Nat → Option Nat → Prop} {labels labels' : Labelling}

theorem FieldsMatch.areScalar : ∀ {fs gs : Fields}, FieldsMatch R fs gs →
    fs.all (fun f => f.1 != "type" && isScalar f.2) →
    gs.all (fun f => f.1 != "type" && isScalar f.2) = true
  | [], _, h, _ => by rw [h]; rfl
  | (k, v) :: fs, _, ⟨w, gs, rfl, hvw, hrest⟩, hall => by
    rw [List.all_cons, Bool.and_eq_true] at hall ⊢
    have hscalar : isScalar w = isScalar v := by
      rcases hvw with h | h | ⟨-, a, b, rfl, rfl⟩
      · exact h.2
      · exact h.isScalar
      · rfl
    rw [hscalar]
    exact ⟨hall.1, hrest.areScalar hall.2⟩

theorem isInert_of_matches {v w : Tree} (hvw : Matches R v w) (h : isInert labels v)
    (hagrees : ∀ o ∈ w.objects, labels'.agrees o) : isInert labels' w := by
  cases v with
  | obj m fs =>
    obtain ⟨m', gs, rfl, -, hfields⟩ := hvw
    rw [isInert, Bool.and_eq_true] at h ⊢
    exact ⟨hagrees _ List.mem_cons_self, hfields.areScalar h.2⟩
  | list xs => cases h
  | _ =>
    cases hvw
    rfl

theorem Matches.resolve (h : Matches R t t') (s : Symbol) (slot : Slot) :
    slot.resolve s t' = slot.resolve s t := resolve_congr (h.holds s) slot

theorem Matches.slot? (h : Matches R t t') (s : Symbol) : slot? s t' = slot? s t :=
  slot?_congr h.type? (h.holds s)

/-- The rules for names take any text, or a node. -/
theorem nameRules : ∀ rule ∈ rules, ∀ entry ∈ rule.2, entry.1 = "name" →
    entry.2 = .text ∨ ∃ x ∈ [.tagName, .tagIdentifier, .attributeName], entry.2 = .one x := by
  decide

theorem admitsText_name {s : Symbol} (h : slot? s t "name" = some slot) {a b : String}
    (ha : slot.admitsText a) : slot.admitsText b := by
  obtain ⟨type, rs, entry, -, hrules, hentry, rfl⟩ := slot?_mem h
  rcases nameRules _ hrules _ hentry rfl with rfl | ⟨x, -, rfl⟩
  · rfl
  · cases ha

mutual

/-- **The grammar does not look at marks and names**: of two trees that match it derives both, if their
objects agree with the labels. -/
theorem fits_of_matches : ∀ (t t' : Tree) (slot : Slot), Matches R t t' →
    fits labels slot t → (∀ o ∈ t'.objects, labels'.agrees o) →
    fits labels' slot t' = true
  | .obj m fs, t', slot, hmatch, h, hagrees => by
    cases hs : slot.symbol? with
    | none =>
      have hobject := hmatch.isObject
      cases t' with
      | obj m' gs =>
        rw [fits, hs, Bool.and_eq_true] at h ⊢
        refine ⟨h.1, ?_⟩
        rw [isSegment, Bool.and_eq_true, Bool.and_eq_true] at h ⊢
        rw [hmatch.isObject, (hmatch.get rfl (by decide)).str?]
        exact ⟨⟨h.2.1.1, isInert_of_matches hmatch h.2.1.2 hagrees⟩, h.2.2⟩
      | _ => cases hobject
    | some s =>
      have hd := (fits_node_iff hs rfl).mp h
      obtain ⟨m', gs, rfl, -, hfields⟩ := id hmatch
      refine (fits_node_iff hs rfl).mpr ⟨rfl, hagrees _ List.mem_cons_self, ?_, ?_, ?_, ?_⟩
      · rw [hmatch.admits]
        exact hd.admitted
      · have hkeys := hd.distinct
        rwa [fields, ← hfields.keys] at hkeys
      · intro rule hrule
        rw [hmatch.rulesOf] at hrule
        rw [hmatch.resolve, get?, fields, hfields.isSome_lookup]
        exact hd.complete rule hrule
      · rw [hmatch.slot?]
        exact fieldsFit_iff.mp (fieldsFit_of_matches fs gs _ hfields
          (fun key hkey => slot?_of_isPlaceKey hkey) (fun hslot a b => admitsText_name hslot)
          (fieldsFit_iff.mpr hd.fields)
          fun o ho => hagrees o (List.mem_cons_of_mem _ ho))
  | .list xs, t', slot, ⟨ys, heq, hitems⟩, h, hagrees => by
    rw [heq] at hagrees ⊢
    cases hs : slot.items? with
    | none =>
      rw [fits, hs] at h
      cases h
    | some item =>
      rw [fits, hs, Bool.and_eq_true] at h ⊢
      rw [hitems.isEmpty]
      exact ⟨h.1, itemsFit_of_matches xs ys item.1 hitems h.2 hagrees⟩
  | .null, _, _, rfl, h, _ | .bool _, _, _, rfl, h, _ | .int _, _, _, rfl, h, _
  | .real _, _, _, rfl, h, _ | .str _, _, _, rfl, h, _ => h

theorem fieldsFit_of_matches : ∀ (fs gs : Fields) (slotOf : String → Option Slot),
    FieldsMatch R fs gs → (∀ key, isPlaceKey key → slotOf key = none) →
    (∀ {slot}, slotOf "name" = some slot → ∀ a b, slot.admitsText a → slot.admitsText b) →
    fieldsFit labels slotOf fs → (∀ o ∈ objectsOfFields gs, labels'.agrees o) →
    fieldsFit labels' slotOf gs = true
  | [], gs, _, hmatch, _, _, _, _ => by
    rw [hmatch]
    rfl
  | (k, v) :: fs, gs', slotOf, ⟨w, gs, heq, hvw, hrest⟩, hplace, hname, h, hagrees => by
    rw [heq] at hagrees ⊢
    rw [fieldsFit, Bool.and_eq_true] at h ⊢
    rw [objectsOfFields, List.forall_mem_append] at hagrees
    refine ⟨?_, fieldsFit_of_matches fs gs slotOf hrest hplace hname h.2 hagrees.2⟩
    by_cases hk : isPlaceKey k
    · simp [hplace k hk, hk]
    · rw [if_neg hk] at hagrees
      rcases hvw with hin | hvw | ⟨rfl, a, b, rfl, rfl⟩
      · exact absurd hin.1 hk
      · cases hslot : slotOf k with
        | some slot =>
          simp only [hslot] at h ⊢
          exact fits_of_matches v w slot hvw h.1 hagrees.1
        | none =>
          simp only [hslot, hk, Bool.false_or] at h ⊢
          exact isInert_of_matches hvw h.1 hagrees.1
      · -- The slot of a name takes any text.
        cases hslot : slotOf "name" with
        | some slot =>
          simp only [hslot] at h ⊢
          exact hname hslot a b h.1
        | none => rfl

theorem itemsFit_of_matches : ∀ (xs ys : List Tree) (slot : Slot), ItemsMatch R xs ys →
    itemsFit labels slot xs → (∀ o ∈ objectsOfItems ys, labels'.agrees o) →
    itemsFit labels' slot ys = true
  | [], ys, _, hmatch, _, _ => by
    rw [hmatch]
    rfl
  | x :: xs, ys', slot, ⟨y, ys, heq, hxy, hrest⟩, h, hagrees => by
    rw [heq] at hagrees ⊢
    rw [itemsFit, Bool.and_eq_true] at h ⊢
    rw [objectsOfItems, List.forall_mem_append] at hagrees
    exact ⟨fits_of_matches x y slot hxy h.1 hagrees.1, itemsFit_of_matches xs ys slot hrest h.2 hagrees.2⟩

end

end

/-! ## Objects -/

section

variable {R : Option Nat → Option Nat → Prop}

/-- An object and the one that it matches. -/
def ObjectsMatch (R : Option Nat → Option Nat → Prop) (o o' : Tree) : Prop :=
  R o.mark? o'.mark? ∧ Matches R o o'

mutual

/-- The objects of trees that match, one by one. -/
theorem forall₂_objects : ∀ {t t' : Tree}, Matches R t t' →
    List.Forall₂ (ObjectsMatch R) t.objects t'.objects
  | .list xs, _, ⟨ys, rfl, h⟩ => forall₂_objectsOfItems h
  | .obj m fs, t', h => by
    obtain ⟨m', gs, rfl, hm, hfields⟩ := id h
    exact .cons ⟨hm, h⟩ (forall₂_objectsOfFields hfields)
  | .null, _, rfl | .bool _, _, rfl | .int _, _, rfl | .real _, _, rfl | .str _, _, rfl => .nil

theorem forall₂_objectsOfItems : ∀ {xs ys : List Tree}, ItemsMatch R xs ys →
    List.Forall₂ (ObjectsMatch R) (objectsOfItems xs) (objectsOfItems ys)
  | [], _, rfl => .nil
  | _ :: _, _, ⟨_, _, rfl, hxy, hrest⟩ =>
    List.rel_append (forall₂_objects hxy) (forall₂_objectsOfItems hrest)

theorem forall₂_objectsOfFields : ∀ {fs gs : Fields}, FieldsMatch R fs gs →
    List.Forall₂ (ObjectsMatch R) (objectsOfFields fs) (objectsOfFields gs)
  | [], _, rfl => .nil
  | (k, v) :: fs, _, ⟨w, gs, rfl, hvw, hrest⟩ => by
    refine List.rel_append ?_ (forall₂_objectsOfFields hrest)
    split
    · exact .nil
    · rename_i hplace
      rcases hvw with h | h | ⟨-, a, b, rfl, rfl⟩
      · exact absurd h.1 hplace
      · exact forall₂_objects h
      · exact .nil

end

theorem exists_of_mem_objects {o' : Tree} (h : Matches R t t') (ho' : o' ∈ t'.objects) :
    ∃ o ∈ t.objects, ObjectsMatch R o o' := by
  have hall : ∀ {xs ys : List Tree}, List.Forall₂ (ObjectsMatch R) xs ys → o' ∈ ys →
      ∃ o ∈ xs, ObjectsMatch R o o' := by
    intro xs ys hxs
    induction hxs with
    | nil => exact fun hin => absurd hin List.not_mem_nil
    | cons hxy _ ih =>
      intro hin
      rcases List.mem_cons.mp hin with rfl | hin
      · exact ⟨_, List.mem_cons_self, hxy⟩
      · obtain ⟨o, ho, hoo'⟩ := ih hin
        exact ⟨o, List.mem_cons_of_mem _ ho, hoo'⟩
  exact hall (forall₂_objects h) ho'

end

/-! ## Labellings that marks give -/

/-- Are objects with the same mark of the same type? -/
def IsCoherent (t : Tree) : Prop :=
  ∀ o ∈ t.objects, ∀ o' ∈ t.objects, ∀ m, o.mark? = some m → o'.mark? = some m → o'.type? = o.type?

theorem isCoherent_iff : IsCoherent t ↔ ∀ o ∈ t.objects, ∀ o' ∈ t.objects,
    o.mark?.isSome → o'.mark? = o.mark? → o'.type? = o.type? := by
  constructor
  · intro h o ho o' ho' hsome hmark
    obtain ⟨m, hm⟩ := Option.isSome_iff_exists.mp hsome
    exact h o ho o' ho' m hm (hmark.trans hm)
  · intro h o ho o' ho' m hm hm'
    exact h o ho o' ho' (by rw [hm]; rfl) (hm'.trans hm.symm)

instance (t : Tree) : Decidable (IsCoherent t) := decidable_of_iff _ isCoherent_iff.symm

/-- The types of the marked objects of a tree. -/
def labelsOf (t : Tree) (m : Nat) : Option String := (t.objects.find? fun o => o.mark? == some m).bind type?

/-- What a labelling asks of single objects can be said apart from the rest. -/
theorem fits_iff {labels : Labelling} :
    fits labels slot t ↔ fits .any slot t ∧ ∀ o ∈ t.objects, labels.agrees o :=
  ⟨fun h => ⟨fits_of_matches t t slot (.refl t) h fun _ _ => rfl,
    fun o ho => (isPart_of_fits t slot h o ho).agrees⟩, fun h => fits_of_matches t t slot (.refl t) h.1 h.2⟩

/-- **A tree is well-formed if and only if it is a program whose nodes are as a parser writes them.** -/
theorem isWellFormed_iff : isWellFormed t ↔ isProgram t ∧ ∀ o ∈ t.objects, isWritten o := by
  rw [isWellFormed, fits_iff]
  simp [agrees_iff, isProgram]

theorem IsCoherent.agrees {o : Tree} {isStrict : Bool} (h : IsCoherent t) (ho : o ∈ t.objects)
    (hwritten : isStrict → isWritten o) : Labelling.agrees ⟨some (labelsOf t), isStrict⟩ o := by
  refine agrees_iff.mpr ⟨?_, hwritten⟩
  rintro _ ⟨⟩ m hm
  rw [labelsOf]
  cases hfind : t.objects.find? fun o => o.mark? == some m with
  | none => exact absurd hm (by simpa using List.find?_eq_none.mp hfind o ho)
  | some p =>
    have hp : p.mark? = some m := by simpa using List.find?_some hfind
    exact h o ho p (List.mem_of_find?_eq_some hfind) m hm hp

/-- **A value agrees with some labelling if and only if it is coherent.** -/
theorem exists_labels_iff {isStrict : Bool} :
    (∃ typeOf, fits ⟨some typeOf, isStrict⟩ slot t) ↔ fits ⟨none, isStrict⟩ slot t ∧ IsCoherent t := by
  constructor
  · rintro ⟨typeOf, h⟩
    obtain ⟨hfits, hall⟩ := fits_iff.mp h
    refine ⟨fits_iff.mpr ⟨hfits, fun o ho => agrees_iff.mpr ⟨nofun, (agrees_iff.mp (hall o ho)).2⟩⟩, ?_⟩
    intro o ho o' ho' m hm hm'
    rw [← (agrees_iff.mp (hall o ho)).1 typeOf rfl m hm, (agrees_iff.mp (hall o' ho')).1 typeOf rfl m hm']
  · rintro ⟨h, hcoherent⟩
    obtain ⟨hfits, hall⟩ := fits_iff.mp h
    exact ⟨labelsOf t, fits_iff.mpr ⟨hfits, fun o ho => hcoherent.agrees ho (agrees_iff.mp (hall o ho)).2⟩⟩

/-- Marking leaves a coherent tree. -/
theorem isCoherent_identify (h : IsCoherent t) : IsCoherent t.identify := by
  have hmatch := matches_markFrom t t.freeMark (Nat.le_refl _)
  intro o' ho' p' hp' m hm hm'
  obtain ⟨o, ho, hmark, hsame⟩ := exists_of_mem_objects hmatch ho'
  obtain ⟨p, hp, hmark', hsame'⟩ := exists_of_mem_objects hmatch hp'
  by_cases hold : m ∈ t.marks
  · -- An old mark: both objects had it before.
    have hlt := lt_freeMark hold
    have hkept : ∀ k k' : Option Nat, IsMarkFrom t.freeMark k k' → k' = some m → k = some m := by
      rintro k k' (rfl | ⟨n, hn, rfl⟩) hk'
      · exact hk'
      · cases hk'
        omega
    rw [hsame.type?, hsame'.type?]
    exact h o ho p hp m (hkept _ _ hmark hm) (hkept _ _ hmark' hm')
  · -- A new one is used once.
    have hcount : t.identify.marks.count m ≤ 1 := by
      rw [identify, (count_marks_markFrom t t.freeMark).2 m, List.count_eq_zero_of_not_mem hold, usedOnce]
      split <;> omega
    rw [eq_of_mark? hcount ho' hp' hm hm']

/-- Marking leaves a program. -/
theorem fits_identify {isStrict : Bool} (h : fits ⟨none, isStrict⟩ slot t) :
    fits ⟨none, isStrict⟩ slot t.identify := by
  have hmatch := matches_markFrom t t.freeMark (Nat.le_refl _)
  refine fits_of_matches t _ slot hmatch h fun o' ho' => ?_
  obtain ⟨o, ho, -, hsame⟩ := exists_of_mem_objects hmatch ho'
  rw [agrees_iff, hsame.isWritten]
  exact ⟨nofun, (agrees_iff.mp (isPart_of_fits t slot h o ho).agrees).2⟩

/-- Renaming identifiers leaves a program. -/
theorem fits_apply {labels : Labelling} {r : Renaming} (h : fits labels slot t)
    (hnames : RenamesNames r t) : fits labels slot (r.apply t) := by
  have hmatch := matches_apply t hnames
  refine fits_of_matches t _ slot hmatch h fun o' ho' => ?_
  obtain ⟨o, ho, hmark, hsame⟩ := exists_of_mem_objects hmatch ho'
  rw [agrees_congr hmark.symm hsame.type? hsame.isWritten]
  exact (isPart_of_fits t slot h o ho).agrees

end Downlevel.Grammar
