import Downlevel.Node.Build
import Downlevel.Tree.Walk

/-!
# `Proofs.Tree.Fields`: laws of fields and types

What can be said of a node once its type is known, and what writing one field does to the others.
-/

namespace Downlevel.Tree

variable {t v : Tree} {s key other : String}

/-- Is a value neither a list nor an object? -/
def isScalar : Tree → Bool
  | .list _ | .obj _ _ => false
  | _ => true

/-- What a table holds under a key is an entry of it. -/
theorem mem_of_lookup {κ α : Type} [BEq κ] [LawfulBEq κ] {key : κ} {a : α} {table : List (κ × α)}
    (h : table.lookup key = some a) : (key, a) ∈ table := by
  obtain ⟨before, after, rfl, -⟩ := List.lookup_eq_some_iff.mp h
  exact List.mem_append_right _ List.mem_cons_self

/-! ## Types -/

theorem get_type_of_type? (h : t.type? = some s) : t.get "type" = .str s := by
  unfold type? at h
  cases hget : t.get "type" <;> simp_all [str?]

theorem isType_of_type? (h : t.type? = some s) (name : String) : t.isType name = decide (s = name) := by
  unfold isType
  rw [get_type_of_type? h]
  rfl

theorem isType_iff {name : String} : t.isType name ↔ t.type? = some name := by
  unfold isType type?
  cases t.get "type" <;> simp [isStr, str?]

theorem isTypeIn_iff {names : List String} : t.isTypeIn names ↔ ∃ name ∈ names, t.type? = some name := by
  simp only [isTypeIn, List.any_eq_true, isType_iff]

theorem isTypeIn_of_mem {names : List String} (h : t.type? = some s) (hmem : s ∈ names) : t.isTypeIn names :=
  isTypeIn_iff.mpr ⟨s, hmem, h⟩

theorem isTypeIn_of_type? (h : t.type? = some s) (names : List String) :
    t.isTypeIn names = decide (s ∈ names) := by
  rw [Bool.eq_iff_iff, isTypeIn_iff, h, decide_eq_true_iff]
  simp

theorem isTypeIn_false {names : List String} (h : t.type? = some s) (hmem : s ∉ names) :
    t.isTypeIn names = false := by
  rw [isTypeIn_of_type? h, decide_eq_false hmem]

theorem isTypeIn_eq_any (t : Tree) (names : List String) : t.isTypeIn names = t.type?.any names.contains := by
  rw [Bool.eq_iff_iff, isTypeIn_iff]
  cases t.type? <;> simp

theorem isType_congr {t' : Tree} (h : t'.type? = t.type?) (name : String) :
    t'.isType name = t.isType name := by
  rw [Bool.eq_iff_iff, isType_iff, isType_iff, h]

theorem isTypeIn_congr {t' : Tree} (h : t'.type? = t.type?) (names : List String) :
    t'.isTypeIn names = t.isTypeIn names := by
  rw [isTypeIn, isTypeIn, funext (isType_congr h)]

/-- Only objects have a type. -/
theorem isObject_of_type? (h : t.type? = some s) : ∃ m fs, t = .obj m fs := by
  cases t with
  | obj m fs => exact ⟨m, fs, rfl⟩
  | _ => cases h

/-- A node has fields. -/
theorem isSet_of_type? (h : t.type? = some s) : t.isSet := by
  obtain ⟨m, fs, rfl⟩ := isObject_of_type? h
  cases fs with
  | nil => cases h
  | cons f rest => rfl

theorem isNode_of_type? (h : t.type? = some s) : t.isNode := by
  obtain ⟨m, fs, rfl⟩ := isObject_of_type? h
  have hget : (lookup "type" fs).getD .null = .str s := get_type_of_type? h
  show (lookup "type" fs).isSome = true
  cases hl : lookup "type" fs with
  | none => simp [hl] at hget
  | some v => rfl

/-- A field that is not null is there. -/
theorem lookup_of_get {m : Option Nat} {fs : Fields} (h : (Tree.obj m fs).get key = v)
    (hv : v.isNull = false) : lookup key fs = some v := by
  have hget : (lookup key fs).getD .null = v := h
  cases hl : lookup key fs with
  | none =>
    rw [hl] at hget
    rw [← hget] at hv
    cases hv
  | some w =>
    rw [hl] at hget
    exact congrArg some hget

/-! ## New nodes -/

theorem get?_erase_of_ne (h : other ≠ key) (t : Tree) : (t.erase key).get? other = t.get? other := by
  cases t with
  | obj m fs =>
    show lookup other (fs.filter (·.1 ≠ key)) = lookup other fs
    induction fs with
    | nil => rfl
    | cons f rest ih =>
      obtain ⟨k, v⟩ := f
      by_cases hk : k = key
      · rw [List.filter_cons_of_neg (by simp [hk]), ih, lookup, if_neg (hk ▸ h.symm)]
      · rw [List.filter_cons_of_pos (by simp [hk]), lookup, lookup, ih]
  | _ => rfl

theorem get_set_of_ne (h : other ≠ key) (t value : Tree) : (t.set key value).get other = t.get other := by
  cases t with
  | obj m fs =>
    show (lookup other (insert key value fs)).getD .null = _
    rw [lookup_insert_of_ne h]
    rfl
  | _ => rfl

theorem get_set_self (h : t.isObject) (key : String) (value : Tree) :
    (t.set key value).get key = value := by
  cases t with
  | obj m fs =>
    show (lookup key (insert key value fs)).getD .null = value
    rw [lookup_insert_self]
    rfl
  | _ => cases h

/-- Writing a field that is there, where no key stands twice. -/
theorem insert_eq_map : ∀ {fs : Fields}, (fs.map (·.1)).Nodup → key ∈ fs.map (·.1) →
    insert key v fs = fs.map fun f => (f.1, if f.1 = key then v else f.2)
  | [], _, h => by cases h
  | (k, u) :: rest, hnodup, h => by
    rw [List.map_cons, List.nodup_cons] at hnodup
    rw [insert, List.map_cons]
    split
    · rename_i heq
      subst heq
      have hrest : ∀ f ∈ rest, (f.1, if f.1 = k then v else f.2) = f := by
        intro f hf
        have hne : f.1 ≠ k := fun heq => hnodup.1 (List.mem_map.mpr ⟨f, hf, heq⟩)
        rw [if_neg hne]
      rw [List.map_congr_left hrest, List.map_id']
    · rename_i hne
      rw [List.map_cons, List.mem_cons] at h
      rw [insert_eq_map hnodup.2 (h.resolve_left (Ne.symm hne))]

/-- Writing the value that is there. -/
theorem set_of_get? (h : t.get? key = some v) : t.set key v = t := by
  have hinsert : ∀ fs : Fields, lookup key fs = some v → insert key v fs = fs := by
    intro fs hfs
    induction fs with
    | nil => cases hfs
    | cons f rest ih =>
      obtain ⟨k, u⟩ := f
      rw [lookup] at hfs
      rw [insert]
      split
      · rename_i heq
        rw [if_pos heq] at hfs
        cases hfs
        rfl
      · rename_i hne
        rw [if_neg hne] at hfs
        rw [ih hfs]
  cases t with
  | obj m fs => exact congrArg (Tree.obj m) (hinsert fs h)
  | _ => rfl

theorem isObject_set (t : Tree) (key : String) (value : Tree) :
    (t.set key value).isObject = t.isObject := by
  cases t <;> rfl

theorem mark?_set (t : Tree) (key : String) (value : Tree) : (t.set key value).mark? = t.mark? := by
  cases t <;> rfl

/-- A node that takes over a place keeps its other fields. -/
theorem get_located (hrange : key ≠ "range") (hloc : key ≠ "loc") (t place : Tree) :
    (Node.located t place).get key = t.get key := by
  unfold Node.located
  split <;> split <;> simp only [get_set_of_ne hrange, get_set_of_ne hloc]

/-! ## Induction -/

section

variable {motive : Tree → Prop} (scalar : ∀ t, isScalar t → motive t)
  (list : ∀ xs : List Tree, (∀ x ∈ xs, motive x) → motive (.list xs))
  (obj : ∀ (m : Option Nat) (fs : Fields), (∀ f ∈ fs, motive f.2) → motive (.obj m fs))

include scalar list obj

mutual

/-- **What holds of a value if it holds of its parts holds of all values.** -/
@[elab_as_elim]
theorem inductionOnParts (t : Tree) : motive t := by
  cases t with
  | obj m fs => exact obj m fs (forall_of_fields fs)
  | list xs => exact list xs (forall_of_items xs)
  | null | bool _ | int _ | real _ | str _ => exact scalar _ rfl

theorem forall_of_items (xs : List Tree) : ∀ x ∈ xs, motive x := by
  cases xs with
  | nil => exact List.forall_mem_nil _
  | cons x xs =>
    exact List.forall_mem_cons.mpr ⟨inductionOnParts x, forall_of_items xs⟩

theorem forall_of_fields (fs : Fields) : ∀ f ∈ fs, motive f.2 := by
  cases fs with
  | nil => exact List.forall_mem_nil _
  | cons f fs =>
    obtain ⟨k, v⟩ := f
    exact List.forall_mem_cons.mpr ⟨inductionOnParts v, forall_of_fields fs⟩

end

end

theorem mem_of_lookup_eq_some {fs : Fields} (h : lookup key fs = some v) : (key, v) ∈ fs := by
  induction fs with
  | nil => cases h
  | cons f fs ih =>
    obtain ⟨k, w⟩ := f
    rw [lookup] at h
    split at h
    · rename_i heq
      cases h
      rw [heq]
      exact List.mem_cons_self
    · exact List.mem_cons_of_mem _ (ih h)

/-- A field that is read is null, or one that is there. -/
theorem get_eq_null_or_mem (m : Option Nat) (fs : Fields) (key : String) :
    (Tree.obj m fs).get key = .null ∨ (key, (Tree.obj m fs).get key) ∈ fs := by
  rw [get]
  cases hv : (Tree.obj m fs).get? key with
  | none => exact .inl rfl
  | some v => exact .inr (mem_of_lookup_eq_some hv)

/-- What must be there is there. -/
theorem get_of_need {t v : Tree} {key : String} (h : t.need key = .ok v) : t.get key = v := by
  rw [need] at h
  rw [Tree.get]
  split at h
  · rename_i w hw
    cases h
    rw [hw]
    rfl
  · cases h

end Downlevel.Tree
