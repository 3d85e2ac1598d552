import Downlevel.Proofs.Block.Renaming
import Downlevel.Proofs.Scope.Alike

/-!
# `Proofs.Block.Apply`: a renamed program

Renaming touches the names of identifiers and nothing else. Since new names start with an underscore, a
call of another function does not become one of `eval`, and the name of an element does not become that
of a variable.
-/

namespace Downlevel.Lower.Block

open Tree Scope

/-- What a renaming changes. -/
def renamingChange (r : Renaming) : Change where
  name := fun mark old =>
    match mark.bind (List.lookup · r) with
    | some name => some name
    | none => old
  moves := fun _ => False

/-- New names start with an underscore. -/
def IsUnderscored (r : Renaming) : Prop :=
  ∀ m name, List.lookup m r = some name → name.toList.head? = some '_'

section

variable {r : Renaming}

theorem name?_eq (r : Renaming) (t : Tree) : r.name? t = t.mark?.bind (List.lookup · r) := by
  rw [Renaming.name?]
  cases t.mark? <;> rfl

theorem lookup_applyFields (r : Renaming) (key : String) (fs : Fields) :
    lookup key (r.applyFields fs) = (lookup key fs).map r.apply := by
  induction fs with
  | nil => rfl
  | cons f fs ih =>
    obtain ⟨k, v⟩ := f
    rw [Renaming.applyFields, lookup, lookup]
    split
    · rfl
    · exact ih

/-- A renamed node: its fields, with the new name if there is one. -/
theorem apply_obj (r : Renaming) (m : Option Nat) (fs : Fields) :
    r.apply (.obj m fs) = match m.bind (List.lookup · r) with
      | some name => .obj m (Tree.insert "name" (.str name) (r.applyFields fs))
      | none => .obj m (r.applyFields fs) := by
  rw [Renaming.apply, name?_eq]
  rfl

theorem mark?_apply (r : Renaming) (t : Tree) : (r.apply t).mark? = t.mark? := by
  cases t with
  | obj m fs =>
    rw [apply_obj]
    split <;> rfl
  | null | bool _ | int _ | real _ | str _ | list _ => rfl

theorem str?_apply (r : Renaming) (t : Tree) : (r.apply t).str? = t.str? := by
  cases t with
  | obj m fs =>
    rw [apply_obj]
    split <;> rfl
  | null | bool _ | int _ | real _ | str _ | list _ => rfl

/-- The fields of a renamed node but for the name. -/
theorem get_apply {key : String} (hkey : key ≠ "name") (r : Renaming) (t : Tree) :
    (r.apply t).get key = r.apply (t.get key) := by
  cases t with
  | obj m fs =>
    have hmap : (lookup key (r.applyFields fs)).getD .null =
        r.apply ((lookup key fs).getD .null) := by
      rw [lookup_applyFields]
      cases lookup key fs <;> rfl
    rw [apply_obj]
    split
    · show (lookup key (Tree.insert "name" _ _)).getD .null = _
      rw [lookup_insert_of_ne hkey]
      exact hmap
    · exact hmap
  | null | bool _ | int _ | real _ | str _ | list _ => rfl

/-- The name of a renamed node. -/
theorem name?_apply (r : Renaming) (t : Tree) :
    (r.apply t).name? = (renamingChange r).name t.mark? t.name? := by
  cases t with
  | obj m fs =>
    rw [apply_obj]
    simp only [renamingChange, mark?]
    split
    · show ((lookup "name" (Tree.insert "name" _ _)).getD .null).str? = _
      rw [lookup_insert_self]
      rfl
    · show ((lookup "name" (r.applyFields fs)).getD .null).str? = _
      rw [lookup_applyFields, name?, Tree.get, get?, fields]
      cases lookup "name" fs with
      | none => rfl
      | some v => exact str?_apply r v
  | null | bool _ | int _ | real _ | str _ | list _ => rfl

theorem type?_apply (r : Renaming) (t : Tree) : (r.apply t).type? = t.type? := by
  rw [type?, type?, get_apply (by decide), str?_apply]

theorem isStr_apply (r : Renaming) (t : Tree) (s : String) : (r.apply t).isStr s = t.isStr s := by
  rw [Bool.eq_iff_iff, isStr_iff, isStr_iff, str?_apply]

/-- Only objects with a name are renamed. -/
def RenamesNames (r : Renaming) (t : Tree) : Prop :=
  ∀ o ∈ t.objects, (r.name? o).isSome = true → (o.name?).isSome = true

theorem faceOf_apply {t : Tree} (h : RenamesNames r t) : faceOf (r.apply t) = faceOf t := by
  rw [faceOf, faceOf, type?_apply]
  cases t with
  | obj m fs =>
    have hself := h _ List.mem_cons_self
    rw [name?_eq] at hself
    rw [apply_obj]
    split
    · -- An object with a name has fields before and after.
      rename_i name hname
      have hnamed : ((Tree.obj m fs).name?).isSome := hself (by
        show (m.bind (List.lookup · r)).isSome = true
        rw [hname]
        rfl)
      cases fs with
      | nil => cases hnamed
      | cons f rest =>
        simp only [Renaming.applyFields, Tree.insert]
        split <;> rfl
    · cases fs <;> rfl
  | list xs => cases xs <;> rfl
  | null | bool _ | int _ | real _ | str _ => rfl

/-- The second tree is the first, renamed; a name can stand for another one. -/
def Renamed (r : Renaming) (t t' : Tree) : Prop :=
  isScalar t = true ∧ isScalar t' = true ∨ t' = r.apply t ∧ RenamesNames r t

theorem forall₂_applyItems : ∀ xs : List Tree, RenamesNames r (.list xs) →
    List.Forall₂ (Renamed r) xs (r.applyItems xs)
  | [], _ => .nil
  | _ :: rest, h =>
    .cons (.inr ⟨rfl, fun o ho => h o (List.mem_append_left _ ho)⟩)
      (forall₂_applyItems rest fun o ho => h o (List.mem_append_right _ ho))

theorem fieldsLike_applyFields : ∀ fs : Fields,
    (∀ o ∈ objectsOfFields fs, (r.name? o).isSome → (o.name?).isSome) →
    FieldsLike (Renamed r) fs (r.applyFields fs)
  | [], _ => .nil
  | (k, v) :: rest, h => by
    rw [objectsOfFields] at h
    have hrest := fieldsLike_applyFields rest fun o ho => h o (List.mem_append_right _ ho)
    cases hplace : isPlaceKey k with
    | true => exact .place hplace hrest
    | false =>
      rw [hplace, if_neg Bool.false_ne_true] at h
      exact .cons (.inr ⟨rfl, fun o ho => h o (List.mem_append_left _ ho)⟩) hrest

theorem Renamed.identifierLike {t : Tree} : IdentifierLike (renamingChange r) t (r.apply t) where
  mark := fun m hm => by rw [mark?_apply]; exact hm
  type := type?_apply r t
  name := name?_apply r t

/-- A name that starts with an underscore is neither `eval` nor that of an element. -/
theorem name?_apply_cases (hunder : IsUnderscored r) (t : Tree) :
    (r.apply t).name? = t.name? ∨ ∃ name, (r.apply t).name? = some name ∧
      name.toList.head? = some '_' := by
  rw [name?_apply, renamingChange]
  cases hname : t.mark?.bind (List.lookup · r) with
  | none => exact .inl (by simp only [hname])
  | some name =>
    obtain ⟨m, _, hlookup⟩ := Option.bind_eq_some_iff.mp hname
    exact .inr ⟨name, by simp only [hname], hunder m name hlookup⟩

theorem Renamed.headLike (hunder : IsUnderscored r) {t : Tree} (h : RenamesNames r t) :
    HeadLike (renamingChange r) t (r.apply t) := by
  have hplace : ∀ key ∈ watchedKeys, isPlaceKey key = false ∧ key ≠ "name" := by decide
  exact
    { self := identifierLike
      faces := by
        intro key hkey
        rw [get_apply (hplace key hkey).2]
        exact faceOf_apply fun o ho => h o (mem_objects_get (hplace key hkey).1 ho)
      parts := by
        intro key hkey _
        rw [get_apply (hplace key hkey).2]
        exact identifierLike
      keyword := by
        refine binderLike_keyword (fun m hm => by rw [mark?_apply]; exact hm) fun s => ?_
        rw [get_apply (by decide), isStr_apply]
      eval := by
        rw [Condition.holds, Condition.holds, get_apply (by decide), Bool.and_eq_true,
          Bool.and_eq_true, isType_iff, isType_iff, type?_apply, isStr_iff, isStr_iff]
        rintro ⟨htype, hname⟩
        refine ⟨htype, ?_⟩
        rcases name?_apply_cases hunder (t.get "callee") with heq | ⟨name, heq, hhead⟩
        · rw [← name?, ← heq]
          exact hname
        · rw [← name?, heq] at hname
          cases hname
          exact absurd hhead (by decide)
      element := by
        intro dotted
        rw [Condition.holds, Condition.holds]
        rcases name?_apply_cases hunder t with heq | ⟨name, heq, hhead⟩
        · rw [heq]
          exact id
        · intro hholds
          rw [heq] at hholds
          obtain ⟨rest, hrest⟩ : ∃ rest, name.toList = '_' :: rest := by
            cases hl : name.toList with
            | nil => rw [hl] at hhead; cases hhead
            | cons c rest =>
              rw [hl] at hhead
              cases hhead
              exact ⟨rest, rfl⟩
          have hcapital : Text.isCapital '_' = false := by decide
          simp only [Option.getD_some, hrest, hcapital, Bool.or_false] at hholds
          rw [hholds]
          rfl }

/-- **A tree and the same tree, renamed.** -/
theorem isSimulation_renamed (hunder : IsUnderscored r) :
    IsSimulation (renamingChange r) (Renamed r) where
  scalar := by
    rintro t t' (⟨_, hscalar'⟩ | ⟨rfl, _⟩) hscalar
    · exact hscalar'
    · cases t with
      | list _ | obj _ _ => cases hscalar
      | null | bool _ | int _ | real _ | str _ => rfl
  list := by
    rintro xs t' (⟨hscalar, _⟩ | ⟨rfl, h⟩)
    · cases hscalar
    · exact ⟨_, rfl, forall₂_applyItems xs h⟩
  object := by
    rintro m fs t' (⟨hscalar, _⟩ | ⟨rfl, h⟩)
    · cases hscalar
    · have hhead := Renamed.headLike hunder h
      have hfields := fieldsLike_applyFields fs fun o ho => h o (List.mem_cons_of_mem _ ho)
      have hself := h _ List.mem_cons_self
      rw [name?_eq] at hself
      rw [apply_obj] at hhead ⊢
      cases hname : m.bind (List.lookup · r) with
      | none =>
        rw [hname] at hhead
        exact ⟨_, _, rfl, hhead, hfields⟩
      | some name =>
        rw [hname] at hhead
        obtain ⟨old, hold⟩ := Option.isSome_iff_exists.mp (hself (by
          show (m.bind (List.lookup · r)).isSome = true
          rw [hname]
          rfl))
        have hlookup : lookup "name" fs = some (.str old) := by
          rw [name?, Tree.get, get?, fields] at hold
          cases hl : lookup "name" fs with
          | none => rw [hl] at hold; cases hold
          | some v =>
            rw [hl, Option.getD_some] at hold
            cases v <;> cases hold
            rfl
        exact ⟨_, _, rfl, hhead,
          fieldsLike_insert (.inl ⟨rfl, rfl⟩) rfl (by decide) hfields hlookup⟩

theorem programAlike_apply (hunder : IsUnderscored r) {t : Tree} (h : RenamesNames r t) :
    ProgramAlike (renamingChange r) (Renamed r) t (r.apply t) where
  mark := fun m hm => by rw [mark?_apply]; exact hm
  sourceType := by rw [get_apply (by decide), isStr_apply]
  fields := by
    cases t with
    | obj m fs =>
      obtain ⟨m', fs', heq, _, hfields⟩ := (isSimulation_renamed hunder).object (.inr ⟨rfl, h⟩)
      rw [heq]
      exact hfields
    | null | bool _ | int _ | real _ | str _ | list _ => exact .nil

end

end Downlevel.Lower.Block
