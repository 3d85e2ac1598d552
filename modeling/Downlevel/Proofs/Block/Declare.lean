import Downlevel.Lower.Block.Declare
import Downlevel.Proofs.Node.Follow
import Downlevel.Proofs.Scope.Alike

/-!
# `Proofs.Block.Declare`: a program whose declarations have become `var`

The last step of the lowering never fails, and it changes declarations only: `let` and `const` that are
not kept become `var`, and declarators without an initial value get `void 0`, which refers to nothing.
-/

namespace Downlevel.Lower.Block

open Tree Node Scope

variable {m : Option Nat} {fs fs' : Fields} {t' t : Tree} {key : String}

section

variable {kept : List Nat}

/-! ## The step never fails -/

/-- The second tree is what becomes of the first, or the first itself where it is not looked at. -/
def Visited (kept : List Nat) (t t' : Tree) : Prop :=
  t' = t ∨ ∃ c, Yields (visit (declareHandle kept) c t) () (.keep t') ()

/-- A field and what becomes of it; the type of a node stays. -/
def FieldVisited (kept : List Nat) (f f' : String × Tree) : Prop :=
  f'.1 = f.1 ∧ Visited kept f.2 f'.2 ∧ (f.1 = "type" → f'.2 = f.2)

/-- A node is kept, with its fields looked at, and converted if it is a declaration. -/
theorem declareHandle_eq (kept : List Nat) (c : Surroundings) (t : Tree) (parts : Parts Surroundings Unit) :
    ∃ contexts inLoop, (∀ key, (contexts key).isSome) ∧ declareHandle kept c t parts =
      (fun t' => .keep (if t.isType "VariableDeclaration" then convert kept inLoop t' else t')) <$>
        parts.descend contexts := by
  unfold declareHandle
  split
  · exact ⟨_, _, fun _ => rfl, rfl⟩
  · split
    · exact ⟨_, false, fun _ => rfl, rfl⟩
    · split <;> exact ⟨_, false, fun _ => rfl, rfl⟩

/-- A field of an object, before and after. -/
theorem lookup_cases (h : List.Forall₂ (FieldVisited kept) fs fs') (key : String) :
    (lookup key fs = none ∧ lookup key fs' = none) ∨ ∃ v v', lookup key fs = some v ∧
      lookup key fs' = some v' ∧ Visited kept v v' ∧ (key = "type" → v' = v) := by
  induction h with
  | nil => exact .inl ⟨rfl, rfl⟩
  | @cons f f' fs fs' hf _ ih =>
    obtain ⟨k, v⟩ := f
    obtain ⟨k', v'⟩ := f'
    obtain ⟨hk, hv⟩ := hf
    cases hk
    rw [lookup, lookup]
    split
    · rename_i heq
      exact .inr ⟨v, v', rfl, rfl, heq ▸ hv⟩
    · exact ih

theorem type?_of_forall₂ (h : List.Forall₂ (FieldVisited kept) fs fs') :
    (Tree.obj m fs').type? = (Tree.obj m fs).type? := by
  show ((lookup "type" fs').getD .null).str? = ((lookup "type" fs).getD .null).str?
  rcases lookup_cases h "type" with ⟨hv, hv'⟩ | ⟨v, v', hv, hv', -, hsame⟩
  · rw [hv, hv']
  · rw [hv, hv', hsame rfl]

mutual

theorem exists_visit (kept : List Nat) : ∀ (t : Tree) (c : Surroundings),
    ∃ t', Yields (visit (declareHandle kept) c t) () (.keep t') ()
  | .obj m fs, c => by
    obtain ⟨contexts, _, -, hhandle⟩ := declareHandle_eq kept c (.obj m fs) (partsOf (declareHandle kept) m fs)
    obtain ⟨fs', hfs, -⟩ := exists_visitFields kept fs contexts
    rw [visit, ← partsOf, hhandle]
    exact ⟨_, (hfs.map (Tree.obj m)).map _⟩
  | .list xs, c => by
    obtain ⟨xs', hxs, _⟩ := exists_visitItems kept xs c
    exact ⟨.list xs', hxs.map _⟩
  | .null, _ | .bool _, _ | .int _, _ | .real _, _ | .str _, _ => ⟨_, rfl⟩

theorem exists_visitFields (kept : List Nat) : ∀ (fs : Fields)
    (contexts : String → Option Surroundings),
    ∃ fs', Yields (visitFields (declareHandle kept) contexts fs) () fs' () ∧
      List.Forall₂ (FieldVisited kept) fs fs'
  | [], _ => ⟨[], rfl, .nil⟩
  | (k, v) :: rest, contexts => by
    obtain ⟨rest', hrest, hall⟩ := exists_visitFields kept rest contexts
    obtain ⟨v', hentry, hv⟩ : ∃ v',
        Yields (visitEntry (declareHandle kept) contexts k v) () [(k, v')] () ∧
          FieldVisited kept (k, v) (k, v') := by
      have hstay : FieldVisited kept (k, v) (k, v) := ⟨rfl, .inl rfl, fun _ => rfl⟩
      rw [visitEntry]
      split
      · rename_i c _
        split
        · rename_i hwritten
          obtain ⟨v', hvisit⟩ := exists_visit kept v c
          refine ⟨v', hvisit.map _, rfl, .inr ⟨c, hvisit⟩, fun htype => ?_⟩
          have htype' : k = "type" := htype
          rw [htype'] at hwritten
          cases hwritten
        · exact ⟨v, rfl, hstay⟩
      · exact ⟨v, rfl, hstay⟩
    exact ⟨(k, v') :: rest', yields_visitFields_cons hentry hrest, .cons hv hall⟩

theorem exists_visitItems (kept : List Nat) : ∀ (xs : List Tree) (c : Surroundings),
    ∃ xs', Yields (visitItems (declareHandle kept) c xs) () xs' () ∧ List.Forall₂ (Visited kept) xs xs'
  | [], _ => ⟨[], rfl, .nil⟩
  | t :: rest, c => by
    obtain ⟨rest', hrest, hall⟩ := exists_visitItems kept rest c
    obtain ⟨t', hitem, ht⟩ : ∃ t', Yields (visitItem (declareHandle kept) c t) () [t'] () ∧
        Visited kept t t' := by
      rw [visitItem]
      split
      · obtain ⟨t', hvisit⟩ := exists_visit kept t c
        exact ⟨t', hvisit.map _, .inr ⟨c, hvisit⟩⟩
      · exact ⟨t, rfl, .inl rfl⟩
    exact ⟨t' :: rest', yields_visitItems_cons hitem hrest, .cons ht hall⟩

end

/-- **The step never fails.** -/
theorem exists_declareVars (kept : List Nat) (t : Tree) :
    ∃ t', declareVars kept t = .ok t' ∧ Visited kept t t' := by
  obtain ⟨t', h⟩ := exists_visit kept t {}
  refine ⟨t', ?_, .inr ⟨{}, h⟩⟩
  rw [declareVars, h]
  rfl

/-! ## What becomes of a value -/

/-- What becomes of a list. -/
theorem Visited.list {xs : List Tree} (h : Visited kept (.list xs) t') :
    ∃ xs', t' = .list xs' ∧ List.Forall₂ (Visited kept) xs xs' := by
  rcases h with rfl | ⟨c, h⟩
  · exact ⟨xs, rfl, List.forall₂_same.mpr fun _ _ => .inl rfl⟩
  · obtain ⟨xs', hxs, hall⟩ := exists_visitItems kept xs c
    have hyields : Yields (visit (declareHandle kept) c (.list xs)) () (.keep (.list xs')) () := hxs.map _
    cases h.symm.trans hyields
    exact ⟨xs', rfl, hall⟩

/-- What becomes of an object. -/
theorem Visited.object (h : Visited kept (.obj m fs) t') : ∃ fs', List.Forall₂ (FieldVisited kept) fs fs' ∧
      (t' = .obj m fs' ∨ ∃ inLoop, t' = convert kept inLoop (.obj m fs')) := by
  rcases h with rfl | ⟨c, h⟩
  · exact ⟨fs, List.forall₂_same.mpr fun _ _ => ⟨rfl, .inl rfl, fun _ => rfl⟩, .inl rfl⟩
  · obtain ⟨contexts, inLoop, -, hhandle⟩ :=
      declareHandle_eq kept c (.obj m fs) (partsOf (declareHandle kept) m fs)
    obtain ⟨fs', hfs, hall⟩ := exists_visitFields kept fs contexts
    rw [visit, ← partsOf, hhandle] at h
    cases h.symm.trans ((hfs.map (Tree.obj m)).map _)
    refine ⟨fs', hall, ?_⟩
    split
    · exact .inr ⟨inLoop, rfl⟩
    · exact .inl rfl

theorem Visited.scalar (h : Visited kept t t') (hscalar : isScalar t) : t' = t := by
  rcases h with rfl | ⟨c, h⟩
  · rfl
  · cases t with
    | list _ | obj _ _ => cases hscalar
    | null | bool _ | int _ | real _ | str _ => cases h; rfl

theorem lookup_of_forall₂ (h : List.Forall₂ (FieldVisited kept) fs fs') :
    Visited kept ((lookup key fs).getD .null) ((lookup key fs').getD .null) := by
  rcases lookup_cases h key with ⟨hv, hv'⟩ | ⟨v, v', hv, hv', hvisited, -⟩
  · rw [hv, hv']
    exact .inl rfl
  · rwa [hv, hv']

theorem exists_lookup_of_forall₂ {v' : Tree} (h : List.Forall₂ (FieldVisited kept) fs fs')
    (hlookup : lookup key fs' = some v') : ∃ v, lookup key fs = some v ∧ Visited kept v v' := by
  rcases lookup_cases h key with ⟨-, hv'⟩ | ⟨v, w, hv, hv', hvisited, -⟩
  · cases hv'.symm.trans hlookup
  · cases hv'.symm.trans hlookup
    exact ⟨v, hv, hvisited⟩

/-! ### Converted declarations -/

/-- The declarators of a converted declaration. -/
def withDeclarators (inLoop : Bool) (t : Tree) : Tree :=
  if inLoop && (t.get "kind").isStr "let" && (t.get "declarations").isList then
    t.set "declarations" (.list ((t.children "declarations").map resetDeclarator))
  else t

theorem isBlockDeclaration_iff : isBlockDeclaration t ↔
    t.type? = some "VariableDeclaration" ∧
      ((t.get "kind").isStr "let" ∨ (t.get "kind").isStr "const") := by
  rw [isBlockDeclaration, Bool.and_eq_true, isType_iff, Bool.or_eq_true]

/-- A declaration stays, or becomes `var`. -/
theorem convert_cases (kept : List Nat) (inLoop : Bool) (t : Tree) :
    convert kept inLoop t = t ∨
      isBlockDeclaration t ∧ isKept kept t = false ∧
        convert kept inLoop t = (withDeclarators inLoop t).set "kind" (.str "var") := by
  rw [convert]
  split
  · exact .inl rfl
  · rename_i h
    rw [Bool.or_eq_true, not_or, Bool.not_eq_true', Bool.not_eq_false, Bool.not_eq_true] at h
    exact .inr ⟨h.1, h.2, rfl⟩

theorem get_withDeclarators (hkey : key ≠ "declarations") (inLoop : Bool) (t : Tree) :
    (withDeclarators inLoop t).get key = t.get key := by
  rw [withDeclarators]
  split
  · exact get_set_of_ne hkey _ _
  · rfl

theorem isObject_withDeclarators (inLoop : Bool) (t : Tree) :
    (withDeclarators inLoop t).isObject = t.isObject := by
  rw [withDeclarators]
  split
  · exact isObject_set _ _ _
  · rfl

theorem mark?_withDeclarators (inLoop : Bool) (t : Tree) : (withDeclarators inLoop t).mark? = t.mark? := by
  rw [withDeclarators]
  split
  · exact mark?_set _ _ _
  · rfl

/-! ### Values look the same -/

/-- What becomes of an object: the mark and all fields but two are those of its fields. -/
theorem Visited.exists_object (h : Visited kept (.obj m fs) t') :
    ∃ fs' inLoop, List.Forall₂ (FieldVisited kept) fs fs' ∧ t'.mark? = m ∧ t'.isObject ∧
      (∀ key, key ≠ "kind" → key ≠ "declarations" → t'.get key = (Tree.obj m fs').get key) ∧
      (t' = .obj m fs' ∨ isBlockDeclaration (.obj m fs') ∧ isKept kept (.obj m fs') = false ∧
        t' = (withDeclarators inLoop (.obj m fs')).set "kind" (.str "var")) := by
  obtain ⟨fs', hall, rfl | ⟨inLoop, rfl⟩⟩ := h.object
  · exact ⟨fs', false, hall, rfl, rfl, fun _ _ _ => rfl, .inl rfl⟩
  · refine ⟨fs', inLoop, hall, ?_, ?_, fun key hkind hdecl => ?_, convert_cases _ _ _⟩
    all_goals rcases convert_cases kept inLoop (.obj m fs') with heq | ⟨_, _, heq⟩ <;> rw [heq]
    · rfl
    · rw [mark?_set, mark?_withDeclarators]
      rfl
    · rfl
    · rw [isObject_set, isObject_withDeclarators]
      rfl
    · rw [get_set_of_ne hkind, get_withDeclarators hdecl]

theorem Visited.text (h : Visited kept t t') : t'.str? = t.str? := by
  cases t with
  | obj m fs =>
    obtain ⟨fs', _, _, _, hobject, _⟩ := h.exists_object
    cases t' with
    | obj _ _ => rfl
    | null | bool _ | int _ | real _ | str _ | list _ => cases hobject
  | list xs =>
    obtain ⟨xs', rfl, _⟩ := h.list
    rfl
  | null | bool _ | int _ | real _ | str _ => rw [h.scalar rfl]

/-- Whatever becomes a list was one. -/
theorem Visited.list_of_list {xs' : List Tree} (h : Visited kept t (.list xs')) :
    ∃ xs, t = .list xs ∧ List.Forall₂ (Visited kept) xs xs' := by
  cases t with
  | obj m fs =>
    obtain ⟨_, _, _, _, hobject, _⟩ := h.exists_object
    cases hobject
  | list xs =>
    obtain ⟨ys, heq, hall⟩ := h.list
    cases heq
    exact ⟨xs, rfl, hall⟩
  | null | bool _ | int _ | real _ | str _ => cases h.scalar rfl

/-- What becomes of a value looks the same from outside. -/
theorem Visited.resembles (h : Visited kept t t') : Resembles t t' := by
  cases t with
  | obj m fs =>
    obtain ⟨fs', inLoop, hall, hmark, hobject, hget, hcases⟩ := h.exists_object
    have htype : t'.type? = (Tree.obj m fs).type? := by
      rw [← type?_of_forall₂ hall, type?, hget "type" (by decide) (by decide)]
      rfl
    have hset : t'.isSet = (Tree.obj m fs).isSet := by
      rcases hcases with rfl | ⟨hblock, _, _⟩
      · cases hall <;> rfl
      · rw [isBlockDeclaration, Bool.and_eq_true, isType_iff, type?_of_forall₂ hall] at hblock
        rw [isSet_of_type? hblock.1, isSet_of_type? (htype.trans hblock.1)]
    have hnull : t'.isNull = false := by cases t' <;> first | rfl | cases hobject
    exact
      { face := by
          rw [faceOf, faceOf, htype, hset, hobject, hnull]
          rfl
        text := h.text
        mark := fun k hk => hmark.trans hk
        name := by
          rw [name?, hget "name" (by decide) (by decide)]
          exact (lookup_of_forall₂ hall).text }
  | list xs =>
    obtain ⟨xs', rfl, hall⟩ := h.list
    have hempty : xs'.isEmpty = xs.isEmpty := by cases hall <;> rfl
    refine ⟨?_, rfl, by rintro _ ⟨⟩, rfl⟩
    rw [faceOf, faceOf, isSet, isSet, hempty]
    rfl
  | null | bool _ | int _ | real _ | str _ =>
    rw [h.scalar rfl]
    exact .refl _

/-! ## The simulation -/

/-- Declarations that are not kept become `var`. -/
def declaringChange (kept : List Nat) : Change := .keeping fun mark => ∀ m, mark = some m → m ∉ kept

theorem isSilent_voidZero : IsSilent voidZero := fun _ => rfl

/-- A tree and what becomes of it in its place: a keyword can change, and declarators can get an initial
value. -/
inductive Declared (kept : List Nat) : Tree → Tree → Prop where
  | scalar {t t' : Tree} : isScalar t → isScalar t' → Declared kept t t'
  | visited {t t' : Tree} : Visited kept t t' → Declared kept t t'
  | reset {t t' : Tree} : Visited kept t t' → Declared kept t (resetDeclarator t')
  | declarators {xs xs' : List Tree} : List.Forall₂ (Visited kept) xs xs' →
      Declared kept (.list xs) (.list (xs'.map resetDeclarator))

theorem fieldsLike_of_forall₂ (h : List.Forall₂ (FieldVisited kept) fs fs') :
    FieldsLike (Declared kept) fs fs' := by
  induction h with
  | nil => exact .nil
  | @cons f f' fs fs' hf _ ih =>
    obtain ⟨k, v⟩ := f
    obtain ⟨k', v'⟩ := f'
    obtain ⟨hk, hv, _⟩ := hf
    cases hk
    exact .cons (.visited hv) ih

/-- Whatever becomes a scalar was one. -/
theorem Declared.scalar_of_scalar (h : Declared kept t t') (h' : isScalar t') : isScalar t := by
  have hvisited : ∀ u, Visited kept t u → isScalar u → isScalar t := by
    intro u hu hscalar
    cases t with
    | obj m fs =>
      obtain ⟨_, _, _, _, hobject, _⟩ := hu.exists_object
      cases u with
      | obj _ _ => cases hscalar
      | null | bool _ | int _ | real _ | str _ | list _ => cases hobject
    | list xs =>
      obtain ⟨xs', rfl, _⟩ := hu.list
      cases hscalar
    | null | bool _ | int _ | real _ | str _ => rfl
  cases h with
  | scalar hscalar _ => exact hscalar
  | visited hu => exact hvisited _ hu h'
  | @reset _ u hu =>
    refine hvisited u hu ?_
    rw [resetDeclarator] at h'
    split at h'
    · cases u <;> first | rfl | cases h'
    · exact h'
  | declarators _ => cases h'

theorem get_of_isStr {s : String} (h : t.isStr s) : t = .str s := by
  cases t with
  | str u =>
    have hu : u = s := by simpa [isStr] using h
    rw [hu]
  | null | bool _ | int _ | real _ | list _ | obj _ _ => cases h

/-- A declarator without an initial value gets one that refers to nothing. -/
theorem fieldsLike_insert_init : ∀ {fs fs' : Fields},
    FieldsLike (Declared kept) fs fs' → ((lookup "init" fs').getD .null).isNull →
    FieldsLike (Declared kept) fs (Tree.insert "init" voidZero fs')
  | [], _, .nil, _ => .added isSilent_voidZero
  | [], _, .added _, _ => .added isSilent_voidZero
  | (k, v) :: rest, _, hlike, h => by
    cases hlike with
    | @cons _ _ v' _ rest' hv hrest =>
      rw [Tree.insert]
      rw [lookup] at h
      split at h
      · rename_i heq
        rw [if_pos heq, heq]
        have hscalar : isScalar v' := by
          cases v' <;> first | rfl | cases h
        exact .init (fun b => outline_scalar (hv.scalar_of_scalar hscalar) _ b) isSilent_voidZero hrest
      · rename_i hne
        rw [if_neg hne]
        exact .cons hv (fieldsLike_insert_init hrest h)
    | place hplace hrest =>
      have hne : k ≠ "init" := fun heq => by rw [heq] at hplace; cases hplace
      rw [lookup, if_neg hne] at h
      rw [Tree.insert, if_neg hne]
      exact .place hplace (fieldsLike_insert_init hrest h)
    | init hv _ hrest =>
      rw [Tree.insert, if_pos rfl]
      exact .init hv isSilent_voidZero hrest

/-- A node declares as before, or with `var` instead of `let` and `const`. -/
theorem Visited.keyword (h : Visited kept (.obj m fs) t') (b b' : Binder) :
    BinderLike (declaringChange kept) (Manner.keyword.binder (.obj m fs) b)
      (Manner.keyword.binder t' b') := by
  obtain ⟨fs', inLoop, hall, hmark, _, _, hcases⟩ := h.exists_object
  have hkeeps : KeepsMark (.obj m fs) t' := fun k hk => hmark.trans hk
  have hkind : ∀ s, ((Tree.obj m fs').get "kind").isStr s = ((Tree.obj m fs).get "kind").isStr s :=
    (lookup_of_forall₂ hall).resembles.isStr
  rcases hcases with rfl | ⟨hblock, hkept, rfl⟩
  · exact binderLike_keyword hkeeps hkind b b'
  · -- The keyword was `let` or `const`, and is `var` now.
    have hvar : ((withDeclarators inLoop (.obj m fs')).set "kind" (.str "var")).get "kind" =
        .str "var" := get_set_self (isObject_withDeclarators inLoop _) _ _
    have hmoves : (declaringChange kept).moves (Tree.obj m fs).mark? := by
      intro k hk
      have hmk : m = some k := hk
      simpa [isKept, mark?, hmk] using hkept
    rw [isBlockDeclaration, Bool.and_eq_true, Bool.or_eq_true, hkind, hkind] at hblock
    have hnew : Manner.keyword.binder ((withDeclarators inLoop (.obj m fs')).set "kind" (.str "var"))
        b' = ⟨.var, true, (withDeclarators inLoop (.obj m fs')).set "kind" (.str "var")⟩ := by
      rw [Manner.binder, hvar]
      rfl
    rw [hnew]
    rcases hblock.2 with hlet | hconst
    · have hold : Manner.keyword.binder (.obj m fs) b = ⟨.let, false, .obj m fs⟩ := by
        rw [Manner.binder, get_of_isStr hlet]
        rfl
      rw [hold]
      exact ⟨hkeeps, .inr ⟨rfl, rfl, rfl, rfl, hmoves⟩⟩
    · have hold : Manner.keyword.binder (.obj m fs) b = ⟨.const, false, .obj m fs⟩ := by
        rw [Manner.binder, get_of_isStr hconst]
        rfl
      rw [hold]
      exact ⟨hkeeps, .inr ⟨rfl, rfl, rfl, rfl, hmoves⟩⟩

theorem Visited.headLike (h : Visited kept (.obj m fs) t') :
    HeadLike (declaringChange kept) (.obj m fs) t' := by
  obtain ⟨fs', _, hall, _, _, hget, _⟩ := h.exists_object
  have hkeys : ∀ key ∈ shownKeys, key ≠ "kind" ∧ key ≠ "declarations" := by decide
  refine headLike_of_resembles h.resembles.mark (fun key hkey => ?_) h.keyword
  rw [hget key (hkeys key hkey).1 (hkeys key hkey).2]
  exact (lookup_of_forall₂ hall).resembles

/-- What becomes of a node takes the same steps, and has fields alike. -/
theorem Visited.like (h : Visited kept (.obj m fs) t') : ∃ m' fs', t' = .obj m' fs' ∧
      HeadLike (declaringChange kept) (.obj m fs) (.obj m' fs') ∧
      FieldsLike (Declared kept) fs fs' := by
  have hhead := h.headLike
  obtain ⟨fs', inLoop, hall, hmark, _, _, rfl | ⟨hblock, _, rfl⟩⟩ := h.exists_object
  · exact ⟨m, fs', rfl, hhead, fieldsLike_of_forall₂ hall⟩
  · have hkind : ∃ s, lookup "kind" fs = some (.str s) := by
      rw [isBlockDeclaration, Bool.and_eq_true, Bool.or_eq_true] at hblock
      have hstr : ∃ s, (Tree.obj m fs').get "kind" = .str s :=
        hblock.2.elim (fun h => ⟨_, get_of_isStr h⟩) fun h => ⟨_, get_of_isStr h⟩
      obtain ⟨s, hs⟩ := hstr
      obtain ⟨v, hv, hvisited⟩ := exists_lookup_of_forall₂ hall (lookup_of_get hs rfl)
      have hscalar := (Declared.visited hvisited).scalar_of_scalar rfl
      rw [← hvisited.scalar hscalar] at hv
      exact ⟨s, hv⟩
    obtain ⟨s, hs⟩ := hkind
    have hdeclarators : ∃ fs'', withDeclarators inLoop (.obj m fs') = .obj m fs'' ∧
        FieldsLike (Declared kept) fs fs'' := by
      rw [withDeclarators]
      split
      · rename_i hcond
        rw [Bool.and_eq_true] at hcond
        obtain ⟨xs', hxs'⟩ : ∃ xs', (Tree.obj m fs').get "declarations" = .list xs' := by
          cases hget : (Tree.obj m fs').get "declarations" with
          | list xs' => exact ⟨xs', rfl⟩
          | null | bool _ | int _ | real _ | str _ | obj _ _ => rw [hget] at hcond; cases hcond.2
        obtain ⟨v, hv, hvisited⟩ := exists_lookup_of_forall₂ hall (lookup_of_get hxs' rfl)
        obtain ⟨xs, rfl, hxs⟩ := hvisited.list_of_list
        refine ⟨_, rfl, fieldsLike_insert ?_ rfl (by decide) (fieldsLike_of_forall₂ hall) hv⟩
        rw [children, hxs', items]
        exact .declarators hxs
      · exact ⟨fs', rfl, fieldsLike_of_forall₂ hall⟩
    obtain ⟨fs'', heq, hlike⟩ := hdeclarators
    rw [heq] at hhead ⊢
    exact ⟨m, _, rfl, hhead, fieldsLike_insert (.scalar rfl rfl) rfl (by decide) hlike hs⟩

/-- A declarator that starts undefined takes the same steps, and has fields alike. -/
theorem like_resetDeclarator {m' : Option Nat}
    (hhead : HeadLike (declaringChange kept) (.obj m fs) (.obj m' fs'))
    (hfields : FieldsLike (Declared kept) fs fs') :
    ∃ m'' fs'', resetDeclarator (.obj m' fs') = .obj m'' fs'' ∧
      HeadLike (declaringChange kept) (.obj m fs) (.obj m'' fs'') ∧
      FieldsLike (Declared kept) fs fs'' := by
  rw [resetDeclarator]
  split
  · rename_i hcond
    rw [Bool.and_eq_true] at hcond
    have hkeys : ∀ key ∈ "kind" :: shownKeys, key ≠ "init" := by decide
    refine ⟨m', _, rfl, hhead.congr rfl fun key hkey => ?_, fieldsLike_insert_init hfields hcond.1⟩
    exact get_set_of_ne (hkeys key hkey) (.obj m' fs') voidZero
  · exact ⟨m', fs', rfl, hhead, hfields⟩

/-- **A tree and what becomes of it.** -/
theorem isSimulation_declared (kept : List Nat) : IsSimulation (declaringChange kept) (Declared kept) where
  scalar := by
    intro t t' h hscalar
    cases h with
    | scalar _ h' => exact h'
    | visited h => rwa [h.scalar hscalar]
    | reset h =>
      rw [h.scalar hscalar]
      cases t with
      | list _ | obj _ _ => cases hscalar
      | null | bool _ | int _ | real _ | str _ => rfl
    | declarators _ => cases hscalar
  list := by
    intro xs t' h
    cases h with
    | scalar hscalar _ => cases hscalar
    | visited h =>
      obtain ⟨xs', rfl, hall⟩ := h.list
      exact ⟨xs', rfl, hall.imp fun _ _ => .visited⟩
    | @reset _ u h =>
      obtain ⟨xs', rfl, hall⟩ := h.list
      exact ⟨xs', rfl, hall.imp fun _ _ => .visited⟩
    | declarators hall =>
      refine ⟨_, rfl, ?_⟩
      rw [List.forall₂_map_right_iff]
      exact hall.imp fun _ _ => .reset
  object := by
    intro m fs t' h
    cases h with
    | scalar hscalar _ => cases hscalar
    | visited h => exact h.like
    | @reset _ u h =>
      obtain ⟨m', fs', rfl, hhead, hfields⟩ := h.like
      exact like_resetDeclarator hhead hfields

theorem programAlike_declareVars (h : declareVars kept t = .ok t') :
    ProgramAlike (declaringChange kept) (Declared kept) t t' := by
  obtain ⟨u, hu, hvisited⟩ := exists_declareVars kept t
  cases hu.symm.trans h
  have hresembles := hvisited.resembles
  refine ⟨hresembles.mark, ?_, ?_⟩
  · cases t with
    | obj m fs =>
      obtain ⟨fs', _, hall, _, _, hget, _⟩ := hvisited.exists_object
      rw [hget "sourceType" (by decide) (by decide)]
      exact (lookup_of_forall₂ hall).resembles.isStr "module"
    | list xs =>
      obtain ⟨xs', rfl, _⟩ := hvisited.list
      rfl
    | null | bool _ | int _ | real _ | str _ => rw [hvisited.scalar rfl]
  · cases t with
    | obj m fs =>
      obtain ⟨m', fs', rfl, _, hfields⟩ := hvisited.like
      exact hfields
    | list xs =>
      obtain ⟨xs', rfl, _⟩ := hvisited.list
      exact .nil
    | null | bool _ | int _ | real _ | str _ =>
      rw [hvisited.scalar rfl]
      exact .nil

end

end Downlevel.Lower.Block
