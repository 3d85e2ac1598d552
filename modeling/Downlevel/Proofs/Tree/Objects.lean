import Downlevel.Proofs.Tree.Fields
import Downlevel.Proofs.Tree.Mark
import Downlevel.Proofs.Tree.Walk
import Downlevel.Tree.Query

/-!
# `Proofs.Tree.Objects`: the objects of a tree

A walk lists the nodes of a tree; here all objects are listed, nodes or not, places in the text apart. In
a tree whose other objects hold no nodes, the two come to the same.
-/

namespace Downlevel.Tree

variable {t o : Tree} {key : String}

/-! ## Objects -/

mutual

/-- The objects of a tree, outer ones first. -/
def objects : Tree → List Tree
  | .list xs => objectsOfItems xs
  | .obj m fs => .obj m fs :: objectsOfFields fs
  | _ => []

def objectsOfItems : List Tree → List Tree
  | [] => []
  | t :: rest => objects t ++ objectsOfItems rest

def objectsOfFields : List (String × Tree) → List Tree
  | [] => []
  | (k, v) :: rest => (if isPlaceKey k then [] else objects v) ++ objectsOfFields rest

end

theorem objects_of_isScalar (h : isScalar t) : t.objects = [] := by
  cases t with
  | obj m fs | list xs => cases h
  | _ => rfl

theorem objectsOfItems_eq (xs : List Tree) : objectsOfItems xs = xs.flatMap objects := by
  induction xs with
  | nil => rfl
  | cons x xs ih => rw [objectsOfItems, List.flatMap_cons, ih]

theorem mem_objectsOfFields {fs : Fields} :
    o ∈ objectsOfFields fs ↔ ∃ f ∈ fs, isPlaceKey f.1 = false ∧ o ∈ objects f.2 := by
  induction fs with
  | nil => simp [objectsOfFields]
  | cons f fs ih =>
    obtain ⟨k, v⟩ := f
    rw [objectsOfFields, List.mem_append, ih]
    cases hk : isPlaceKey k <;> simp [hk]

theorem isSyntaxKey_of_isPlaceKey (h : isPlaceKey key) : isSyntaxKey key = false := by
  rw [isPlaceKey, Bool.or_eq_true, decide_eq_true_eq, decide_eq_true_eq] at h
  rcases h with rfl | rfl <;> rfl

/-- What holds however the place of a node is written holds of a node that takes one over. -/
theorem located_of {P : Tree → Prop} {t : Tree} (h : P t)
    (hset : ∀ {u : Tree} (key : String) (v : Tree), isPlaceKey key → P u → P (u.set key v)) (place : Tree) :
    P (Node.located t place) := by
  unfold Node.located
  split <;> split
  · exact hset _ _ rfl (hset _ _ rfl h)
  · exact hset _ _ rfl h
  · exact hset _ _ rfl h
  · exact h

theorem isPlaceKey_of_isSyntaxKey (h : isSyntaxKey key) : isPlaceKey key = false := by
  cases hplace : isPlaceKey key with
  | false => rfl
  | true =>
    rw [isSyntaxKey_of_isPlaceKey hplace] at h
    cases h

/-- The objects of a field are objects of the whole. -/
theorem mem_objects_get (hkey : isPlaceKey key = false) (h : o ∈ (t.get key).objects) : o ∈ t.objects := by
  cases t with
  | obj m fs =>
    rw [get] at h
    cases hl : (Tree.obj m fs).get? key with
    | none =>
      rw [hl] at h
      cases h
    | some v =>
      rw [hl] at h
      exact List.mem_cons_of_mem _ (mem_objectsOfFields.mpr ⟨(key, v), mem_of_lookup_eq_some hl, hkey, h⟩)
  | _ => cases h

/-- The objects of an item are objects of the list. -/
theorem mem_objects_items {xs : List Tree} (hx : t ∈ xs) (h : o ∈ t.objects) :
    o ∈ (Tree.list xs).objects := by
  rw [objects, objectsOfItems_eq]
  exact List.mem_flatMap.mpr ⟨t, hx, h⟩

theorem self_mem_objects (h : t.isObject) : t ∈ t.objects := by
  cases t with
  | obj m fs => exact List.mem_cons_self
  | _ => cases h

mutual

/-- The marks of a tree are those of its objects. -/
theorem filterMap_mark?_objects : ∀ t : Tree, t.objects.filterMap mark? = t.marks
  | .list xs => filterMap_mark?_objectsOfItems xs
  | .obj m fs => by
    rw [objects, marks, List.filterMap_cons, ← filterMap_mark?_objectsOfFields fs]
    cases m <;> rfl
  | .null | .bool _ | .int _ | .real _ | .str _ => rfl

theorem filterMap_mark?_objectsOfItems : ∀ xs : List Tree,
    (objectsOfItems xs).filterMap mark? = marksOfItems xs
  | [] => rfl
  | t :: rest => by
    rw [objectsOfItems, marksOfItems, List.filterMap_append, filterMap_mark?_objects t,
      filterMap_mark?_objectsOfItems rest]

theorem filterMap_mark?_objectsOfFields : ∀ fs : Fields,
    (objectsOfFields fs).filterMap mark? = marksOfFields fs
  | [] => rfl
  | (k, v) :: rest => by
    rw [objectsOfFields, marksOfFields, List.filterMap_append, filterMap_mark?_objectsOfFields rest]
    split
    · rfl
    · rw [filterMap_mark?_objects v]

end

mutual

/-- The objects of a marked tree have marks. -/
theorem isSome_mark?_of_isMarked : ∀ t : Tree, t.IsMarked → ∀ o ∈ t.objects, (o.mark?).isSome = true
  | .list xs, h, o, ho => isSome_mark?_of_itemsMarked xs h o ho
  | .obj m fs, h, o, ho => by
    rcases List.mem_cons.mp ho with rfl | ho
    · exact h.1
    · exact isSome_mark?_of_fieldsMarked fs h.2 o ho
  | .null, _, _, ho | .bool _, _, _, ho | .int _, _, _, ho | .real _, _, _, ho
  | .str _, _, _, ho => nomatch ho

theorem isSome_mark?_of_itemsMarked : ∀ xs : List Tree, ItemsMarked xs →
    ∀ o ∈ objectsOfItems xs, (o.mark?).isSome = true
  | [], _, _, ho => nomatch ho
  | t :: rest, h, o, ho => by
    rcases List.mem_append.mp ho with ho | ho
    · exact isSome_mark?_of_isMarked t h.1 o ho
    · exact isSome_mark?_of_itemsMarked rest h.2 o ho

theorem isSome_mark?_of_fieldsMarked : ∀ fs : Fields, FieldsMarked fs →
    ∀ o ∈ objectsOfFields fs, (o.mark?).isSome = true
  | [], _, _, ho => nomatch ho
  | (k, v) :: rest, h, o, ho => by
    rcases List.mem_append.mp ho with ho | ho
    · split at ho
      · cases ho
      · rename_i hplace
        exact isSome_mark?_of_isMarked v (h.1 (Bool.not_eq_true _ ▸ hplace)) o ho
    · exact isSome_mark?_of_fieldsMarked rest h.2 o ho

end

/-- What is found once is found in one place. -/
theorem eq_of_count_filterMap {α : Type} {f : α → Option Nat} {xs : List α} {x y : α} {m : Nat}
    (h : (xs.filterMap f).count m ≤ 1) (hx : x ∈ xs) (hy : y ∈ xs) (hfx : f x = some m)
    (hfy : f y = some m) : x = y := by
  obtain ⟨before, after, hsplit⟩ := List.append_of_mem hx
  rw [hsplit] at h hy
  rw [List.filterMap_append, List.filterMap_cons, hfx, List.count_append, List.count_cons_self] at h
  have hnone : ∀ zs : List α, (zs.filterMap f).count m = 0 → y ∉ zs := fun zs hzs hin =>
    List.count_eq_zero.mp hzs (List.mem_filterMap.mpr ⟨y, hin, hfy⟩)
  rcases List.mem_append.mp hy with hin | hin
  · exact absurd hin (hnone before (by omega))
  · rcases List.mem_cons.mp hin with heq | hin
    · exact heq.symm
    · exact absurd hin (hnone after (by omega))

/-- Objects with the same mark are the same, if the mark is used once. -/
theorem eq_of_mark? {o' : Tree} {m : Nat} (h : t.marks.count m ≤ 1) (ho : o ∈ t.objects)
    (ho' : o' ∈ t.objects) (hm : o.mark? = some m) (hm' : o'.mark? = some m) : o = o' := by
  rw [← filterMap_mark?_objects] at h
  exact eq_of_count_filterMap h ho ho' hm hm'

/-! ## The names of patterns -/

theorem boundInField_eq (part : PatternPart) (key : String) (m : Option Nat) (fs : Fields) :
    boundInField part key fs = boundBy part ((Tree.obj m fs).get key) := by
  rw [get, get?, fields]
  induction fs with
  | nil => rfl
  | cons f rest ih =>
    rw [boundInField, lookup]
    split
    · rfl
    · exact ih

theorem boundByItems_eq (part : PatternPart) (xs : List Tree) :
    boundByItems part xs = xs.flatMap (boundBy part) := by
  induction xs with
  | nil => rfl
  | cons x xs ih => rw [boundByItems, List.flatMap_cons, ih]

/-- Patterns bind identifiers that they contain. -/
theorem mem_objects_of_boundBy {i : Tree} : ∀ {part : PatternPart}, i ∈ boundBy part t →
    i ∈ t.objects ∧ i.type? = some "Identifier" := by
  induction t using inductionOnParts with
  | scalar t hscalar =>
    intro part h
    cases t with
    | obj m fs | list xs => cases hscalar
    | _ => cases h
  | list xs ih =>
    intro part h
    obtain ⟨x, part', hx, h⟩ : ∃ x part', x ∈ xs ∧ i ∈ boundBy part' x := by
      cases part with
      | elements | properties =>
        rw [boundBy, boundByItems_eq] at h
        obtain ⟨x, hx, h⟩ := List.mem_flatMap.mp h
        exact ⟨x, _, hx, h⟩
      | pattern | property => cases h
    exact (ih x hx h).imp_left (mem_objects_items hx)
  | obj m fs ih =>
    intro part h
    have hfield : ∀ {part key}, isPlaceKey key = false → i ∈ boundInField part key fs →
        i ∈ (Tree.obj m fs).objects ∧ i.type? = some "Identifier" := by
      intro part key hkey hi
      rw [boundInField_eq part key m] at hi
      rcases get_eq_null_or_mem m fs key with hnull | hmem
      · rw [hnull] at hi
        cases hi
      · exact (ih _ hmem hi).imp_left (mem_objects_get hkey)
    cases part with
    | pattern =>
      rw [boundBy] at h
      split at h
      · rename_i htype
        rw [List.mem_singleton.mp h]
        exact ⟨List.mem_cons_self, htype⟩
      · exact hfield rfl h
      · exact hfield rfl h
      · exact hfield rfl h
      · exact hfield rfl h
      · cases h
    | property =>
      rw [boundBy] at h
      split at h
      · exact hfield rfl h
      · exact hfield rfl h
    | elements | properties => cases h

/-! ## Laws of all objects -/

mutual

/-- Every object of the tree obeys the law, those in places of the text included. -/
def Everywhere (law : Tree → Prop) : Tree → Prop
  | .list xs => ItemsEverywhere law xs
  | .obj m fs => law (.obj m fs) ∧ FieldsEverywhere law fs
  | _ => True

def ItemsEverywhere (law : Tree → Prop) : List Tree → Prop
  | [] => True
  | t :: rest => Everywhere law t ∧ ItemsEverywhere law rest

def FieldsEverywhere (law : Tree → Prop) : List (String × Tree) → Prop
  | [] => True
  | (_, v) :: rest => Everywhere law v ∧ FieldsEverywhere law rest

end

theorem fieldsEverywhere_iff {law : Tree → Prop} {fs : Fields} :
    FieldsEverywhere law fs ↔ ∀ f ∈ fs, f.2.Everywhere law := by
  induction fs with
  | nil => simp [FieldsEverywhere]
  | cons f rest ih => simp [FieldsEverywhere, ih]

theorem Everywhere.get {law : Tree → Prop} (h : t.Everywhere law) (key : String) :
    (t.get key).Everywhere law := by
  rw [Tree.get]
  cases hv : t.get? key with
  | none => trivial
  | some v =>
    cases t with
    | obj m fs => exact fieldsEverywhere_iff.mp h.2 (key, v) (mem_of_lookup_eq_some hv)
    | _ => cases hv

theorem itemsEverywhere_iff {law : Tree → Prop} {ts : List Tree} :
    ItemsEverywhere law ts ↔ ∀ t ∈ ts, t.Everywhere law := by
  induction ts with
  | nil => simp [ItemsEverywhere]
  | cons t rest ih => simp [ItemsEverywhere, ih]

theorem Everywhere.children {law : Tree → Prop} {key : String} (h : t.Everywhere law) :
    ∀ c ∈ t.children key, c.Everywhere law := by
  have hget := h.get key
  rw [Tree.children]
  cases hv : t.get key with
  | list ts =>
    rw [hv] at hget
    exact itemsEverywhere_iff.mp hget
  | _ => exact List.forall_mem_nil _

/-! ## Nodes among them -/

/-- Is an object a node, or else without further objects inside? -/
def isNodal (t : Tree) : Bool :=
  (t.isNode || (objectsOfFields t.fields).isEmpty) &&
    t.fields.all fun f => f.1 != "type" || f.2.objects.isEmpty

theorem mem_partNodes_of_mem_objects (ho : o.isNode) (h : ∀ x ∈ t.objects, x.isNodal)
    (hmem : o ∈ t.objects) : o ∈ partNodes [] t := by
  induction t using inductionOnParts with
  | scalar t hscalar =>
    rw [objects_of_isScalar hscalar] at hmem
    cases hmem
  | list xs ih =>
    rw [objects, objectsOfItems_eq] at h hmem
    obtain ⟨x, hx, hmem⟩ := List.mem_flatMap.mp hmem
    rw [partNodes_list]
    exact List.mem_flatMap.mpr ⟨x, hx, ih x hx (fun y hy => h y (List.mem_flatMap.mpr ⟨x, hx, hy⟩)) hmem⟩
  | obj m fs ih =>
    have hself := h _ List.mem_cons_self
    rw [isNodal, Bool.and_eq_true, Bool.or_eq_true, List.isEmpty_iff, List.all_eq_true] at hself
    rw [partNodes_obj]
    rcases List.mem_cons.mp hmem with heq | hin
    · rw [← heq]
      simp [ho, isTypeIn]
    · have hnode : (Tree.obj m fs).isNode := by
        refine hself.1.resolve_right fun hnil => ?_
        rw [fields] at hnil
        rw [hnil] at hin
        cases hin
      obtain ⟨f, hf, hplace, hin⟩ := mem_objectsOfFields.mp hin
      -- The field is neither a place nor the type, so it holds syntax.
      have hwritten : isSyntaxKey f.1 := by
        have hne : f.1 ≠ "type" := by
          intro htype
          have hempty := hself.2 f hf
          rw [htype, bne_self_eq_false, Bool.false_or, List.isEmpty_iff] at hempty
          rw [hempty] at hin
          cases hin
        simp only [isPlaceKey, Bool.or_eq_false_iff, decide_eq_false_iff_not] at hplace
        simp [isSyntaxKey, skippedKeys, hne, hplace.1, hplace.2]
      simp only [hnode, Bool.not_true, Bool.false_eq_true, if_false, isTypeIn, List.any_nil]
      refine List.mem_cons_of_mem _ (List.mem_flatMap.mpr ⟨f, List.mem_filter.mpr ⟨hf, hwritten⟩, ?_⟩)
      exact ih f hf (fun x hx =>
        h x (List.mem_cons_of_mem _ (mem_objectsOfFields.mpr ⟨f, hf, hplace, hx⟩))) hin

/-- **Objects that are nodes are listed by the walk.** -/
theorem mem_nodes_of_mem_objects (h : ∀ x ∈ t.objects, x.isNodal) (ho : o ∈ t.objects)
    (hnode : o.isNode) : o ∈ t.nodes := by
  rw [← partNodes_nil]
  exact mem_partNodes_of_mem_objects hnode h ho

end Downlevel.Tree
