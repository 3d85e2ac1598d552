import Downlevel.Proofs.Grammar.Children

/-!
# `Proofs.Grammar.Remake`: trees made anew

A tree is made anew from its leaves: the children of a node are made anew, each in a context that depends on
the node and on the field, and then the node is finished. Fields without a context stay as they are. A visit
that keeps every node does just this, as far as it does not depend on a state.
-/

namespace Downlevel

open Node

namespace Tree

/-! ## Functions on children -/

/-- A value with a function applied to the nodes in it. -/
def mapNodes (f : Tree → Tree) : Tree → Tree
  | .list xs => .list (xs.map fun y => if y.isNode then f y else y)
  | .obj m fs => if (Tree.obj m fs).isNode then f (.obj m fs) else .obj m fs
  | v => v

/-- A node with a function applied to its children. -/
def mapChildren (f : String → Tree → Tree) : Tree → Tree
  | .obj m fs =>
    .obj m (fs.map fun g => (g.1, if isSyntaxKey g.1 then mapNodes (f g.1) g.2 else g.2))
  | t => t

section

variable {f g : Tree → Tree} {v : Tree}

theorem mapNodes_of_not_visited (h : isVisited v = false) : mapNodes f v = v := by
  rw [isVisited, Bool.or_eq_false_iff] at h
  cases v with
  | list xs => cases h.2
  | obj m fs => exact if_neg (by simp [h.1])
  | _ => rfl

theorem mapNodes_of_isNode (h : v.isNode) : mapNodes f v = f v := by
  cases v with
  | obj m fs => exact if_pos h
  | _ => cases h

theorem nodesIn_of_isNode (h : v.isNode) : nodesIn v = [v] := by
  have hitems : v.items = [] := by
    cases v <;> first | rfl | cases h
  rw [nodesIn, hitems, List.filter_singleton, h]
  rfl

theorem nodesIn_list (xs : List Tree) : nodesIn (.list xs) = xs.filter (·.isNode) := rfl

theorem mapNodes_congr (h : ∀ y ∈ nodesIn v, f y = g y) : mapNodes f v = mapNodes g v := by
  cases hnode : v.isNode with
  | true =>
    rw [mapNodes_of_isNode hnode, mapNodes_of_isNode hnode]
    exact h v (by rw [nodesIn_of_isNode hnode]; exact List.mem_singleton_self _)
  | false =>
    cases v with
    | list xs =>
      refine congrArg Tree.list (List.map_congr_left fun y hy => ?_)
      split
      · rename_i hnode
        exact h y (mem_nodesIn.mpr ⟨.inr hy, hnode⟩)
      · rfl
    | obj m fs => exact (if_neg (by simp [hnode])).trans (if_neg (by simp [hnode])).symm
    | _ => rfl

theorem map_eq_self {α : Type} {f : α → α} {xs : List α} (h : xs.map f = xs) : ∀ x ∈ xs, f x = x :=
  List.map_inj_left.mp (h.trans (List.map_id xs).symm)

theorem mapNodes_id : mapNodes (fun y => y) v = v := by
  cases v with
  | list xs => simp [mapNodes]
  | obj m fs => exact ite_self _
  | _ => rfl

/-- A function leaves a value alone exactly if it leaves the nodes in it alone. -/
theorem mapNodes_eq_self_iff : mapNodes f v = v ↔ ∀ y ∈ nodesIn v, f y = y := by
  constructor
  · intro h
    cases hnode : v.isNode with
    | true =>
      rw [mapNodes_of_isNode hnode] at h
      rw [nodesIn_of_isNode hnode]
      exact List.forall_mem_singleton.mpr h
    | false =>
      cases v with
      | list xs =>
        intro y hy
        rw [nodesIn_list] at hy
        obtain ⟨hy, hnode⟩ := List.mem_filter.mp hy
        have hmap := map_eq_self (Tree.list.inj h) y hy
        rwa [if_pos hnode] at hmap
      | _ =>
        intro y hy
        obtain ⟨rfl | hy, hyn⟩ := mem_nodesIn.mp hy
        · rw [hnode] at hyn
          cases hyn
        · cases hy
  · intro h
    exact (mapNodes_congr h).trans mapNodes_id

/-- The nodes in a value, once a function is applied to them. -/
theorem nodesIn_mapNodes (h : ∀ y ∈ nodesIn v, (f y).isNode) :
    nodesIn (mapNodes f v) = (nodesIn v).map f := by
  cases hnode : v.isNode with
  | true =>
    rw [nodesIn_of_isNode hnode] at h ⊢
    rw [mapNodes_of_isNode hnode, nodesIn_of_isNode (h v (List.mem_singleton_self _))]
    rfl
  | false =>
    cases v with
    | list xs =>
      rw [mapNodes, nodesIn_list, nodesIn_list]
      rw [nodesIn_list] at h
      induction xs with
      | nil => rfl
      | cons x xs ih =>
        rw [List.map_cons, List.filter_cons, List.filter_cons]
        cases hx : x.isNode with
        | true =>
          rw [List.filter_cons, hx, if_pos rfl, List.forall_mem_cons] at h
          rw [if_pos rfl, if_pos rfl, if_pos h.1, List.map_cons, ih h.2 rfl]
        | false =>
          rw [List.filter_cons, hx, if_neg Bool.false_ne_true] at h
          rw [if_neg Bool.false_ne_true, hx, if_neg Bool.false_ne_true, if_neg Bool.false_ne_true, ih h rfl]
    | _ =>
      rw [mapNodes_of_not_visited (by rw [isVisited, hnode]; rfl), nodesIn, items,
        List.filter_singleton, hnode]
      · rfl
      · intro _ h
        cases h

end

section

variable {f g : String → Tree → Tree} {t : Tree}

theorem mapChildren_congr (h : ∀ p ∈ t.childNodes, f p.1 p.2 = g p.1 p.2) :
    mapChildren f t = mapChildren g t := by
  cases t with
  | obj m fs =>
    refine congrArg (Tree.obj m) (List.map_congr_left fun field hfield => ?_)
    split
    · rename_i hk
      refine congrArg (Prod.mk field.1) (mapNodes_congr fun y hy => ?_)
      exact h (field.1, y) (mem_childNodes.mpr ⟨field.2, hfield, hk, hy⟩)
    · rfl
  | _ => rfl

theorem mapChildren_id : mapChildren (fun _ y => y) t = t := by
  cases t with
  | obj m fs => simp [mapChildren, mapNodes_id]
  | _ => rfl

/-- **A function leaves a node alone exactly if it leaves its children alone.** -/
theorem mapChildren_eq_self_iff : mapChildren f t = t ↔ ∀ p ∈ t.childNodes, f p.1 p.2 = p.2 := by
  constructor
  · intro h p hp
    obtain ⟨v, hv, hk, hy⟩ := mem_childNodes.mp hp
    cases t with
    | obj m fs =>
      have hfields := map_eq_self (Tree.obj.inj h).2 _ hv
      rw [if_pos hk] at hfields
      exact mapNodes_eq_self_iff.mp (Prod.mk.inj hfields).2 _ hy
    | _ => cases hv
  · intro h
    exact (mapChildren_congr h).trans mapChildren_id

/-- The children of a node, once a function is applied to them. -/
theorem childNodes_mapChildren (h : ∀ p ∈ t.childNodes, (f p.1 p.2).isNode) :
    (mapChildren f t).childNodes = t.childNodes.map fun p => (p.1, f p.1 p.2) := by
  cases t with
  | obj m fs =>
    have hfields : ∀ gs : Fields, (∀ field ∈ gs, field ∈ fs) →
        ((gs.map fun g => (g.1, if isSyntaxKey g.1 then mapNodes (f g.1) g.2 else g.2)).filter
          (isSyntaxKey ·.1)).flatMap (fun g => (nodesIn g.2).map fun y => (g.1, y)) =
        ((gs.filter (isSyntaxKey ·.1)).flatMap fun g => (nodesIn g.2).map fun y => (g.1, y)).map
          fun p => (p.1, f p.1 p.2) := by
      intro gs hgs
      induction gs with
      | nil => rfl
      | cons field gs ih =>
        rw [List.forall_mem_cons] at hgs
        rw [List.map_cons, List.filter_cons, List.filter_cons]
        cases hk : isSyntaxKey field.1 with
        | true =>
          have hnodes : ∀ y ∈ nodesIn field.2, (f field.1 y).isNode := fun y hy =>
            h (field.1, y) (mem_childNodes.mpr ⟨field.2, hgs.1, hk, hy⟩)
          simp only [if_true, List.flatMap_cons, List.map_append, ih hgs.2,
            nodesIn_mapNodes hnodes, List.map_map]
          rfl
        | false => simpa only [Bool.false_eq_true, if_false] using ih hgs.2
    exact hfields fs fun _ => id
  | _ => rfl

theorem get?_mapChildren (key : String) : (mapChildren f t).get? key =
    (t.get? key).map fun v => if isSyntaxKey key then mapNodes (f key) v else v := by
  cases t with
  | obj m fs =>
    show lookup key (fs.map _) = (lookup key fs).map _
    induction fs with
    | nil => rfl
    | cons field fs ih =>
      rw [List.map_cons, lookup, lookup]
      split
      · rename_i heq
        rw [heq]
        rfl
      · exact ih
  | _ => rfl

theorem get_mapChildren {k : String} (hk : isSyntaxKey k) :
    (mapChildren f t).get k = mapNodes (f k) (t.get k) := by
  rw [get, get, get?_mapChildren]
  cases t.get? k with
  | none => rfl
  | some v => exact if_pos hk

@[simp] theorem type?_mapChildren : (mapChildren f t).type? = t.type? := by
  rw [type?, type?, get, get, get?_mapChildren]
  have hkey : isSyntaxKey "type" = false := by decide
  simp [hkey]

theorem isObject_mapChildren : (mapChildren f t).isObject = t.isObject := by
  cases t <;> rfl

end

/-! ## Children of nodes that are written -/

section

variable {t v : Tree} {key : String} {p : String × Tree}

/-- The children of a node with a field written. -/
theorem mem_childNodes_set (h : p ∈ (t.set key v).childNodes) :
    p ∈ t.childNodes ∨ p.1 = key ∧ p.2 ∈ nodesIn v := by
  cases t with
  | obj m fs =>
    obtain ⟨w, hw, hk, hy⟩ := mem_childNodes.mp h
    rcases Grammar.mem_insert hw with heq | hw
    · obtain ⟨rfl, rfl⟩ := Prod.mk.inj heq
      exact .inr ⟨rfl, hy⟩
    · exact .inl (mem_childNodes.mpr ⟨w, hw, hk, hy⟩)
  | _ => exact .inl h

theorem filter_insert (hk : isSyntaxKey key = false) (fs : Fields) :
    (insert key v fs).filter (isSyntaxKey ·.1) = fs.filter (isSyntaxKey ·.1) := by
  induction fs with
  | nil => simp [insert, hk]
  | cons g rest ih =>
    rw [insert]
    split
    · rename_i hkey
      have hg : isSyntaxKey g.1 = false := by rw [hkey, hk]
      rw [List.filter_cons, List.filter_cons, hg]
      rfl
    · rw [List.filter_cons, List.filter_cons, ih]

theorem childNodes_set_of_not_syntaxKey (hk : isSyntaxKey key = false) :
    (t.set key v).childNodes = t.childNodes := by
  cases t with
  | obj m fs =>
    unfold childNodes
    exact congrArg (List.flatMap _) (filter_insert hk fs)
  | _ => rfl

/-- Where a node stands says nothing about its children. -/
theorem childNodes_located (place : Tree) : (located t place).childNodes = t.childNodes :=
  located_of (P := fun u => u.childNodes = t.childNodes) rfl (fun _ _ hkey h =>
    (childNodes_set_of_not_syntaxKey (isSyntaxKey_of_isPlaceKey hkey)).trans h) place

/-- The children of a new node. -/
theorem mem_childNodes_make {type : String} {fs : Fields} {place : Tree}
    (h : p ∈ (located (make type fs) place).childNodes) : ∃ v, (p.1, v) ∈ fs ∧ p.2 ∈ nodesIn v := by
  rw [childNodes_located] at h
  obtain ⟨v, hv, hk, hy⟩ := mem_childNodes.mp h
  rcases List.mem_cons.mp hv with heq | hv
  · obtain ⟨hkey, -⟩ := Prod.mk.inj heq
    rw [hkey] at hk
    cases hk
  · exact ⟨v, hv, hy⟩

end

/-! ## Trees made anew -/

section

variable {C : Type} (contexts : C → Tree → String → Option C) (finish : C → Tree → Tree → Tree)

mutual

/-- A value made anew: its nodes are finished once their children are made anew. -/
def remake (c : C) : Tree → Tree
  | .obj m fs =>
    finish c (.obj m fs) (.obj m (remakeFields (contexts c (.obj m fs)) fs))
  | .list xs => .list (remakeItems c xs)
  | .null => .null
  | .bool b => .bool b
  | .int n => .int n
  | .real d => .real d
  | .str s => .str s

def remakeFields (inside : String → Option C) : List (String × Tree) → List (String × Tree)
  | [] => []
  | (k, v) :: rest =>
    (k, match inside k with
      | some c => if isSyntaxKey k && isVisited v then remake c v else v
      | none => v) :: remakeFields inside rest

def remakeItems (c : C) : List Tree → List Tree
  | [] => []
  | t :: rest => (if t.isNode then remake c t else t) :: remakeItems c rest

end

/-- A child made anew, if its field has a context. -/
def remakeChild (inside : String → Option C) (key : String) (y : Tree) : Tree :=
  match inside key with
  | some c => remake contexts finish c y
  | none => y

variable {contexts finish}

theorem remakeItems_eq (c : C) (xs : List Tree) : remakeItems contexts finish c xs =
    xs.map fun y => if y.isNode then remake contexts finish c y else y := by
  induction xs with
  | nil => simp [remakeItems]
  | cons x xs ih => rw [remakeItems, ih, List.map_cons]

theorem remake_of_isVisited {c : C} {v : Tree} (h : isVisited v) :
    remake contexts finish c v = mapNodes (remake contexts finish c) v := by
  cases v with
  | list xs => rw [remake, remakeItems_eq, mapNodes]
  | obj m fs => rw [mapNodes_of_isNode (by simpa [isVisited, isList] using h)]
  | _ => cases h

theorem remakeFields_eq (inside : String → Option C) (m : Option Nat) (fs : Fields) :
    Tree.obj m (remakeFields contexts finish inside fs) =
      mapChildren (remakeChild contexts finish inside) (.obj m fs) := by
  refine congrArg (Tree.obj m) ?_
  induction fs with
  | nil => rw [remakeFields, List.map_nil]
  | cons f fs ih =>
    obtain ⟨k, v⟩ := f
    rw [remakeFields, ih, List.map_cons]
    refine congrArg (fun w => (k, w) :: _) ?_
    unfold remakeChild
    cases inside k with
    | none =>
      show v = if isSyntaxKey k then mapNodes (fun y => y) v else v
      rw [mapNodes_id, ite_self]
    | some c =>
      show (if isSyntaxKey k && isVisited v then remake contexts finish c v else v) =
        if isSyntaxKey k then mapNodes (fun y => remake contexts finish c y) v else v
      cases isSyntaxKey k with
      | false => rfl
      | true =>
        cases hv : isVisited v with
        | false => exact (mapNodes_of_not_visited hv).symm
        | true => exact remake_of_isVisited hv

/-- **A node is made anew from its children.** -/
theorem remake_eq {c : C} {t : Tree} (h : t.isObject) : remake contexts finish c t =
    finish c t (mapChildren (remakeChild contexts finish (contexts c t)) t) := by
  cases t with
  | obj m fs => rw [remake, remakeFields_eq]
  | _ => cases h

end

/-! ## Nodes on the way -/

section

variable {C : Type} (contexts : C → Tree → String → Option C) (kind : C → Tree → Bool)

mutual

/-- Is there a node of a kind in a value, where fields without a context are not looked at? -/
def meets (c : C) : Tree → Bool
  | .obj m fs => kind c (.obj m fs) || meetsFields (contexts c (.obj m fs)) fs
  | .list xs => meetsItems c xs
  | .null => false
  | .bool _ => false
  | .int _ => false
  | .real _ => false
  | .str _ => false

def meetsFields (inside : String → Option C) : List (String × Tree) → Bool
  | [] => false
  | (k, v) :: rest =>
    (match inside k with
      | some c => isSyntaxKey k && isVisited v && meets c v
      | none => false) || meetsFields inside rest

def meetsItems (c : C) : List Tree → Bool
  | [] => false
  | t :: rest => (t.isNode && meets c t) || meetsItems c rest

end

/-- Is there a node of a kind in a child, if its field has a context? -/
def meetsChild (inside : String → Option C) (p : String × Tree) : Bool :=
  match inside p.1 with
  | some c => meets contexts kind c p.2
  | none => false

variable {contexts kind}

theorem meetsItems_eq (c : C) (xs : List Tree) : meetsItems contexts kind c xs =
    (nodesIn (.list xs)).any (meets contexts kind c) := by
  rw [nodesIn_list]
  induction xs with
  | nil => rfl
  | cons x xs ih =>
    rw [meetsItems, ih, List.filter_cons]
    cases x.isNode <;> rfl

theorem meets_of_isVisited {c : C} {v : Tree} (h : isVisited v) :
    meets contexts kind c v = (nodesIn v).any (meets contexts kind c) := by
  cases v with
  | list xs => rw [meets, meetsItems_eq]
  | obj m fs =>
    rw [nodesIn_of_isNode (by simpa [isVisited, isList] using h), List.any_cons, List.any_nil,
      Bool.or_false]
  | _ => cases h

theorem nodesIn_of_not_visited {v : Tree} (h : isVisited v = false) : nodesIn v = [] := by
  rw [isVisited, Bool.or_eq_false_iff] at h
  cases v with
  | list xs => cases h.2
  | obj m fs =>
    rw [nodesIn, List.filter_cons, h.1]
    rfl
  | _ => rfl

theorem meetsFields_eq (inside : String → Option C) (m : Option Nat) (fs : Fields) :
    meetsFields contexts kind inside fs =
      (Tree.obj m fs).childNodes.any (meetsChild contexts kind inside) := by
  show _ = ((fs.filter (isSyntaxKey ·.1)).flatMap fun f => (nodesIn f.2).map fun y => (f.1, y)).any _
  induction fs with
  | nil => rw [meetsFields]; rfl
  | cons f fs ih =>
    obtain ⟨k, v⟩ := f
    rw [meetsFields, ih, List.filter_cons]
    cases hk : isSyntaxKey k with
    | false =>
      rw [if_neg Bool.false_ne_true]
      cases inside k <;> simp
    | true =>
      rw [if_pos rfl, List.flatMap_cons, List.any_append, List.any_map]
      congr 1
      unfold meetsChild
      simp only [Function.comp_def]
      cases inside k with
      | none => simp
      | some c =>
        cases hv : isVisited v with
        | false => simp [nodesIn_of_not_visited hv]
        | true => simpa using meets_of_isVisited hv

/-- **Nodes of a kind in a node** are the node itself, or in its children. -/
theorem meets_eq {c : C} {t : Tree} (h : t.isObject) : meets contexts kind c t =
    (kind c t || t.childNodes.any (meetsChild contexts kind (contexts c t))) := by
  cases t with
  | obj m fs => rw [meets, meetsFields_eq _ m]
  | _ => cases h

end
end Tree

namespace Grammar

open Tree

variable {labels : Labelling} {s : Symbol} {t : Tree} {f : String → Tree → Tree}

/-- A value whose nodes are replaced by nodes of the same symbol fits where it stood. -/
theorem refills_mapNodes {slot : Slot} {v : Tree} {g : Tree → Tree} (hv : fits labels slot v)
    (h : ∀ x y, slot.content? = some x → y ∈ nodesIn v → Derives labels x y → Derives labels x (g y)) :
    Refills labels slot v (mapNodes g v) := by
  have hone : ∀ {x}, slot.content? = some x → Derives labels x v → Derives labels x (mapNodes g v) := by
    intro x hx hd
    rw [mapNodes_of_isNode hd.isNode]
    exact h x v hx (by rw [nodesIn_of_isNode hd.isNode]; exact List.mem_singleton_self _) hd
  have hitem : ∀ {x : Symbol} {xs : List Tree} {y : Tree}, slot.content? = some x → v = .list xs →
      y ∈ xs → Derives labels x y → Derives labels x (if y.isNode then g y else y) := by
    rintro x xs y hx rfl hy hd
    rw [if_pos hd.isNode]
    exact h x y hx (mem_nodesIn.mpr ⟨.inr hy, hd.isNode⟩) hd
  cases hvisited : isVisited v with
  | false =>
    rw [mapNodes_of_not_visited hvisited]
    exact ⟨hv, fun _ => rfl⟩
  | true =>
    have hcontent := (isNode_of_isVisited hv hvisited).1
    cases slot with
    | one x => exact (hone rfl (fits_one_iff.mp hv)).refills rfl
    | optional x =>
      rcases fits_optional_iff.mp hv with rfl | hd
      · cases hvisited
      · exact (hone rfl hd).refills rfl
    | many x =>
      obtain ⟨xs, rfl, hxs⟩ := fits_many_iff.mp hv
      refine ⟨fits_many (List.forall_mem_map.mpr fun y hy => ?_), fun _ => List.length_map _⟩
      exact hitem rfl rfl hy (hxs y hy)
    | several x =>
      obtain ⟨xs, rfl, hne, hxs⟩ := fits_several_iff.mp hv
      refine ⟨fits_several_iff.mpr ⟨_, rfl, by simpa using hne, List.forall_mem_map.mpr fun y hy => ?_⟩,
        fun _ => List.length_map _⟩
      exact hitem rfl rfl hy (hxs y hy)
    | sparse x =>
      obtain ⟨xs, rfl, hxs⟩ := fits_sparse_iff.mp hv
      refine ⟨fits_sparse_iff.mpr ⟨_, rfl, List.forall_mem_map.mpr fun y hy => ?_⟩, nofun⟩
      rcases hxs y hy with rfl | hd
      · exact .inl rfl
      · exact .inr (hitem rfl rfl hy hd)
    | _ => cases hcontent

/-- **A node whose children are replaced by nodes of the same symbols is derived again.** -/
theorem Derives.mapChildren (ht : Derives labels s t)
    (h : ∀ p ∈ t.childNodes, ∀ x, Derives labels x p.2 → Derives labels x (f p.1 p.2)) :
    Derives labels s (mapChildren f t) := by
  cases t with
  | obj m fs =>
    have hrevised : ∀ gs : Fields, (∀ field ∈ gs, field ∈ fs) →
        Revised labels (slot? s (.obj m fs)) gs
          (gs.map fun g => (g.1, if isSyntaxKey g.1 then mapNodes (f g.1) g.2 else g.2)) := by
      intro gs hgs
      induction gs with
      | nil => exact .nil
      | cons field gs ih =>
        rw [List.forall_mem_cons] at hgs
        obtain ⟨k, v⟩ := field
        rw [List.map_cons]
        cases hk : isSyntaxKey k with
        | false => exact .same (ih hgs.2)
        | true =>
          cases hv : isVisited v with
          | false =>
            simp only [if_true, mapNodes_of_not_visited hv]
            exact .same (ih hgs.2)
          | true =>
            have hfits := ht.fields _ hgs.1
            cases hslot : slot? s (.obj m fs) k with
            | none =>
              rw [hslot] at hfits
              rw [isVisited_of_isPlain (isPlaceKey_of_isSyntaxKey hk) (by simp) hfits] at hv
              cases hv
            | some slot =>
              rw [hslot] at hfits
              refine .visited hslot hv (refills_mapNodes hfits fun x y _ hy => ?_) (ih hgs.2)
              exact h (k, y) (mem_childNodes.mpr ⟨v, hgs.1, hk, hy⟩) x
    exact (derives_revised ht (hrevised fs fun _ => id)).1
  | _ => cases ht.isObject

/-! ## Visits that keep every node -/

section

variable {C σ : Type} {handle : Handler C σ} {c : C} {g : Tree → Tree} {v : Tree}

/-- A visit makes a node anew, and leaves the state alone. -/
def Remakes (handle : Handler C σ) (c : C) (g : Tree → Tree) (y : Tree) : Prop :=
  ∀ st, Yields (visit handle c y) st (.keep (g y)) st

theorem visitItems_remake {xs : List Tree} (h : ∀ y ∈ xs, y.isNode → Remakes handle c g y) (st : σ) :
    Yields (visitItems handle c xs) st (xs.map fun y => if y.isNode then g y else y) st := by
  induction xs with
  | nil =>
    rw [visitItems]
    exact Yields.pure _ _
  | cons x xs ih =>
    rw [List.forall_mem_cons] at h
    have hhead : Yields (visitItem handle c x) st [if x.isNode then g x else x] st := by
      rw [visitItem]
      split
      · rename_i hnode
        exact (h.1 hnode st).map _
      · exact Yields.pure _ _
    exact yields_visitItems_cons hhead (ih h.2)

theorem visit_value_remakes (hv : isVisited v) (h : ∀ y ∈ nodesIn v, Remakes handle c g y) :
    Remakes handle c (mapNodes g) v := by
  intro st
  cases v with
  | list xs =>
    rw [visit]
    exact (visitItems_remake (fun y hy hnode => h y (mem_nodesIn.mpr ⟨.inr hy, hnode⟩)) st).map _
  | obj m fs =>
    have hnode : (Tree.obj m fs).isNode := by simpa [isVisited, isList] using hv
    rw [mapNodes_of_isNode hnode]
    exact h _ (mem_nodesIn.mpr ⟨.inl rfl, hnode⟩) st
  | _ => cases hv

/-- The parts of a node are made anew. -/
structure PartsRemake (g : C → Tree → Tree) (t : Tree) (parts : Parts C σ) : Prop where
  field : ∀ {key v} c st, t.get? key = some v → isSyntaxKey key → isVisited v →
    Yields (parts.field key c) st (.keep (mapNodes (g c) v)) st
  descend : ∀ c st, Yields (parts.descend fun _ => some c) st (mapChildren (fun _ => g c) t) st

theorem visitFields_remake {fs : Fields} (st : σ)
    (h : ∀ f ∈ fs, isSyntaxKey f.1 → ∀ y ∈ nodesIn f.2, Remakes handle c g y) :
    Yields (visitFields handle (fun _ => some c) fs) st
      (fs.map fun f => (f.1, if isSyntaxKey f.1 then mapNodes g f.2 else f.2)) st := by
  induction fs with
  | nil =>
    rw [visitFields]
    exact Yields.pure _ _
  | cons f fs ih =>
    obtain ⟨k, v⟩ := f
    rw [List.forall_mem_cons] at h
    have hhead : Yields (visitEntry handle (fun _ => some c) k v) st
        [(k, if isSyntaxKey k then mapNodes g v else v)] st := by
      rw [visitEntry]
      cases hk : isSyntaxKey k with
      | false => exact Yields.pure _ _
      | true =>
        cases hv : isVisited v with
        | false =>
          rw [if_pos rfl, mapNodes_of_not_visited hv]
          exact Yields.pure _ _
        | true => exact (visit_value_remakes hv (h.1 hk) st).map _
    exact yields_visitFields_cons hhead (ih h.2)

theorem visitField_remakes {fs : Fields} {key : String} (hlookup : lookup key fs = some v)
    (h : Remakes handle c (mapNodes g) v) (st : σ) :
    Yields (visitField handle c key fs) st (.keep (mapNodes g v)) st := by
  induction fs with
  | nil => cases hlookup
  | cons f fs ih =>
    obtain ⟨k, u⟩ := f
    rw [lookup] at hlookup
    rw [visitField]
    split
    · rename_i heq
      rw [if_pos heq] at hlookup
      cases hlookup
      exact h st
    · rename_i hne
      rw [if_neg hne] at hlookup
      exact ih hlookup

/-- **A handler that makes every node anew from its parts** does so with every derived tree. -/
theorem visit_remakes {g : C → Tree → Tree}
    (hhandle : ∀ {s t parts} c, Derives labels s t → PartsRemake g t parts →
      ∀ st, Yields (handle c t parts) st (.keep (g c t)) st)
    (ht : Derives labels s t) (c : C) : Remakes handle c (g c) t := by
  refine ht.inductionOnChildren (motive := fun t => ∀ c, Remakes handle c (g c) t) ?_ c
  intro s t ht ih c st
  cases t with
  | obj m fs =>
    rw [visit]
    refine hhandle c ht ⟨fun c st hv hk hvisited => ?_, fun c st => ?_⟩ st
    · refine visitField_remakes hv (visit_value_remakes hvisited fun y hy => ?_) st
      exact ih (_, y) (mem_childNodes.mpr ⟨_, mem_of_lookup_eq_some hv, hk, hy⟩) c
    · refine (visitFields_remake st fun f hf hk y hy => ?_).map _
      exact ih (f.1, y) (mem_childNodes.mpr ⟨f.2, hf, hk, hy⟩) c
  | _ => cases ht.isObject

end

end Grammar
end Downlevel
