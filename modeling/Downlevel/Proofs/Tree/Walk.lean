import Downlevel.Tree.Walk
import Mathlib.Data.List.Basic
import Mathlib.Algebra.GroupWithZero.Nat

/-!
# `Proofs.Tree.Walk`: the walk is the preorder

The walk keeps a list of values still to be looked at. What it lists is the preorder of these values, one
after the other, as long as its fuel covers their sizes. The loop over any document lists the same, or fails
at a type that cannot be looked up.
-/

namespace Downlevel.Tree

/-! ## The preorder -/

mutual

/-- The nodes below a value with the nodes they stand in, parents first. -/
def preorder (stopAt : List String) (atStart : Bool) (parent : Option Tree) :
    Tree → List (Tree × Option Tree)
  | .list xs => preorderItems stopAt parent xs
  | .obj m fs =>
    if !(Tree.obj m fs).isNode then []
    else if !atStart && (Tree.obj m fs).isTypeIn stopAt then [(.obj m fs, parent)]
    else (.obj m fs, parent) :: preorderFields stopAt (some (.obj m fs)) fs
  | _ => []

def preorderItems (stopAt : List String) (parent : Option Tree) : List Tree → List (Tree × Option Tree)
  | [] => []
  | t :: rest => preorder stopAt false parent t ++ preorderItems stopAt parent rest

/-- Fields that hold no syntax are left out. -/
def preorderFields (stopAt : List String) (parent : Option Tree) :
    List (String × Tree) → List (Tree × Option Tree)
  | [] => []
  | (k, v) :: rest =>
    (if isSyntaxKey k then preorder stopAt false parent v else []) ++ preorderFields stopAt parent rest

end

theorem preorderItems_eq (stopAt : List String) (parent : Option Tree) (xs : List Tree) :
    preorderItems stopAt parent xs = xs.flatMap (preorder stopAt false parent) := by
  induction xs with
  | nil => rfl
  | cons x xs ih => rw [preorderItems, List.flatMap_cons, ih]

theorem preorderFields_eq (stopAt : List String) (parent : Option Tree) (fs : Fields) :
    preorderFields stopAt parent fs =
      (fs.filter (isSyntaxKey ·.1)).flatMap fun f => preorder stopAt false parent f.2 := by
  induction fs with
  | nil => rfl
  | cons f fs ih =>
    obtain ⟨k, v⟩ := f
    rw [preorderFields, ih, List.filter_cons]
    split <;> simp

/-! ## Fuel -/

/-- How many values are below the pending ones. -/
def pendingSize (pending : List Pending) : Nat := (pending.map (·.value.size)).sum

theorem pendingSize_cons (p : Pending) (rest : List Pending) :
    pendingSize (p :: rest) = p.value.size + pendingSize rest := rfl

theorem pendingSize_append (ps qs : List Pending) :
    pendingSize (ps ++ qs) = pendingSize ps + pendingSize qs := by
  simp [pendingSize]

theorem size_pos : ∀ t : Tree, 0 < t.size
  | .null | .bool _ | .int _ | .real _ | .str _ => Nat.one_pos
  | .list _ | .obj _ _ => Nat.succ_pos _

theorem pendingSize_items (parent : Option Tree) (xs : List Tree) :
    pendingSize (xs.map (⟨·, parent, false⟩)) = sizeItems xs := by
  induction xs with
  | nil => rfl
  | cons x xs ih => rw [List.map_cons, pendingSize_cons, ih, sizeItems]

theorem pendingSize_fields (parent : Option Tree) (fs : Fields) :
    pendingSize ((fs.filter (isSyntaxKey ·.1)).map fun f => ⟨f.2, parent, false⟩) ≤ sizeFields fs := by
  induction fs with
  | nil => exact Nat.le_refl 0
  | cons f fs ih =>
    rw [List.filter_cons, sizeFields]
    split
    · rw [List.map_cons, pendingSize_cons]
      exact Nat.add_le_add_left ih _
    · exact Nat.le_add_left_of_le ih

/-! ## The walk -/

/-- The pending values are listed one after the other, each in preorder. -/
theorem walkFrom_eq (stopAt : List String) : ∀ fuel pending, pendingSize pending ≤ fuel →
    walkFrom stopAt fuel pending = pending.flatMap fun p => preorder stopAt p.atStart p.parent p.value
  | 0, [], _ => rfl
  | 0, p :: rest, h => by
    have hpos := size_pos p.value
    rw [pendingSize_cons] at h
    omega
  | fuel + 1, [], _ => rfl
  | fuel + 1, ⟨value, parent, atStart⟩ :: rest, h => by
    have hpos := size_pos value
    simp only [pendingSize_cons] at h
    have hrest := walkFrom_eq stopAt fuel rest (by omega)
    cases value with
    | list xs =>
      have hsize := pendingSize_items parent xs
      rw [size] at h
      have ih := walkFrom_eq stopAt fuel (xs.map (⟨·, parent, false⟩) ++ rest)
        (by rw [pendingSize_append]; omega)
      simp only [walkFrom, ih, List.flatMap_append, List.flatMap_cons, preorder,
        preorderItems_eq, List.flatMap_map]
    | obj m fs =>
      have hsize := pendingSize_fields (some (.obj m fs)) fs
      rw [size] at h
      have ih := walkFrom_eq stopAt fuel
        ((fs.filter (isSyntaxKey ·.1)).map (fun f => ⟨f.2, some (.obj m fs), false⟩) ++ rest)
        (by rw [pendingSize_append]; omega)
      simp only [walkFrom, List.flatMap_cons, preorder, hrest, ih, List.flatMap_append,
        preorderFields_eq, List.flatMap_map]
      split
      · rfl
      · split <;> rfl
    | null | bool b | int n | real d | str s =>
      simp only [walkFrom, List.flatMap_cons, preorder, hrest, List.nil_append]

/-- The walk has come to its end: more steps change nothing. -/
theorem walkFrom_start (t : Tree) (stopAt : List String) (parent : Option Tree) (extra : Nat) :
    walkFrom stopAt (t.size + extra) [⟨t, parent, true⟩] = preorder stopAt true parent t := by
  rw [walkFrom_eq _ _ _ (by simp [pendingSize]), List.flatMap_singleton]

/-- **The walk is the preorder.** -/
theorem walk_eq (t : Tree) (stopAt : List String) (parent : Option Tree) :
    t.walk stopAt parent = preorder stopAt true parent t := walkFrom_start t stopAt parent 0

/-! ## Types that cannot be looked up -/

/-- What is listed, if every type in it can be looked up, the first `skipped` ones apart. -/
def lookedUp (skipped : Nat) (listed : List (Tree × Option Tree)) :
    Except Fault (List (Tree × Option Tree)) :=
  if (listed.drop skipped).all (·.1.hasFlatType) then .ok listed else .error .structuredType

theorem lookedUp_one (p : Tree × Option Tree) (rest : List (Tree × Option Tree)) :
    lookedUp 1 (p :: rest) = (lookedUp 0 rest).map (p :: ·) := by
  rw [lookedUp, lookedUp, apply_ite (Except.map (p :: ·))]
  rfl

theorem lookedUp_cons (p : Tree × Option Tree) (rest : List (Tree × Option Tree)) :
    lookedUp 0 (p :: rest) =
      if !p.1.hasFlatType then .error .structuredType else (lookedUp 0 rest).map (p :: ·) := by
  rw [← lookedUp_one, lookedUp, List.drop_zero, List.all_cons]
  cases p.1.hasFlatType <;> rfl

/-- Below the start, the loop lists what the walk lists, if every type in it can be looked up. -/
theorem listFrom_eq (stopAt : List String) (fuel : Nat) : ∀ pending : List Pending,
    (∀ p ∈ pending, p.atStart = false) →
      listFrom stopAt fuel pending = lookedUp 0 (walkFrom stopAt fuel pending) := by
  induction fuel with
  | zero => exact fun _ _ => rfl
  | succ fuel ih =>
    rintro (_ | ⟨⟨value, parent, atStart⟩, rest⟩) h
    · rfl
    obtain ⟨rfl, hrest⟩ := List.forall_mem_cons.1 h
    have hnext := ih rest hrest
    -- What takes the place of the value is below the start as well.
    cases value with
    | list xs => exact ih _ (List.forall_mem_append.2 ⟨List.forall_mem_map.2 fun _ _ => rfl, hrest⟩)
    | obj m fs =>
      simp only [listFrom, walkFrom, Bool.not_false, Bool.true_and]
      split
      · exact hnext
      · cases (Tree.obj m fs).isTypeIn stopAt with
        | true => rw [if_pos rfl, if_pos rfl, lookedUp_cons, hnext]
        | false =>
          rw [if_neg Bool.false_ne_true, if_neg Bool.false_ne_true, lookedUp_cons,
            ih _ (List.forall_mem_append.2 ⟨List.forall_mem_map.2 fun _ _ => rfl, hrest⟩)]
    | null | bool b | int n | real d | str s => exact hnext

/-- The type of the node at the start is not looked up. -/
theorem listFrom_start (t : Tree) (stopAt : List String) (parent : Option Tree) (fuel : Nat) :
    listFrom stopAt (fuel + 1) [⟨t, parent, true⟩] =
      lookedUp (if t.isNode then 1 else 0) (walkFrom stopAt (fuel + 1) [⟨t, parent, true⟩]) := by
  cases t with
  | list xs => exact listFrom_eq stopAt fuel _ (by simp)
  | obj m fs =>
    simp only [listFrom, walkFrom]
    cases (Tree.obj m fs).isNode with
    | false => exact listFrom_eq stopAt fuel [] (by simp)
    | true =>
      rw [List.append_nil]
      exact (congrArg _ (listFrom_eq stopAt fuel _ (List.forall_mem_map.2 fun _ _ => rfl))).trans
        (lookedUp_one _ _).symm
  | _ => exact listFrom_eq stopAt fuel [] (by simp)

/-- **The loop over pending values lists the preorder.** It comes to its end, so that more steps change
nothing, and fails just where a node below the start has a type that cannot be looked up. -/
theorem listing_eq_preorder (t : Tree) (stopAt : List String) (parent : Option Tree) :
    t.listing stopAt parent =
        lookedUp (if t.isNode then 1 else 0) (preorder stopAt true parent t) ∧
      ∀ extra, listFrom stopAt (t.size + extra) [⟨t, parent, true⟩] = t.listing stopAt parent := by
  have h (extra : Nat) : listFrom stopAt (t.size + extra) [⟨t, parent, true⟩] =
      lookedUp (if t.isNode then 1 else 0) (preorder stopAt true parent t) := by
    obtain ⟨fuel, hfuel⟩ := Nat.exists_eq_add_one.2 (Nat.add_pos_left (size_pos t) extra)
    rw [hfuel, listFrom_start, ← hfuel, walkFrom_start]
  exact ⟨h 0, fun extra => (h extra).trans (h 0).symm⟩

/-- A type that is a list cannot be looked up. -/
theorem listing_structured :
    ¬ ∀ t stopAt parent, listing t stopAt parent = .ok (preorder stopAt true parent t) := by
  intro h
  have := h (record [("type", .str "Program"), ("body", .list [record [("type", .list [])]])])
    ["ClassBody"] none
  cases this

/-! ## The nodes -/

mutual

/-- The nodes that are listed do not depend on where the walk comes from. -/
theorem map_fst_preorder (stopAt : List String) (atStart : Bool) (parent : Option Tree) :
    ∀ t : Tree, (preorder stopAt atStart parent t).map (·.1) = (preorder stopAt atStart none t).map (·.1)
  | .list xs => map_fst_preorderItems stopAt parent xs
  | .obj m fs => by
    unfold preorder
    split
    · rfl
    · split <;> rfl
  | .null | .bool _ | .int _ | .real _ | .str _ => rfl

theorem map_fst_preorderItems (stopAt : List String) (parent : Option Tree) :
    ∀ xs : List Tree, (preorderItems stopAt parent xs).map (·.1) = (preorderItems stopAt none xs).map (·.1)
  | [] => rfl
  | t :: rest => by
    rw [preorderItems, preorderItems, List.map_append, List.map_append,
      map_fst_preorder stopAt false parent t, map_fst_preorderItems stopAt parent rest]

end

/-- The nodes of a part of a tree: where the part itself is of a type to stop at, it is listed alone. -/
def partNodes (stopAt : List String) (t : Tree) : List Tree := (preorder stopAt false none t).map (·.1)

theorem partNodes_list (stopAt : List String) (xs : List Tree) :
    partNodes stopAt (.list xs) = xs.flatMap (partNodes stopAt) := by
  rw [partNodes, preorder, preorderItems_eq, List.map_flatMap]
  rfl

/-- The nodes of a node: itself, and those of its fields. -/
theorem map_fst_preorderFields (stopAt : List String) (parent : Option Tree) (fs : Fields) :
    (preorderFields stopAt parent fs).map (·.1) =
      (fs.filter (isSyntaxKey ·.1)).flatMap fun f => partNodes stopAt f.2 := by
  rw [preorderFields_eq, List.map_flatMap]
  exact List.flatMap_congr fun f _ => map_fst_preorder stopAt false parent f.2

theorem partNodes_obj (stopAt : List String) (m : Option Nat) (fs : Fields) :
    partNodes stopAt (.obj m fs) =
      if !(Tree.obj m fs).isNode then []
      else if (Tree.obj m fs).isTypeIn stopAt then [.obj m fs]
      else .obj m fs :: (fs.filter (isSyntaxKey ·.1)).flatMap fun f => partNodes stopAt f.2 := by
  rw [partNodes, preorder, ← map_fst_preorderFields stopAt (some (.obj m fs))]
  split
  · rfl
  · simp only [Bool.not_false, Bool.true_and]
    split <;> rfl

theorem nodes_obj {m : Option Nat} {fs : Fields} (h : (Tree.obj m fs).isNode)
    (stopAt : List String) :
    (Tree.obj m fs).nodes stopAt =
      .obj m fs :: (fs.filter (isSyntaxKey ·.1)).flatMap fun f => partNodes stopAt f.2 := by
  rw [nodes, walk_eq, preorder, ← map_fst_preorderFields stopAt (some (.obj m fs))]
  simp [h]

/-- Without types to stop at, the nodes of a part are all its nodes. -/
theorem partNodes_nil (t : Tree) : partNodes [] t = t.nodes := by
  rw [partNodes, nodes, walk_eq]
  cases t with
  | obj m fs => simp [preorder, isTypeIn]
  | _ => rfl

end Downlevel.Tree
