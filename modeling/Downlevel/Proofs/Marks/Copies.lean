import Downlevel.Proofs.Node.Follow
import Downlevel.Proofs.Tree.Objects

/-!
# `Proofs.Marks.Copies`: at how many places an object stands

Marks are the identities of objects, so the number of times that a mark stands in a tree is the number of
places of its object. A new node has no mark: it holds the copies that its parts hold. A visit makes no
further copies if its handler makes none.
-/

namespace Downlevel

open Node

namespace Tree

/-- At how many places of a tree the object with a mark stands. -/
def copies (m : Nat) (t : Tree) : Nat := t.marks.count m

/-- The same for a list. -/
def copiesIn (m : Nat) (xs : List Tree) : Nat := (marksOfItems xs).count m

/-- The same for fields. -/
def copiesOf (m : Nat) (fs : List (String × Tree)) : Nat := (marksOfFields fs).count m

section

variable {m : Nat} {t v : Tree} {key : String}

/-! ## Parts -/

@[simp] theorem copies_list (xs : List Tree) : copies m (.list xs) = copiesIn m xs := rfl
@[simp] theorem copies_null : copies m .null = 0 := rfl
@[simp] theorem copies_bool (b : Bool) : copies m (.bool b) = 0 := rfl
@[simp] theorem copies_int (n : Int) : copies m (.int n) = 0 := rfl
@[simp] theorem copies_str (s : String) : copies m (.str s) = 0 := rfl
@[simp] theorem copiesIn_nil : copiesIn m [] = 0 := rfl
@[simp] theorem copiesOf_nil : copiesOf m [] = 0 := rfl

theorem copies_obj (k : Option Nat) (fs : Fields) :
    copies m (.obj k fs) = k.toList.count m + copiesOf m fs := List.count_append

@[simp] theorem copiesIn_cons (t : Tree) (xs : List Tree) :
    copiesIn m (t :: xs) = copies m t + copiesIn m xs := List.count_append

@[simp] theorem copiesOf_cons (key : String) (v : Tree) (fs : Fields) :
    copiesOf m ((key, v) :: fs) = (if isPlaceKey key then 0 else copies m v) + copiesOf m fs := by
  rw [copiesOf, marksOfFields, List.count_append]
  split <;> rfl

@[simp] theorem copiesIn_append (xs ys : List Tree) :
    copiesIn m (xs ++ ys) = copiesIn m xs + copiesIn m ys := by
  induction xs with
  | nil => simp
  | cons x xs ih => rw [List.cons_append, copiesIn_cons, copiesIn_cons, ih, Nat.add_assoc]

@[simp] theorem copiesOf_append (fs gs : Fields) :
    copiesOf m (fs ++ gs) = copiesOf m fs + copiesOf m gs := by
  induction fs with
  | nil => simp
  | cons f fs ih => rw [List.cons_append, copiesOf_cons, copiesOf_cons, ih, Nat.add_assoc]

/-- Where a list is cut makes no difference. -/
theorem copiesIn_take_add_drop (n : Nat) (xs : List Tree) :
    copiesIn m (xs.take n) + copiesIn m (xs.drop n) = copiesIn m xs := by
  rw [← copiesIn_append, List.take_append_drop]

theorem copiesIn_map_le {f : Tree → Tree} {xs : List Tree} (h : ∀ x ∈ xs, copies m (f x) ≤ copies m x) :
    copiesIn m (xs.map f) ≤ copiesIn m xs := by
  induction xs with
  | nil => exact Nat.le_refl _
  | cons x xs ih =>
    rw [List.forall_mem_cons] at h
    rw [List.map_cons, copiesIn_cons, copiesIn_cons]
    exact Nat.add_le_add h.1 (ih h.2)

theorem copiesIn_items_le (t : Tree) : copiesIn m t.items ≤ copies m t := by
  cases t with
  | list xs => exact Nat.le_refl _
  | _ => exact Nat.zero_le _

/-- What is written into a field takes the place of what was there. -/
theorem copies_set (m : Nat) (key : String) (hkey : isPlaceKey key = false) (t v : Tree) :
    copies m (t.set key v) + copies m (t.get key) ≤ copies m t + copies m v := by
  have hinsert : ∀ fs : Fields, copiesOf m (insert key v fs) +
      copies m ((lookup key fs).getD .null) = copiesOf m fs + copies m v := by
    intro fs
    induction fs with
    | nil => simp [insert, lookup, hkey]
    | cons f rest ih =>
      obtain ⟨k, w⟩ := f
      rw [insert, lookup]
      split
      · rename_i heq
        simp only [copiesOf_cons, heq, hkey, Bool.false_eq_true, if_false, Option.getD_some]
        omega
      · rw [copiesOf_cons, copiesOf_cons]
        omega
  cases t with
  | obj k fs =>
    have hsame := hinsert fs
    rw [set, copies_obj, copies_obj]
    show _ + copiesOf m _ + copies m ((lookup key fs).getD .null) ≤ _
    omega
  | _ => exact Nat.le_add_right _ _

theorem copies_set_le (hkey : isPlaceKey key = false) (h : copies m v ≤ copies m (t.get key)) :
    copies m (t.set key v) ≤ copies m t := by
  have hset := copies_set m key hkey t v
  omega

/-- Places in the text hold no copies. -/
@[simp] theorem copies_set_place (hkey : isPlaceKey key) (t v : Tree) :
    copies m (t.set key v) = copies m t := by
  have hinsert : ∀ fs : Fields, copiesOf m (insert key v fs) = copiesOf m fs := by
    intro fs
    induction fs with
    | nil => simp [insert, hkey]
    | cons f rest ih =>
      obtain ⟨k, w⟩ := f
      rw [insert]
      split
      · rename_i heq
        simp only [copiesOf_cons, heq, hkey, if_true]
      · rw [copiesOf_cons, copiesOf_cons, ih]
  cases t with
  | obj k fs => rw [set, copies_obj, copies_obj, hinsert]
  | _ => rfl

/-- **Different fields hold different copies**, and none of them is the node itself. -/
theorem count_mark?_add_copies_le (m : Nat) (keys : List String) (hnodup : keys.Nodup)
    (hkeys : ∀ key ∈ keys, isPlaceKey key = false) (t : Tree) :
    t.mark?.toList.count m + (keys.map fun key => copies m (t.get key)).sum ≤ copies m t := by
  induction keys generalizing t with
  | nil =>
    cases t with
    | obj k fs =>
      rw [copies_obj]
      exact Nat.le_add_right _ _
    | _ => exact Nat.zero_le _
  | cons key keys ih =>
    rw [List.nodup_cons] at hnodup
    rw [List.forall_mem_cons] at hkeys
    -- The other fields are those of the node with this one emptied.
    have hrest := ih hnodup.2 hkeys.2 (t.set key .null)
    have hsame : (keys.map fun other => copies m ((t.set key .null).get other)) =
        keys.map fun other => copies m (t.get other) := by
      refine List.map_congr_left fun other hother => ?_
      rw [get_set_of_ne]
      rintro rfl
      exact hnodup.1 hother
    have hset := copies_set m key hkeys.1 t .null
    rw [hsame, mark?_set] at hrest
    rw [copies_null] at hset
    rw [List.map_cons, List.sum_cons]
    omega

theorem sum_copies_get_le (m : Nat) (keys : List String) (hnodup : keys.Nodup)
    (hkeys : ∀ key ∈ keys, isPlaceKey key = false) (t : Tree) :
    (keys.map fun key => copies m (t.get key)).sum ≤ copies m t :=
  Nat.le_trans (Nat.le_add_left _ _) (count_mark?_add_copies_le m keys hnodup hkeys t)

theorem copies_get_le (m : Nat) (key : String) (hkey : isPlaceKey key = false) (t : Tree) :
    copies m (t.get key) ≤ copies m t := by
  have hsum := sum_copies_get_le m [key] (List.nodup_singleton key) (List.forall_mem_singleton.mpr hkey) t
  simpa using hsum

theorem copies_get_add_get_le (m : Nat) (key other : String) (hne : key ≠ other)
    (hkey : isPlaceKey key = false) (hother : isPlaceKey other = false) (t : Tree) :
    copies m (t.get key) + copies m (t.get other) ≤ copies m t := by
  have hsum := sum_copies_get_le m [key, other] (by simpa using hne) (by simp [hkey, hother]) t
  simpa using hsum

theorem copiesIn_children_le (m : Nat) (key : String) (hkey : isPlaceKey key = false) (t : Tree) :
    copiesIn m (t.children key) ≤ copies m t :=
  Nat.le_trans (copiesIn_items_le _) (copies_get_le m key hkey t)

theorem copies_erase_le (t : Tree) (key : String) : copies m (t.erase key) ≤ copies m t := by
  have hfilter : ∀ fs : Fields, copiesOf m (fs.filter (·.1 ≠ key)) ≤ copiesOf m fs := by
    intro fs
    induction fs with
    | nil => exact Nat.le_refl _
    | cons f rest ih =>
      rw [List.filter_cons, copiesOf_cons]
      split
      · rw [copiesOf_cons]
        omega
      · omega
  cases t with
  | obj k fs =>
    have hle := hfilter fs
    rw [erase, copies_obj, copies_obj]
    omega
  | _ => exact Nat.le_refl _

end

/-! ## New nodes -/

section

variable {m : Nat}

@[simp] theorem copies_make (type : String) (fs : Fields) :
    copies m (make type fs) = copiesOf m fs := by
  rw [make, record, copies_obj, copiesOf_cons]
  simp

@[simp] theorem copies_located (t place : Tree) : copies m (located t place) = copies m t := by
  unfold located
  split <;> split <;> simp [isPlaceKey]

@[simp] theorem copiesOf_optional (key : String) (hkey : isPlaceKey key = false) (v : Option Tree) :
    copiesOf m (Node.optional key v) = (v.map (copies m)).getD 0 := by
  cases v <;> simp [Node.optional, hkey]

@[simp] theorem copies_identifier (name : String) (place : Tree) : copies m (identifier name place) = 0 := by
  simp [identifier]

@[simp] theorem copies_named (name : Option String) : copies m (named name) = 0 := by
  cases name <;> simp [named]

@[simp] theorem copies_literal (value place : Tree) : copies m (literal value place) = copies m value := by
  simp [literal, isPlaceKey]

@[simp] theorem copies_unary (operator : String) (argument : Tree) :
    copies m (unary operator argument) = copies m argument := by
  simp [unary, isPlaceKey]

@[simp] theorem copies_voidZero : copies m voidZero = 0 := by simp [voidZero]

@[simp] theorem copies_thisExpression (place : Tree) : copies m (thisExpression place) = 0 := by
  simp [thisExpression]

@[simp] theorem copies_member (object property : Tree) (computed : Bool) :
    copies m (member object property computed) = copies m object + copies m property := by
  simp [member, isPlaceKey]

@[simp] theorem copies_dot (object : Tree) (name : String) : copies m (dot object name) = copies m object := by
  simp [dot]

@[simp] theorem copies_path (root : Tree) (names : List String) :
    copies m (path root names) = copies m root := by
  unfold path
  induction names generalizing root with
  | nil => rfl
  | cons name names ih => rw [List.foldl_cons, ih, copies_dot]

@[simp] theorem copies_call (callee : Tree) (arguments : List Tree) (place : Tree) :
    copies m (call callee arguments place) = copies m callee + copiesIn m arguments := by
  simp [call, isPlaceKey]

@[simp] theorem copies_assign (left right place : Tree) :
    copies m (assign left right place) = copies m left + copies m right := by
  simp [assign, isPlaceKey]

@[simp] theorem copies_binary (operator : String) (left right place : Tree) :
    copies m (binary operator left right place) = copies m left + copies m right := by
  simp [binary, isPlaceKey]

@[simp] theorem copies_objectExpression (properties : List Tree) :
    copies m (objectExpression properties) = copiesIn m properties := by
  simp [objectExpression, isPlaceKey]

@[simp] theorem copies_property (key value place : Tree) :
    copies m (property key value place) = copies m key + copies m value := by
  simp [property, isPlaceKey]

@[simp] theorem copies_expressionStatement (expression place : Tree) :
    copies m (expressionStatement expression place) = copies m expression := by
  simp [expressionStatement, isPlaceKey]

@[simp] theorem copies_block (statements : List Tree) (place : Tree) :
    copies m (block statements place) = copiesIn m statements := by
  simp [block, isPlaceKey]

@[simp] theorem copies_returnStatement (argument : Option Tree) (place : Tree) :
    copies m (returnStatement argument place) = (argument.map (copies m)).getD 0 := by
  simp [returnStatement, isPlaceKey]

@[simp] theorem copies_ifStatement (test consequent : Tree) (alternate : Option Tree) :
    copies m (ifStatement test consequent alternate) =
      copies m test + copies m consequent + (alternate.map (copies m)).getD 0 := by
  simp [ifStatement, isPlaceKey, Nat.add_assoc]

@[simp] theorem copies_breakStatement : copies m breakStatement = 0 := by simp [breakStatement]

@[simp] theorem copies_emptyStatement (place : Tree) : copies m (emptyStatement place) = 0 := by
  simp [emptyStatement]

@[simp] theorem copies_declarator (target : Tree) (init : Option Tree) :
    copies m (declarator target init) = copies m target + (init.map (copies m)).getD 0 := by
  simp [declarator, isPlaceKey]

@[simp] theorem copies_declaration (kind : String) (declarators : List Tree) (place : Tree) :
    copies m (declaration kind declarators place) = copiesIn m declarators := by
  simp [declaration, isPlaceKey]

@[simp] theorem copies_var (name : String) (init : Option Tree) (place : Tree) :
    copies m (var name init place) = (init.map (copies m)).getD 0 := by
  simp [var]

@[simp] theorem copies_functionExpression (params : List Tree) (body : Tree) (form : FunctionForm)
    (place : Tree) : copies m (functionExpression params body form place) =
      copiesIn m params + copies m body := by
  have hid : copiesOf m (Node.optional "id" (form.name.map fun n => identifier n)) = 0 := by
    cases h : form.name <;> simp [Node.optional, isPlaceKey]
  simp [functionExpression, isPlaceKey, hid]

theorem copies_functionDeclaration_le (name : String) (params : List Tree) (body place : Tree) :
    copies m (functionDeclaration name params body place) ≤ copiesIn m params + copies m body := by
  have hset := copies_set m "type" rfl
    (functionExpression params body ⟨some name, false, false⟩ place) (.str "FunctionDeclaration")
  rw [copies_functionExpression, copies_str] at hset
  rw [functionDeclaration]
  omega

end

end Tree

/-! ## Visits -/

namespace Node

open Tree

variable {C σ : Type} {P : Tree → Prop} {m : Nat} {c : C} {t : Tree} {s s' : σ} {o : Outcome}
  {contexts : String → Option C}

/-- A visit of a node makes no further copy of an object, if all objects of the node are as they should be. -/
def MakesNoCopy (P : Tree → Prop) (m : Nat) : Law C σ := fun _ t _ o _ =>
  (∀ x ∈ t.objects, P x) → copiesIn m o.inList ≤ copies m t

/-- No condition on objects. -/
abbrev Any : Tree → Prop := fun _ => True

theorem all_any {xs : List Tree} : ∀ x ∈ xs, Any x := fun _ _ => trivial

theorem makesNoCopy_keep {t' : Tree} (h : (∀ x ∈ t.objects, P x) → copies m t' ≤ copies m t) :
    MakesNoCopy P m c t s (.keep t') s' := by
  intro hall
  rw [Outcome.inList, copiesIn_cons, copiesIn_nil, Nat.add_zero]
  exact h hall

theorem makesNoCopy_pure {t' : Tree} {s₁ : σ} (h : Yields (pure (.keep t')) s₁ o s')
    (hle : (∀ x ∈ t.objects, P x) → copies m t' ≤ copies m t) : MakesNoCopy P m c t s o s' := by
  obtain ⟨rfl, -⟩ := h.pure_inv
  exact makesNoCopy_keep hle

@[simp] theorem copies_value (o : Outcome) : copies m o.value = copiesIn m o.inList := by
  cases o <;> simp [Outcome.value, Outcome.inList]

theorem copiesIn_items_value_le (o : Outcome) : copiesIn m o.value.items ≤ copiesIn m o.inList := by
  rw [← copies_value]
  exact copiesIn_items_le _

theorem copiesOf_inField_le (key : String) (before : Tree) (o : Outcome) :
    copiesOf m (o.inField key before) ≤ copiesIn m o.inList := by
  cases o with
  | remove => exact Nat.le_refl _
  | keep t =>
    rw [Outcome.inField, Outcome.inList, copiesOf_cons, copiesIn_cons, copiesOf_nil]
    split <;> omega
  | splice ts =>
    rw [Outcome.inField, Outcome.inList, copiesOf_cons, copies_block, copiesOf_nil]
    split <;> omega

theorem ItemsFollow.copiesIn_le {xs ys : List Tree} (h : ItemsFollow (MakesNoCopy P m) c xs s ys s')
    (hall : ∀ x ∈ objectsOfItems xs, P x) : copiesIn m ys ≤ copiesIn m xs := by
  induction h with
  | nil => exact Nat.le_refl _
  | pass ht h ih =>
    rw [objectsOfItems, List.forall_mem_append] at hall
    have hrest := ih hall.2
    rw [copiesIn_cons, copiesIn_cons]
    omega
  | visit ht ho h ih =>
    rw [objectsOfItems, List.forall_mem_append] at hall
    have hnode := ho hall.1
    have hrest := ih hall.2
    rw [copiesIn_append, copiesIn_cons]
    omega

theorem ValueFollows.copiesIn_le {v : Tree} (h : ValueFollows (MakesNoCopy P m) c v s o s')
    (hall : ∀ x ∈ v.objects, P x) : copiesIn m o.inList ≤ copies m v := by
  cases h with
  | scalar => simp [Outcome.inList]
  | object h => exact h hall
  | list h => simpa [Outcome.inList] using h.copiesIn_le hall

theorem FieldsFollow.copiesOf_le {fs gs : Fields}
    (h : FieldsFollow (MakesNoCopy P m) contexts fs s gs s') (hall : ∀ x ∈ objectsOfFields fs, P x) :
    copiesOf m gs ≤ copiesOf m fs := by
  induction h with
  | nil => exact Nat.le_refl _
  | pass hk h ih =>
    rw [objectsOfFields, List.forall_mem_append] at hall
    have hrest := ih hall.2
    rw [copiesOf_cons, copiesOf_cons]
    omega
  | @visit k v c o rest gs s s₁ s' hc hk ho h ih =>
    -- A field that is visited is no place in the text.
    have hplace : isPlaceKey k = false := isPlaceKey_of_isSyntaxKey (Bool.and_eq_true_iff.mp hk).1
    rw [objectsOfFields, List.forall_mem_append, hplace, if_neg Bool.false_ne_true] at hall
    have hvalue := ho.copiesIn_le hall.1
    have hfield := copiesOf_inField_le (m := m) k v o
    have hrest := ih hall.2
    rw [copiesOf_append, copiesOf_cons, hplace, if_neg Bool.false_ne_true]
    omega

section

variable {k : Option Nat} {fs : Fields} {parts : Parts C σ} {s s' : σ}

section

variable (h : PartsFollow (MakesNoCopy P m) k fs parts) (hall : ∀ x ∈ (Tree.obj k fs).objects, P x)

include h hall

/-- What a field is visited to holds no further copies. -/
theorem PartsFollow.copiesIn_field_le {key : String} (hkey : isPlaceKey key = false)
    (ho : Yields (parts.field key c) s o s') : copiesIn m o.inList ≤ copies m ((Tree.obj k fs).get key) := by
  rcases h.field ho with ⟨-, rfl, -⟩ | ⟨v, hv, hfollows⟩
  · exact Nat.zero_le _
  · have hget : (Tree.obj k fs).get key = v := by
      rw [Tree.get, get?, fields, hv]
      rfl
    subst hget
    exact hfollows.copiesIn_le fun x hx => hall x (mem_objects_get hkey hx)

/-- What all fields are visited to holds no further copies. -/
theorem PartsFollow.copies_descend_le (ht : Yields (parts.descend contexts) s t s') :
    copies m t ≤ copies m (.obj k fs) := by
  obtain ⟨gs, rfl, hfields⟩ := h.descend ht
  have hle := hfields.copiesOf_le fun x hx => hall x (List.mem_cons_of_mem _ hx)
  rw [copies_obj, copies_obj]
  omega

end

/-- A field without a context stays. -/
theorem PartsFollow.get_descend {L : Law C σ} (h : PartsFollow L k fs parts)
    (ht : Yields (parts.descend contexts) s t s') {key : String} (hkey : contexts key = none) :
    t.get key = (Tree.obj k fs).get key := by
  obtain ⟨gs, rfl, hfields⟩ := h.descend ht
  rw [Tree.get, Tree.get, get?, get?, fields, fields]
  rcases hfields.lookup_cases key with ⟨hv, hv'⟩ | ⟨v, hv, ⟨-, hsame⟩ | ⟨c, o, s₁, s₂, hc, -⟩⟩
  · rw [hv, hv']
  · rw [hv, hsame]
  · rw [hkey] at hc
    cases hc

/-- Looking at all parts makes no copy. -/
theorem makesNoCopy_passOver (h : PartsFollow (MakesNoCopy P m) k fs parts)
    (ho : Yields (Outcome.keep <$> parts.descend contexts) s o s') :
    MakesNoCopy P m c (.obj k fs) s o s' := by
  obtain ⟨t, ht, rfl⟩ := ho.map_inv
  exact makesNoCopy_keep fun hall => h.copies_descend_le hall ht

/-- **A tree is visited to one without further copies.** -/
theorem copies_visit_le {handle : Handler C σ} (hhandle : HandlerFollows handle (MakesNoCopy P m))
    (hall : ∀ x ∈ t.objects, P x) (h : Yields (visit handle c t) s o s') : copies m o.value ≤ copies m t := by
  rw [copies_value]
  exact (visit_follows hhandle t c s o s' h).copiesIn_le hall

end

end Node
end Downlevel
