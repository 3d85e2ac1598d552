import Downlevel.Lower.Class.Basic
import Downlevel.Proofs.Marks.Lower

/-!
# `Proofs.Marks.Class`: the lowering of classes makes no copies

The superclass, the constructor and every method of a class go to one place each. Of an accessor, its function
and its key are taken over, the key only if it is computed.
-/

namespace Downlevel.Lower.Class

open Tree Node

variable {m : Nat} {superName className : String} {method value : Tree} {methods : List Tree}

/-! ## Methods -/

theorem replace_makesNoCopy (superName : String) (isStatic : Bool) :
    HandlerFollows (replaceHandle superName isStatic) (MakesNoCopy Any m) := by
  intro depth k fs u o u' hparts h
  generalize partsOf (replaceHandle superName isStatic) k fs = parts at hparts h
  unfold replaceHandle at h
  split at h
  · exact makesNoCopy_passOver hparts h
  split at h
  · exact makesNoCopy_pure h fun _ => Nat.le_refl _
  split at h
  · obtain ⟨arguments, u₁, harguments, h⟩ := h.bind_inv
    obtain ⟨rfl, -⟩ := h.pure_inv
    have hitems := copiesIn_items_value_le (m := m) arguments
    have hfield := hparts.copiesIn_field_le all_any rfl harguments
    have hget := copies_get_le m "arguments" rfl (.obj k fs)
    refine makesNoCopy_keep fun _ => ?_
    simp only [copies_call, copies_path, copies_identifier, copiesIn_cons, copies_thisExpression]
    omega
  split at h
  · obtain ⟨method, u₁, hmethod, h⟩ := h.bind_inv
    obtain ⟨arguments, u₂, harguments, h⟩ := h.bind_inv
    obtain ⟨rfl, -⟩ := h.pure_inv
    have hitems := copiesIn_items_value_le (m := m) arguments
    have hcallee := hparts.copiesIn_field_le all_any rfl hmethod
    have hfield := hparts.copiesIn_field_le all_any rfl harguments
    have hboth := copies_get_add_get_le m "callee" "arguments" (by decide) rfl rfl (.obj k fs)
    refine makesNoCopy_keep fun _ => ?_
    simp only [copies_call, copies_dot, copies_value, copiesIn_cons, copies_thisExpression]
    omega
  split at h
  · obtain ⟨property, u₁, hproperty, h⟩ := h.bind_inv
    have hget := copies_get_le m "property" rfl (.obj k fs)
    have hbase : copies m (superBase superName isStatic) = 0 := by
      unfold superBase
      split <;> simp
    have hmember : ∀ p : Tree, ∀ computed, copies m p ≤ copies m ((Tree.obj k fs).get "property") →
        copies m (located (member (superBase superName isStatic) p computed) (.obj k fs)) ≤
          copies m (.obj k fs) := by
      intro p computed hp
      rw [copies_located, copies_member, hbase]
      omega
    dsimp only at h
    split at h
    · obtain ⟨p, u₂, hp, h⟩ := h.bind_inv
      obtain ⟨rfl, -⟩ := h.pure_inv
      obtain ⟨o, ho, rfl⟩ := hp.map_inv
      refine makesNoCopy_keep fun _ => hmember _ _ ?_
      rw [copies_value]
      exact hparts.copiesIn_field_le all_any rfl ho
    · obtain ⟨p, u₂, hp, h⟩ := h.bind_inv
      obtain ⟨rfl, -⟩ := h.pure_inv
      obtain ⟨rfl, -⟩ := hp.pure_inv
      refine makesNoCopy_keep fun _ => hmember _ _ ?_
      exact Nat.le_of_eq (congrArg _ (get_of_need hproperty.lift_inv.1).symm)
  · exact makesNoCopy_passOver hparts h

theorem copies_replaceSuper_le {r : Tree} (h : replaceSuper superName method = .ok r) :
    copies m r ≤ copies m method := by
  obtain ⟨function, hfunction, h⟩ := bind_eq_ok h
  obtain ⟨replaced, hreplaced, h⟩ := bind_eq_ok h
  cases h
  refine copies_set_le rfl ?_
  rw [get_of_need hfunction]
  obtain ⟨⟨o, u⟩, hvisit, h⟩ := bind_eq_ok hreplaced
  cases h
  exact copies_visit_le (replace_makesNoCopy superName _) all_any hvisit

/-- What is done to each item of a list. -/
theorem copiesIn_mapM_le {f : Tree → Except Fault Tree}
    (hf : ∀ x r, f x = .ok r → copies m r ≤ copies m x) {xs ys : List Tree}
    (h : xs.mapM f = .ok ys) : copiesIn m ys ≤ copiesIn m xs := by
  induction xs generalizing ys with
  | nil =>
    cases h
    exact Nat.le_refl _
  | cons x xs ih =>
    rw [List.mapM_cons] at h
    obtain ⟨y, hy, h⟩ := bind_eq_ok h
    obtain ⟨ys', hys, h⟩ := bind_eq_ok h
    cases h
    have hfirst := hf x y hy
    have hrest := ih hys
    rw [copiesIn_cons, copiesIn_cons]
    omega

/-! ## Members -/

/-- The copies that a member of a lowered class holds. -/
def Member.copies (m : Nat) : Member → Nat
  | .statement t => t.copies m
  | .accessor _ key _ properties => key.copies m + copiesIn m properties

/-- The copies that several members hold. -/
def copiesOfMembers (m : Nat) (members : List Member) : Nat := (members.map (Member.copies m)).sum

theorem copiesOfMembers_append (xs ys : List Member) :
    copiesOfMembers m (xs ++ ys) = copiesOfMembers m xs + copiesOfMembers m ys := by
  rw [copiesOfMembers, List.map_append, List.sum_append]
  rfl

theorem copies_owner (className : String) (method : Tree) : copies m (owner className method) = 0 := by
  unfold owner
  split <;> simp

theorem copies_toStatement (className : String) (member : Member) :
    (member.toStatement className).copies m = member.copies m := by
  cases member with
  | statement t => rfl
  | accessor method key slot properties =>
    simp [Member.toStatement, Member.copies, copies_owner]

theorem copiesOfMembers_join (slot : Option (Bool × String)) (prop : Tree) (members : List Member) :
    copiesOfMembers m (join slot prop members) ≤ copiesOfMembers m members + copies m prop := by
  induction members with
  | nil => exact Nat.zero_le _
  | cons member rest ih =>
    simp only [copiesOfMembers, List.map_cons, List.sum_cons] at ih ⊢
    cases member with
    | statement t =>
      simp only [join, List.map_cons, List.sum_cons]
      omega
    | accessor first key s props =>
      rw [join]
      split
      · simp only [List.map_cons, List.sum_cons, Member.copies, copiesIn_append, copiesIn_cons, copiesIn_nil]
        omega
      · simp only [List.map_cons, List.sum_cons]
        omega

theorem copies_methodStatement_le {statement : Tree} (h : methodStatement className method = .ok statement) :
    copies m statement ≤ copies m (method.get "key") + copies m (method.get "value") := by
  obtain ⟨key, hkey, h⟩ := bind_eq_ok h
  obtain ⟨value, hvalue, h⟩ := bind_eq_ok h
  cases h
  have hname := copies_get_le m "name" rfl key
  have hliteral := copies_get_le m "value" rfl key
  rw [get_of_need hkey, get_of_need hvalue, copies_expressionStatement, copies_assign]
  refine Nat.add_le_add_right ?_ _
  split
  · rw [copies_member, copies_owner]
    omega
  · split
    · simp only [copies_member, copies_owner, copies_make, copiesOf_cons, copiesOf_nil]
      split <;> omega
    · simp only [copies_member, copies_owner, copies_literal]
      omega

/-- **One more method**: its parts go to one place each. -/
theorem copiesOfMembers_addMember_le {members members' : List Member}
    (h : addMember className members method = .ok members') :
    copiesOfMembers m members' ≤ copiesOfMembers m members + copies m method := by
  have hparts := sum_copies_get_le m ["kind", "value", "key"] (by decide) (by decide) method
  simp only [List.map_cons, List.map_nil, List.sum_cons, List.sum_nil] at hparts
  unfold addMember at h
  split at h
  · -- A getter or a setter.
    unfold addAccessor at h
    obtain ⟨prop, hprop, h⟩ := bind_eq_ok h
    have hcopies : copies m prop ≤ copies m (method.get "kind") + copies m (method.get "value") := by
      obtain ⟨value, hvalue, hprop⟩ := bind_eq_ok hprop
      cases hprop
      rw [copies_property, copies_make, copiesOf_cons, copiesOf_nil, get_of_need hvalue]
      simp [isPlaceKey]
    split at h
    · cases h
      have hjoin := copiesOfMembers_join (m := m)
        ((keyName? method).map fun name => ((method.get "static").isSet, name)) prop members
      omega
    · obtain ⟨key, hkey, h⟩ : ∃ key, copies m key ≤ copies m (method.get "key") ∧
          Except.ok (members ++ [.accessor method key
            ((keyName? method).map fun name => ((method.get "static").isSet, name)) [prop]]) =
              Except.ok members' := by
        split at h
        · obtain ⟨key, hkey, h⟩ := bind_eq_ok h
          exact ⟨key, Nat.le_of_eq (congrArg _ (get_of_need hkey).symm), h⟩
        · obtain ⟨key, hkey, h⟩ := bind_eq_ok h
          cases hkey
          refine ⟨_, ?_, h⟩
          cases keyName? method <;> simp
      cases h
      rw [copiesOfMembers_append, copiesOfMembers, copiesOfMembers, List.map_cons, List.map_nil,
        List.sum_cons, List.sum_nil, Member.copies, copiesIn_cons, copiesIn_nil]
      omega
  · obtain ⟨statement, hstatement, h⟩ := bind_eq_ok h
    cases h
    have hle := copies_methodStatement_le (m := m) hstatement
    rw [copiesOfMembers_append, copiesOfMembers, copiesOfMembers, List.map_cons, List.map_nil,
      List.sum_cons, List.sum_nil, Member.copies]
    omega

theorem copiesIn_memberStatements_le {statements : List Tree}
    (h : memberStatements className methods = .ok statements) :
    copiesIn m statements ≤ copiesIn m methods := by
  have hfold : ∀ (methods : List Tree) (members members' : List Member),
      methods.foldlM (addMember className) members = .ok members' →
      copiesOfMembers m members' ≤ copiesOfMembers m members + copiesIn m methods := by
    intro methods
    induction methods with
    | nil =>
      intro members members' h
      cases h
      exact Nat.le_refl _
    | cons method methods ih =>
      intro members members' h
      rw [List.foldlM_cons] at h
      obtain ⟨next, hnext, h⟩ := bind_eq_ok h
      have hone := copiesOfMembers_addMember_le (m := m) hnext
      have hrest := ih next members' h
      rw [copiesIn_cons]
      omega
  have hmap : ∀ members : List Member,
      copiesIn m (members.map (Member.toStatement className)) = copiesOfMembers m members := by
    intro members
    induction members with
    | nil => rfl
    | cons member members ih =>
      rw [List.map_cons, copiesIn_cons, copies_toStatement, ih]
      rfl
  obtain ⟨members, hmembers, h⟩ := bind_eq_ok h
  cases h
  have hle := hfold methods [] members hmembers
  rw [hmap]
  exact Nat.le_trans hle (Nat.le_of_eq (Nat.zero_add _))

/-! ## Classes -/

/-- The constructor is one of the methods, and goes elsewhere than the others. -/
theorem copiesIn_withoutConstructor (methods : List Tree) :
    copiesIn m (methods.find? isConstructor).toList + copiesIn m (withoutConstructor methods) =
      copiesIn m methods := by
  induction methods with
  | nil => rfl
  | cons method methods ih =>
    rw [List.find?_cons, withoutConstructor]
    cases hconstructor : isConstructor method with
    | true => simp
    | false =>
      simp only [Bool.false_eq_true, if_false, copiesIn_cons]
      omega

theorem copies_constructorFunction_le {constructor? : Option Tree} {superName? : Option String}
    {function : Tree} (h : constructorFunction className constructor? superName? = .ok function) :
    copies m function ≤ copiesIn m constructor?.toList := by
  unfold constructorFunction at h
  cases constructor? with
  | some method =>
    obtain ⟨value, hvalue, h⟩ := bind_eq_ok h
    obtain ⟨body, hbody, h⟩ := bind_eq_ok h
    cases h
    have hle := copies_functionDeclaration_le (m := m) className (value.children "params") body method
    have hparams := copiesIn_items_le (m := m) (value.get "params")
    have hboth := copies_get_add_get_le m "params" "body" (by decide) rfl rfl value
    have hmethod := copies_get_le m "value" rfl method
    rw [get_of_need hvalue] at hmethod
    rw [get_of_need hbody] at hboth
    rw [children] at hle ⊢
    rw [Option.toList_some, copiesIn_cons, copiesIn_nil]
    omega
  | none =>
    cases h
    refine Nat.le_trans (copies_functionDeclaration_le ..) ?_
    cases superName? <;> simp

theorem copies_classCall (className : String) (params statements arguments : List Tree) :
    copies m (classCall className params statements arguments) =
      copiesIn m params + copiesIn m statements + copiesIn m arguments := by
  simp [classCall, Nat.add_assoc]

theorem copies_baseClass_le (h : baseClass className methods = .ok value) :
    copies m value ≤ copiesIn m methods := by
  obtain ⟨function, hfunction, h⟩ := bind_eq_ok h
  obtain ⟨statements, hstatements, h⟩ := bind_eq_ok h
  cases h
  have hsplit := copiesIn_withoutConstructor (m := m) methods
  have hconstructor := copies_constructorFunction_le (m := m) hfunction
  have hmembers := copiesIn_memberStatements_le (m := m) hstatements
  rw [copies_classCall, copiesIn_cons, copiesIn_nil]
  omega

theorem copies_derivedClass_le {superClass : Tree}
    (h : derivedClass className superName superClass methods = .ok value) :
    copies m value ≤ copies m superClass + copiesIn m methods := by
  obtain ⟨replaced, hreplaced, h⟩ := bind_eq_ok h
  obtain ⟨function, hfunction, h⟩ := bind_eq_ok h
  obtain ⟨statements, hstatements, h⟩ := bind_eq_ok h
  cases h
  have hmethods := copiesIn_mapM_le (m := m) (fun _ _ => copies_replaceSuper_le) hreplaced
  have hsplit := copiesIn_withoutConstructor (m := m) replaced
  have hconstructor := copies_constructorFunction_le (m := m) hfunction
  have hmembers := copiesIn_memberStatements_le (m := m) hstatements
  simp [copies_classCall, inherit]
  omega

/-- **The call that stands for a class** makes no copies of its parts. -/
theorem copies_lowerClass_le {t : Tree} {w w' : Work} (h : Yields (lowerClass t) w (some value) w') :
    copies m value ≤ copies m t := by
  have hboth := copies_get_add_get_le m "superClass" "body" (by decide) rfl rfl t
  have hmethods := copiesIn_children_le m "body" rfl (t.get "body")
  unfold lowerClass at h
  dsimp only at h
  split at h
  · obtain ⟨-, w₁, -, h⟩ := h.bind_inv
    exact absurd h.pure_inv.1 nofun
  split at h
  · obtain ⟨-, w₁, -, h⟩ := h.bind_inv
    exact absurd h.pure_inv.1 nofun
  obtain ⟨className, w₁, -, h⟩ := h.bind_inv
  split at h
  · obtain ⟨base, w₂, hbase, h⟩ := h.bind_inv
    cases h.pure_inv.1
    have hle := copies_baseClass_le (m := m) hbase.lift_inv.1
    omega
  · obtain ⟨superName, w₂, -, h⟩ := h.bind_inv
    obtain ⟨derived, w₃, hderived, h⟩ := h.bind_inv
    cases h.pure_inv.1
    have hle := copies_derivedClass_le (m := m) hderived.lift_inv.1
    omega

theorem copies_letBinding {classId place binding : Tree} (h : letBinding classId value place = .ok binding) :
    copies m binding = copies m value := by
  obtain ⟨name, -, h⟩ := bind_eq_ok h
  cases h
  simp

/-! ## The lowering -/

section

variable {k : Option Nat} {fs : Fields} {parts : Parts Position Work} {w w' : Work}
  {o : Outcome} {position : Position}

section

variable (hparts : PartsFollow (MakesNoCopy Any m) k fs parts)

include hparts

theorem makesNoCopy_classDeclaration (h : Yields (classDeclaration parts) w o w') :
    MakesNoCopy Any m position (.obj k fs) w o w' := by
  obtain ⟨t, w₁, ht, h⟩ := h.bind_inv
  have hle := hparts.copies_descend_le all_any ht
  obtain ⟨lowered, w₂, hlowered, h⟩ := h.bind_inv
  cases lowered with
  | none =>
    exact makesNoCopy_pure h fun _ => hle
  | some value =>
    obtain ⟨classId, w₃, -, h⟩ := h.bind_inv
    obtain ⟨binding, w₄, hbinding, h⟩ := h.bind_inv
    refine makesNoCopy_pure h fun _ => ?_
    rw [copies_letBinding hbinding.lift_inv.1]
    exact Nat.le_trans (copies_lowerClass_le hlowered) hle

theorem makesNoCopy_classExpression (h : Yields (classExpression parts) w o w') :
    MakesNoCopy Any m position (.obj k fs) w o w' := by
  obtain ⟨t, w₁, ht, h⟩ := h.bind_inv
  have hle := hparts.copies_descend_le all_any ht
  obtain ⟨lowered, w₂, hlowered, h⟩ := h.bind_inv
  cases lowered with
  | none =>
    exact makesNoCopy_pure h fun _ => hle
  | some value =>
    refine makesNoCopy_pure h fun _ => ?_
    rw [copies_located]
    exact Nat.le_trans (copies_lowerClass_le hlowered) hle

theorem makesNoCopy_exportedClass (h : Yields (exportedClass (.obj k fs) parts) w o w') :
    MakesNoCopy Any m position (.obj k fs) w o w' := by
  obtain ⟨visited, w₁, hvisited, h⟩ := h.bind_inv
  have hfield := hparts.copiesIn_field_le all_any rfl hvisited
  rw [← copies_value] at hfield
  obtain ⟨lowered, w₂, hlowered, h⟩ := h.bind_inv
  cases lowered with
  | none =>
    exact makesNoCopy_pure h fun _ => copies_set_le rfl hfield
  | some value =>
    have hle := Nat.le_trans (copies_lowerClass_le (m := m) hlowered) hfield
    dsimp only at h
    split at h
    · refine makesNoCopy_pure h fun _ => copies_set_le rfl ?_
      rw [copies_located]
      exact hle
    · obtain ⟨binding, w₃, hbinding, h⟩ := h.bind_inv
      obtain ⟨name, w₄, -, h⟩ := h.bind_inv
      obtain ⟨rfl, -⟩ := h.pure_inv
      intro _
      have hget := copies_get_le m "declaration" rfl (.obj k fs)
      simp only [Outcome.inList, copiesIn_cons, copiesIn_nil, copies_located, copies_make, copiesOf_cons,
        copiesOf_nil, copies_identifier, copies_letBinding hbinding.lift_inv.1]
      split <;> omega

end

end

theorem handle_makesNoCopy : HandlerFollows handle (MakesNoCopy Any m) := by
  intro position k fs w o w' hparts h
  generalize partsOf handle k fs = parts at hparts h
  unfold handle at h
  split at h
  · exact makesNoCopy_classDeclaration hparts h
  · exact makesNoCopy_classExpression hparts h
  · split at h
    · exact makesNoCopy_exportedClass hparts h
    · exact makesNoCopy_passOver hparts h
  · exact makesNoCopy_passOver hparts h

theorem copies_lower_le {t : Tree} {out : Lowered} (h : lower t = .ok out) :
    copies m out.tree ≤ copies m t := copies_run_le handle_makesNoCopy all_any h

end Downlevel.Lower.Class
