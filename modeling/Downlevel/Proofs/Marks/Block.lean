import Downlevel.Lower.Block.Basic
import Downlevel.Proofs.Marks.Lower

/-!
# `Proofs.Marks.Block`: the lowering of block bindings makes no copies

The body of a loop that is wrapped moves into a function. On the way, `var` declarations become assignments
and jumps become signals. The loop keeps the rest, so nothing of it stands at two places.
-/

namespace Downlevel.Lower.Block

open Tree Node

variable {m : Nat}

/-! ## Renaming -/

mutual

theorem copies_apply_le (r : Renaming) : ∀ t : Tree, copies m (r.apply t) ≤ copies m t
  | .obj k fs => by
    have hfields := copiesOf_applyFields_le r fs
    have hobject : copies m (.obj k (r.applyFields fs)) ≤ copies m (.obj k fs) := by
      rw [copies_obj, copies_obj]
      omega
    unfold Renaming.apply
    dsimp only
    split
    · exact Nat.le_trans (copies_set_le rfl (Nat.zero_le _)) hobject
    · exact hobject
  | .list xs => copiesIn_applyItems_le r xs
  | .null | .bool _ | .int _ | .real _ | .str _ => Nat.le_refl _

theorem copiesIn_applyItems_le (r : Renaming) : ∀ xs : List Tree, copiesIn m (r.applyItems xs) ≤ copiesIn m xs
  | [] => Nat.le_refl _
  | t :: rest => by
    have hfirst := copies_apply_le r t
    have hrest := copiesIn_applyItems_le r rest
    rw [Renaming.applyItems, copiesIn_cons, copiesIn_cons]
    omega

theorem copiesOf_applyFields_le (r : Renaming) : ∀ fs : Fields,
    copiesOf m (r.applyFields fs) ≤ copiesOf m fs
  | [] => Nat.le_refl _
  | (key, v) :: rest => by
    have hfirst := copies_apply_le r v
    have hrest := copiesOf_applyFields_le r rest
    rw [Renaming.applyFields, copiesOf_cons, copiesOf_cons]
    split <;> omega

end

/-! ## Moved bodies -/

section

variable {k : Option Nat} {fs : Fields} {parts : Parts Seat (List (Option String))}
  {names names' : List (Option String)} {o : Outcome} {seat : Seat}

theorem copies_sequence {assignments : List Tree} {e : Tree} (h : sequence assignments = some e) :
    copies m e = copiesIn m assignments := by
  unfold sequence at h
  split at h
  · cases h
  · cases h
    simp
  · cases h
    simp [isPlaceKey]

section

variable (hparts : PartsFollow (MakesNoCopy Any m) k fs parts)

include hparts

/-- The assignments that a `var` declaration leaves. -/
theorem copies_collect_le {e : Tree} (h : Yields (collect parts) names (some e) names') :
    copies m e ≤ copies m (.obj k fs) := by
  obtain ⟨assignments, names₁, hassignments, h⟩ := h.bind_inv
  have hsequence := copies_sequence (m := m) h.pure_inv.1.symm
  have hitems := copiesIn_items_value_le (m := m) assignments
  have hfield := hparts.copiesIn_field_le all_any rfl hassignments
  have hget := copies_get_le m "declarations" rfl (.obj k fs)
  omega

theorem makesNoCopy_declaratorAssignment (h : Yields (declaratorAssignment (.obj k fs) parts) names o names') :
    MakesNoCopy Any m seat (.obj k fs) names o names' := by
  obtain ⟨-, names₁, -, h⟩ := h.bind_inv
  split at h
  · obtain ⟨rfl, -⟩ := h.pure_inv
    exact fun _ => Nat.zero_le _
  · obtain ⟨value, names₂, hvalue, h⟩ := h.bind_inv
    obtain ⟨target, names₃, htarget, h⟩ := h.bind_inv
    obtain ⟨rfl, -⟩ := h.pure_inv
    have hfield := hparts.copiesIn_field_le all_any rfl hvalue
    have hboth := copies_get_add_get_le m "id" "init" (by decide) rfl rfl (.obj k fs)
    rw [get_of_need htarget.lift_inv.1] at hboth
    refine makesNoCopy_keep fun _ => ?_
    rw [copies_assign, copies_value]
    omega

theorem makesNoCopy_headAssignment (h : Yields (headAssignment parts) names o names') :
    MakesNoCopy Any m seat (.obj k fs) names o names' := by
  obtain ⟨e, names₁, he, h⟩ := h.bind_inv
  cases e with
  | some e =>
    exact makesNoCopy_pure h fun _ => copies_collect_le hparts he
  | none =>
    obtain ⟨rfl, -⟩ := h.pure_inv
    exact fun _ => Nat.zero_le _

theorem makesNoCopy_statementAssignment
    (h : Yields (statementAssignment seat (.obj k fs) parts) names o names') :
    MakesNoCopy Any m seat (.obj k fs) names o names' := by
  obtain ⟨e, names₁, he, h⟩ := h.bind_inv
  split at h
  · refine makesNoCopy_pure h fun _ => ?_
    rw [copies_expressionStatement]
    exact copies_collect_le hparts he
  · obtain ⟨rfl, -⟩ := h.pure_inv
    exact fun _ => Nat.zero_le _
  · refine makesNoCopy_pure h fun _ => ?_
    simp

theorem makesNoCopy_forLoop (h : Yields (forLoop (.obj k fs) parts) names o names') :
    MakesNoCopy Any m seat (.obj k fs) names o names' := by
  obtain ⟨init, names₁, hinit, h⟩ := h.bind_inv
  obtain ⟨t, names₂, ht, h⟩ := h.bind_inv
  have hfield := hparts.copiesIn_field_le all_any rfl hinit
  have hle := hparts.copies_descend_le all_any ht
  have hset : copies m (t.set "init" init.value) ≤ copies m t := by
    refine copies_set_le rfl ?_
    rw [hparts.get_descend ht rfl, copies_value]
    exact hfield
  cases init with
  | remove =>
    exact makesNoCopy_pure h fun _ => Nat.le_trans (copies_erase_le t "init") hle
  | keep e =>
    exact makesNoCopy_pure h fun _ => Nat.le_trans hset hle
  | splice es =>
    exact makesNoCopy_pure h fun _ => Nat.le_trans hset hle

end

theorem copies_loopTarget_le {left target : Tree} (h : loopTarget left = .ok target) :
    copies m target ≤ copies m left := by
  obtain ⟨declarations, hdeclarations, h⟩ := bind_eq_ok h
  have hget := copies_get_le m "declarations" rfl left
  have hitems := copiesIn_items_le (m := m) declarations
  have hid := copies_get_le m "id" rfl (declarations.items.headD .null)
  have hhead : copies m (declarations.items.headD .null) ≤ copiesIn m declarations.items := by
    cases declarations.items with
    | nil => exact Nat.zero_le _
    | cons d ds =>
      rw [copiesIn_cons]
      exact Nat.le_add_right _ _
  rw [get_of_need hdeclarations] at hget
  rw [get_of_need h] at hid
  omega

theorem makesNoCopy_collectionLoop (hparts : PartsFollow (MakesNoCopy Any m) k fs parts)
    (h : Yields (collectionLoop (.obj k fs) parts) names o names') :
    MakesNoCopy Any m seat (.obj k fs) names o names' := by
  obtain ⟨-, names₁, -, h⟩ := h.bind_inv
  obtain ⟨left, names₂, hleft, h⟩ := h.bind_inv
  obtain ⟨t, names₃, ht, h⟩ := h.bind_inv
  refine makesNoCopy_pure h fun _ => Nat.le_trans (copies_set_le rfl ?_) (hparts.copies_descend_le all_any ht)
  rw [hparts.get_descend ht rfl]
  exact copies_loopTarget_le hleft.lift_inv.1

theorem hoist_makesNoCopy : HandlerFollows hoistHandle (MakesNoCopy Any m) := by
  intro seat k fs names o names' hparts h
  generalize partsOf hoistHandle k fs = parts at hparts h
  have hnode : ∀ seat, Yields (hoistNode seat (.obj k fs) parts) names o names' →
      MakesNoCopy Any m seat (.obj k fs) names o names' := by
    intro seat h
    unfold hoistNode at h
    split at h
    · exact makesNoCopy_pure h fun _ => Nat.le_refl _
    split at h
    · exact makesNoCopy_statementAssignment hparts h
    split at h
    · exact makesNoCopy_forLoop hparts h
    split at h
    · exact makesNoCopy_collectionLoop hparts h
    · exact makesNoCopy_passOver hparts h
  cases seat with
  | declarator => exact makesNoCopy_declaratorAssignment hparts h
  | loopHead => exact makesNoCopy_headAssignment hparts h
  | inList => exact hnode _ h
  | alone => exact hnode _ h

end

theorem signal_makesNoCopy : HandlerFollows signalHandle (MakesNoCopy Any m) := by
  intro nesting k fs signals o signals' hparts h
  generalize partsOf signalHandle k fs = parts at hparts h
  unfold signalHandle at h
  dsimp only at h
  split at h
  · exact makesNoCopy_pure h fun _ => Nat.le_refl _
  split at h
  · exact makesNoCopy_passOver hparts h
  split at h
  · exact makesNoCopy_passOver hparts h
  · split at h
    · exact makesNoCopy_pure h fun _ => Nat.le_refl _
    · obtain ⟨-, signals₁, -, h⟩ := h.bind_inv
      refine makesNoCopy_pure h fun _ => ?_
      simp
  · split at h
    · exact makesNoCopy_pure h fun _ => Nat.le_refl _
    · refine makesNoCopy_pure h fun _ => ?_
      simp
  · obtain ⟨t, signals₁, ht, h⟩ := h.bind_inv
    obtain ⟨-, signals₂, -, h⟩ := h.bind_inv
    obtain ⟨rfl, -⟩ := h.pure_inv
    have hle := hparts.copies_descend_le all_any ht
    have hget := copies_get_le m "argument" rfl t
    refine makesNoCopy_keep fun _ => ?_
    simp only [copies_returnStatement, Option.map_some, Option.getD_some, copies_objectExpression,
      copiesIn_cons, copiesIn_nil, copies_property, copies_identifier]
    split
    · omega
    · simp
  · exact makesNoCopy_passOver hparts h

/-! ## Loops -/

theorem copiesIn_statements_le (loop : Tree) : copiesIn m (statements loop) ≤ copies m (loop.get "body") := by
  unfold statements
  dsimp only
  split
  · exact copiesIn_children_le _ _ rfl _
  · split
    · simp
    · simp [record, copies_obj]

theorem copiesIn_hoistedDeclaration (loop : Tree) (names : List (Option String)) :
    copiesIn m (hoistedDeclaration loop names) = 0 := by
  have hdeclarators : copiesIn m (names.map fun n => declarator (named n)) = 0 := by
    induction names with
    | nil => rfl
    | cons n names ih => simp [ih]
  unfold hoistedDeclaration
  split
  · rfl
  · split
    · rw [copiesIn_cons, copies_set_place rfl, copies_declaration, hdeclarators, copiesIn_nil]
    · rw [copiesIn_cons, copies_declaration, hdeclarators, copiesIn_nil]

theorem copiesIn_named (names : List (Option String)) : copiesIn m (names.map named) = 0 := by
  induction names with
  | nil => rfl
  | cons n names ih => simp [ih]

theorem copies_newBody {signals : Signals} {call body : Tree} (hcall : copies m call = 0)
    {names names' : NameSupply} (h : Yields (newBody signals call) names body names') :
    copies m body = 0 := by
  have hdispatch : ∀ resultName, copiesIn m (dispatch resultName signals) = 0 := by
    intro resultName
    unfold dispatch
    dsimp only
    split <;> split <;> simp
  unfold newBody at h
  split at h
  · obtain ⟨names₁, names₂, -, h⟩ := h.bind_inv
    obtain ⟨-, names₃, -, h⟩ := h.bind_inv
    obtain ⟨rfl, -⟩ := h.pure_inv
    simp [reactions, hcall, hdispatch]
  · obtain ⟨rfl, -⟩ := h.pure_inv
    simp [hcall]

/-- **One loop**: its body is in front of it, and in its place is nothing that was there. -/
theorem copies_wrap_le {loop : Tree} {wrapped : Wrapped} {names names' : NameSupply}
    (h : Yields (wrap loop) names wrapped names') :
    copiesIn m wrapped.before ≤ copies m (loop.get "body") ∧ copies m wrapped.body = 0 := by
  obtain ⟨⟨hoisted, varNames⟩, names₁, hhoist, h⟩ := h.bind_inv
  obtain ⟨⟨moved, signals⟩, names₂, hsignal, h⟩ := h.bind_inv
  obtain ⟨names₃, names₄, -, h⟩ := h.bind_inv
  obtain ⟨-, names₅, -, h⟩ := h.bind_inv
  obtain ⟨body, names₆, hbody, h⟩ := h.bind_inv
  obtain ⟨rfl, -⟩ := h.pure_inv
  refine ⟨?_, ?_⟩
  · have hstatements := copiesIn_statements_le (m := m) loop
    have hhoisted := (visitItems_follow hoist_makesNoCopy _ _ _ _ _ hhoist.lift_inv.1).copiesIn_le
      (m := m) all_any
    have hmoved := (visitItems_follow signal_makesNoCopy _ _ _ _ _ hsignal.lift_inv.1).copiesIn_le
      (m := m) all_any
    simp only [copiesIn_append, copiesIn_hoistedDeclaration, copiesIn_cons, copiesIn_nil, copies_var,
      Option.map_some, Option.getD_some, copies_functionExpression, copiesIn_named, copies_block]
    omega
  · refine copies_newBody ?_ hbody
    unfold invocation
    split <;> simp [copiesIn_named]

/-- **All planned loops.** The functions in front of a loop are visited in turn, one level deeper. -/
theorem wrapHandle_makesNoCopy (loops : List Nat) (depth : Nat) :
    HandlerFollows (wrapHandle loops depth) (MakesNoCopy Any m) := by
  induction depth with
  | zero =>
    intro c k fs names o names' hparts h
    exact makesNoCopy_passOver hparts h
  | succ depth ih =>
    intro c k fs names o names' hparts h
    generalize partsOf (wrapHandle loops (depth + 1)) k fs = parts at hparts h
    unfold wrapHandle at h
    dsimp only at h
    split at h
    · exact makesNoCopy_passOver hparts h
    obtain ⟨wrapped, names₁, hwrap, h⟩ := h.bind_inv
    obtain ⟨before, names₂, hbefore, h⟩ := h.bind_inv
    obtain ⟨loop, names₃, hloop, h⟩ := h.bind_inv
    obtain ⟨rfl, -⟩ := h.pure_inv
    intro _
    obtain ⟨hfront, hbody⟩ := copies_wrap_le (m := m) hwrap
    have hvisited := (visitItems_follow ih _ _ _ _ _ hbefore).copiesIn_le all_any
    have hle := hparts.copies_descend_le all_any hloop
    have hset := copies_set m "body" rfl loop wrapped.body
    rw [hparts.get_descend hloop rfl] at hset
    rw [Outcome.inList, copiesIn_append, copiesIn_cons, copiesIn_nil]
    omega

/-! ## Declarations -/

theorem copies_resetDeclarator_le (d : Tree) : copies m (resetDeclarator d) ≤ copies m d := by
  unfold resetDeclarator
  split
  · refine copies_set_le rfl ?_
    simp
  · exact Nat.le_refl _

theorem copies_convert_le (kept : List Nat) (inLoop : Bool) (t : Tree) :
    copies m (convert kept inLoop t) ≤ copies m t := by
  unfold convert
  split
  · exact Nat.le_refl _
  · refine Nat.le_trans (copies_set_le rfl (Nat.zero_le _)) ?_
    split
    · refine copies_set_le rfl ?_
      exact Nat.le_trans (copiesIn_map_le fun d _ => copies_resetDeclarator_le d) (copiesIn_items_le _)
    · exact Nat.le_refl _

theorem declareHandle_makesNoCopy (kept : List Nat) :
    HandlerFollows (declareHandle kept) (MakesNoCopy Any m) := by
  intro c k fs u o u' hparts h
  generalize partsOf (declareHandle kept) k fs = parts at hparts h
  unfold declareHandle at h
  split at h
  · obtain ⟨t, ht, rfl⟩ := h.map_inv
    exact makesNoCopy_keep fun _ =>
      Nat.le_trans (copies_convert_le _ _ _) (hparts.copies_descend_le all_any ht)
  split at h
  · exact makesNoCopy_passOver hparts h
  split at h
  · exact makesNoCopy_passOver hparts h
  · exact makesNoCopy_passOver hparts h

/-! ## The lowering -/

theorem copies_lowerMarked_le {t : Tree} {out : Lowered} (h : lowerMarked t = .ok out) :
    copies m out.tree ≤ copies m t := by
  obtain ⟨wrapped, hwrapped, h⟩ := bind_eq_ok h
  obtain ⟨declared, hdeclared, h⟩ := bind_eq_ok h
  cases h
  obtain ⟨⟨o, names⟩, hwrap, hvalue⟩ := bind_eq_ok hwrapped
  obtain ⟨⟨o', u⟩, hdeclare, hvalue'⟩ := bind_eq_ok hdeclared
  cases hvalue
  cases hvalue'
  calc copies m o'.value
    _ ≤ copies m o.value := copies_visit_le (declareHandle_makesNoCopy _) all_any hdeclare
    _ ≤ copies m (Renaming.apply _ t) := copies_visit_le (wrapHandle_makesNoCopy _ _) all_any hwrap
    _ ≤ copies m t := copies_apply_le _ t

end Downlevel.Lower.Block
