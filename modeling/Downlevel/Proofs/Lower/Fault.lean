import Downlevel.Lower.Pass
import Downlevel.Proofs.Node.Visit

/-!
# `Proofs.Lower.Fault`: why a lowering fails

A lowering takes apart whatever tree it is given. Where a node has to have a field and has none, it fails,
and says which field is missing; there is nothing else it can fail for. The names of operations, files and
sources never come up in a lowering, so neither do the faults about them.

What is put together from steps that fail for missing fields only fails for missing fields only. The ways to
put steps together are instances, so the steps of a handler are found by themselves once its cases are split.
-/

namespace Downlevel.Lower

open Tree Node

variable {C σ α β : Type}

/-! ## Missing fields -/

/-- If a computation fails, a field is missing. -/
class LacksField (x : Except Fault α) : Prop where
  missing : ∀ fault, x = .error fault → ∃ key, fault = .missingField key

namespace LacksField

instance ok (a : α) : LacksField (.ok a : Except Fault α) := ⟨nofun⟩

instance pure (a : α) : LacksField (Pure.pure a : Except Fault α) := ok a

section

variable {x y : Except Fault α} [hx : LacksField x]

instance bind {f : α → Except Fault β} [hf : ∀ a, LacksField (f a)] : LacksField (x >>= f) := by
  cases x with
  | ok a => exact hf a
  | error fault => exact ⟨fun fault' h => hx.missing fault' (by cases h; rfl)⟩

instance map {f : α → β} : LacksField (f <$> x) := by
  cases x with
  | ok a => exact ok (f a)
  | error fault => exact ⟨fun fault' h => hx.missing fault' (by cases h; rfl)⟩

instance ite {p : Prop} [Decidable p] [hy : LacksField y] : LacksField (if p then x else y) := by
  split
  · exact hx
  · exact hy

end

instance need (t : Tree) (key : String) : LacksField (t.need key) := by
  unfold Tree.need
  split
  · exact ok _
  · exact ⟨fun fault h => ⟨key, (Except.error.inj h).symm⟩⟩

instance mapM {f : α → Except Fault β} [∀ a, LacksField (f a)] (xs : List α) : LacksField (xs.mapM f) := by
  induction xs with
  | nil => exact ok _
  | cons x xs ih =>
    rw [List.mapM_cons]
    infer_instance

instance foldlM {f : β → α → Except Fault β} [hf : ∀ b a, LacksField (f b a)] (xs : List α) :
    ∀ b, LacksField (xs.foldlM f b) := by
  induction xs with
  | nil => exact fun b => ok b
  | cons x xs ih =>
    intro b
    rw [List.foldlM_cons]
    infer_instance

end LacksField

/-- If a visit fails, a field is missing. -/
class VisitLacks (x : Visit σ α) : Prop where
  run : ∀ s, LacksField (x.run s)

namespace VisitLacks

attribute [instance] run

instance pure (a : α) : VisitLacks (Pure.pure a : Visit σ α) := ⟨fun _ => .ok _⟩

section

variable {x y : Visit σ α} [hx : VisitLacks x]

instance bind {f : α → Visit σ β} [hf : ∀ a, VisitLacks (f a)] : VisitLacks (x >>= f) := by
  refine ⟨fun s => ?_⟩
  rw [StateT.run_bind]
  infer_instance

/-- The steps that follow, whose cases are still to be split. -/
theorem andThen {f : α → Visit σ β} (hf : ∀ a, VisitLacks (f a)) : VisitLacks (x >>= f) := inferInstance

instance map {f : α → β} : VisitLacks (f <$> x) := by
  refine ⟨fun s => ?_⟩
  rw [StateT.run_map]
  infer_instance

instance ite {p : Prop} [Decidable p] [hy : VisitLacks y] : VisitLacks (if p then x else y) := by
  split
  · exact hx
  · exact hy

end

instance lift {x : Except Fault α} [LacksField x] : VisitLacks (liftM x : Visit σ α) := by
  refine ⟨fun s => ?_⟩
  show LacksField (x >>= fun a => .ok (a, s))
  infer_instance

instance require (t : Tree) (key : String) : VisitLacks (Lower.require t key : Visit σ Tree) := lift

instance of_modify (f : σ → σ) : VisitLacks (modify f : Visit σ PUnit) := ⟨fun _ => .ok _⟩

instance of_get : VisitLacks (get : Visit σ σ) := ⟨fun _ => .ok _⟩

instance of_set (s : σ) : VisitLacks (set s : Visit σ PUnit) := ⟨fun _ => .ok _⟩

instance decline (pass message : String) (t : Tree) : VisitLacks (Lower.decline pass message t) := of_modify _

end VisitLacks

/-! ## Visits -/

/-- The parts of a node under visit fail for missing fields only. -/
class PartsLack (parts : Parts C σ) : Prop where
  field : ∀ key c, VisitLacks (parts.field key c)
  descend : ∀ contexts, VisitLacks (parts.descend contexts)

attribute [instance] PartsLack.field PartsLack.descend

instance PartsLack.passOver {parts : Parts C σ} [PartsLack parts] (c : C) :
    VisitLacks (Node.passOver c parts) := VisitLacks.map

/-- The handler fails for missing fields only, as long as the parts of its node do. -/
class HandlerLacks (handle : Handler C σ) : Prop where
  node : ∀ c t parts [PartsLack parts], VisitLacks (handle c t parts)

section

variable {handle : Handler C σ} [hhandle : HandlerLacks handle]

set_option linter.unusedSectionVars false

mutual

/-- **A visit fails for missing fields only**, if its handler does. -/
instance lacksField_visit : ∀ (t : Tree) (c : C), VisitLacks (visit handle c t)
  | .obj m fs, c => by
    have := lacksField_visitField fs
    have := lacksField_visitFields fs
    rw [visit]
    exact @hhandle.node c _ _ ⟨inferInstance, inferInstance⟩
  | .list xs, c => by
    have := lacksField_visitItems xs c
    rw [visit]
    infer_instance
  | .null, c | .bool _, c | .int _, c | .real _, c | .str _, c => by
    rw [visit]
    infer_instance

instance lacksField_visitField : ∀ (fs : Fields) (key : String) (c : C), VisitLacks (visitField handle c key fs)
  | [], _, _ => .pure _
  | (k, v) :: rest, key, c => by
    have := lacksField_visit v c
    have := lacksField_visitField rest key c
    rw [visitField]
    infer_instance

instance lacksField_visitFields : ∀ (fs : Fields) (contexts : String → Option C),
    VisitLacks (visitFields handle contexts fs)
  | [], _ => .pure _
  | (k, v) :: rest, contexts => by
    have := lacksField_visit v
    have := lacksField_visitFields rest contexts
    have hentry : VisitLacks (visitEntry handle contexts k v) := by
      unfold visitEntry
      split <;> infer_instance
    rw [visitFields_cons]
    infer_instance

instance lacksField_visitItems : ∀ (xs : List Tree) (c : C), VisitLacks (visitItems handle c xs)
  | [], _ => .pure _
  | t :: rest, c => by
    have := lacksField_visit t c
    have := lacksField_visitItems rest c
    have hitem : VisitLacks (visitItem handle c t) := VisitLacks.ite
    rw [visitItems_cons]
    infer_instance

end

end

instance lacksField_run {handle : Handler C Work} [HandlerLacks handle] (c : C) (t : Tree) :
    LacksField (run handle c t) := LacksField.bind

instance visitLacks_freshName (hint : String) : VisitLacks (freshName hint) := VisitLacks.bind

/-! ## Templates, methods, default arguments -/

instance Template.handle_lacks : HandlerLacks Template.handle where
  node position t parts _ := by
    unfold Template.handle
    split
    · infer_instance
    · split <;> infer_instance

instance Method.handle_lacks : HandlerLacks Method.handle where
  node c t parts _ := by
    unfold Method.handle Method.property
    infer_instance

instance Default.lacksField_splitDefaults (params : List Tree) :
    LacksField (Default.splitDefaults params) := by
  induction params with
  | nil => exact .ok _
  | cons param rest ih =>
    rw [Default.splitDefaults]
    infer_instance

instance Default.visitLacks_function (t : Tree) : VisitLacks (Default.function t) := by
  unfold Default.function
  simp only []
  split
  · infer_instance
  split
  · infer_instance
  split <;> infer_instance

instance Default.handle_lacks : HandlerLacks Default.handle where
  node c t parts _ := by
    unfold Default.handle
    infer_instance

/-! ## Classes -/

namespace Class

instance replaceHandle_lacks (superName : String) (isStatic : Bool) :
    HandlerLacks (replaceHandle superName isStatic) where
  node depth t parts _ := by
    unfold replaceHandle
    split <;> infer_instance

instance lacksField_replaceSuper (superName : String) (method : Tree) :
    LacksField (replaceSuper superName method) := by
  unfold replaceSuper replace
  infer_instance

instance lacksField_addMember (className : String) (members : List Member) (method : Tree) :
    LacksField (addMember className members method) := by
  unfold addMember addAccessor accessorProperty methodStatement
  infer_instance

instance lacksField_memberStatements (className : String) (methods : List Tree) :
    LacksField (memberStatements className methods) := LacksField.bind

instance lacksField_constructorFunction (className : String) (constructor? : Option Tree)
    (superName? : Option String) : LacksField (constructorFunction className constructor? superName?) := by
  unfold constructorFunction
  split <;> infer_instance

instance visitLacks_lowerClass (t : Tree) : VisitLacks (lowerClass t) := by
  unfold lowerClass nameOf baseClass derivedClass
  simp only []
  split
  · infer_instance
  split <;> infer_instance

instance lacksField_letBinding (classId value place : Tree) : LacksField (letBinding classId value place) :=
  LacksField.bind

instance handle_lacks : HandlerLacks handle where
  node position t parts _ := by
    unfold handle
    split
    · refine .andThen fun t => .andThen fun value => ?_
      split <;> infer_instance
    · refine .andThen fun t => .andThen fun value => ?_
      split <;> infer_instance
    · unfold exportedClass
      split
      · refine .andThen fun visited => .andThen fun value => ?_
        split <;> infer_instance
      · infer_instance
    · infer_instance

end Class

/-! ## Arrow functions -/

namespace Arrow

instance visitLacks_thisName : VisitLacks thisName := by
  refine .andThen fun s => ?_
  split <;> infer_instance

instance visitLacks_argumentsName : VisitLacks argumentsName := by
  refine .andThen fun s => ?_
  split <;> infer_instance

instance visitLacks_aliasDeclarations : VisitLacks aliasDeclarations := by
  unfold aliasDeclarations
  infer_instance

instance visitLacks_leave (message : String) (t : Tree) : VisitLacks (leave message t) := .of_modify _

instance handle_lacks : HandlerLacks handle where
  node c t parts _ := by
    unfold handle frame arrow aliasThis aliasArguments memberExpression keyed
    split <;> infer_instance

end Arrow

/-! ## Block bindings -/

namespace Block

instance hoistHandle_lacks : HandlerLacks hoistHandle where
  node seat t parts _ := by
    have hcollect : VisitLacks (collect parts) := VisitLacks.bind
    have hhead : VisitLacks (headAssignment parts) := by
      refine .andThen fun e => ?_
      split <;> infer_instance
    have hstatement : VisitLacks (statementAssignment seat t parts) := by
      refine .andThen fun e => ?_
      split <;> infer_instance
    have hfor : VisitLacks (forLoop t parts) := by
      refine .andThen fun init => .andThen fun t' => ?_
      split <;> infer_instance
    unfold hoistHandle hoistNode declaratorAssignment collectionLoop loopTarget
    split <;> infer_instance

instance signalHandle_lacks : HandlerLacks signalHandle where
  node nesting t parts _ := by
    unfold signalHandle
    simp only []
    split
    · infer_instance
    split
    · infer_instance
    split <;> infer_instance

instance visitLacks_wrap (loop : Tree) : VisitLacks (wrap loop) := by
  unfold wrap newBody hoist signal
  infer_instance

instance wrapHandle_lacks (loops : List Nat) (depth : Nat) :
    HandlerLacks (wrapHandle loops depth) := by
  induction depth with
  | zero => exact ⟨fun _ _ _ _ => PartsLack.passOver _⟩
  | succ =>
    refine ⟨fun c t parts _ => ?_⟩
    unfold wrapHandle
    infer_instance

instance declareHandle_lacks (kept : List Nat) : HandlerLacks (declareHandle kept) where
  node c t parts _ := by
    unfold declareHandle
    infer_instance

instance lacksField_lower (t : Tree) : LacksField (lower t) := by
  unfold lower lowerMarked wrapLoops declareVars
  infer_instance

end Block

/-! ## All lowerings -/

/-- **A lowering fails for missing fields only.** -/
theorem Pass.lower_error {p : Pass} {t : Tree} {fault : Fault} (h : p.lower t = .error fault) :
    ∃ key, fault = .missingField key := by
  have hlacks : LacksField (p.lower t) := by
    cases p with
    | classes => exact lacksField_run _ _
    | stringTemplates => exact lacksField_run _ _
    | arrowFunctions => exact LacksField.bind
    | blockScopedBindings => exact Block.lacksField_lower t
    | defaultArguments => exact lacksField_run _ _
    | objectMethods => exact lacksField_run _ _
  exact hlacks.missing fault h

end Downlevel.Lower
