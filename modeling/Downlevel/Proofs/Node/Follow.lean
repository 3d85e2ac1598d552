import Downlevel.Proofs.Node.Visit
import Downlevel.Proofs.Tree.Fields

/-!
# `Proofs.Node.Follow`: laws that visits follow

A **law** relates a node and the state before a visit to the outcome and the state after it. If a handler
follows a law as long as the parts of its node do, then every visit that does not fail follows it: an
induction over the tree, made once for all handlers and all laws.
-/

namespace Downlevel.Node

open Tree

variable {C σ α β : Type} {c : C} {s s' : σ} {key : String} {contexts : String → Option C}
  {fs gs : Fields}

/-! ## Taking visits apart -/

/-- What was done before something that did not fail did not fail. -/
theorem bind_eq_ok {x : Except Fault α} {f : α → Except Fault β} {b : β}
    (h : (x >>= f) = .ok b) : ∃ a, x = .ok a ∧ f a = .ok b := by
  cases x with
  | error fault => cases h
  | ok a => exact ⟨a, rfl, h⟩

theorem eq_ok_of_toOption {x : Except Fault α} {a : α} (h : x.toOption = some a) : x = .ok a := by
  cases x with
  | error fault => cases h
  | ok b =>
    cases h
    rfl

namespace Yields

variable {s s' : σ} {a : α} {x : Visit σ α}

theorem pure_inv {b : α} (h : Yields (Pure.pure a) s b s') : b = a ∧ s' = s := by
  cases h
  exact ⟨rfl, rfl⟩

theorem bind_inv {f : α → Visit σ β} {s'' : σ} {b : β} (h : Yields (x >>= f) s b s'') :
    ∃ a s', Yields x s a s' ∧ Yields (f a) s' b s'' := by
  unfold Yields at h ⊢
  rw [StateT.run_bind] at h
  cases hx : x.run s with
  | error fault =>
    rw [hx] at h
    cases h
  | ok p =>
    rw [hx] at h
    exact ⟨p.1, p.2, rfl, h⟩

theorem map_inv {f : α → β} {b : β} (h : Yields (f <$> x) s b s') : ∃ a, Yields x s a s' ∧ b = f a := by
  unfold Yields at h ⊢
  rw [StateT.run_map] at h
  cases hx : x.run s with
  | error fault =>
    rw [hx] at h
    cases h
  | ok p =>
    rw [hx] at h
    cases h
    exact ⟨p.1, rfl, rfl⟩

theorem lift_inv {x : Except Fault α} (h : Yields (liftM x) s a s') : x = .ok a ∧ s' = s := by
  cases x with
  | error fault => cases h
  | ok b =>
    cases h
    exact ⟨rfl, rfl⟩

/-- A visit gives one result. -/
theorem unique {s₁ s₂ : σ} {b : α} (h₁ : Yields x s a s₁) (h₂ : Yields x s b s₂) : a = b ∧ s₁ = s₂ := by
  unfold Yields at h₁ h₂
  rw [h₁] at h₂
  cases h₂
  exact ⟨rfl, rfl⟩

end Yields

/-! ## Laws -/

/-- What a visit makes of a node in a context, and of the state. -/
abbrev Law (C σ : Type) := C → Tree → σ → Outcome → σ → Prop

variable {L : Law C σ}

/-- The nodes of a list are visited by the law; all other items stay. -/
inductive ItemsFollow (L : Law C σ) (c : C) : List Tree → σ → List Tree → σ → Prop
  | nil (s : σ) : ItemsFollow L c [] s [] s
  | pass {t : Tree} {rest ys : List Tree} {s s' : σ} (ht : t.isNode = false)
      (h : ItemsFollow L c rest s ys s') : ItemsFollow L c (t :: rest) s (t :: ys) s'
  | visit {t : Tree} {rest ys : List Tree} {s s₁ s' : σ} {o : Outcome} (ht : t.isNode)
      (ho : L c t s o s₁) (h : ItemsFollow L c rest s₁ ys s') :
      ItemsFollow L c (t :: rest) s (o.inList ++ ys) s'

/-- A node of a list that is kept is an item of what is left of the list. -/
theorem ItemsFollow.exists_mem {xs ys : List Tree} (h : ItemsFollow L c xs s ys s') {x : Tree} (hx : x ∈ xs)
    (hnode : x.isNode) {P : Tree → Prop} (hP : ∀ {s o s'}, L c x s o s' → ∃ y, o = .keep y ∧ P y) :
    ∃ y ∈ ys, P y := by
  induction h with
  | nil => cases hx
  | pass ht h ih =>
    rcases List.mem_cons.mp hx with rfl | hx
    · rw [hnode] at ht
      cases ht
    · obtain ⟨y, hy, hPy⟩ := ih hx
      exact ⟨y, List.mem_cons_of_mem _ hy, hPy⟩
  | visit ht ho h ih =>
    rcases List.mem_cons.mp hx with rfl | hx
    · obtain ⟨y, rfl, hPy⟩ := hP ho
      exact ⟨y, List.mem_cons_self, hPy⟩
    · obtain ⟨y, hy, hPy⟩ := ih hx
      exact ⟨y, List.mem_append_right _ hy, hPy⟩

/-- A value is visited: objects by the law, lists item by item. -/
inductive ValueFollows (L : Law C σ) (c : C) : Tree → σ → Outcome → σ → Prop
  | scalar {t : Tree} (h : t.isScalar) (s : σ) : ValueFollows L c t s (.keep t) s
  | object {m : Option Nat} {fs : List (String × Tree)} {s s' : σ} {o : Outcome}
      (h : L c (.obj m fs) s o s') : ValueFollows L c (.obj m fs) s o s'
  | list {xs ys : List Tree} {s s' : σ} (h : ItemsFollow L c xs s ys s') :
      ValueFollows L c (.list xs) s (.keep (.list ys)) s'

/-- An object is visited by the law. -/
theorem ValueFollows.of_isObject {t : Tree} {o : Outcome} (h : ValueFollows L c t s o s')
    (hobject : t.isObject) : L c t s o s' := by
  cases h with
  | scalar hscalar =>
    cases t with
    | obj m fs => cases hscalar
    | _ => cases hobject
  | object h => exact h
  | list h => cases hobject

/-- Fields that hold syntax and have a context are visited; all others stay. -/
inductive FieldsFollow (L : Law C σ) (contexts : String → Option C) :
    List (String × Tree) → σ → List (String × Tree) → σ → Prop
  | nil (s : σ) : FieldsFollow L contexts [] s [] s
  | pass {k : String} {v : Tree} {rest gs : List (String × Tree)} {s s' : σ}
      (hk : ∀ c, contexts k = some c → (isSyntaxKey k && isVisited v) = false)
      (h : FieldsFollow L contexts rest s gs s') :
      FieldsFollow L contexts ((k, v) :: rest) s ((k, v) :: gs) s'
  | visit {k : String} {v : Tree} {c : C} {o : Outcome} {rest gs : List (String × Tree)}
      {s s₁ s' : σ} (hc : contexts k = some c) (hk : (isSyntaxKey k && isVisited v))
      (ho : ValueFollows L c v s o s₁) (h : FieldsFollow L contexts rest s₁ gs s') :
      FieldsFollow L contexts ((k, v) :: rest) s (o.inField k v ++ gs) s'

/-- What an outcome leaves of a field is no other field. -/
theorem lookup_inField {k : String} (hne : k ≠ key) (v : Tree) (o : Outcome) (gs : Fields) :
    lookup key (o.inField k v ++ gs) = lookup key gs := by
  cases o with
  | remove => rfl
  | keep t => rw [Outcome.inField, List.singleton_append, lookup, if_neg hne]
  | splice ts => rw [Outcome.inField, List.singleton_append, lookup, if_neg hne]

section

variable (h : FieldsFollow L contexts fs s gs s')

include h

/-- One field of a node whose fields are visited: it stays missing, it stays, or it is visited. -/
theorem FieldsFollow.lookup_cases (key : String) :
    (lookup key fs = none ∧ lookup key gs = none) ∨ ∃ v, lookup key fs = some v ∧
      (((∀ c, contexts key = some c → (isSyntaxKey key && isVisited v) = false) ∧
          lookup key gs = some v) ∨
        ∃ c o s₁ s₂, contexts key = some c ∧ (isSyntaxKey key && isVisited v) ∧
          ValueFollows L c v s₁ o s₂ ∧ ∀ t, o = .keep t → lookup key gs = some t) := by
  induction h with
  | nil => exact .inl ⟨rfl, rfl⟩
  | @pass k w rest gs s s' hk h ih =>
    rw [lookup, lookup]
    split
    · rename_i heq
      subst heq
      exact .inr ⟨w, rfl, .inl ⟨hk, rfl⟩⟩
    · exact ih
  | @visit k w c o rest gs s s₁ s' hc hk ho h ih =>
    rw [lookup]
    by_cases heq : k = key
    · subst heq
      rw [if_pos rfl]
      refine .inr ⟨w, rfl, .inr ⟨c, o, s, s₁, hc, hk, ho, ?_⟩⟩
      rintro t rfl
      rw [Outcome.inField, List.singleton_append, lookup, if_pos rfl]
    · rw [if_neg heq, lookup_inField heq]
      exact ih

theorem FieldsFollow.lookup {v : Tree} (hv : lookup key fs = some v) :
    ((∀ c, contexts key = some c → (isSyntaxKey key && isVisited v) = false) ∧
        Tree.lookup key gs = some v) ∨
      ∃ c o s₁ s₂, contexts key = some c ∧ (isSyntaxKey key && isVisited v) ∧
        ValueFollows L c v s₁ o s₂ ∧ ∀ t, o = .keep t → Tree.lookup key gs = some t := by
  rcases h.lookup_cases key with ⟨hnone, -⟩ | ⟨w, hw, hcases⟩
  · cases hnone.symm.trans hv
  · cases hw.symm.trans hv
    exact hcases

/-- A field that is visited and kept. -/
theorem FieldsFollow.get_visited {m : Option Nat} (hc : contexts key = some c) (hkey : isSyntaxKey key)
    (hvisited : isVisited ((Tree.obj m fs).get key)) {P : Tree → Prop}
    (hkeep : ∀ {s₁ o s₂}, ValueFollows L c ((Tree.obj m fs).get key) s₁ o s₂ → ∃ v, o = .keep v ∧ P v) :
    P ((Tree.obj m gs).get key) := by
  have hv : Tree.lookup key fs = some ((Tree.obj m fs).get key) := by
    refine lookup_of_get (m := m) rfl ?_
    cases hget : (Tree.obj m fs).get key <;> rw [hget] at hvisited <;> first | rfl | cases hvisited
  rcases h.lookup hv with ⟨hnot, -⟩ | ⟨c', o, s₁, s₂, hc', -, ho, hgs⟩
  · have hno := hnot c hc
    rw [hkey, hvisited] at hno
    cases hno
  · cases hc.symm.trans hc'
    obtain ⟨v, hv, hP⟩ := hkeep ho
    have hget : (Tree.obj m gs).get key = v := by
      rw [Tree.get, get?, fields, hgs v hv]
      rfl
    rwa [hget]

/-- A visit keeps the type of a node. -/
theorem FieldsFollow.type? (m : Option Nat) {type : String} (htype : (Tree.obj m fs).type? = some type) :
    (Tree.obj m gs).type? = some type := by
  have hv : Tree.lookup "type" fs = some (.str type) := lookup_of_get (m := m) (get_type_of_type? htype) rfl
  rcases h.lookup hv with ⟨-, hsame⟩ | ⟨c, o, s₁, s₂, -, hk, -⟩
  · rw [Tree.type?, Tree.get, get?, fields, hsame]
    rfl
  · cases hk

end

/-- The parts of a node follow the law. -/
structure PartsFollow (L : Law C σ) (m : Option Nat) (fs : List (String × Tree))
    (parts : Parts C σ) : Prop where
  field : ∀ {key c s o s'}, Yields (parts.field key c) s o s' →
    (lookup key fs = none ∧ o = .remove ∧ s' = s) ∨ ∃ v, lookup key fs = some v ∧ ValueFollows L c v s o s'
  descend : ∀ {contexts s t s'}, Yields (parts.descend contexts) s t s' →
    ∃ gs, t = .obj m gs ∧ FieldsFollow L contexts fs s gs s'

/-- The parts of a node, visited by a handler. -/
def partsOf (handle : Handler C σ) (m : Option Nat) (fs : List (String × Tree)) : Parts C σ where
  field := fun key c => visitField handle c key fs
  descend := fun contexts => Tree.obj m <$> visitFields handle contexts fs

/-- The handler follows the law as long as the parts of its node do. -/
def HandlerFollows (handle : Handler C σ) (L : Law C σ) : Prop :=
  ∀ c m fs s o s', PartsFollow L m fs (partsOf handle m fs) →
    Yields (handle c (.obj m fs) (partsOf handle m fs)) s o s' → L c (.obj m fs) s o s'

/-! ## Visits -/

section

variable {handle : Handler C σ} {L : Law C σ}

/-- What a handler does with a node: a law that it follows. -/
def visitLaw (handle : Handler C σ) : Law C σ := fun c t s o s' => Yields (visit handle c t) s o s'

theorem follows_visitLaw : HandlerFollows handle (visitLaw handle) := by
  intro c m fs s o s' _ h
  rwa [visitLaw, visit]

variable (hhandle : HandlerFollows handle L)

include hhandle

set_option linter.unusedSectionVars false

mutual

/-- **Every visit follows the law** that its handler follows. -/
theorem visit_follows : ∀ (t : Tree) (c : C) (s : σ)
    (o : Outcome) (s' : σ), Yields (visit handle c t) s o s' → ValueFollows L c t s o s'
  | .obj m fs, c, s, o, s', h => by
    rw [visit] at h
    refine .object (hhandle c m fs s o s' ⟨fun h => ?_, fun h => ?_⟩ h)
    · exact visitField_follows fs _ _ _ _ _ h
    · obtain ⟨gs, hgs, rfl⟩ := h.map_inv
      exact ⟨gs, rfl, visitFields_follow fs _ _ _ _ hgs⟩
  | .list xs, c, s, o, s', h => by
    rw [visit] at h
    obtain ⟨ys, hys, rfl⟩ := h.map_inv
    exact .list (visitItems_follow xs c s ys s' hys)
  | .null, c, s, o, s', h | .bool _, c, s, o, s', h | .int _, c, s, o, s', h
  | .real _, c, s, o, s', h | .str _, c, s, o, s', h => by
    rw [visit] at h
    obtain ⟨rfl, rfl⟩ := h.pure_inv
    exact .scalar rfl _

theorem visitField_follows :
    ∀ (fs : Fields) (key : String) (c : C) (s : σ) (o : Outcome) (s' : σ),
      Yields (visitField handle c key fs) s o s' →
      (lookup key fs = none ∧ o = .remove ∧ s' = s) ∨
        ∃ v, lookup key fs = some v ∧ ValueFollows L c v s o s'
  | [], key, c, s, o, s', h => by
    rw [visitField] at h
    obtain ⟨rfl, rfl⟩ := h.pure_inv
    exact .inl ⟨rfl, rfl, rfl⟩
  | (k, v) :: rest, key, c, s, o, s', h => by
    rw [visitField] at h
    rw [lookup]
    by_cases hk : k = key
    · rw [if_pos hk] at h ⊢
      exact .inr ⟨v, rfl, visit_follows v c s o s' h⟩
    · rw [if_neg hk] at h ⊢
      exact visitField_follows rest key c s o s' h

theorem visitFields_follow :
    ∀ (fs : Fields) (contexts : String → Option C) (s : σ)
      (gs : Fields) (s' : σ), Yields (visitFields handle contexts fs) s gs s' →
      FieldsFollow L contexts fs s gs s'
  | [], contexts, s, gs, s', h => by
    rw [visitFields] at h
    obtain ⟨rfl, rfl⟩ := h.pure_inv
    exact .nil _
  | (k, v) :: rest, contexts, s, gs, s', h => by
    rw [visitFields_cons] at h
    obtain ⟨head, s₁, hhead, h⟩ := h.bind_inv
    obtain ⟨tail, s₂, htail, h⟩ := h.bind_inv
    obtain ⟨rfl, rfl⟩ := h.pure_inv
    have hrest := visitFields_follow rest contexts s₁ tail _ htail
    unfold visitEntry at hhead
    cases hc : contexts k with
    | none =>
      rw [hc] at hhead
      obtain ⟨rfl, rfl⟩ := hhead.pure_inv
      exact .pass (by simp [hc]) hrest
    | some c =>
      rw [hc] at hhead
      simp only at hhead
      split at hhead
      · rename_i hvisited
        obtain ⟨o, ho, rfl⟩ := hhead.map_inv
        exact .visit hc hvisited (visit_follows v c s o _ ho) hrest
      · rename_i hnot
        obtain ⟨rfl, rfl⟩ := hhead.pure_inv
        exact .pass (fun _ _ => Bool.not_eq_true _ ▸ hnot) hrest

theorem visitItems_follow :
    ∀ (xs : List Tree) (c : C) (s : σ) (ys : List Tree) (s' : σ),
      Yields (visitItems handle c xs) s ys s' → ItemsFollow L c xs s ys s'
  | [], c, s, ys, s', h => by
    rw [visitItems] at h
    obtain ⟨rfl, rfl⟩ := h.pure_inv
    exact .nil _
  | t :: rest, c, s, ys, s', h => by
    rw [visitItems_cons] at h
    obtain ⟨head, s₁, hhead, h⟩ := h.bind_inv
    obtain ⟨tail, s₂, htail, h⟩ := h.bind_inv
    obtain ⟨rfl, rfl⟩ := h.pure_inv
    have hrest := visitItems_follow rest c s₁ tail _ htail
    unfold visitItem at hhead
    cases ht : t.isNode with
    | false =>
      rw [if_neg (by simp [ht])] at hhead
      obtain ⟨rfl, rfl⟩ := hhead.pure_inv
      exact .pass ht hrest
    | true =>
      rw [if_pos ht] at hhead
      obtain ⟨o, ho, rfl⟩ := hhead.map_inv
      cases visit_follows t c s o _ ho with
      | scalar hscalar =>
        cases t with
        | obj m fs => cases hscalar
        | _ => cases ht
      | object h => exact .visit ht h hrest
      | list h => cases ht

end

/-- The parts of a node under visit follow the law. -/
theorem partsOf_follow (m : Option Nat) (fs : Fields) :
    PartsFollow L m fs (partsOf handle m fs) := by
  refine ⟨fun h => visitField_follows hhandle fs _ _ _ _ _ h, fun h => ?_⟩
  obtain ⟨gs, hgs, rfl⟩ := h.map_inv
  exact ⟨gs, rfl, visitFields_follow hhandle fs _ _ _ _ hgs⟩

end

end Downlevel.Node
