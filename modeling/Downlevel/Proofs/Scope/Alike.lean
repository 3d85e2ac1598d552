import Downlevel.Proofs.Scope.Chain
import Downlevel.Proofs.Scope.Congruence

/-!
# `Proofs.Scope.Alike`: analyses of changed trees

Alike outlines number their scopes alike. The scopes of a changed tree are around each other as before,
each binding is in the scope it was in, or in the function of that scope when it has become `var`, and
each reference is where it was.
-/

namespace Downlevel.Scope

variable {chain chain' : List ScopeInfo}

/-! ## Outlines -/

/-- Outlines that differ by a change. -/
inductive Alike (x : Change) : List Item → List Item → Prop where
  | nil : Alike x [] []
  | declare {id id' : Tree} {b b' : Binder} {xs xs' : List Item} : IdentifierLike x id id' →
      BinderLike x b b' → Alike x xs xs' →
      Alike x (.declare id b.kind b.hoisted b.declaration :: xs)
        (.declare id' b'.kind b'.hoisted b'.declaration :: xs')
  | refer {id id' : Tree} {write : Bool} {xs xs' : List Item} : IdentifierLike x id id' →
      Alike x xs xs' → Alike x (.refer id write :: xs) (.refer id' write :: xs')
  | unread {id : Tree} {write : Bool} {xs xs' : List Item} : id.type? = some "JSXIdentifier" →
      Alike x xs xs' → Alike x (.refer id write :: xs) xs'
  | issue {code : IssueCode} {node node' : Tree} {xs xs' : List Item} : Alike x xs xs' →
      Alike x (.issue code node :: xs) (.issue code node' :: xs')
  | quiet {code : IssueCode} {node : Tree} {xs xs' : List Item} : Alike x xs xs' →
      Alike x (.issue code node :: xs) xs'
  | scope {type : ScopeType} {node node' : Tree} {ys ys' xs xs' : List Item} : Alike x ys ys' →
      Alike x xs xs' → Alike x (.scope type node ys :: xs) (.scope type node' ys' :: xs')
  | outside {ys ys' xs xs' : List Item} : Alike x ys ys' → Alike x xs xs' →
      Alike x (.outside ys :: xs) (.outside ys' :: xs')

namespace Alike

variable {x : Change}

theorem append {xs xs' ys ys' : List Item} (h : Alike x xs xs') (h' : Alike x ys ys') :
    Alike x (xs ++ ys) (xs' ++ ys') := by
  induction h with
  | nil => exact h'
  | declare hid hb _ ih => exact .declare hid hb ih
  | refer hid _ ih => exact .refer hid ih
  | unread hid _ ih => exact .unread hid ih
  | issue _ ih => exact .issue ih
  | quiet _ ih => exact .quiet ih
  | scope hys _ _ ih => exact .scope hys ih
  | outside hys _ _ ih => exact .outside hys ih

theorem isCongruence (x : Change) : IsCongruence x (Alike x) where
  nil := .nil
  append := append
  declare := fun hid hb => .declare hid hb .nil
  refer := fun hid => .refer hid .nil
  unread := fun hid => .unread hid .nil
  issue := .issue .nil
  quiet := .quiet .nil
  scope := fun h => .scope h .nil
  outside := fun h => .outside h .nil

end Alike

/-! ## Events -/

/-- A scope of a changed tree. -/
structure ScopeAlike (s s' : ScopeInfo) : Prop where
  id : s'.id = s.id
  ancestors : s'.ancestors = s.ancestors
  function : s'.function = s.function

/-- A binding of a changed tree: it is where it was, or has moved to its function. -/
structure BindingAlike (x : Change) (functionOf : Nat → Nat) (b b' : Binding) : Prop where
  identifier : IdentifierLike x b.identifier b'.identifier
  mark : KeepsMark b.declaration b'.declaration
  moved : b'.kind = b.kind ∧ b'.scope = b.scope ∨ b.kind.isBlockScoped ∧ b'.kind = .var ∧
    b'.scope = functionOf b.scope ∧ x.moves b.declaration.mark?

/-- A reference of a changed tree. -/
structure ReferenceAlike (x : Change) (r r' : Reference) : Prop where
  identifier : IdentifierLike x r.identifier r'.identifier
  scope : r'.scope = r.scope

/-- The events of a changed tree. -/
inductive EventsAlike (x : Change) (functionOf : Nat → Nat) : List Event → List Event → Prop where
  | nil : EventsAlike x functionOf [] []
  | opened {s s' : ScopeInfo} {es es' : List Event} : ScopeAlike s s' →
      EventsAlike x functionOf es es' → EventsAlike x functionOf (.opened s :: es) (.opened s' :: es')
  | bound {b b' : Binding} {es es' : List Event} : BindingAlike x functionOf b b' →
      EventsAlike x functionOf es es' → EventsAlike x functionOf (.bound b :: es) (.bound b' :: es')
  | referred {r r' : Reference} {es es' : List Event} : ReferenceAlike x r r' →
      EventsAlike x functionOf es es' →
      EventsAlike x functionOf (.referred r :: es) (.referred r' :: es')
  | unread {r : Reference} {es es' : List Event} : r.identifier.type? = some "JSXIdentifier" →
      EventsAlike x functionOf es es' → EventsAlike x functionOf (.referred r :: es) es'
  | noted {i i' : Issue} {es es' : List Event} : EventsAlike x functionOf es es' →
      EventsAlike x functionOf (.noted i :: es) (.noted i' :: es')
  | quiet {i : Issue} {es es' : List Event} : EventsAlike x functionOf es es' →
      EventsAlike x functionOf (.noted i :: es) es'

section

variable {x : Change} {functionOf : Nat → Nat}

theorem EventsAlike.append {es es' fs fs' : List Event} (h : EventsAlike x functionOf es es')
    (h' : EventsAlike x functionOf fs fs') : EventsAlike x functionOf (es ++ fs) (es' ++ fs') := by
  induction h with
  | nil => exact h'
  | opened hs _ ih => exact .opened hs ih
  | bound hb _ ih => exact .bound hb ih
  | referred hr _ ih => exact .referred hr ih
  | unread hr _ ih => exact .unread hr ih
  | noted _ ih => exact .noted ih
  | quiet _ ih => exact .quiet ih

section

variable (h : List.Forall₂ ScopeAlike chain chain')

include h

/-- A scope opened in alike chains. -/
theorem scopeAlike_openScope (id : Nat) (type : ScopeType) (node node' : Tree) :
    ScopeAlike (openScope chain id type node) (openScope chain' id type node') where
  id := rfl
  ancestors := by
    have hids : chain'.map (·.id) = chain.map (·.id) := by
      induction h with
      | nil => rfl
      | cons hs _ ih => rw [List.map_cons, List.map_cons, ih, hs.id]
    simp only [openScope, hids]
  function := by
    cases h with
    | nil => rfl
    | cons hs _ => simp only [openScope, hs.function]

theorem targetScope_alike (hoisted : Bool) : targetScope chain' hoisted = targetScope chain hoisted := by
  cases h with
  | nil => rfl
  | cons hs _ => simp only [targetScope, hs.id, hs.function]

/-- A declaration made in alike chains. -/
theorem bindingAlike_declare (hzero : functionOf 0 = 0) (hfun : ∀ s ∈ chain, functionOf s.id = s.function)
    {id id' : Tree} {b b' : Binder} (hid : IdentifierLike x id id') (hb : BinderLike x b b') :
    BindingAlike x functionOf ⟨id, b.kind, b.declaration, targetScope chain b.hoisted⟩
      ⟨id', b'.kind, b'.declaration, targetScope chain' b'.hoisted⟩ where
  identifier := hid
  mark := hb.mark
  moved := by
    rw [targetScope_alike h]
    rcases hb.kind with ⟨hkind, hhoisted⟩ | ⟨hkind, hhoisted, hkind', hhoisted', hmoves⟩
    · exact .inl ⟨hkind, by rw [hhoisted]⟩
    · refine .inr ⟨hkind, hkind', ?_, hmoves⟩
      rw [hhoisted, hhoisted']
      cases chain with
      | nil => exact hzero.symm
      | cons s rest => exact (hfun s List.mem_cons_self).symm

end

/-- **Alike outlines have alike events**, and use up the same numbers. -/
theorem eventsAlike_events {items items' : List Item} (h : Alike x items items')
    (hzero : functionOf 0 = 0) (next : Nat) (hchain : List.Forall₂ ScopeAlike chain chain')
    (hfun : ∀ s ∈ chain, functionOf s.id = s.function)
    (hopened : ∀ s, .opened s ∈ (events chain next items).1 → functionOf s.id = s.function) :
    EventsAlike x functionOf (events chain next items).1 (events chain' next items').1 ∧
      (events chain' next items').2 = (events chain next items).2 := by
  induction h generalizing chain chain' next with
  | nil => exact ⟨.nil, rfl⟩
  | declare hid hb _ ih =>
    obtain ⟨hes, hnext⟩ := ih next hchain hfun fun s hs => hopened s (.tail _ hs)
    exact ⟨.bound (bindingAlike_declare hchain hzero hfun hid hb) hes, hnext⟩
  | refer hid _ ih =>
    obtain ⟨hes, hnext⟩ := ih next hchain hfun fun s hs => hopened s (.tail _ hs)
    exact ⟨.referred ⟨hid, targetScope_alike hchain false⟩ hes, hnext⟩
  | unread hid _ ih =>
    obtain ⟨hes, hnext⟩ := ih next hchain hfun fun s hs => hopened s (.tail _ hs)
    exact ⟨.unread hid hes, hnext⟩
  | issue _ ih =>
    obtain ⟨hes, hnext⟩ := ih next hchain hfun fun s hs => hopened s (.tail _ hs)
    exact ⟨.noted hes, hnext⟩
  | quiet _ ih =>
    obtain ⟨hes, hnext⟩ := ih next hchain hfun fun s hs => hopened s (.tail _ hs)
    exact ⟨.quiet hes, hnext⟩
  | @scope type node node' ys ys' xs xs' _ _ ihys ih =>
    have hscope := scopeAlike_openScope hchain next type node node'
    have hin := ihys (next + 1) (.cons hscope hchain)
      (List.forall_mem_cons.mpr ⟨hopened _ (List.mem_append_left _ List.mem_cons_self), hfun⟩)
      fun s hs => hopened s (List.mem_append_left _ (List.mem_cons_of_mem _ hs))
    have hrest := ih _ hchain hfun fun s hs => hopened s (List.mem_append_right _ hs)
    simp only [events, eventsOf, hin.2]
    exact ⟨(EventsAlike.opened hscope hin.1).append hrest.1, hrest.2⟩
  | outside _ _ ihys ih =>
    have hin := ihys next (List.forall₂_drop 1 hchain) (fun s hs => hfun s (List.mem_of_mem_drop hs))
      fun s hs => hopened s (List.mem_append_left _ hs)
    have hrest := ih _ hchain hfun fun s hs => hopened s (List.mem_append_right _ hs)
    simp only [events, eventsOf, hin.2]
    exact ⟨hin.1.append hrest.1, hrest.2⟩

end

/-! ## Analyses -/

/-- The analysis of a changed tree in which no reference is lost. -/
structure AnalysisAlike (x : Change) (a a' : Analysis) : Prop where
  scopes : List.Forall₂ ScopeAlike a.scopes a'.scopes
  bindings : List.Forall₂ (BindingAlike x a.functionOf) a.bindings a'.bindings
  references : List.Forall₂ (ReferenceAlike x) a.references a'.references

section

variable {x : Change} {functionOf : Nat → Nat} {es es' : List Event}

theorem EventsAlike.scopes (h : EventsAlike x functionOf es es') :
    List.Forall₂ ScopeAlike (Analysis.ofEvents es).scopes (Analysis.ofEvents es').scopes := by
  induction h with
  | nil => exact .nil
  | opened hs _ ih => exact .cons hs ih
  | bound _ _ ih | referred _ _ ih | unread _ _ ih | noted _ ih | quiet _ ih => exact ih

theorem EventsAlike.bindings (h : EventsAlike x functionOf es es') :
    List.Forall₂ (BindingAlike x functionOf) (Analysis.ofEvents es).bindings
      (Analysis.ofEvents es').bindings := by
  induction h with
  | nil => exact .nil
  | bound hb _ ih => exact .cons hb ih
  | opened _ _ ih | referred _ _ ih | unread _ _ ih | noted _ ih | quiet _ ih => exact ih

/-- Without names of elements, no reference is lost. -/
theorem EventsAlike.references (h : EventsAlike x functionOf es es')
    (hno : ∀ r ∈ (Analysis.ofEvents es).references, r.identifier.type? ≠ some "JSXIdentifier") :
    List.Forall₂ (ReferenceAlike x) (Analysis.ofEvents es).references
      (Analysis.ofEvents es').references := by
  induction h with
  | nil => exact .nil
  | referred hr _ ih => exact .cons hr (ih fun r hmem => hno r (List.mem_cons_of_mem _ hmem))
  | unread hr _ _ => exact absurd hr (hno _ List.mem_cons_self)
  | opened _ _ ih | bound _ _ ih | noted _ ih | quiet _ ih => exact ih hno

/-- The first scope is a function of its own. -/
theorem Analysis.IsTree.functionOf_zero {a : Analysis} (h : a.IsTree) : a.functionOf 0 = 0 := by
  by_cases hlt : 0 < a.scopes.length
  · exact Nat.le_zero.mp (h.around_le (h.functionOf_mem_around hlt))
  · have hnil : a.scopes = [] := List.length_eq_zero_iff.mp (Nat.eq_zero_of_not_pos hlt)
    rw [functionOf, scope?, hnil]
    rfl

/-- The program node of a changed tree. -/
structure ProgramAlike (x : Change) (T : Tree → Tree → Prop) (t t' : Tree) : Prop where
  mark : KeepsMark t t'
  sourceType : (t'.get "sourceType").isStr "module" = (t.get "sourceType").isStr "module"
  fields : FieldsLike T t.fields t'.fields

section

variable {T : Tree → Tree → Prop} (hT : IsSimulation x T) {t t' : Tree} (h : ProgramAlike x T t t')

include hT h

/-- The events of a changed program. -/
theorem eventsAlike_analyzeMarked : EventsAlike x (analyzeMarked t).functionOf (eventsOf [] 0 (ofProgram t)).1
      (eventsOf [] 0 (ofProgram t')).1 := by
  have htree := isTree_analyzeMarked t
  have hbinder : BinderLike x ⟨.var, true, t⟩ ⟨.var, true, t'⟩ := ⟨h.mark, .inl ⟨rfl, rfl⟩⟩
  have hbody := related_outlineField (Alike.isCongruence x) hT t.fields t'.fields h.fields .visit
    "body" _ _ rfl hbinder
  have hprogram : Alike x [ofProgram t] [ofProgram t'] := by
    rw [ofProgram, ofProgram, h.sourceType]
    exact .scope hbody .nil
  have hevents := eventsAlike_events hprogram htree.functionOf_zero 0 .nil
    (fun _ hs => absurd hs List.not_mem_nil) fun s hs =>
      htree.functionOf_id (Analysis.mem_scopes.mpr (by simpa [events] using hs))
  simpa [events] using hevents.1

/-- **The analysis of a changed program is alike.** -/
theorem analysisAlike_of_simulation
    (hno : ∀ r ∈ (analyzeMarked t).references, r.identifier.type? ≠ some "JSXIdentifier") :
    AnalysisAlike x (analyzeMarked t) (analyzeMarked t') := by
  have hevents := eventsAlike_analyzeMarked hT h
  exact ⟨hevents.scopes, hevents.bindings, hevents.references hno⟩

end

end

namespace AnalysisAlike

variable {x : Change} {a a' : Analysis}

/-- Scopes with the same number are alike. -/
theorem scope? (h : AnalysisAlike x a a') (n : Nat) : Option.Rel ScopeAlike (a.scope? n) (a'.scope? n) := by
  rw [Analysis.scope?, Analysis.scope?]
  have hscopes := h.scopes
  generalize a.scopes = ss, a'.scopes = ss' at hscopes ⊢
  induction hscopes with
  | nil => exact .none
  | cons hs _ ih =>
    rw [List.find?_cons, List.find?_cons, hs.id]
    split
    · exact .some hs
    · exact ih

theorem around_eq (h : AnalysisAlike x a a') (n : Nat) : a'.around n = a.around n := by
  rw [Analysis.around, Analysis.around]
  have hrel := h.scope? n
  generalize a.scope? n = s, a'.scope? n = s' at hrel ⊢
  cases hrel with
  | none => rfl
  | some hs => exact hs.ancestors

theorem functionOf_eq (h : AnalysisAlike x a a') (n : Nat) : a'.functionOf n = a.functionOf n := by
  rw [Analysis.functionOf, Analysis.functionOf]
  have hrel := h.scope? n
  generalize a.scope? n = s, a'.scope? n = s' at hrel ⊢
  cases hrel with
  | none => rfl
  | some hs => exact hs.function

end AnalysisAlike

end Downlevel.Scope
