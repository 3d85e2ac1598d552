import Downlevel.Proofs.Scope.Outline
import Downlevel.Scope.Analysis
import Mathlib.Data.List.Range

/-!
# `Proofs.Scope.Chain`: the scopes of an analysis form a tree

Scopes are numbered in the order in which they open. Each knows the numbers of the scopes around it, and
these scopes are themselves scopes of the analysis; whatever is bound or referred to belongs to one of
them.
-/

namespace Downlevel.Scope

/-! ## Chains -/

/-- Scopes around each other, innermost first, numbered as they were opened. The outermost one is one
that `var` declarations are hoisted to. -/
inductive IsChain : List ScopeInfo → Prop where
  | root {id : Nat} {type : ScopeType} (node : Tree) :
      type.isFunction → IsChain [openScope [] id type node]
  | cons {chain : List ScopeInfo} {id : Nat} (type : ScopeType) (node : Tree) :
      IsChain chain → (∀ s ∈ chain, s.id < id) → IsChain (openScope chain id type node :: chain)

namespace IsChain

variable {s : ScopeInfo} {chain rest : List ScopeInfo}

theorem tail {p : ScopeInfo} (h : IsChain (s :: p :: rest)) : IsChain (p :: rest) := by
  cases h with
  | cons _ _ h _ => exact h

theorem ancestors_eq (h : IsChain (s :: rest)) : s.ancestors = (s :: rest).map (·.id) := by
  cases h with
  | root _ _ => rfl
  | cons _ _ _ _ => rfl

theorem id_lt (h : IsChain (s :: rest)) : ∀ x ∈ rest, x.id < s.id := by
  cases h with
  | root _ _ => exact fun x hx => absurd hx List.not_mem_nil
  | cons _ _ _ h => exact h

/-- Every scope of a chain starts a chain of its own. -/
theorem exists_suffix (h : IsChain chain) {x : ScopeInfo} (hx : x ∈ chain) :
    ∃ xs, x :: xs <:+ chain ∧ IsChain (x :: xs) := by
  induction h with
  | root node hf =>
    rw [List.mem_singleton.mp hx]
    exact ⟨[], List.suffix_refl _, .root node hf⟩
  | @cons chain id type node h hlt ih =>
    rcases List.mem_cons.mp hx with rfl | hx
    · exact ⟨chain, List.suffix_refl _, .cons type node h hlt⟩
    · obtain ⟨xs, hs, hxc⟩ := ih hx
      exact ⟨xs, hs.trans (List.suffix_cons _ _), hxc⟩

/-- A scope that is no function is in the function of the scope around it. -/
theorem function_openScope {id : Nat} {type : ScopeType} {node : Tree} {outer : ScopeInfo}
    (hf : ¬ type.isFunction) :
    (openScope (outer :: rest) id type node).function = outer.function := by
  simp [openScope, hf]

/-- The function of a scope is one of the scopes around it, and its own function. -/
theorem exists_function (h : IsChain (s :: rest)) :
    ∃ f ∈ s :: rest, f.id = s.function ∧ f.function = f.id ∧ f.isFunction := by
  generalize hc : s :: rest = chain at h
  induction h generalizing s rest with
  | root node hf =>
    obtain ⟨rfl, rfl⟩ := List.cons.inj hc
    exact ⟨_, List.mem_cons_self, by simp [openScope, hf], by simp [openScope, hf], hf⟩
  | @cons chain id type node h hlt ih =>
    obtain ⟨rfl, rfl⟩ := List.cons.inj hc
    by_cases hf : type.isFunction
    · exact ⟨_, List.mem_cons_self, by simp [openScope, hf], by simp [openScope, hf], hf⟩
    · cases rest with
      | nil => cases h
      | cons outer rest =>
        obtain ⟨f, hmem, heq, hself⟩ := ih rfl
        exact ⟨f, List.mem_cons_of_mem _ hmem, by rw [function_openScope hf, heq], hself⟩

/-- A scope around another one is in the same function, or it is outside of that one's function. -/
theorem function_eq_or (h : IsChain (s :: rest)) {x : ScopeInfo} (hx : x ∈ s :: rest) :
    x.function = s.function ∨
      ∃ f fs, f :: fs <:+ s :: rest ∧ IsChain (f :: fs) ∧ f.id = s.function ∧ x ∈ fs := by
  generalize hc : s :: rest = chain at h hx
  induction h generalizing s rest with
  | root node hf =>
    obtain ⟨rfl, rfl⟩ := List.cons.inj hc
    rw [List.mem_singleton.mp hx]
    exact .inl rfl
  | @cons chain id type node h hlt ih =>
    obtain ⟨rfl, rfl⟩ := List.cons.inj hc
    rcases List.mem_cons.mp hx with rfl | hx
    · exact .inl rfl
    · by_cases hf : type.isFunction
      · exact .inr ⟨_, _, List.suffix_refl _, .cons type node h hlt, by simp [openScope, hf], hx⟩
      · cases rest with
        | nil => cases hx
        | cons outer rest =>
          rw [function_openScope hf]
          refine (ih rfl hx).imp_right fun ⟨f, fs, hs, hrest⟩ => ⟨f, fs, ?_, hrest⟩
          exact hs.trans (List.suffix_cons _ _)

end IsChain

/-! ## Entries -/

/-- The scope that an event opens. -/
def Event.scope? : Event → Option ScopeInfo
  | .opened s => some s
  | _ => none

/-- A scope that is opened or a single item, with the scopes around it; a scope comes with itself. -/
abbrev Entry := List ScopeInfo × Item

mutual

/-- The entries of an item in a chain of scopes, and the next free number. -/
def Item.numbered (chain : List ScopeInfo) (next : Nat) : Item → List Entry × Nat
  | .scope type node items =>
    let inner := openScope chain next type node :: chain
    let rest := numberedIn inner (next + 1) items
    ((inner, .scope type node []) :: rest.1, rest.2)
  | .outside items => numberedIn (chain.drop 1) next items
  | item => ([(chain, item)], next)

def numberedIn (chain : List ScopeInfo) (next : Nat) : List Item → List Entry × Nat
  | [] => ([], next)
  | item :: rest =>
    let first := item.numbered chain next
    let others := numberedIn chain first.2 rest
    (first.1 ++ others.1, others.2)

end

/-- What an entry makes happen. -/
def eventAt (l : Entry) : Option Event :=
  match l.2 with
  | .declare identifier kind hoisted declaration =>
    some (.bound ⟨identifier, kind, declaration, targetScope l.1 hoisted⟩)
  | .refer identifier write => some (.referred ⟨identifier, targetScope l.1 false, write⟩)
  | .issue code node => some (.noted ⟨code, node, targetScope l.1 true⟩)
  | .scope _ _ _ => l.1.head?.map .opened
  | .outside _ => none

/-- The scope that an entry opens. -/
def scopeAt (l : Entry) : Option ScopeInfo := (eventAt l).bind Event.scope?

theorem head?_of_scopeAt {l : Entry} {s : ScopeInfo} (h : scopeAt l = some s) : l.1.head? = some s := by
  obtain ⟨chain, item⟩ := l
  cases item with
  | scope => cases chain <;> cases h; rfl
  | _ => cases h

mutual

theorem eventsOf_eq : ∀ (item : Item) (chain : List ScopeInfo) (next : Nat), eventsOf chain next item =
    ((item.numbered chain next).1.filterMap eventAt, (item.numbered chain next).2)
  | .declare _ _ _ _, _, _ | .refer _ _, _, _ | .issue _ _, _, _ => rfl
  | .scope _ _ items, _, _ => by
    rw [eventsOf, events_eq items]
    rfl
  | .outside items, _, _ => events_eq items _ _

/-- **What happens is what the entries make happen.** -/
theorem events_eq : ∀ (items : List Item) (chain : List ScopeInfo) (next : Nat), events chain next items =
    ((numberedIn chain next items).1.filterMap eventAt, (numberedIn chain next items).2)
  | [], _, _ => rfl
  | item :: rest, chain, next => by
    rw [events, eventsOf_eq item]
    simp only [events_eq rest, numberedIn, List.filterMap_append]

end

/-- What entries open, read inside a chain of scopes, from one free number up to another. -/
structure Opens (p : Tree → Bool) (chain : List ScopeInfo) (next : Nat) (ls : List Entry) (after : Nat) :
    Prop where
  le : next ≤ after
  /-- The numbers are given in order. -/
  ids : (ls.filterMap scopeAt).map (·.id) = List.range' next (after - next)
  /-- The scopes around an entry are in the chain or opened too. -/
  chains : ∀ l ∈ ls, IsChain l.1 ∧ l.1 ⊆ chain ++ ls.filterMap scopeAt
  /-- Scopes are opened by nodes that pass, and only the first one can be in no other. -/
  scopes : ∀ l ∈ ls, ∀ s, scopeAt l = some s → p s.node ∧ (l.1 = [s] → chain = [] ∧ s.id = next)

namespace Opens

variable {p : Tree → Bool} {chain : List ScopeInfo} {next mid after : Nat} {ls ms : List Entry}

theorem nil : Opens p chain next [] next where
  le := Nat.le_refl next
  ids := by simp
  chains := List.forall_mem_nil _
  scopes := List.forall_mem_nil _

theorem append (hc : IsChain chain) (h₁ : Opens p chain next ls mid) (h₂ : Opens p chain mid ms after) :
    Opens p chain next (ls ++ ms) after where
  le := Nat.le_trans h₁.le h₂.le
  ids := by
    have hsum : after - next = (mid - next) + (after - mid) := by
      have := h₁.le; have := h₂.le; omega
    have hmid : next + (mid - next) = mid := by have := h₁.le; omega
    rw [List.filterMap_append, List.map_append, h₁.ids, h₂.ids, hsum, ← List.range'_append_1, hmid]
  chains := by
    rw [List.filterMap_append]
    refine List.forall_mem_append.mpr ⟨fun l hl => (h₁.chains l hl).imp_right fun hsub => ?_,
      fun l hl => (h₂.chains l hl).imp_right fun hsub x hx => ?_⟩
    · rw [← List.append_assoc]
      exact List.subset_append_of_subset_left _ hsub
    · have hx := hsub hx
      rw [List.mem_append] at hx ⊢
      exact hx.imp_right (List.mem_append_right _)
  scopes := by
    have hne : chain ≠ [] := by rintro rfl; cases hc
    refine List.forall_mem_append.mpr ⟨h₁.scopes, fun l hl s hs => ?_⟩
    exact (h₂.scopes l hl s hs).imp_right fun h heq => absurd (h heq).1 hne

/-- A single item. -/
theorem single {item : Item} (hc : IsChain chain) (hscope : scopeAt (chain, item) = none) :
    Opens p chain next [(chain, item)] next where
  le := Nat.le_refl next
  ids := by simp [hscope]
  chains := List.forall_mem_singleton.mpr ⟨hc, List.subset_append_left _ _⟩
  scopes := List.forall_mem_singleton.mpr fun s hs => by rw [hscope] at hs; cases hs

/-- A scope with what is in it. -/
theorem scope {type : ScopeType} {node : Tree} (hc : IsChain (openScope chain next type node :: chain))
    (hnode : p node) (h : Opens p (openScope chain next type node :: chain) (next + 1) ls after) :
    Opens p chain next ((openScope chain next type node :: chain, .scope type node []) :: ls) after := by
  have hle := h.le
  have hopened : ((openScope chain next type node :: chain, .scope type node []) :: ls).filterMap scopeAt =
      openScope chain next type node :: ls.filterMap scopeAt := List.filterMap_cons_some rfl
  refine ⟨by omega, ?_, ?_, ?_⟩
  · have hsum : after - next = (after - (next + 1)) + 1 := by omega
    rw [hopened, hsum, List.range'_succ, List.map_cons, h.ids]
    rfl
  · rw [hopened]
    refine List.forall_mem_cons.mpr ⟨⟨hc, ?_⟩, fun l hl => (h.chains l hl).imp_right fun hsub => ?_⟩
    · exact List.Subset.trans (List.subset_append_left _ _) List.perm_middle.symm.subset
    · exact List.Subset.trans hsub List.perm_middle.symm.subset
  · refine List.forall_mem_cons.mpr ⟨fun s hs => ?_, fun l hl s hs => ?_⟩
    · cases hs
      exact ⟨hnode, fun heq => ⟨(List.cons.inj heq).2, rfl⟩⟩
    · exact (h.scopes l hl s hs).imp_right fun h heq => absurd (h heq).1 (List.cons_ne_nil _ _)

/-- What holds inside a part of a chain holds inside the whole. -/
theorem weaken {inner : List ScopeInfo} (hc : IsChain inner) (hsub : inner ⊆ chain)
    (h : Opens p inner next ls after) : Opens p chain next ls after where
  le := h.le
  ids := h.ids
  chains := fun l hl => (h.chains l hl).imp_right fun h => List.Subset.trans h (List.append_subset.mpr
    ⟨List.subset_append_of_subset_left _ hsub, List.subset_append_right _ _⟩)
  scopes := fun l hl s hs => (h.scopes l hl s hs).imp_right fun h heq => by
    rw [(h heq).1] at hc
    cases hc

end Opens

/-- A declaration or reference belongs to a scope of the chain it is made in. -/
theorem targetScope_mem {chain : List ScopeInfo} (hc : IsChain chain) (hoisted : Bool) :
    ∃ s ∈ chain, s.id = targetScope chain hoisted := by
  cases chain with
  | nil => cases hc
  | cons s rest =>
    cases hoisted with
    | false => exact ⟨s, List.mem_cons_self, rfl⟩
    | true =>
      obtain ⟨f, hf, heq, _⟩ := hc.exists_function
      exact ⟨f, hf, heq⟩

theorem lt_openScope {chain : List ScopeInfo} {next : Nat} (hlt : ∀ s ∈ chain, s.id < next)
    (type : ScopeType) (node : Tree) :
    ∀ s ∈ openScope chain next type node :: chain, s.id < next + 1 := by
  intro s hs
  rcases List.mem_cons.mp hs with rfl | hs
  · exact Nat.lt_succ_self next
  · exact Nat.lt_succ_of_lt (hlt s hs)

section

variable {p : Tree → Bool}

mutual

theorem opens_numbered : ∀ (item : Item) (chain : List ScopeInfo) (next : Nat) (inScope : Bool),
    IsChain chain → (∀ s ∈ chain, s.id < next) → item.isGuarded p inScope →
    (inScope → IsChain (chain.drop 1)) →
    Opens p chain next (item.numbered chain next).1 (item.numbered chain next).2
  | .declare _ _ _ _, _, _, _, hc, _, _, _ | .refer _ _, _, _, _, hc, _, _, _
  | .issue _ _, _, _, _, hc, _, _, _ => .single hc rfl
  | .scope type node items, chain, next, _, hc, hlt, hguard, _ => by
    rw [Item.isGuarded, Bool.and_eq_true] at hguard
    have hnew : IsChain (openScope chain next type node :: chain) := .cons type node hc hlt
    exact .scope hnew hguard.1
      (opens_numberedIn items _ _ true hnew (lt_openScope hlt type node) hguard.2 fun _ => hc)
  | .outside items, chain, next, inScope, _, hlt, hguard, hdrop => by
    rw [Item.isGuarded, Bool.and_eq_true] at hguard
    exact (opens_numberedIn items (chain.drop 1) next false (hdrop hguard.1)
      (fun s hs => hlt s (List.mem_of_mem_drop hs)) hguard.2 nofun).weaken (hdrop hguard.1)
      (List.drop_subset 1 chain)

/-- **What a list of items opens.** -/
theorem opens_numberedIn : ∀ (items : List Item) (chain : List ScopeInfo) (next : Nat) (inScope : Bool),
    IsChain chain → (∀ s ∈ chain, s.id < next) → areGuarded p inScope items →
    (inScope → IsChain (chain.drop 1)) →
    Opens p chain next (numberedIn chain next items).1 (numberedIn chain next items).2
  | [], _, _, _, _, _, _, _ => .nil
  | item :: rest, chain, next, inScope, hc, hlt, hguard, hdrop => by
    rw [areGuarded, Bool.and_eq_true] at hguard
    have h := opens_numbered item chain next inScope hc hlt hguard.1 hdrop
    exact h.append hc (opens_numberedIn rest chain _ inScope hc
      (fun s hs => Nat.lt_of_lt_of_le (hlt s hs) h.le) hguard.2 hdrop)

end

/-- **What a program opens**, if its objects pass. -/
theorem opens_ofProgram {t : Tree} (hself : p t) (h : ∀ o ∈ (t.get "body").objects, p o) :
    Opens p [] 0 ((ofProgram t).numbered [] 0).1 ((ofProgram t).numbered [] 0).2 := by
  have htype : (if (t.get "sourceType").isStr "module" then ScopeType.module
      else .global).isFunction := by
    split <;> rfl
  have hroot : IsChain [openScope [] 0 _ t] := .root t htype
  exact .scope hroot hself (opens_numberedIn _ _ _ false hroot
    (lt_openScope (List.forall_mem_nil _) _ _) (areGuarded_outlineField _ _ _ _ h) nofun)

end

/-! ## The tree of scopes -/

namespace Analysis

variable {es : List Event}

/-- The scopes of an analysis are numbered in order and know what is around them, only the first one is in no
other, and bindings and references belong to one of them. -/
structure IsTree (a : Analysis) : Prop where
  ids : a.scopes.map (·.id) = List.range a.scopes.length
  chains : ∀ s ∈ a.scopes, ∃ rest, IsChain (s :: rest) ∧ rest ⊆ a.scopes
  root : ∀ s ∈ a.scopes, s.id ≠ 0 → s.ancestors ≠ [s.id]
  bindings : ∀ b ∈ a.bindings, b.scope < a.scopes.length
  references : ∀ r ∈ a.references, r.scope < a.scopes.length

theorem mem_filterMap_iff {α : Type} {pick : Event → Option α} {make : α → Event}
    (h : ∀ e x, pick e = some x ↔ e = make x) {x : α} : x ∈ es.filterMap pick ↔ make x ∈ es := by
  simp only [List.mem_filterMap, h, exists_eq_right]

theorem mem_scopes {s : ScopeInfo} : s ∈ (ofEvents es).scopes ↔ .opened s ∈ es :=
  mem_filterMap_iff fun e _ => by cases e <;> simp

theorem mem_bindings {b : Binding} : b ∈ (ofEvents es).bindings ↔ .bound b ∈ es :=
  mem_filterMap_iff fun e _ => by cases e <;> simp

theorem mem_references {r : Reference} : r ∈ (ofEvents es).references ↔ .referred r ∈ es :=
  mem_filterMap_iff fun e _ => by cases e <;> simp

theorem scopes_ofEvents (es : List Event) : (ofEvents es).scopes = es.filterMap Event.scope? := by
  refine List.filterMap_congr fun e _ => ?_
  cases e <;> rfl

end Analysis

theorem scopes_analyzeMarked (t : Tree) :
    (analyzeMarked t).scopes = ((ofProgram t).numbered [] 0).1.filterMap scopeAt := by
  rw [analyzeMarked, Analysis.scopes_ofEvents, eventsOf_eq, List.filterMap_filterMap]
  rfl

section

variable {t : Tree}

/-- The scopes around an entry of a program are scopes of it. -/
theorem isChain_of_entry {l : Entry} (hl : l ∈ ((ofProgram t).numbered [] 0).1) :
    IsChain l.1 ∧ l.1 ⊆ (analyzeMarked t).scopes := by
  have hopens := (opens_ofProgram (p := fun _ => true) (t := t) rfl fun _ _ => rfl).chains l hl
  rwa [List.nil_append, ← scopes_analyzeMarked] at hopens

/-- What happens in a program is what an entry makes happen. -/
theorem exists_entry {e : Event} (he : e ∈ (eventsOf [] 0 (ofProgram t)).1) (hscope : e.scope? = none) :
    ∃ chain item, (chain, item) ∈ ((ofProgram t).numbered [] 0).1 ∧
      (∀ type node items, item ≠ .scope type node items) ∧ eventAt (chain, item) = some e ∧
      IsChain chain ∧ chain ⊆ (analyzeMarked t).scopes := by
  rw [eventsOf_eq] at he
  obtain ⟨⟨chain, item⟩, hl, he⟩ := List.mem_filterMap.mp he
  refine ⟨chain, item, hl, ?_, he, isChain_of_entry hl⟩
  rintro type node items rfl
  cases chain <;> cases he
  cases hscope

theorem exists_entry_of_binding {b : Binding} (hb : b ∈ (analyzeMarked t).bindings) :
    ∃ chain hoisted, (chain, .declare b.identifier b.kind hoisted b.declaration) ∈
        ((ofProgram t).numbered [] 0).1 ∧ b.scope = targetScope chain hoisted ∧ IsChain chain ∧
      chain ⊆ (analyzeMarked t).scopes := by
  obtain ⟨chain, item, hl, hitem, he, hc⟩ := exists_entry (Analysis.mem_bindings.mp hb) rfl
  cases item with
  | scope => exact absurd rfl (hitem _ _ _)
  | declare => cases he; exact ⟨chain, _, hl, rfl, hc⟩
  | _ => cases he

theorem exists_entry_of_reference {r : Reference} (hr : r ∈ (analyzeMarked t).references) :
    ∃ chain, (chain, .refer r.identifier r.write) ∈ ((ofProgram t).numbered [] 0).1 ∧
      r.scope = targetScope chain false ∧ IsChain chain ∧ chain ⊆ (analyzeMarked t).scopes := by
  obtain ⟨chain, item, hl, hitem, he, hc⟩ := exists_entry (Analysis.mem_references.mp hr) rfl
  cases item with
  | scope => exact absurd rfl (hitem _ _ _)
  | refer => cases he; exact ⟨chain, hl, rfl, hc⟩
  | _ => cases he

end

/-- **The scopes of a program form a tree.** -/
theorem isTree_analyzeMarked (t : Tree) : (analyzeMarked t).IsTree := by
  have h := opens_ofProgram (p := fun _ => true) (t := t) rfl fun _ _ => rfl
  have hids : (analyzeMarked t).scopes.map (·.id) = List.range (analyzeMarked t).scopes.length := by
    have hids := h.ids
    rw [← scopes_analyzeMarked, Nat.sub_zero] at hids
    rw [← List.length_map (f := (·.id)), hids, List.length_range', List.range_eq_range']
  have hchain : ∀ s ∈ (analyzeMarked t).scopes, ∃ rest, IsChain (s :: rest) ∧
      rest ⊆ (analyzeMarked t).scopes ∧ (rest = [] → s.id = 0) := by
    intro s hs
    rw [scopes_analyzeMarked] at hs ⊢
    obtain ⟨l, hl, hs⟩ := List.mem_filterMap.mp hs
    obtain ⟨rest, hrest⟩ := List.head?_eq_some_iff.mp (head?_of_scopeAt hs)
    obtain ⟨hc, hsub⟩ := h.chains l hl
    rw [hrest] at hc hsub
    refine ⟨rest, hc, (List.cons_subset.mp hsub).2, ?_⟩
    rintro rfl
    exact ((h.scopes l hl s hs).2 hrest).2
  have htarget : ∀ {chain}, IsChain chain → chain ⊆ (analyzeMarked t).scopes → ∀ hoisted,
      targetScope chain hoisted < (analyzeMarked t).scopes.length := by
    intro chain hc hsub hoisted
    obtain ⟨s, hs, hid⟩ := targetScope_mem hc hoisted
    have hmem := List.mem_map_of_mem (f := (·.id)) (hsub hs)
    rwa [hids, List.mem_range, hid] at hmem
  refine ⟨hids, fun s hs => ?_, fun s hs hne heq => ?_, fun b hb => ?_, fun r hr => ?_⟩
  · obtain ⟨rest, hc, hsub, -⟩ := hchain s hs
    exact ⟨rest, hc, hsub⟩
  · obtain ⟨rest, hc, -, hroot⟩ := hchain s hs
    rw [hc.ancestors_eq, List.map_cons, List.cons_eq_cons, List.map_eq_nil_iff] at heq
    exact hne (hroot heq.2)
  · obtain ⟨chain, hoisted, -, hscope, hc, hsub⟩ := exists_entry_of_binding hb
    exact hscope ▸ htarget hc hsub hoisted
  · obtain ⟨chain, -, hscope, hc, hsub⟩ := exists_entry_of_reference hr
    exact hscope ▸ htarget hc hsub false

/-! ## What is around a scope -/

namespace Analysis

/-- The numbers of a scope and of the scopes around it, innermost first. -/
def around (a : Analysis) (id : Nat) : List Nat := ((a.scope? id).map (·.ancestors)).getD []

/-- The number of the function around a scope. -/
def functionOf (a : Analysis) (id : Nat) : Nat := ((a.scope? id).map (·.function)).getD id

namespace IsTree

variable {a : Analysis} {s : ScopeInfo} {m n k : Nat}

section

variable (h : a.IsTree)

include h

theorem nodup_ids : (a.scopes.map (·.id)).Nodup := h.ids ▸ List.nodup_range

theorem eq_of_id {x y : ScopeInfo} (hx : x ∈ a.scopes) (hy : y ∈ a.scopes) (heq : x.id = y.id) : x = y :=
  List.inj_on_of_nodup_map h.nodup_ids hx hy heq

theorem scope?_eq_some : a.scope? n = some s ↔ s ∈ a.scopes ∧ s.id = n := by
  constructor
  · intro hs
    exact ⟨List.mem_of_find?_eq_some hs, by simpa using List.find?_some hs⟩
  · rintro ⟨hs, rfl⟩
    cases hf : a.scope? s.id with
    | none => exact absurd (List.find?_eq_none.mp hf s hs) (by simp)
    | some x =>
      have hx : x ∈ a.scopes := List.mem_of_find?_eq_some hf
      have heq : x.id = s.id := by simpa using List.find?_some hf
      rw [h.eq_of_id hx hs heq]

theorem exists_scope (hn : n < a.scopes.length) : ∃ s ∈ a.scopes, s.id = n := by
  have hmem : n ∈ a.scopes.map (·.id) := h.ids ▸ List.mem_range.mpr hn
  exact List.mem_map.mp hmem

theorem id_lt (hs : s ∈ a.scopes) : s.id < a.scopes.length := by
  have hmem : s.id ∈ a.scopes.map (·.id) := List.mem_map_of_mem hs
  rwa [h.ids, List.mem_range] at hmem

theorem around_id (hs : s ∈ a.scopes) : a.around s.id = s.ancestors := by
  rw [around, h.scope?_eq_some.mpr ⟨hs, rfl⟩]
  rfl

theorem functionOf_id (hs : s ∈ a.scopes) : a.functionOf s.id = s.function := by
  rw [functionOf, h.scope?_eq_some.mpr ⟨hs, rfl⟩]
  rfl

/-- A scope that is a function is its own function. -/
theorem function_eq_id (hs : s ∈ a.scopes) (hf : s.isFunction) : s.function = s.id := by
  obtain ⟨rest, hc, -⟩ := h.chains s hs
  cases hc with
  | root node htype => exact if_pos htype
  | cons id node _ _ => exact if_pos hf

/-- What is around a scope, as a chain of scopes. -/
theorem exists_chain (hn : n < a.scopes.length) :
    ∃ s rest, s.id = n ∧ IsChain (s :: rest) ∧ s :: rest ⊆ a.scopes ∧
      a.around n = (s :: rest).map (·.id) ∧ a.functionOf n = s.function := by
  obtain ⟨s, hs, rfl⟩ := h.exists_scope hn
  obtain ⟨rest, hc, hrest⟩ := h.chains s hs
  exact ⟨s, rest, rfl, hc, List.cons_subset.mpr ⟨hs, hrest⟩, by rw [h.around_id hs, hc.ancestors_eq],
    h.functionOf_id hs⟩

theorem lt_of_mem_around (hm : m ∈ a.around n) : n < a.scopes.length ∧ m < a.scopes.length := by
  have hn : n < a.scopes.length := by
    by_contra hn
    have hnone : a.scope? n = none := List.find?_eq_none.mpr fun s hs => by
      have := h.id_lt hs
      simp only [beq_iff_eq]
      omega
    rw [around, hnone] at hm
    cases hm
  obtain ⟨s, rest, _, _, hsub, hround, _⟩ := h.exists_chain hn
  rw [hround] at hm
  obtain ⟨x, hx, rfl⟩ := List.mem_map.mp hm
  exact ⟨hn, h.id_lt (hsub hx)⟩

theorem self_mem_around (hn : n < a.scopes.length) : n ∈ a.around n := by
  obtain ⟨s, rest, rfl, _, _, hround, _⟩ := h.exists_chain hn
  rw [hround]
  exact List.mem_cons_self

/-- What is around a scope outside of another one is around the outer one. -/
theorem around_suffix (hm : m ∈ a.around n) : a.around m <:+ a.around n := by
  obtain ⟨s, rest, _, hc, hsub, hround, _⟩ := h.exists_chain (h.lt_of_mem_around hm).1
  rw [hround] at hm ⊢
  obtain ⟨x, hx, rfl⟩ := List.mem_map.mp hm
  obtain ⟨xs, hsuffix, hxc⟩ := hc.exists_suffix hx
  rw [h.around_id (hsub hx), hxc.ancestors_eq]
  exact hsuffix.map _

theorem around_trans (hm : m ∈ a.around n) (hk : k ∈ a.around m) : k ∈ a.around n :=
  (h.around_suffix hm).subset hk

theorem around_le (hm : m ∈ a.around n) : m ≤ n := by
  obtain ⟨s, rest, rfl, hc, _, hround, _⟩ := h.exists_chain (h.lt_of_mem_around hm).1
  rw [hround] at hm
  obtain ⟨x, hx, rfl⟩ := List.mem_map.mp hm
  rcases List.mem_cons.mp hx with rfl | hx
  · exact Nat.le_refl _
  · exact Nat.le_of_lt (hc.id_lt x hx)

theorem around_antisymm (hm : m ∈ a.around n) (hn : n ∈ a.around m) : m = n :=
  Nat.le_antisymm (h.around_le hm) (h.around_le hn)

/-- Of two scopes around a third, one is around the other. -/
theorem around_linear (hm : m ∈ a.around k) (hn : n ∈ a.around k) : m ∈ a.around n ∨ n ∈ a.around m := by
  have hself := fun x hx => h.self_mem_around (n := x) (h.lt_of_mem_around (n := k) hx).2
  rcases List.suffix_or_suffix_of_suffix (h.around_suffix hm) (h.around_suffix hn) with hs | hs
  · exact .inl (hs.subset (hself m hm))
  · exact .inr (hs.subset (hself n hn))

/-! ### Functions -/

theorem functionOf_mem_around (hn : n < a.scopes.length) : a.functionOf n ∈ a.around n := by
  obtain ⟨s, rest, _, hc, _, hround, hfun⟩ := h.exists_chain hn
  obtain ⟨f, hf, heq, _, _⟩ := hc.exists_function
  rw [hround, hfun, ← heq]
  exact List.mem_map_of_mem hf

theorem functionOf_functionOf (hn : n < a.scopes.length) :
    a.functionOf (a.functionOf n) = a.functionOf n := by
  obtain ⟨s, rest, _, hc, hsub, _, hfun⟩ := h.exists_chain hn
  obtain ⟨f, hf, heq, hself, _⟩ := hc.exists_function
  rw [hfun, ← heq, h.functionOf_id (hsub hf), hself]

/-- The function of a scope is a function. -/
theorem exists_functionOf (hn : n < a.scopes.length) :
    ∃ f ∈ a.scopes, f.id = a.functionOf n ∧ f.isFunction := by
  obtain ⟨s, rest, _, hc, hsub, _, hfun⟩ := h.exists_chain hn
  obtain ⟨f, hf, heq, _, hisf⟩ := hc.exists_function
  exact ⟨f, hsub hf, by rw [hfun, heq], hisf⟩

/-- The function around an outer scope is around the function of an inner one. -/
theorem functionOf_mono (hm : m ∈ a.around n) : a.functionOf m ∈ a.around (a.functionOf n) := by
  obtain ⟨hn, hlt⟩ := h.lt_of_mem_around hm
  obtain ⟨s, rest, _, hc, hsub, hround, hfun⟩ := h.exists_chain hn
  have hmem := hm
  rw [hround] at hmem
  obtain ⟨x, hx, rfl⟩ := List.mem_map.mp hmem
  rcases hc.function_eq_or hx with heq | ⟨f, fs, hsuffix, hfc, heq, hxf⟩
  · rw [h.functionOf_id (hsub hx), heq, ← hfun]
    exact h.self_mem_around (h.lt_of_mem_around (h.functionOf_mem_around hn)).2
  · -- The outer scope is outside of the function: so is its own function.
    have hf : f ∈ a.scopes := hsub (hsuffix.subset List.mem_cons_self)
    have hround : a.around (a.functionOf n) = (f :: fs).map (·.id) := by
      rw [hfun, ← heq, h.around_id hf, hfc.ancestors_eq]
    have hxmem : x.id ∈ a.around (a.functionOf n) := by
      rw [hround]
      exact List.mem_map_of_mem (List.mem_cons_of_mem _ hxf)
    exact h.around_trans hxmem (h.functionOf_mem_around hlt)

end

end IsTree

end Analysis

end Downlevel.Scope
