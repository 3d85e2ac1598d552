import Downlevel.Proofs.Block.Source
import Downlevel.Proofs.Scope.Lexical

/-!
# `Proofs.Scope.Records`: what an analysis records

Names are changed through the lists of an analysis, so these have to agree. The list of a scope or a binding
is what it is if all lists grow together, event by event. Every identifier is recorded once,
and the references of a binding, like those of a scope, are references in their order. The scopes are a tree
that is numbered from the root on, and every binding is listed in the scope it names.
-/

namespace Downlevel.Scope

open Tree Grammar

/-! ## Lists that grow -/

/-- Adds to the list at a number. -/
def push {α : Type} (lists : Nat → List α) (n : Nat) (x : α) : Nat → List α :=
  Function.update lists n (lists n ++ [x])

theorem push_apply {α : Type} (lists : Nat → List α) (n k : Nat) (x : α) :
    push lists n x k = lists k ++ if n == k then [x] else [] := by
  by_cases hk : k = n
  · subst hk
    simp [push]
  · simp [push, hk, Ne.symm hk]

/-- An analysis while a program is read, with the lists of single scopes. -/
structure Growing where
  analysis : Analysis := ⟨[], [], [], []⟩
  children : Nat → List ScopeInfo := fun _ => []
  bindings : Nat → List (Nat × Binding) := fun _ => []
  references : Nat → List Nat := fun _ => []

/-- Adds to the list of all and to that of one scope. -/
def Growing.add (g : Growing) : Event → Growing
  | .opened s => { g with
      analysis.scopes := g.analysis.scopes ++ [s]
      children := s.parent?.elim g.children (push g.children · s) }
  | .bound b => { g with
      analysis.bindings := g.analysis.bindings ++ [b]
      bindings := push g.bindings b.scope (g.analysis.bindings.length, b) }
  | .referred r => { g with
      analysis.references := g.analysis.references ++ [r]
      references := push g.references r.scope g.analysis.references.length }
  | .noted i => { g with analysis.issues := g.analysis.issues ++ [i] }

namespace Analysis

/-- Adds a reference to the list of the binding that it means. -/
def answer (a : Analysis) (lists : Nat → List Nat) (r : Reference × Nat) : Nat → List Nat :=
  (a.resolve r.1).elim lists (push lists · r.2)

theorem places_append {α : Type} (p : α → Bool) (xs : List α) (x : α) :
    ((xs ++ [x]).zipIdx.filter (p ·.1)).map (·.2) =
      (xs.zipIdx.filter (p ·.1)).map (·.2) ++ if p x then [xs.length] else [] := by
  cases hp : p x <;> simp [List.zipIdx_append, hp]

/-- **The lists of the scopes are those that grow with the analysis.** -/
theorem foldl_add (es : List Event) :
    es.foldl Growing.add {} = ⟨ofEvents es, (ofEvents es).childrenOf, (ofEvents es).indexedBindings,
      (ofEvents es).referencesIn⟩ := by
  induction es using List.reverseRecOn with
  | nil => rfl
  | append_singleton es e ih =>
    rw [List.foldl_append, ih, List.foldl_cons, List.foldl_nil]
    have hplaces := fun k => places_append (·.scope == k) (ofEvents es).references
    simp only [ofEvents] at hplaces
    cases e with
    | opened s =>
      cases hparent : s.parent? <;>
        simp [Growing.add, ofEvents, childrenOf, indexedBindings, referencesIn, funext_iff, push_apply,
          hparent, List.filter_cons]
    | bound b =>
      simp [Growing.add, ofEvents, childrenOf, indexedBindings, referencesIn, funext_iff, push_apply,
        List.filter_cons, List.zipIdx_append]
    | referred r =>
      simp [Growing.add, ofEvents, childrenOf, indexedBindings, referencesIn, funext_iff, push_apply, hplaces]
    | noted i => simp [Growing.add, ofEvents, childrenOf, indexedBindings, referencesIn, funext_iff]

/-- **The lists of the bindings are those that grow as references are resolved.** -/
theorem foldl_answer (a : Analysis) :
    a.references.zipIdx.foldl a.answer (fun _ => []) = referencesTo a.resolutions := by
  rw [resolutions]
  induction a.references using List.reverseRecOn with
  | nil => rfl
  | append_singleton rs r ih =>
    rw [List.zipIdx_append, List.foldl_append, ih]
    funext k
    have hplaces := places_append (· == some k) (rs.map a.resolve) (a.resolve r)
    cases hresolve : a.resolve r <;> simp_all [answer, referencesTo, push_apply]

variable {a : Analysis} {i n : Nat} {s : ScopeInfo}

/-! ## References -/

/-- The places in a list where a test is passed. -/
theorem mem_places {α : Type} {p : α → Bool} {xs : List α} :
    i ∈ (xs.zipIdx.filter (p ·.1)).map (·.2) ↔ ∃ x, xs[i]? = some x ∧ p x := by
  simp only [List.mem_map, List.mem_filter, Prod.exists, List.mem_zipIdx_iff_getElem?, exists_eq_right]

theorem sublist_places {α : Type} (p : α → Bool) (xs : List α) :
    ((xs.zipIdx.filter (p ·.1)).map (·.2)).Sublist (List.range xs.length) := by
  rw [List.range_eq_range', ← List.zipIdx_map_snd 0 xs]
  exact List.filter_sublist.map _

/-- A place is listed once if the test is passed there, and else not at all. -/
theorem count_places {α : Type} {p : α → Bool} {xs : List α} {x : α} (hx : xs[i]? = some x) :
    ((xs.zipIdx.filter (p ·.1)).map (·.2)).count i = if p x then 1 else 0 := by
  have hnodup := List.nodup_range.sublist (sublist_places p xs)
  split
  · rename_i hp
    exact List.count_eq_one_of_mem hnodup (mem_places.mpr ⟨x, hx, hp⟩)
  · rename_i hp
    refine List.count_eq_zero.mpr fun hmem => hp ?_
    obtain ⟨y, hy, hpy⟩ := mem_places.mp hmem
    rwa [Option.some.inj (hx.symm.trans hy)]

theorem count_referencesTo {r : Reference} (hr : a.references[i]? = some r) (n : Nat) :
    (referencesTo a.resolutions n).count i = if a.resolve r = some n then 1 else 0 := by
  have hresolved : a.resolutions[i]? = some (a.resolve r) := by
    rw [resolutions, List.getElem?_map, hr]
    rfl
  have hcount := count_places (p := (· == some n)) hresolved
  simp only [beq_iff_eq] at hcount
  exact hcount

/-- A reference means one of the bindings. -/
theorem IsTree.lt_of_resolve (h : a.IsTree) {r : Reference} (hr : a.resolve r = some n) :
    n < a.bindings.length := by
  obtain ⟨-, -, ⟨b, hb, -⟩, -⟩ := h.resolve_eq_some_iff.mp hr
  exact (List.getElem?_eq_some_iff.mp hb).1

/-! ## Scopes -/

namespace IsTree

theorem nodup_flatten (h : a.IsTree) : a.flatten.Nodup := by
  refine h.pairwise_flatten.imp_of_mem fun {x y} hx _ hxy heq => hxy ?_
  rw [← heq]
  exact h.self_mem_around (h.id_lt (h.mem_flatten.mp hx))

theorem perm_flatten (h : a.IsTree) : a.flatten.Perm a.scopes :=
  (List.perm_ext_iff_of_nodup h.nodup_flatten h.nodup_scopes).mpr fun _ => h.mem_flatten

theorem perm_labels (h : a.IsTree) : (a.flatten.map ScopeInfo.label).Perm
    ((List.range a.scopes.length).map fun n => "S" ++ toString n) := by
  rw [← h.ids, List.map_map]
  exact h.perm_flatten.map _

/-- A scope is the first one and in no other, or it is right inside one scope that was opened before. -/
theorem exists_parent (h : a.IsTree) (hs : s ∈ a.scopes) :
    (s.id = 0 ∧ s.ancestors = [0] ∧ ∀ n, s ∉ a.childrenOf n) ∨
      ∃ p ∈ a.scopes, p.id < s.id ∧ s.ancestors = s.id :: p.ancestors ∧
        ∀ n, s ∈ a.childrenOf n ↔ n = p.id := by
  obtain ⟨rest, hc, hsub⟩ := h.chains s hs
  have hparent : s.parent? = rest.head?.map (·.id) := by
    rw [ScopeInfo.parent?, hc.ancestors_eq, List.map_cons, List.drop_one, List.tail_cons, List.head?_map]
  have hchild : ∀ n, s ∈ a.childrenOf n ↔ rest.head?.map (·.id) = some n := by
    simp [childrenOf, hs, hparent]
  cases rest with
  | nil =>
    have hzero : s.id = 0 := Classical.not_not.mp fun hne => h.root s hs hne hc.ancestors_eq
    exact .inl ⟨hzero, hzero ▸ hc.ancestors_eq, fun n hn => by cases (hchild n).mp hn⟩
  | cons p ps =>
    refine .inr ⟨p, hsub List.mem_cons_self, hc.id_lt p List.mem_cons_self, ?_, fun n => ?_⟩
    · rw [hc.ancestors_eq, hc.tail.ancestors_eq, List.map_cons]
    · rw [hchild n, eq_comm]
      exact Option.some_inj

/-- The function of a scope is the nearest one around it. -/
theorem find?_function (h : a.IsTree) (hs : s ∈ a.scopes) :
    s.ancestors.find? (fun n => (a.scope? n).any (·.isFunction)) = some s.function := by
  obtain ⟨rest, hc, hsub⟩ := h.chains s hs
  obtain ⟨f, hfind, hid⟩ := hc.find?_isFunction
  rw [hc.ancestors_eq, List.find?_map, show s.function = f.id from hid, ← Option.map_some, ← hfind]
  congr 1
  refine List.find?_congr fun x hx => ?_
  rw [Function.comp_apply, h.scope?_eq_some.mpr ⟨List.cons_subset.mpr ⟨hs, hsub⟩ hx, rfl⟩, Option.any_some]

end IsTree

end Analysis

open Analysis

variable {t : Tree}

/-- The scope of a node is the one that it opened. -/
theorem scopeFor_node (h : IsDistinct t) {s : ScopeInfo} (hs : s ∈ (analyzeMarked t).scopes) :
    (analyzeMarked t).scopeFor s.node = some s := by
  obtain ⟨k, hk⟩ := Option.isSome_iff_exists.mp
    (isSome_mark?_of_isMarked t h.marked _ (node_mem_objects h hs))
  rw [scopeFor, hk]
  have hmem : s ∈ (analyzeMarked t).scopes.filter (·.node.mark? == some k) :=
    List.mem_filter.mpr ⟨hs, beq_iff_eq.mpr hk⟩
  have hlast := List.getLast?_eq_some_getLast (List.ne_nil_of_mem hmem)
  obtain ⟨hs', hk'⟩ := List.mem_filter.mp (List.mem_of_getLast? hlast)
  exact hlast.trans (congrArg some (eq_of_node h hs hs' ((beq_iff_eq.mp hk').trans hk.symm)).symm)

/-- A variable declared by `var` is bound in a scope that `var` declarations are hoisted to. -/
theorem functionOf_of_var (h : IsDistinct t) {b : Binding} (hb : b ∈ (analyzeMarked t).bindings)
    (hvar : b.kind = .var) : (analyzeMarked t).functionOf b.scope = b.scope := by
  obtain ⟨chain, hoisted, hl, hscope, hc, hsub⟩ := exists_entry_of_binding hb
  obtain ⟨o, -, hmatch⟩ := (agrees_ofProgram h.program).sound _ (mem_leaves_iff.mpr ⟨_, hl, rfl⟩)
  obtain ⟨-, -, -, hhoisted⟩ := hmatch.item
  cases chain with
  | nil => cases hc
  | cons s rest =>
    obtain ⟨f, hf, hid, hself, -⟩ := hc.exists_function
    rw [hscope, targetScope, hhoisted, if_pos (beq_iff_eq.mpr hvar), ← hid,
      (isTree_analyzeMarked t).functionOf_id (hsub hf), hself]

/-! ## Programs -/

/-- **Every identifier is recorded once, and the views of references agree.** No node is the identifier of two
bindings or references. A reference is listed once by the binding it means and by no other, and once by the
scope it is in and by no other; all lists are in the order of the references. -/
theorem analyze_records_once {t : Tree} (hprogram : isProgram t = true) (hshared : t.marks.Nodup) :
    let a := analyze t
    (a.identifiers.map mark?).Nodup ∧ (∀ i ∈ a.identifiers, (i.mark?).isSome) ∧
    (∀ n, (referencesTo a.resolutions n).Sublist (List.range a.references.length) ∧
      (a.referencesIn n).Sublist (List.range a.references.length)) ∧
    ∀ i r, a.references[i]? = some r →
      (∀ n, (referencesTo a.resolutions n).count i = if a.resolve r = some n then 1 else 0) ∧
      (∀ n, a.resolve r = some n → n < a.bindings.length) ∧
      (∀ n, (a.referencesIn n).count i = if r.scope = n then 1 else 0) ∧
      ∃! s, s ∈ a.scopes ∧ s.id = r.scope := by
  intro a
  have htree : a.IsTree := isTree_analyzeMarked t.identify
  have hmarks := (Lower.Block.isSource_identify hprogram hshared).hasDistinctMarks
  refine ⟨?_, ?_, fun n => ⟨?_, sublist_places (fun r : Reference => r.scope == n) _⟩, fun i r hr => ⟨?_, ?_, ?_, ?_⟩⟩
  · rw [Analysis.identifiers, List.map_append, List.map_map, List.map_map]
    exact hmarks.nodup
  · exact List.forall_mem_append.mpr
      ⟨List.forall_mem_map.mpr hmarks.bindings, List.forall_mem_map.mpr hmarks.references⟩
  · have hsub := sublist_places (· == some n) a.resolutions
    rwa [resolutions, List.length_map] at hsub
  · exact count_referencesTo hr
  · exact fun n hn => htree.lt_of_resolve hn
  · intro n
    have hcount := count_places (p := (·.scope == n)) hr
    simp only [beq_iff_eq] at hcount
    exact hcount
  · obtain ⟨s, hs, hid⟩ := htree.exists_scope (htree.references r (List.mem_of_getElem? hr))
    exact ⟨s, ⟨hs, hid⟩, fun s' hs' => htree.eq_of_id hs'.1 hs (hs'.2.trans hid.symm)⟩

theorem analyze_records_once_hoisted : isProgram hoisted = true ∧ hoisted.marks.Nodup ∧
    ∃ r, (analyze hoisted).references[1]? = some r ∧ (analyze hoisted).resolve r = some 2 ∧
      (referencesTo (analyze hoisted).resolutions 2).count 1 = 1 := by
  have hprogram : isProgram hoisted = true := by decide
  have hshared : hoisted.marks.Nodup := by decide
  obtain ⟨r, hr, hresolve⟩ := resolve_hoisted
  obtain ⟨-, -, -, hrecords⟩ := analyze_records_once hprogram hshared
  exact ⟨hprogram, hshared, r, hr, hresolve, ((hrecords 1 r hr).1 2).trans (if_pos hresolve)⟩

/-- **The scopes are a tree.** It is numbered from the root on, and all of it is reached from the root. Every
node that opened a scope finds it, `var` declarations go to the nearest scope that is a function, and every
binding is listed once, by the scope it names. -/
theorem analyze_scopes_tree {t : Tree} (hprogram : isProgram t = true) (hshared : t.marks.Nodup) :
    let a := analyze t
    a.flatten.Nodup ∧ (∀ s, s ∈ a.flatten ↔ s ∈ a.scopes) ∧
    (a.flatten.map ScopeInfo.label).Perm ((List.range a.scopes.length).map fun n => "S" ++ toString n) ∧
    (∀ n, (a.childrenOf n).Nodup ∧ (a.bindingsOf n).Nodup) ∧
    (∀ s ∈ a.scopes,
      ((s.id = 0 ∧ s.ancestors = [0] ∧ ∀ n, s ∉ a.childrenOf n) ∨
        ∃ p ∈ a.scopes, p.id < s.id ∧ s.ancestors = s.id :: p.ancestors ∧
          ∀ n, s ∈ a.childrenOf n ↔ n = p.id) ∧
      a.scopeFor s.node = some s ∧
      s.ancestors.find? (fun n => (a.scope? n).any (·.isFunction)) = some s.function) ∧
    ∀ i b, a.bindings[i]? = some b →
      (∀ n, (i, b) ∈ a.bindingsOf n ↔ n = b.scope) ∧
      ∃ s ∈ a.scopes, s.id = b.scope ∧ (b.kind = .var → s.function = s.id) := by
  intro a
  have htree : a.IsTree := isTree_analyzeMarked t.identify
  have hdistinct := isDistinct_identify hprogram hshared
  refine ⟨htree.nodup_flatten, fun _ => htree.mem_flatten, htree.perm_labels,
    fun n => ⟨htree.nodup_scopes.filter _, nodup_bindingsOf a n⟩, fun s hs => ?_, fun i b hb => ⟨?_, ?_⟩⟩
  · exact ⟨htree.exists_parent hs, scopeFor_node hdistinct hs, htree.find?_function hs⟩
  · intro n
    exact mem_bindingsOf.trans ((and_iff_right hb).trans eq_comm)
  · have hmem := List.mem_of_getElem? hb
    obtain ⟨s, hs, hid⟩ := htree.exists_scope (htree.bindings b hmem)
    refine ⟨s, hs, hid, fun hvar => ?_⟩
    have hself : a.functionOf b.scope = b.scope := functionOf_of_var hdistinct hmem hvar
    rwa [← hid, htree.functionOf_id hs] at hself

theorem analyze_scopes_tree_hoisted : isProgram hoisted = true ∧ hoisted.marks.Nodup ∧
    (analyze hoisted).scopes.length = 3 ∧
    ((analyze hoisted).flatten.map ScopeInfo.label).Perm ["S0", "S1", "S2"] := by
  have hprogram : isProgram hoisted = true := by decide
  have hshared : hoisted.marks.Nodup := by decide
  have hlength : (analyze hoisted).scopes.length = 3 := by decide +kernel
  obtain ⟨-, -, hlabels, -⟩ := analyze_scopes_tree hprogram hshared
  rw [hlength] at hlabels
  exact ⟨hprogram, hshared, hlength, hlabels⟩

end Downlevel.Scope
