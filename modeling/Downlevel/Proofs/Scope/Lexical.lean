import Downlevel.Proofs.Grammar.Matches
import Downlevel.Proofs.Scope.Agreement
import Mathlib.Data.List.Find

/-!
# `Proofs.Scope.Lexical`: names mean what lexical scoping says

The analysis collects declarations and references in one walk and resolves afterwards. What it finds is what
can be said without any walk: a reference means a declaration of its name in the nearest scope around its
place that declares the name anywhere, before or after the reference. If that scope declares the name several
times, the last one is meant.
-/

namespace Downlevel.Scope

open Tree Node Grammar

/-- A program whose nodes are told apart by their marks. -/
structure IsDistinct (t : Tree) : Prop where
  program : Derives .any .program t
  marked : t.IsMarked
  nodup : t.marks.Nodup

theorem isDistinct_identify {t : Tree} (hprogram : isProgram t) (hshared : t.marks.Nodup) :
    IsDistinct t.identify where
  program := fits_one_iff.mp (fits_identify hprogram)
  marked := isMarked_identify t
  nodup := nodup_marks_identify hshared

section

variable {t : Tree} {place place' : Place} {scope identifier : Tree}

/-- A node stands in one place only. -/
theorem eq_of_mem_occurrences (h : IsDistinct t) (ho : (place, identifier) ∈ occurrences [] t)
    (ho' : (place', identifier) ∈ occurrences [] t) : place = place' := by
  obtain ⟨k, hk⟩ := Option.isSome_iff_exists.mp
    (isSome_mark?_of_isMarked t h.marked identifier (mem_objects_of_mem_occurrences ho))
  have hcount : ((occurrences [] t).filterMap fun o => o.2.mark?).count k ≤ 1 := by
    rw [show (fun o : Place × Tree => o.2.mark?) = mark? ∘ Prod.snd from rfl, ← List.filterMap_map,
      map_snd_occurrences t, filterMap_mark?_objects]
    exact List.nodup_iff_count_le_one.mp h.nodup k
  exact congrArg Prod.fst (eq_of_count_filterMap hcount ho ho' hk hk)

open Classical in
/-- Scopes are opened by nodes of the program. -/
theorem node_mem_objects (h : IsDistinct t) {s : ScopeInfo} (hs : s ∈ (analyzeMarked t).scopes) :
    s.node ∈ t.objects := by
  rw [scopes_analyzeMarked] at hs
  obtain ⟨l, hl, hs⟩ := List.mem_filterMap.mp hs
  have hopens := opens_ofProgram (p := fun o => decide (o ∈ t.objects)) (t := t)
    (decide_eq_true (self_mem_objects h.program.isObject))
    fun o ho => decide_eq_true (mem_objects_get rfl ho)
  exact of_decide_eq_true (hopens.scopes l hl s hs).1

/-- Scopes with the same node are the same. -/
theorem eq_of_node (h : IsDistinct t) {s s' : ScopeInfo} (hs : s ∈ (analyzeMarked t).scopes)
    (hs' : s' ∈ (analyzeMarked t).scopes) (heq : s'.node.mark? = s.node.mark?) : s = s' := by
  obtain ⟨k, hk⟩ := Option.isSome_iff_exists.mp
    (isSome_mark?_of_isMarked t h.marked _ (node_mem_objects h hs))
  have hcount := List.nodup_iff_count_le_one.mp (nodup_scopeNodes h.nodup) k
  rw [List.filterMap_map] at hcount
  exact eq_of_count_filterMap hcount hs hs' hk (heq.trans hk)

theorem eq_of_nodeOf (h : IsDistinct t) {m n : Nat} (hm : m < (analyzeMarked t).scopes.length)
    (hn : n < (analyzeMarked t).scopes.length)
    (heq : (analyzeMarked t).nodeOf m = (analyzeMarked t).nodeOf n) : m = n := by
  have htree := isTree_analyzeMarked t
  obtain ⟨s, hs, rfl⟩ := htree.exists_scope hm
  obtain ⟨s', hs', rfl⟩ := htree.exists_scope hn
  rw [htree.nodeOf_id hs, htree.nodeOf_id hs'] at heq
  exact congrArg ScopeInfo.id (eq_of_node h hs hs' (by rw [heq]))

/-! ## Bindings are declarations -/

theorem declaringScope?_of_matches {chain : List Tag} {kind : BindingKind} {hoisted : Bool}
    {declaration : Tree} {o : Place × Tree}
    (h : Matches (chain, .declare identifier kind hoisted declaration) o) :
    declaringScope? o.1 = (homeOf chain hoisted).map (·.2) := by
  obtain ⟨-, -, hdeclared, hhoisted⟩ := h.item
  have hfind : (chain.find? (·.1.isFunction)).map (·.2) = (scopesAt o.1).find? isFunctionNode := by
    rw [← h.surrounds.scopes, List.find?_map]
    congr 1
    exact List.find?_congr fun tag htag => h.surrounds.functions tag htag
  have hhead : chain.head?.map (·.2) = (scopesAt o.1).head? := by
    rw [← h.surrounds.scopes, List.head?_map]
  rw [declaringScope?, hdeclared, Option.bind_some, homeOf, hhoisted]
  by_cases hvar : kind = .var
  · rw [if_pos hvar, if_pos (beq_iff_eq.mpr hvar), hfind]
  · rw [if_neg hvar, if_neg (by simpa using hvar), hhead]

/-- **Every binding is a declaration in its scope.** -/
theorem declares_of_binding (h : IsDistinct t) {b : Binding} (hb : b ∈ (analyzeMarked t).bindings) :
    Declares t ((analyzeMarked t).nodeOf b.scope) b.identifier := by
  obtain ⟨chain, hoisted, hl, hhome⟩ := exists_leaf_of_binding hb
  obtain ⟨o, ho, hmatch⟩ := (agrees_ofProgram h.program).sound _ hl
  obtain ⟨hidentifier, htype, -, -⟩ := hmatch.item
  rw [hidentifier]
  exact ⟨htype, o.1, ho, (declaringScope?_of_matches hmatch).trans hhome⟩

/-- **Every declaration in a scope is a binding.** -/
theorem exists_binding_of_declares (h : IsDistinct t) (hdeclares : Declares t scope identifier) :
    ∃ b ∈ (analyzeMarked t).bindings, b.identifier = identifier ∧
      (analyzeMarked t).nodeOf b.scope = scope := by
  obtain ⟨htype, place, ho, hscope⟩ := hdeclares
  have hdeclared : (declaredAt place).isSome := by
    cases hkind : declaredAt place with
    | none =>
      rw [declaringScope?, hkind] at hscope
      cases hscope
    | some kind => rfl
  obtain ⟨⟨chain, item⟩, hl, hdeclaration, hmatch⟩ :=
    (agrees_ofProgram h.program).complete _ ho htype hdeclared
  cases item with
  | declare id kind hoisted declaration =>
    obtain ⟨b, hb, hidentifier, hhome⟩ := exists_binding_of_leaf hl
    refine ⟨b, hb, hidentifier.trans hmatch.item.1, ?_⟩
    rw [← declaringScope?_of_matches hmatch] at hhome
    exact Option.some.inj (hhome.symm.trans hscope)
  | refer _ _ | issue _ _ | scope _ _ _ | outside _ => cases hdeclaration

/-- An identifier is declared in one scope only. -/
theorem Declares.eq {scope' : Tree} (h : IsDistinct t) (hd : Declares t scope identifier)
    (hd' : Declares t scope' identifier) : scope = scope' := by
  obtain ⟨-, place, ho, hscope⟩ := hd
  obtain ⟨-, place', ho', hscope'⟩ := hd'
  rw [eq_of_mem_occurrences h ho ho'] at hscope
  exact Option.some.inj (hscope.symm.trans hscope')

/-- The scopes around a reference are those around its place. -/
theorem exists_place_of_reference (h : IsDistinct t) {r : Reference}
    (hr : r ∈ (analyzeMarked t).references) : ∃ place, (place, r.identifier) ∈ occurrences [] t ∧
      ((analyzeMarked t).around r.scope).map (analyzeMarked t).nodeOf = scopesAt place := by
  obtain ⟨chain, hl, haround⟩ := exists_leaf_of_reference hr
  obtain ⟨o, ho, hmatch⟩ := (agrees_ofProgram h.program).sound _ hl
  refine ⟨o.1, ?_, haround.trans hmatch.surrounds.scopes⟩
  have hidentifier : r.identifier = o.2 := hmatch.item
  rw [hidentifier]
  exact ho

/-! ## What names mean -/

/-- The nearest scope around a place that declares a name. -/
def IsNearest (program : Tree) (place : Place) (name : Option String) (scope : Tree) : Prop :=
  ∃ inner outer, scopesAt place = inner ++ scope :: outer ∧
    (∃ d, Declares program scope d ∧ d.name? = name) ∧
    ∀ s ∈ inner, ∀ d, Declares program s d → d.name? ≠ name

/-- The last binding of a name that a scope declares, in the order of the walk. -/
def IsLastIn (program scope : Tree) (name : Option String) (bindings : List Binding) (i : Nat) : Prop :=
  (∃ b, bindings[i]? = some b ∧ Declares program scope b.identifier ∧ b.name = name) ∧
    ∀ (j : Nat) (b : Binding), bindings[j]? = some b → Declares program scope b.identifier →
      b.name = name → j ≤ i

section

variable (h : IsDistinct t) {n : Nat} (hn : n < (analyzeMarked t).scopes.length) (name : Option String)

include h hn name

/-- A scope of an analysis declares the names of its node. -/
theorem declares_iff (i : Nat) :
    (analyzeMarked t).Declares n name i ↔ ∃ b, (analyzeMarked t).bindings[i]? = some b ∧
      Declares t ((analyzeMarked t).nodeOf n) b.identifier ∧ b.name = name := by
  constructor
  · rintro ⟨b, hb, rfl, hname⟩
    exact ⟨b, hb, declares_of_binding h (List.mem_of_getElem? hb), hname⟩
  · rintro ⟨b, hb, hdeclares, hname⟩
    have hmem := List.mem_of_getElem? hb
    refine ⟨b, hb, ?_, hname⟩
    have hnode := hdeclares.eq h (declares_of_binding h hmem)
    have hlt : b.scope < (analyzeMarked t).scopes.length := by
      have htree := isTree_analyzeMarked t
      exact htree.bindings b hmem
    exact (eq_of_nodeOf h hn hlt hnode).symm

/-- A scope has no binding of a name exactly if its node declares none. -/
theorem not_declares_iff : (∀ j, ¬ (analyzeMarked t).Declares n name j) ↔
      ∀ d, Declares t ((analyzeMarked t).nodeOf n) d → d.name? ≠ name := by
  constructor
  · intro hno d hd hname
    obtain ⟨b, hb, rfl, hnode⟩ := exists_binding_of_declares h hd
    obtain ⟨j, hj⟩ := List.mem_iff_getElem?.mp hb
    exact hno j ((declares_iff h hn name j).mpr ⟨b, hj, hd, hname⟩)
  · intro hno j hj
    obtain ⟨b, -, hd, hname⟩ := (declares_iff h hn name j).mp hj
    exact hno _ hd hname

theorem isLastIn_iff (i : Nat) : (analyzeMarked t).lastBinding? name n = some i ↔
      IsLastIn t ((analyzeMarked t).nodeOf n) name (analyzeMarked t).bindings i := by
  rw [Analysis.lastBinding?_eq_some, declares_iff h hn, IsLastIn]
  refine and_congr_right fun _ => ⟨fun hlast j b hb hd hname => ?_, fun hlast j hj => ?_⟩
  · exact hlast j ((declares_iff h hn name j).mpr ⟨b, hb, hd, hname⟩)
  · obtain ⟨b, hb, hd, hname⟩ := (declares_iff h hn name j).mp hj
    exact hlast j b hb hd hname

end

/-- The analysis of a program whose nodes are told apart is lexical. -/
theorem lexical_of_isDistinct (h : IsDistinct t) {r : Reference} (hr : r ∈ (analyzeMarked t).references) :
    ∃ place, (place, r.identifier) ∈ occurrences [] t ∧
      (∀ i, (analyzeMarked t).resolve r = some i ↔ ∃ scope, IsNearest t place r.name scope ∧
        IsLastIn t scope r.name (analyzeMarked t).bindings i) ∧
      ((analyzeMarked t).resolve r = none ↔
        ∀ scope ∈ scopesAt place, ∀ d, Declares t scope d → d.name? ≠ r.name) := by
  obtain ⟨place, ho, haround⟩ := exists_place_of_reference h hr
  have hscopes : ∀ n ∈ (analyzeMarked t).around r.scope, n < (analyzeMarked t).scopes.length :=
    fun n hn => ((isTree_analyzeMarked t).lt_of_mem_around hn).2
  refine ⟨place, ho, fun i => ?_, ?_⟩
  · rw [Analysis.resolve_eq, List.findSome?_eq_some_iff]
    constructor
    · rintro ⟨inner, n, outer, hsplit, hlast, hinner⟩
      have hn := hscopes n (by simp [hsplit])
      rw [isLastIn_iff h hn] at hlast
      refine ⟨_, ⟨inner.map (analyzeMarked t).nodeOf, outer.map (analyzeMarked t).nodeOf, ?_, ?_, ?_⟩, hlast⟩
      · rw [← haround, hsplit, List.map_append, List.map_cons]
      · obtain ⟨b, -, hd, hname⟩ := hlast.1
        exact ⟨_, hd, hname⟩
      · intro s hs
        obtain ⟨m, hm, rfl⟩ := List.mem_map.mp hs
        exact (not_declares_iff h (hscopes m (by simp [hsplit, hm])) _).mp
          (Analysis.lastBinding?_eq_none.mp (hinner m hm))
    · rintro ⟨scope, ⟨inner, outer, hsplit, -, hinner⟩, hlast⟩
      rw [← haround] at hsplit
      obtain ⟨inner', rest, hsplit', rfl, hrest⟩ := List.map_eq_append_iff.mp hsplit
      obtain ⟨n, outer', rfl, rfl, rfl⟩ := List.map_eq_cons_iff.mp hrest
      have hn := hscopes n (by simp [hsplit'])
      refine ⟨inner', n, outer', hsplit', (isLastIn_iff h hn _ _).mpr hlast, fun m hm => ?_⟩
      exact Analysis.lastBinding?_eq_none.mpr
        ((not_declares_iff h (hscopes m (by simp [hsplit', hm])) _).mpr (hinner _ (List.mem_map_of_mem hm)))
  · rw [Analysis.IsTree.resolve_eq_none_iff, ← haround, List.forall_mem_map]
    exact forall₂_congr fun m hm => not_declares_iff h (hscopes m hm) _

end

/-- **A reference means the last declaration of its name in the nearest scope around it that has one**, be it
before the reference or after it, and nothing exactly if no scope around it declares the name. -/
theorem resolve_lexical {t : Tree} (hprogram : isProgram t = true) (hshared : t.marks.Nodup) {r : Reference}
    (hr : r ∈ (analyze t).references) :
    ∃ place, (place, r.identifier) ∈ occurrences [] t.identify ∧
      (∀ i, (analyze t).resolve r = some i ↔ ∃ scope, IsNearest t.identify place r.name scope ∧
        IsLastIn t.identify scope r.name (analyze t).bindings i) ∧
      ((analyze t).resolve r = none ↔
        ∀ scope ∈ scopesAt place, ∀ d, Declares t.identify scope d → d.name? ≠ r.name) :=
  lexical_of_isDistinct (isDistinct_identify hprogram hshared) hr

/-- `var x; { f(x); { let x; } let x; }`: the reference to `x` comes before the declaration that it means. -/
def hoisted : Tree :=
  let letX := declaration "let" [declarator (identifier "x")]
  make "Program" [("body", .list
    [var "x", block [expressionStatement (call (identifier "f") [identifier "x"]), block [letX], letX]])]

theorem resolve_hoisted :
    ∃ r, (analyze hoisted).references[1]? = some r ∧ (analyze hoisted).resolve r = some 2 := by
  have hresolve : ((analyze hoisted).references[1]?).bind (analyze hoisted).resolve = some 2 := by
    decide +kernel
  exact Option.bind_eq_some_iff.mp hresolve

theorem resolve_lexical_hoisted : isProgram hoisted = true ∧ hoisted.marks.Nodup ∧
    ∃ r ∈ (analyze hoisted).references, (analyze hoisted).resolve r = some 2 ∧
      ∃ place, (place, r.identifier) ∈ occurrences [] hoisted.identify ∧
        (∀ i, (analyze hoisted).resolve r = some i ↔ ∃ scope, IsNearest hoisted.identify place r.name scope ∧
          IsLastIn hoisted.identify scope r.name (analyze hoisted).bindings i) ∧
        ((analyze hoisted).resolve r = none ↔
          ∀ scope ∈ scopesAt place, ∀ d, Declares hoisted.identify scope d → d.name? ≠ r.name) := by
  have hprogram : isProgram hoisted = true := by decide
  have hshared : hoisted.marks.Nodup := by decide
  obtain ⟨r, hr, hresolve⟩ := resolve_hoisted
  have hmem := List.mem_of_getElem? hr
  exact ⟨hprogram, hshared, r, hmem, hresolve, resolve_lexical hprogram hshared hmem⟩

end Downlevel.Scope
