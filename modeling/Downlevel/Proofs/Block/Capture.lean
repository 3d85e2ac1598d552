import Downlevel.Lower.Block.Rename
import Downlevel.Proofs.Scope.Lookup

/-!
# `Proofs.Block.Capture`: names that hoisting cannot confuse

When the movable bindings of a function move out of their blocks into the function, they come between
references and what these mean. A naming is **safe** when this confuses nothing: the movable bindings of
a function differ from each other, from its other bindings, and from every name that a reference inside
the function gives to something else.
-/

namespace Downlevel.Lower.Block

open Scope

/-- Is there a movable binding at this place of the list of bindings? -/
def IsMovableAt (a : Analysis) (kept : List Nat) (i : Nat) : Prop :=
  ∃ b, a.bindings[i]? = some b ∧ isMovable kept (a.functionOf b.scope) b = true

/-- New names of bindings and references, by place, under which movable bindings confuse nothing. -/
structure IsSafe (a : Analysis) (kept : List Nat) (bindingName referenceName : Nat → Option String) :
    Prop where
  /-- A reference is called what it means. -/
  resolved : ∀ k r i, a.references[k]? = some r → a.resolve r = some i → referenceName k = bindingName i
  unresolved : ∀ k r, a.references[k]? = some r → a.resolve r = none → referenceName k = r.name
  unmoved : ∀ i b, a.bindings[i]? = some b → ¬ IsMovableAt a kept i → bindingName i = b.name
  /-- The movable bindings of a function have different names. -/
  distinct : ∀ i j b c, a.bindings[i]? = some b → a.bindings[j]? = some c →
    IsMovableAt a kept i → IsMovableAt a kept j → a.functionOf b.scope = a.functionOf c.scope →
    i ≠ j → bindingName i ≠ bindingName j
  /-- They are called like no other binding of the function. -/
  apart : ∀ i j b c, a.bindings[i]? = some b → a.bindings[j]? = some c →
    IsMovableAt a kept i → ¬ IsMovableAt a kept j → a.functionOf b.scope = a.functionOf c.scope →
    bindingName i ≠ c.name
  /-- They are called like no reference inside the function that means nothing known … -/
  freeOfUnresolved : ∀ i b k r, a.bindings[i]? = some b → IsMovableAt a kept i →
    a.references[k]? = some r → a.functionOf b.scope ∈ a.around r.scope → a.resolve r = none →
    referenceName k ≠ bindingName i
  /-- … or something else of the function or around it. -/
  freeOfResolved : ∀ i b k r j c, a.bindings[i]? = some b → IsMovableAt a kept i →
    a.references[k]? = some r → a.functionOf b.scope ∈ a.around r.scope → a.resolve r = some j →
    a.bindings[j]? = some c → a.functionOf c.scope ∈ a.around (a.functionOf b.scope) →
    ¬ (IsMovableAt a kept j ∧ a.functionOf c.scope = a.functionOf b.scope) →
    referenceName k ≠ bindingName i
  /-- A movable binding keeps its name or gets one that no binding had. -/
  keptOrNew : ∀ i b, a.bindings[i]? = some b → IsMovableAt a kept i →
    bindingName i = b.name ∨ ∀ c ∈ a.bindings, bindingName i ≠ c.name

/-- The second analysis is that of the same program, with new names, and with some of the movable
bindings moved to their functions. -/
structure Moves (a : Analysis) (kept : List Nat) (bindingName referenceName : Nat → Option String)
    (a' : Analysis) : Prop where
  around : ∀ n, a'.around n = a.around n
  bindings : ∀ i, Option.Rel (fun b b' => b'.name = bindingName i ∧
      (b'.scope = b.scope ∨ IsMovableAt a kept i ∧ b'.scope = a.functionOf b.scope))
    a.bindings[i]? a'.bindings[i]?
  references : ∀ k, Option.Rel (fun r r' => r'.name = referenceName k ∧ r'.scope = r.scope)
    a.references[k]? a'.references[k]?

section

variable {a a' : Analysis} {kept : List Nat} {bindingName referenceName : Nat → Option String}

namespace Moves

theorem exists_binding (m : Moves a kept bindingName referenceName a') {i : Nat} {b' : Binding}
    (hb' : a'.bindings[i]? = some b') : ∃ b, a.bindings[i]? = some b ∧ b'.name = bindingName i ∧
      (b'.scope = b.scope ∨ IsMovableAt a kept i ∧ b'.scope = a.functionOf b.scope) := by
  have hrel := m.bindings i
  rw [hb'] at hrel
  cases hb : a.bindings[i]? with
  | none => rw [hb] at hrel; cases hrel
  | some b =>
    rw [hb] at hrel
    cases hrel with
    | some h => exact ⟨b, rfl, h⟩

theorem exists_binding' (m : Moves a kept bindingName referenceName a') {i : Nat} {b : Binding}
    (hb : a.bindings[i]? = some b) : ∃ b', a'.bindings[i]? = some b' ∧ b'.name = bindingName i ∧
      (b'.scope = b.scope ∨ IsMovableAt a kept i ∧ b'.scope = a.functionOf b.scope) := by
  have hrel := m.bindings i
  rw [hb] at hrel
  cases hb' : a'.bindings[i]? with
  | none => rw [hb'] at hrel; cases hrel
  | some b' =>
    rw [hb'] at hrel
    cases hrel with
    | some h => exact ⟨b', rfl, h⟩

end Moves

/-- Wherever a binding has moved, it is in the same function. -/
theorem functionOf_moved (h : a.IsTree) {i n : Nat} {b : Binding} (hb : a.bindings[i]? = some b)
    (hn : n = b.scope ∨ IsMovableAt a kept i ∧ n = a.functionOf b.scope) :
    a.functionOf n = a.functionOf b.scope ∧ n ∈ a.around b.scope := by
  have hlt := h.bindings b (List.mem_of_getElem? hb)
  rcases hn with rfl | ⟨_, rfl⟩
  · exact ⟨rfl, h.self_mem_around hlt⟩
  · exact ⟨h.functionOf_functionOf hlt, h.functionOf_mem_around hlt⟩

/-- **A binding that comes between a reference and what it means has another name.** -/
theorem rival_of_resolved (h : a.IsTree) (safe : IsSafe a kept bindingName referenceName)
    {k i j n m : Nat} {r : Reference} {b c : Binding}
    (hr : a.references[k]? = some r) (hres : a.resolve r = some i)
    (hb : a.bindings[i]? = some b) (hc : a.bindings[j]? = some c)
    (hn : n = b.scope ∨ IsMovableAt a kept i ∧ n = a.functionOf b.scope)
    (hm : m = c.scope ∨ IsMovableAt a kept j ∧ m = a.functionOf c.scope)
    (hmr : m ∈ a.around r.scope) (hname : bindingName j = referenceName k) (hij : i ≠ j)
    (hin : n ∈ a.around m) : m = n ∧ j ≤ i := by
  have hsame := safe.resolved k r i hr hres
  obtain ⟨s, hs, ⟨b₀, hb₀, hscope, hbname⟩, hnear⟩ := h.resolve_eq_some_iff.mp hres
  obtain rfl : b = b₀ := Option.some.inj (hb.symm.trans hb₀)
  subst hscope
  have hfn := (functionOf_moved h hb hn).1
  have hfm := (functionOf_moved h hc hm).1
  have hfun : a.functionOf b.scope ∈ a.around (a.functionOf c.scope) := by
    rw [← hfn, ← hfm]
    exact h.functionOf_mono hin
  have hfr : a.functionOf c.scope ∈ a.around r.scope := by
    rw [← hfm]
    exact h.around_trans hmr (h.functionOf_mem_around (h.lt_of_mem_around hmr).2)
  by_cases hmj : IsMovableAt a kept j
  · -- A movable rival avoids all names used in its function for something else.
    have hboth : IsMovableAt a kept i ∧ a.functionOf b.scope = a.functionOf c.scope := by
      by_contra hnot
      exact safe.freeOfResolved j c k r i b hc hmj hr hfr hres hb hfun hnot hname.symm
    exact absurd (hname.trans hsame).symm (safe.distinct i j b c hb hc hboth.1 hmj hboth.2 hij)
  · have hcname : bindingName j = c.name := safe.unmoved j c hc hmj
    have hmscope : m = c.scope := hm.resolve_right fun hmov => hmj hmov.1
    subst hmscope
    by_cases hmi : IsMovableAt a kept i
    · exfalso
      by_cases hfuns : a.functionOf b.scope = a.functionOf c.scope
      · exact safe.apart i j b c hb hc hmi hmj hfuns (by rw [← hsame, ← hname, hcname])
      · rcases safe.keptOrNew i b hb hmi with hkept | hnew
        · -- The rival was nearer already.
          have hrname : c.name = r.name := by rw [← hcname, hname, hsame, hkept, hbname]
          have hnearer := (hnear c.scope hmr j ⟨c, hc, rfl, hrname⟩).1
          exact hfuns (h.around_antisymm hfun (h.functionOf_mono hnearer))
        · exact hnew c (List.mem_of_getElem? hc) (by rw [← hsame, ← hname, hcname])
    · have hnscope : n = b.scope := hn.resolve_right fun hmov => hmi hmov.1
      subst hnscope
      have hrname : c.name = r.name := by
        rw [← hcname, hname, hsame, safe.unmoved i b hb hmi, hbname]
      obtain ⟨hnearer, hlast⟩ := hnear c.scope hmr j ⟨c, hc, rfl, hrname⟩
      have heq := h.around_antisymm hnearer hin
      exact ⟨heq, hlast heq⟩

/-- A binding around a reference that means nothing known has another name. -/
theorem no_rival_of_unresolved (h : a.IsTree) (safe : IsSafe a kept bindingName referenceName)
    {k j m : Nat} {r : Reference} {c : Binding}
    (hr : a.references[k]? = some r) (hres : a.resolve r = none) (hc : a.bindings[j]? = some c)
    (hm : m = c.scope ∨ IsMovableAt a kept j ∧ m = a.functionOf c.scope)
    (hmr : m ∈ a.around r.scope) : bindingName j ≠ referenceName k := by
  intro hname
  by_cases hmj : IsMovableAt a kept j
  · have hfr : a.functionOf c.scope ∈ a.around r.scope := by
      rw [← (functionOf_moved h hc hm).1]
      exact h.around_trans hmr (h.functionOf_mem_around (h.lt_of_mem_around hmr).2)
    exact safe.freeOfUnresolved j c k r hc hmj hr hfr hres hname.symm
  · have hmscope : m = c.scope := hm.resolve_right fun hmov => hmj hmov.1
    have hrname : c.name = r.name := by
      rw [← safe.unmoved j c hc hmj, hname, safe.unresolved k r hr hres]
    exact Analysis.IsTree.resolve_eq_none_iff.mp hres m hmr j ⟨c, hc, hmscope.symm, hrname⟩

/-- **Under a safe naming, references mean what they meant**, whichever movable bindings have moved. -/
theorem resolve_eq_of_isSafe (h : a.IsTree) (h' : a'.IsTree)
    (safe : IsSafe a kept bindingName referenceName)
    (moves : Moves a kept bindingName referenceName a') {k : Nat} {r r' : Reference}
    (hr : a.references[k]? = some r) (hr' : a'.references[k]? = some r') :
    a'.resolve r' = a.resolve r := by
  have hrel := moves.references k
  rw [hr, hr'] at hrel
  cases hrel with
  | some hrel =>
  obtain ⟨hname, hscope⟩ := hrel
  have hround : a'.around r'.scope = a.around r.scope := by rw [moves.around, hscope]
  cases hres : a.resolve r with
  | none =>
    rw [Analysis.IsTree.resolve_eq_none_iff, hround]
    rintro m hm j ⟨c', hc', rfl, hcname⟩
    obtain ⟨c, hc, hjname, hcscope⟩ := moves.exists_binding hc'
    exact no_rival_of_unresolved h safe hr hres hc hcscope hm (by rw [← hjname, hcname, hname])
  | some i =>
    obtain ⟨s, hs, ⟨b, hb, rfl, hbname⟩, _⟩ := h.resolve_eq_some_iff.mp hres
    obtain ⟨b', hb', hiname, hbscope⟩ := moves.exists_binding' hb
    have hn := h.around_trans hs (functionOf_moved h hb hbscope).2
    rw [h'.resolve_eq_some_iff, hround]
    refine ⟨b'.scope, hn, ⟨b', hb', rfl, ?_⟩, ?_⟩
    · rw [hiname, hname, safe.resolved k r i hr hres]
    · rintro m hm j ⟨c', hc', rfl, hcname⟩
      obtain ⟨c, hc, hjname, hcscope⟩ := moves.exists_binding hc'
      rw [moves.around]
      by_cases hij : i = j
      · subst hij
        obtain rfl : b' = c' := Option.some.inj (hb'.symm.trans hc')
        exact ⟨h.self_mem_around (h.lt_of_mem_around hn).2, fun _ => Nat.le_refl i⟩
      · have hrival := rival_of_resolved h safe hr hres hb hc hbscope hcscope hm
          (by rw [← hjname, hcname, hname]) hij
        rcases h.around_linear hm hn with hin | hin
        · exact ⟨hin, fun heq => (hrival (heq ▸ hin)).2⟩
        · obtain ⟨heq, hle⟩ := hrival hin
          exact ⟨by rw [heq]; exact h.self_mem_around (h.lt_of_mem_around hn).2, fun _ => hle⟩

end

end Downlevel.Lower.Block
