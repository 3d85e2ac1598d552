import Downlevel.Names
import Mathlib.Data.List.Perm.Subperm
import Mathlib.Data.List.Nodup

/-!
# `Proofs.Names`: fresh names are fresh

The candidates for a name are pairwise different, so among one more of them than there are names in use
one is not in use, and the search finds it.
-/

namespace Downlevel.NameSupply

/-! ## The search -/

/-- No two candidates are alike. -/
theorem candidate_injective (base : String) : Function.Injective (candidate base) := by
  intro m n h
  by_cases hm : m = 0 <;> by_cases hn : n = 0
  · rw [hm, hn]
  · simp [candidate, hm, hn, String.ext_iff, toString] at h
  · simp [candidate, hm, hn, String.ext_iff, toString] at h
  · simp only [candidate, hm, hn, if_false, toString] at h
    have hrepr : (m + 1).repr = (n + 1).repr := (String.append_right_inj base).mp h
    have hdigits : Nat.toDigits 10 (m + 1) = Nat.toDigits 10 (n + 1) := by
      rw [← Nat.toList_repr, ← Nat.toList_repr, hrepr]
    have hvalue := congrArg (Nat.ofDigitChars 10 · 0) hdigits
    simpa only [Nat.ofDigitChars_ten_toDigits, Nat.add_right_cancel_iff] using hvalue

/-- One of the first candidates is not in use. -/
theorem exists_unused (used : List String) (base : String) :
    ∃ k ≤ used.length, candidate base k ∉ used := by
  by_contra hall
  push Not at hall
  let tried := (List.range (used.length + 1)).map (candidate base)
  have hnodup : tried.Nodup := List.nodup_range.map (candidate_injective base)
  have hsub : tried ⊆ used := by
    intro name hname
    obtain ⟨k, hk, rfl⟩ := List.mem_map.mp hname
    exact hall k (by have := List.mem_range.mp hk; omega)
  have hlength : tried.length ≤ used.length := (List.subperm_of_subset hnodup hsub).length_le
  simp only [tried, List.length_map, List.length_range] at hlength
  omega

/-- The search finds the first candidate that is not in use when there is one among those it tries. -/
theorem firstUnused_spec (used : List String) (base : String) :
    ∀ fuel n, (∃ k ≤ fuel, candidate base (n + k) ∉ used) → ∃ k, firstUnused used base fuel n =
      candidate base (n + k) ∧ candidate base (n + k) ∉ used ∧ ∀ j < k, candidate base (n + j) ∈ used
  | 0, n, h => by
    obtain ⟨k, hk, hnot⟩ := h
    obtain rfl : k = 0 := Nat.le_zero.mp hk
    exact ⟨0, rfl, hnot, fun j hj => absurd hj (Nat.not_lt_zero j)⟩
  | fuel + 1, n, h => by
    obtain ⟨k, hk, hnot⟩ := h
    have hshift : ∀ j, n + 1 + j = n + (j + 1) := fun j => by omega
    unfold firstUnused
    split
    · rename_i hused
      obtain ⟨k, rfl⟩ : ∃ l, k = l + 1 := Nat.exists_eq_succ_of_ne_zero fun hzero =>
        hnot (hzero ▸ List.contains_iff_mem.mp hused)
      obtain ⟨l, heq, hfree, hbefore⟩ := firstUnused_spec used base fuel (n + 1)
        ⟨k, Nat.le_of_succ_le_succ hk, by rwa [hshift]⟩
      rw [hshift] at heq hfree
      refine ⟨l + 1, heq, hfree, fun j hj => ?_⟩
      cases j with
      | zero => exact List.contains_iff_mem.mp hused
      | succ j =>
        rw [← hshift]
        exact hbefore j (Nat.lt_of_succ_lt_succ hj)
    · rename_i hunused
      exact ⟨0, rfl, fun hmem => hunused (List.contains_iff_mem.mpr hmem), fun j hj =>
        absurd hj (Nat.not_lt_zero j)⟩

/-! ## Fresh names -/

/-- A fresh name is the first candidate that is not in use. -/
theorem fresh_spec (s : NameSupply) (hint : String) : ∃ k, (s.fresh hint).1 = candidate (base hint) k ∧
    candidate (base hint) k ∉ s.used ∧ ∀ j < k, candidate (base hint) j ∈ s.used := by
  obtain ⟨k, hk, hnot⟩ := exists_unused s.used (base hint)
  have hfirst := firstUnused_spec s.used (base hint) s.used.length 0 ⟨k, hk, by rwa [Nat.zero_add]⟩
  simp only [Nat.zero_add] at hfirst
  exact hfirst

/-- A fresh name is not in use. -/
theorem fresh_not_mem (s : NameSupply) (hint : String) : (s.fresh hint).1 ∉ s.used := by
  obtain ⟨k, heq, hnot, -⟩ := s.fresh_spec hint
  rwa [heq]

/-- After a fresh name was given, it is in use, and so is all that was in use before. -/
theorem mem_used_fresh {s : NameSupply} {hint name : String} :
    name ∈ (s.fresh hint).2.used ↔ name = (s.fresh hint).1 ∨ name ∈ s.used := List.mem_cons

theorem head?_base (hint : String) : (base hint).toList.head? = some '_' := by
  unfold base
  split
  · rename_i heq
    rw [heq]
    rfl
  · rw [String.toList_append]
    rfl

/-- A fresh name starts with an underscore. -/
theorem head?_fresh (s : NameSupply) (hint : String) : (s.fresh hint).1.toList.head? = some '_' := by
  obtain ⟨k, heq, -⟩ := s.fresh_spec hint
  rw [heq, candidate]
  split
  · exact head?_base hint
  · rw [String.toList_append, List.head?_append, head?_base]
    rfl

/-! ## Many names -/

/-- What is asked of a supply. -/
inductive Call where
  | fresh (hint : String)
  | reserve (name : String)

/-- The supply after some calls, and the names that it gave. -/
def serveAll (s : NameSupply) : List Call → NameSupply × List String
  | [] => (s, [])
  | .fresh hint :: rest =>
    let after := (s.fresh hint).2.serveAll rest
    (after.1, (s.fresh hint).1 :: after.2)
  | .reserve name :: rest => (s.reserve name).serveAll rest

/-- What is in use after some calls: what was in use before, what was reserved and what was given. -/
theorem mem_used_serveAll {name : String} : ∀ {s : NameSupply} {calls : List Call},
    name ∈ (s.serveAll calls).1.used ↔
      name ∈ s.used ∨ .reserve name ∈ calls ∨ name ∈ (s.serveAll calls).2
  | s, [] => by simp [serveAll]
  | s, .fresh hint :: rest => by
    rw [serveAll, mem_used_serveAll, mem_used_fresh]
    simp only [List.mem_cons, reduceCtorEq, false_or]
    tauto
  | s, .reserve other :: rest => by
    rw [serveAll, mem_used_serveAll, reserve]
    simp only [List.mem_cons, Call.reserve.injEq]
    tauto

/-- **Fresh names are fresh.** Whatever was asked of the supply of a tree before, the next name it gives is
none of the tree, none that was reserved and none that it gave. It is the first such name among the base of
the hint and its numbered forms. -/
theorem fresh_serveAll (t : Tree) (calls : List Call) (hint : String) :
    let after := (ofTree t).serveAll calls
    let IsTaken (name : String) := .reserve name ∈ calls ∨ name ∈ after.2 ∨
      ∃ i ∈ t.nodes, i.isTypeIn ["Identifier", "JSXIdentifier"] ∧ i.name? = some name
    let name := (after.1.fresh hint).1
    ¬ IsTaken name ∧ name.toList.head? = some '_' ∧
      ∃ k, name = candidate (base hint) k ∧ ∀ j < k, IsTaken (candidate (base hint) j) := by
  intro after IsTaken name
  have htree : ∀ n, n ∈ (ofTree t).used ↔
      ∃ i ∈ t.nodes, i.isTypeIn ["Identifier", "JSXIdentifier"] ∧ i.name? = some n := fun n => by
    simp only [ofTree, List.mem_filterMap, Option.ite_none_right_eq_some]
  have htaken : ∀ n, n ∈ after.1.used ↔ IsTaken n := fun n => by
    rw [mem_used_serveAll, htree, or_comm, or_assoc]
  obtain ⟨k, heq, -, hbefore⟩ := after.1.fresh_spec hint
  exact ⟨fun h => after.1.fresh_not_mem hint ((htaken name).mpr h), after.1.head?_fresh hint, k, heq,
    fun j hj => (htaken _).mp (hbefore j hj)⟩

/-- The candidates of one hint can be those of another: `_x2` is given for `x`, and so taken for `x2`. -/
example : ((ofTree (.list [])).serveAll [.fresh "x", .reserve "_y", .fresh "x", .fresh "x2", .fresh "y"]).2 =
    ["_x", "_x2", "_x22", "_y2"] := by decide +kernel

end Downlevel.NameSupply
