import Downlevel.Proofs.Block.Candidates
import Downlevel.Proofs.Block.Capture
import Downlevel.Proofs.Names

/-!
# `Proofs.Block.Renaming`: renaming is safe

Renaming goes through the functions from the outside to the inside, and through the candidates of each
function in order. One candidate keeps its name or gets a fresh one; what was named before stays as it
is, since a mark belongs to one binding only. What a function has to avoid are names of its other
bindings and of references to something around it, and these are settled when its turn comes.
-/

namespace Downlevel.Lower.Block

open Scope

variable {r : Renaming} {t : Tree} {m i : Nat} {name : String} {c : Nat × Binding} {s : ScopeInfo}
  {names : NameSupply} {done : List ScopeInfo} {w : Renamer} {b : Binding}

/-- The name of an identifier under a renaming. -/
def newName (r : Renaming) (identifier : Tree) : Option String :=
  match r.name? identifier with
  | some name => some name
  | none => identifier.name?

theorem newName_of_none (hm : t.mark? = some m) (h : List.lookup m r = none) : newName r t = t.name? := by
  rw [newName, Renaming.name?, hm]
  simp only [h]

theorem newName_of_some (hm : t.mark? = some m) (h : List.lookup m r = some name) :
    newName r t = some name := by
  rw [newName, Renaming.name?, hm]
  simp only [h]

theorem newName_congr {r' : Renaming} (h : ∀ m, t.mark? = some m → List.lookup m r = List.lookup m r') :
    newName r t = newName r' t := by
  rw [newName, newName, Renaming.name?, Renaming.name?]
  cases hm : t.mark? with
  | none => rfl
  | some m => simp only [h m hm]

theorem currentName_eq (r : Renaming) (x : Reference) :
    currentName r x = newName r x.identifier := rfl

/-! ## One candidate -/

/-- A mark that is given a name has it, unless it had one before. -/
theorem lookup_append_map {ms : List Nat} (hnone : List.lookup m r = none) (hm : m ∈ ms) :
    List.lookup m (r ++ ms.map fun k => (k, name)) = some name := by
  rw [List.lookup_append, hnone, Option.none_or]
  induction ms with
  | nil => cases hm
  | cons k ms ih =>
    rw [List.map_cons, List.lookup_cons]
    by_cases hk : m = k
    · simp [hk]
    · simp only [beq_eq_false_iff_ne.mpr hk]
      exact ih ((List.mem_cons.mp hm).resolve_left hk)

theorem lookup_append_map_of_not_mem {ms : List Nat} (hm : m ∉ ms) :
    List.lookup m (r ++ ms.map fun k => (k, name)) = List.lookup m r := by
  have hnone : List.lookup m (ms.map fun k => (k, name)) = none := by
    rw [List.lookup_eq_none_iff]
    intro p hp
    obtain ⟨k, hk, rfl⟩ := List.mem_map.mp hp
    exact bne_iff_ne.mpr fun heq => hm (heq ▸ hk)
  rw [List.lookup_append, hnone, Option.or_none]

/-! ## The candidates of a function -/

section

variable {a : Analysis} {kept : List Nat}

/-- The marks of a binding. -/
abbrev marksAt (a : Analysis) (c : Nat × Binding) : List Nat := identifierMarks a a.resolutions c

/-- What naming the candidates of a function comes to. -/
structure Assigned (a : Analysis) (cs : List (Nat × Binding)) (taken : List (Option String))
    (w w' : Renamer) : Prop where
  used : w.names.used ⊆ w'.names.used
  /-- Nothing else gets a name. -/
  others : ∀ m, (∀ c ∈ cs, m ∉ marksAt a c) →
    List.lookup m w'.changes = List.lookup m w.changes
  /-- A candidate keeps its name or gets a fresh one, together with what refers to it. -/
  named : ∀ c ∈ cs, (∀ m ∈ marksAt a c, List.lookup m w'.changes = none) ∨
    ∃ name, name ∉ w.names.used ∧ name ∈ w'.names.used ∧
      ∀ m ∈ marksAt a c, List.lookup m w'.changes = some name
  avoids : ∀ c ∈ cs, newName w'.changes c.2.identifier ∉ taken
  distinct : cs.Pairwise fun c d =>
    newName w'.changes c.2.identifier ≠ newName w'.changes d.2.identifier

/-- The name of a binding whose marks are given none is the old one. -/
theorem newName_of_marks_none (hd : HasDistinctMarks a) (hc : a.bindings[c.1]? = some c.2)
    (h : ∀ m ∈ marksAt a c, List.lookup m r = none) : newName r c.2.identifier = c.2.name := by
  obtain ⟨m, hm⟩ := Option.isSome_iff_exists.mp (hd.bindings c.2 (List.mem_of_getElem? hc))
  exact newName_of_none hm (h m (mem_identifierMarks.mpr (.inl hm)))

theorem newName_of_marks_some (hd : HasDistinctMarks a) (hc : a.bindings[c.1]? = some c.2)
    (h : ∀ m ∈ marksAt a c, List.lookup m r = some name) : newName r c.2.identifier = some name := by
  obtain ⟨m, hm⟩ := Option.isSome_iff_exists.mp (hd.bindings c.2 (List.mem_of_getElem? hc))
  exact newName_of_some hm (h m (mem_identifierMarks.mpr (.inl hm)))

theorem assignNames_of_taken {cs : List (Nat × Binding)} {taken : List (Option String)} (h : c.2.name ∈ taken)
    (w : Renamer) :
    assignNames a a.resolutions (c :: cs) taken w =
      assignNames a a.resolutions cs (some (w.names.fresh (c.2.name.getD "")).1 :: taken)
        { names := (w.names.fresh (c.2.name.getD "")).2
          changes := w.changes ++ (marksAt a c).map fun m =>
            (m, (w.names.fresh (c.2.name.getD "")).1) } := by
  simp [assignNames, h]

/-- **The candidates get different names that are not taken.** -/
theorem assigned_assignNames (hd : HasDistinctMarks a) :
    ∀ (cs : List (Nat × Binding)) (taken : List (Option String)) (w : Renamer),
    (∀ c ∈ cs, a.bindings[c.1]? = some c.2) → (cs.map (·.1)).Nodup →
    (∀ c ∈ cs, ∀ m ∈ marksAt a c, List.lookup m w.changes = none) →
    (∀ name, some name ∈ taken → name ∈ w.names.used) →
    (∀ c ∈ cs, ∀ name, c.2.name = some name → name ∈ w.names.used) →
    Assigned a cs taken w (assignNames a a.resolutions cs taken w)
  | [], taken, w, _, _, _, _, _ =>
    { used := List.Subset.refl _
      others := fun _ _ => rfl
      named := fun _ h => absurd h List.not_mem_nil
      avoids := fun _ h => absurd h List.not_mem_nil
      distinct := .nil }
  | c :: cs, taken, w, hcs, hnodup, hnew, htaken, hnames => by
    obtain ⟨hc, hrest⟩ := List.forall_mem_cons.mp hcs
    obtain ⟨hnotin, hnodup'⟩ := List.nodup_cons.mp hnodup
    -- The marks of the first candidate belong to none of the others.
    have hapart : ∀ d ∈ cs, ∀ m ∈ marksAt a d, m ∉ marksAt a c := by
      intro d hdcs m hmd hmc
      have heq := identifierMarks_inj hd (hrest d hdcs) hc hmd hmc
      exact hnotin (List.mem_map.mpr ⟨d, hdcs, heq⟩)
    by_cases hfree : c.2.name ∉ taken
    · rw [assignNames, if_pos (by simpa using hfree)]
      have ih := assigned_assignNames hd cs (c.2.name :: taken) w hrest hnodup'
        (fun d h => hnew d (List.mem_cons_of_mem _ h))
        (fun name h => by
          rcases List.mem_cons.mp h with h | h
          · exact hnames c List.mem_cons_self name h.symm
          · exact htaken name h)
        (fun d h => hnames d (List.mem_cons_of_mem _ h))
      have hnone : ∀ m ∈ marksAt a c,
          List.lookup m (assignNames a a.resolutions cs (c.2.name :: taken) w).changes = none := by
        intro m hm
        rw [ih.others m fun d hdcs hmd => hapart d hdcs m hmd hm]
        exact hnew c List.mem_cons_self m hm
      have hcname := newName_of_marks_none hd hc hnone
      exact
        { used := ih.used
          others := fun m hm => ih.others m fun d h => hm d (List.mem_cons_of_mem _ h)
          named := List.forall_mem_cons.mpr ⟨.inl hnone, ih.named⟩
          avoids := List.forall_mem_cons.mpr ⟨by rw [hcname]; exact hfree, fun d h hmem =>
            ih.avoids d h (List.mem_cons_of_mem _ hmem)⟩
          distinct := List.pairwise_cons.mpr ⟨fun d h heq => ih.avoids d h (by
            rw [← heq, hcname]; exact List.mem_cons_self), ih.distinct⟩ }
    · rw [assignNames_of_taken (not_not.mp hfree)]
      obtain ⟨name, hname⟩ : ∃ name, name = (w.names.fresh (c.2.name.getD "")).1 := ⟨_, rfl⟩
      obtain ⟨w₁, hw₁⟩ : ∃ w₁ : Renamer, w₁ =
          { names := (w.names.fresh (c.2.name.getD "")).2
            changes := w.changes ++ (marksAt a c).map fun m => (m, name) } := ⟨_, rfl⟩
      have hfresh : name ∉ w.names.used := hname ▸ NameSupply.fresh_not_mem _ _
      have hused : ∀ n, n ∈ w₁.names.used ↔ n = name ∨ n ∈ w.names.used := by
        intro n
        rw [hw₁, hname]
        exact NameSupply.mem_used_fresh
      have hold : ∀ m, m ∉ marksAt a c →
          List.lookup m w₁.changes = List.lookup m w.changes := by
        intro m hm
        rw [hw₁]
        exact lookup_append_map_of_not_mem hm
      have ih := assigned_assignNames hd cs (some name :: taken) w₁ hrest hnodup'
        (fun d h m hm => by
          rw [hold m (hapart d h m hm)]
          exact hnew d (List.mem_cons_of_mem _ h) m hm)
        (fun n h => (hused n).mpr <| (List.mem_cons.mp h).imp Option.some.inj (htaken n))
        (fun d h n hn => (hused n).mpr (.inr (hnames d (List.mem_cons_of_mem _ h) n hn)))
      rw [← hname, ← hw₁]
      have hsome : ∀ m ∈ marksAt a c, List.lookup m
          (assignNames a a.resolutions cs (some name :: taken) w₁).changes = some name := by
        intro m hm
        rw [ih.others m fun d hdcs hmd => hapart d hdcs m hmd hm, hw₁]
        exact lookup_append_map (hnew c List.mem_cons_self m hm) hm
      have hcname := newName_of_marks_some hd hc hsome
      exact
        { used := fun n hn => ih.used ((hused n).mpr (.inr hn))
          others := fun m hm => by
            rw [ih.others m fun d h => hm d (List.mem_cons_of_mem _ h)]
            exact hold m (hm c List.mem_cons_self)
          named := List.forall_mem_cons.mpr
            ⟨.inr ⟨name, hfresh, ih.used ((hused name).mpr (.inl rfl)), hsome⟩, fun d h =>
              (ih.named d h).imp_right fun ⟨n, hn, hmem, hall⟩ =>
                ⟨n, fun hn' => hn ((hused n).mpr (.inr hn')), hmem, hall⟩⟩
          avoids := List.forall_mem_cons.mpr
            ⟨by rw [hcname]; exact fun hmem => hfresh (htaken name hmem), fun d h hmem =>
              ih.avoids d h (List.mem_cons_of_mem _ hmem)⟩
          distinct := List.pairwise_cons.mpr ⟨fun d h heq => ih.avoids d h (by
            rw [← heq, hcname]; exact List.mem_cons_self), ih.distinct⟩ }

/-! ## What a function avoids -/

/-- **Naming the candidates of one function does not change what another one avoids**, or the function
itself, unless the first is around the other. -/
theorem takenNames_eq (h : a.IsTree) (hd : HasDistinctMarks a) {g : ScopeInfo} {r' : Renaming}
    (hs : s ∈ a.scopes) (hg : g.id = s.id ∨ g.id ∉ a.around s.id)
    (hothers : ∀ m, (∀ c ∈ candidates a kept g.id, m ∉ marksAt a c) →
      List.lookup m r' = List.lookup m r) :
    takenNames a a.resolutions kept s ((candidates a kept s.id).map (·.1)) r' =
      takenNames a a.resolutions kept s ((candidates a kept s.id).map (·.1)) r := by
  rw [takenNames, takenNames, zip_resolutions]
  congr 1
  refine List.filterMap_congr fun x hx => ?_
  obtain ⟨ref, href, rfl⟩ := List.mem_map.mp hx
  -- A reference that is renamed with a candidate means that candidate.
  have hmeans : ∀ m, ref.identifier.mark? = some m → ∀ c ∈ candidates a kept g.id,
      m ∈ marksAt a c → a.resolve ref = some c.1 := fun m hm c hc hmem =>
    resolve_of_mem_identifierMarks hd ((mem_candidates h).mp hc).1 href hm hmem
  unfold takenBy
  cases a.scope? ref.scope with
  | none => rfl
  | some inner =>
    dsimp only
    split
    · rfl
    · cases hres : a.resolve ref with
      | none =>
        rw [currentName_eq, currentName_eq, newName_congr fun m hm => hothers m
          fun c hc hmem => by have := hmeans m hm c hc hmem; rw [hres] at this; cases this]
      | some i =>
        dsimp only
        split
        · rfl
        · rename_i home hhome
          split
          · rename_i hcond
            rw [Bool.and_eq_true, List.contains_iff_mem, Bool.not_eq_true',
              ← Bool.not_eq_true, List.contains_iff_mem, ← h.around_id hs] at hcond
            rw [currentName_eq, currentName_eq, newName_congr fun m hm => hothers m ?_]
            intro c hc hmem
            have heq := hmeans m hm c hc hmem
            rw [hres] at heq
            obtain rfl := Option.some.inj heq
            obtain ⟨hb, hfun, _⟩ := (mem_candidates h).mp hc
            obtain ⟨b, hb', hscope⟩ := Option.bind_eq_some_iff.mp hhome
            obtain rfl : c.2 = b := Option.some.inj (hb.symm.trans hb')
            have hhomefun : home.function = g.id := by
              rw [← hfun, Analysis.functionOf, hscope]
              rfl
            rcases hg with hgs | hgs
            · exact hcond.2 (List.mem_map_of_mem (hgs ▸ hc))
            · exact hgs (hhomefun ▸ hcond.1)
          · rfl

/-! ## All functions -/

/-- The candidates of a function have their names. -/
structure Named (a : Analysis) (kept : List Nat) (names : NameSupply) (s : ScopeInfo)
    (r : Renaming) : Prop where
  named : ∀ c ∈ candidates a kept s.id, (∀ m ∈ marksAt a c, List.lookup m r = none) ∨
    ∃ name, name ∉ names.used ∧ ∀ m ∈ marksAt a c, List.lookup m r = some name
  avoids : ∀ c ∈ candidates a kept s.id, newName r c.2.identifier ∉
    takenNames a a.resolutions kept s ((candidates a kept s.id).map (·.1)) r
  distinct : (candidates a kept s.id).Pairwise fun c d =>
    newName r c.2.identifier ≠ newName r d.2.identifier

/-- Some functions have been renamed, and nothing else. -/
structure RenamedUpTo (a : Analysis) (kept : List Nat) (names : NameSupply) (done : List ScopeInfo)
    (w : Renamer) : Prop where
  used : names.used ⊆ w.names.used
  untouched : ∀ m, (∀ s ∈ done, ∀ c ∈ candidates a kept s.id, m ∉ marksAt a c) →
    List.lookup m w.changes = none
  given : ∀ m name, List.lookup m w.changes = some name → name ∈ w.names.used
  named : ∀ s ∈ done, Named a kept names s w.changes

/-- Are the names of all bindings and references in use? -/
structure KnowsNames (names : NameSupply) (a : Analysis) : Prop where
  bindings : ∀ b ∈ a.bindings, ∀ name, b.name = some name → name ∈ names.used
  references : ∀ r ∈ a.references, ∀ name, r.name = some name → name ∈ names.used

/-- The names that a function avoids are in use. -/
theorem mem_used_of_taken (h : a.IsTree) (hknow : KnowsNames names a) (hw : RenamedUpTo a kept names done w)
    {cs : List Nat} (hname : some name ∈ takenNames a a.resolutions kept s cs w.changes) :
    name ∈ w.names.used := by
  rw [takenNames, zip_resolutions, List.mem_append, List.mem_map, List.mem_filterMap] at hname
  rcases hname with ⟨⟨i, b⟩, hb, heq⟩ | ⟨x, hx, heq⟩
  · have hmem := ((mem_functionBindings h).mp (List.mem_of_mem_filter hb)).1
    exact hw.used (hknow.bindings b (List.mem_of_getElem? hmem) name heq)
  · obtain ⟨ref, href, rfl⟩ := List.mem_map.mp hx
    have hcurrent : newName w.changes ref.identifier = some name := by
      unfold takenBy at heq
      repeat' split at heq
      all_goals first | exact Option.some.inj heq | cases heq
    unfold newName at hcurrent
    split at hcurrent
    · rename_i n hn
      obtain rfl := Option.some.inj hcurrent
      unfold Renaming.name? at hn
      split at hn
      · exact hw.given _ _ hn
      · cases hn
    · exact hw.used (hknow.references ref href name hcurrent)

/-- **One function more.** -/
theorem renamedUpTo_step (h : a.IsTree) (hd : HasDistinctMarks a) (hknow : KnowsNames names a)
    (hw : RenamedUpTo a kept names done w) (hdone : done ⊆ a.scopes) (hs : s ∈ a.scopes)
    (horder : ∀ d ∈ done, s.id ∉ a.around d.id) :
    RenamedUpTo a kept names (done ++ [s]) (renameFunction a a.resolutions kept w s) := by
  -- The candidates of different functions share no marks.
  have hapart : ∀ d ∈ done, ∀ c ∈ candidates a kept d.id, ∀ m ∈ marksAt a c,
      ∀ c' ∈ candidates a kept s.id, m ∉ marksAt a c' := by
    intro d hdd c hc m hm c' hc' hm'
    obtain ⟨hb, hfun, _⟩ := (mem_candidates h).mp hc
    obtain ⟨hb', hfun', _⟩ := (mem_candidates h).mp hc'
    have heq := identifierMarks_inj hd hb hb' hm hm'
    rw [heq] at hb
    have hid : d.id = s.id := by
      rw [← hfun, ← hfun', Option.some.inj (hb.symm.trans hb')]
    exact horder d hdd (hid ▸ h.self_mem_around (h.id_lt (hdone hdd)))
  have hassigned : Assigned a (candidates a kept s.id)
      (takenNames a a.resolutions kept s ((candidates a kept s.id).map (·.1)) w.changes) w
      (renameFunction a a.resolutions kept w s) :=
    assigned_assignNames hd _ _ w (fun c hc => ((mem_candidates h).mp hc).1)
      (nodup_candidates h s.id)
      (fun c hc m hm => hw.untouched m fun d hdd c' hc' hm' => hapart d hdd c' hc' m hm' c hc hm)
      (fun name hname => mem_used_of_taken h hknow hw hname)
      (fun c hc name hname => hw.used (hknow.bindings c.2
        (List.mem_of_getElem? ((mem_candidates h).mp hc).1) name hname))
  obtain ⟨w', hw'⟩ : ∃ w', w' = renameFunction a a.resolutions kept w s := ⟨_, rfl⟩
  rw [← hw'] at hassigned ⊢
  refine
    { used := fun n hn => hassigned.used (hw.used hn)
      untouched := fun m hm => ?_
      given := fun m name hname => ?_
      named := fun d hdd => ?_ }
  · rw [hassigned.others m fun c hc => hm s (List.mem_append_right _ List.mem_cons_self) c hc]
    exact hw.untouched m fun d hdd => hm d (List.mem_append_left _ hdd)
  · by_cases hm : ∀ c ∈ candidates a kept s.id, m ∉ marksAt a c
    · rw [hassigned.others m hm] at hname
      exact hassigned.used (hw.given m name hname)
    · push Not at hm
      obtain ⟨c, hc, hmem⟩ := hm
      rcases hassigned.named c hc with hnone | ⟨n, _, hn, hall⟩
      · rw [hnone m hmem] at hname
        cases hname
      · rw [hall m hmem] at hname
        exact Option.some.inj hname ▸ hn
  · rcases List.mem_append.mp hdd with hdd | hdd
    · -- A function named before: nothing that matters to it has changed.
      have hold := hw.named d hdd
      have hsame : ∀ c ∈ candidates a kept d.id, ∀ m ∈ marksAt a c,
          List.lookup m w'.changes = List.lookup m w.changes :=
        fun c hc m hm => hassigned.others m (hapart d hdd c hc m hm)
      have hname : ∀ c ∈ candidates a kept d.id,
          newName w'.changes c.2.identifier = newName w.changes c.2.identifier := fun c hc =>
        newName_congr fun m hm => hsame c hc m (mem_identifierMarks.mpr (.inl hm))
      have htaken := takenNames_eq h hd (g := s) (hdone hdd) (.inr (horder d hdd)) hassigned.others
      refine ⟨fun c hc => ?_, fun c hc => ?_, hold.distinct.imp_of_mem fun hc hc' hne => ?_⟩
      · refine (hold.named c hc).imp (fun hnone m hm => ?_) fun ⟨n, hn, hall⟩ => ⟨n, hn, ?_⟩
        · rw [hsame c hc m hm, hnone m hm]
        · exact fun m hm => by rw [hsame c hc m hm, hall m hm]
      · rw [hname c hc, htaken]
        exact hold.avoids c hc
      · rw [hname _ hc, hname _ hc']
        exact hne
    · obtain rfl := List.mem_singleton.mp hdd
      have htaken := takenNames_eq h hd (g := d) hs (.inl rfl) hassigned.others
      refine ⟨fun c hc => ?_, fun c hc => ?_, hassigned.distinct⟩
      · exact (hassigned.named c hc).imp_right fun ⟨n, hn, _, hall⟩ =>
          ⟨n, fun hn' => hn (hw.used hn'), hall⟩
      · rw [htaken]
        exact hassigned.avoids c hc

/-- All functions of a list, the outer ones first. -/
theorem renamedUpTo_foldl (h : a.IsTree) (hd : HasDistinctMarks a) (hknow : KnowsNames names a) :
    ∀ (rest done : List ScopeInfo) (w : Renamer),
    RenamedUpTo a kept names done w → done ++ rest ⊆ a.scopes →
    (done ++ rest).Pairwise (fun x y => y.id ∉ a.around x.id) →
    RenamedUpTo a kept names (done ++ rest) (rest.foldl (renameFunction a a.resolutions kept) w)
  | [], done, w, hw, _, _ => by rwa [List.append_nil]
  | s :: rest, done, w, hw, hsub, horder => by
    obtain ⟨hdone, hrest⟩ := List.append_subset.mp hsub
    have hs := (List.cons_subset.mp hrest).1
    have hstep := renamedUpTo_step h hd hknow hw hdone hs
      fun d hdd => (List.pairwise_append.mp horder).2.2 d hdd s List.mem_cons_self
    rw [List.append_cons] at hsub horder ⊢
    exact renamedUpTo_foldl h hd hknow rest (done ++ [s]) _ hstep hsub horder

/-! ## The whole program -/

/-- The new name of the binding at a place. -/
def bindingName (a : Analysis) (r : Renaming) (i : Nat) : Option String :=
  (a.bindings[i]?).bind fun b => newName r b.identifier

/-- The new name of the reference at a place. -/
def referenceName (a : Analysis) (r : Renaming) (k : Nat) : Option String :=
  (a.references[k]?).bind fun x => newName r x.identifier

theorem bindingName_eq (hb : a.bindings[i]? = some b) : bindingName a r i = newName r b.identifier := by
  rw [bindingName, hb]
  rfl

theorem referenceName_eq {k : Nat} {x : Reference} (hx : a.references[k]? = some x) :
    referenceName a r k = newName r x.identifier := by
  rw [referenceName, hx]
  rfl

/-- The functions that are renamed. -/
def renamedFunctions (a : Analysis) : List ScopeInfo :=
  a.flatten.filter fun s => s.isFunction && !(dynamicFunctions a).contains s.id

theorem renamedUpTo_renameAll (h : a.IsTree) (hd : HasDistinctMarks a) (hknow : KnowsNames names a) :
    RenamedUpTo a kept names (renamedFunctions a) (renameAll a kept names) := by
  have hstart : RenamedUpTo a kept names [] { names := names } :=
    { used := List.Subset.refl _
      untouched := fun _ _ => rfl
      given := fun _ _ hname => by cases hname
      named := fun _ hs => absurd hs List.not_mem_nil }
  refine renamedUpTo_foldl h hd hknow (renamedFunctions a) [] _ hstart ?_ ?_
  · exact fun s hs => h.mem_flatten.mp (List.mem_of_mem_filter hs)
  · exact h.pairwise_flatten.filter _

/-- A movable binding is a candidate of a function that is renamed. -/
theorem exists_renamedFunction (h : a.IsTree)
    (hdynamic : ∀ i b, a.bindings[i]? = some b → IsMovableAt a kept i →
      a.functionOf b.scope ∉ dynamicFunctions a) (hb : a.bindings[i]? = some b) (hmov : IsMovableAt a kept i) :
    ∃ s ∈ renamedFunctions a, s ∈ a.scopes ∧ s.id = a.functionOf b.scope ∧
      (i, b) ∈ candidates a kept s.id := by
  obtain ⟨s, hs, hid, hfun⟩ := h.exists_functionOf (h.bindings b (List.mem_of_getElem? hb))
  have hnot := hdynamic i b hb hmov
  refine ⟨s, List.mem_filter.mpr ⟨h.mem_flatten.mpr hs, ?_⟩, hs, hid, ?_⟩
  · simp [hfun, hid, hnot]
  · obtain ⟨b', hb', hmovable⟩ := hmov
    obtain rfl := Option.some.inj (hb.symm.trans hb')
    exact (mem_candidates h).mpr ⟨hb, hid.symm, hid ▸ hmovable⟩

theorem isMovableAt_of_mem_candidates (h : a.IsTree) {f : Nat} (hc : c ∈ candidates a kept f) :
    IsMovableAt a kept c.1 := by
  obtain ⟨hb, hfun, hmov⟩ := (mem_candidates h).mp hc
  exact ⟨c.2, hb, hfun ▸ hmov⟩

/-- The marks of a binding that cannot move get no name. -/
theorem lookup_of_not_movable (h : a.IsTree) (hd : HasDistinctMarks a) (hw : RenamedUpTo a kept names done w)
    (hb : a.bindings[i]? = some b) (hmov : ¬ IsMovableAt a kept i) (hm : m ∈ marksAt a (i, b)) :
    List.lookup m w.changes = none := by
  refine hw.untouched m fun s _ c hc hmem => hmov ?_
  have heq := identifierMarks_inj hd hb ((mem_candidates h).mp hc).1 hm hmem
  exact heq ▸ isMovableAt_of_mem_candidates h hc

/-- The identifiers of a binding all keep their names, or all get one new name. -/
theorem named_or_not (h : a.IsTree) (hd : HasDistinctMarks a)
    (hw : RenamedUpTo a kept names (renamedFunctions a) w)
    (hfunction : ∀ {i : Nat} {b : Binding}, a.bindings[i]? = some b → IsMovableAt a kept i →
      ∃ s ∈ renamedFunctions a, s ∈ a.scopes ∧ s.id = a.functionOf b.scope ∧
        (i, b) ∈ candidates a kept s.id) (hb : a.bindings[i]? = some b) :
    (∀ m ∈ marksAt a (i, b), List.lookup m w.changes = none) ∨
      ∃ name, ∀ m ∈ marksAt a (i, b), List.lookup m w.changes = some name := by
  by_cases hmov : IsMovableAt a kept i
  · obtain ⟨s, hs, _, _, hcand⟩ := hfunction hb hmov
    exact ((hw.named s hs).named (i, b) hcand).imp_right fun ⟨name, _, hall⟩ => ⟨name, hall⟩
  · exact .inl fun m hm => lookup_of_not_movable h hd hw hb hmov hm

/-- What a reference inside a function takes from it. -/
theorem mem_takenNames_of_reference (h : a.IsTree) {cs : List Nat} {x : Reference} (hs : s ∈ a.scopes)
    (hx : x ∈ a.references) (hin : s.id ∈ a.around x.scope)
    (hmeans : ∀ i, a.resolve x = some i → ∃ b, a.bindings[i]? = some b ∧
      a.functionOf b.scope ∈ a.around s.id ∧ i ∉ cs) :
    newName r x.identifier ∈ takenNames a a.resolutions kept s cs r := by
  rw [takenNames, zip_resolutions]
  refine List.mem_append_right _ (List.mem_filterMap.mpr
    ⟨(x, a.resolve x), List.mem_map_of_mem hx, ?_⟩)
  obtain ⟨inner, hinner, hid⟩ := h.exists_scope (h.references x hx)
  have hscope : a.scope? x.scope = some inner := h.scope?_eq_some.mpr ⟨hinner, hid⟩
  have hwithin : inner.isWithin s := by
    rw [ScopeInfo.isWithin, List.contains_iff_mem, ← h.around_id hinner, hid]
    exact hin
  simp only [takenBy, hscope, hwithin, Bool.not_true, Bool.false_eq_true, if_false]
  cases hres : a.resolve x with
  | none => rfl
  | some i =>
    obtain ⟨b, hb, hfun, hnot⟩ := hmeans i hres
    obtain ⟨home, hhome, hhomeid⟩ := h.exists_scope (h.bindings b (List.mem_of_getElem? hb))
    have hhome? : a.scope? b.scope = some home := h.scope?_eq_some.mpr ⟨hhome, hhomeid⟩
    have hcontains : s.ancestors.contains home.function := by
      rw [List.contains_iff_mem, ← h.around_id hs, ← h.functionOf_id hhome, hhomeid]
      exact hfun
    simp only [hb, Option.bind_some, hhome?, hcontains, Bool.true_and, Bool.not_eq_true',
      ← Bool.not_eq_true, List.contains_iff_mem, hnot, not_false_eq_true, if_true]
    rfl

/-- **Renaming is safe**, when the functions that are passed over have nothing to move. -/
theorem isSafe_renameAll (h : a.IsTree) (hd : HasDistinctMarks a) (hknow : KnowsNames names a)
    (hdynamic : ∀ i b, a.bindings[i]? = some b → IsMovableAt a kept i →
      a.functionOf b.scope ∉ dynamicFunctions a) :
    IsSafe a kept (bindingName a (renameAll a kept names).changes)
      (referenceName a (renameAll a kept names).changes) := by
  have hw : RenamedUpTo a kept names (renamedFunctions a) (renameAll a kept names) :=
    renamedUpTo_renameAll h hd hknow
  obtain ⟨w, hweq⟩ : ∃ w, w = renameAll a kept names := ⟨_, rfl⟩
  rw [← hweq] at hw ⊢
  have hfunction := fun {i b} => exists_renamedFunction (i := i) (b := b) h hdynamic
  exact
    { resolved := by
        intro k x i hx hres
        obtain ⟨_, _, ⟨b, hb, _, hname⟩, _⟩ := h.resolve_eq_some_iff.mp hres
        have hxmem := List.mem_of_getElem? hx
        obtain ⟨m, hm⟩ := Option.isSome_iff_exists.mp (hd.references x hxmem)
        have hmarks : m ∈ marksAt a (i, b) := mem_identifierMarks.mpr (.inr ⟨x, hxmem, hres, hm⟩)
        rw [referenceName_eq hx, bindingName_eq hb]
        rcases named_or_not h hd hw hfunction hb with hnone | ⟨name, hall⟩
        · rw [newName_of_none hm (hnone m hmarks), newName_of_marks_none hd hb hnone]
          exact hname.symm
        · rw [newName_of_some hm (hall m hmarks), newName_of_marks_some hd hb hall]
      unresolved := by
        intro k x hx hres
        have hxmem := List.mem_of_getElem? hx
        obtain ⟨m, hm⟩ := Option.isSome_iff_exists.mp (hd.references x hxmem)
        rw [referenceName_eq hx]
        refine newName_of_none hm (hw.untouched m fun s _ c hc hmem => ?_)
        have hmeans := resolve_of_mem_identifierMarks hd ((mem_candidates h).mp hc).1 hxmem hm hmem
        rw [hres] at hmeans
        cases hmeans
      unmoved := by
        intro i b hb hmov
        rw [bindingName_eq hb]
        exact newName_of_marks_none hd (c := (i, b)) hb fun m hm =>
          lookup_of_not_movable h hd hw hb hmov hm
      distinct := by
        intro i j b c hb hc hi hj hfun hij
        obtain ⟨s, hs, _, hid, hcand⟩ := hfunction hb hi
        obtain ⟨_, _, _, hid', hcand'⟩ := hfunction hc hj
        rw [hid', ← hfun, ← hid] at hcand'
        rw [bindingName_eq hb, bindingName_eq hc]
        have hne : (i, b) ≠ (j, c) := fun heq => hij (congrArg Prod.fst heq)
        have : Std.Symm fun c d : Nat × Binding =>
            newName w.changes c.2.identifier ≠ newName w.changes d.2.identifier :=
          ⟨fun _ _ hne => hne.symm⟩
        exact (hw.named s hs).distinct.forall hcand hcand' hne
      apart := by
        intro i j b c hb hc hi hj hfun heq
        obtain ⟨s, hs, _, hid, hcand⟩ := hfunction hb hi
        rw [bindingName_eq hb] at heq
        refine (hw.named s hs).avoids (i, b) hcand ?_
        refine List.mem_append_left _ (List.mem_map.mpr ⟨(j, c), List.mem_filter.mpr ⟨?_, ?_⟩, ?_⟩)
        · exact (mem_functionBindings h).mpr ⟨hc, by rw [← hfun, hid]⟩
        · rw [Bool.not_eq_true', ← Bool.not_eq_true]
          exact fun hmov => hj ⟨c, hc, by rw [← hfun, ← hid]; exact hmov⟩
        · exact heq.symm
      freeOfUnresolved := by
        intro i b k x hb hi hx hin hres heq
        obtain ⟨s, hs, hsmem, hid, hcand⟩ := hfunction hb hi
        rw [bindingName_eq hb, referenceName_eq hx] at heq
        refine (hw.named s hs).avoids (i, b) hcand ?_
        rw [← heq]
        refine mem_takenNames_of_reference h hsmem (List.mem_of_getElem? hx) (hid ▸ hin) ?_
        intro j hj
        rw [hres] at hj
        cases hj
      freeOfResolved := by
        intro i b k x j c hb hi hx hin hres hc hfun hnot heq
        obtain ⟨s, hs, hsmem, hid, hcand⟩ := hfunction hb hi
        rw [bindingName_eq hb, referenceName_eq hx] at heq
        refine (hw.named s hs).avoids (i, b) hcand ?_
        rw [← heq]
        refine mem_takenNames_of_reference h hsmem (List.mem_of_getElem? hx) (hid ▸ hin) ?_
        intro j' hj'
        obtain rfl := Option.some.inj (hres.symm.trans hj')
        refine ⟨c, hc, hid ▸ hfun, fun hmem => hnot ?_⟩
        obtain ⟨d, hd', rfl⟩ := List.mem_map.mp hmem
        obtain ⟨hd₁, hd₂, _⟩ := (mem_candidates h).mp hd'
        obtain rfl := Option.some.inj (hc.symm.trans hd₁)
        exact ⟨isMovableAt_of_mem_candidates h hd', by rw [hd₂, hid]⟩
      keptOrNew := by
        intro i b hb hi
        obtain ⟨s, hs, _, hid, hcand⟩ := hfunction hb hi
        rw [bindingName_eq hb]
        rcases (hw.named s hs).named (i, b) hcand with hnone | ⟨name, hnew, hall⟩
        · exact .inl (newName_of_marks_none hd (c := (i, b)) hb hnone)
        · refine .inr fun c hc heq => hnew ?_
          rw [newName_of_marks_some hd (c := (i, b)) hb hall] at heq
          exact hknow.bindings c hc name heq.symm }

end

end Downlevel.Lower.Block
