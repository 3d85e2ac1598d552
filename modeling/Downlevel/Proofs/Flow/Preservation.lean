import Downlevel.Proofs.Flow.Semantics
import Downlevel.Proofs.Flow.Signals

/-!
# `Proofs.Flow.Preservation`: signals keep the flow of control

A moved body, called as a function and followed by what its signals ask for, ends as the body itself
does, and the world is asked for the same atoms in the same order.

The argument goes by the fuel of the run. `encode` says how a statement ends after its jumps became
signals, given what stands around it; each way of putting runs together keeps that correspondence.
-/

namespace Downlevel.Flow

open Tree Node Lower.Block

variable {x : Completion} {α : Type} {next : Run} {run : Tree → Run} {f : Tree → Tree} {bs cs : List String}
  {key : String} {cases : List Tree}

/-! ## Statements -/

/-- A statement that can stand where `breakable` labels are around it, `continuable` ones belong to
loops, and `labels` stand right before it. What it evaluates holds no jumps. -/
inductive Statement : List String → List String → List String → Tree → Prop where
  | block {bs cs ls t} (htype : t.type? = some "BlockStatement")
      (hbody : ∀ s ∈ t.children "body", Statement bs cs [] s) : Statement bs cs ls t
  | branch {bs cs ls t} (htype : t.type? = some "IfStatement")
      (htest : isCalm (t.get "test")) (hthen : Statement bs cs [] (t.get "consequent"))
      (helse : (t.get "alternate").isSet → Statement bs cs [] (t.get "alternate")) :
      Statement bs cs ls t
  | labeled {bs cs ls t l} (htype : t.type? = some "LabeledStatement")
      (hlabel : (t.get "label").name? = some l)
      (hlabelCalm : isCalm (t.get "label"))
      (hbody : Statement (l :: bs) cs (l :: ls) (t.get "body")) : Statement bs cs ls t
  | switch {bs cs ls t} (htype : t.type? = some "SwitchStatement")
      (hvalue : isCalm (t.get "discriminant"))
      (hcase : ∀ c ∈ t.children "cases", c.type? = some "SwitchCase")
      (htest : ∀ c ∈ t.children "cases", isCalm (c.get "test"))
      (hbody : ∀ c ∈ t.children "cases", ∀ s ∈ c.children "consequent", Statement bs cs [] s) :
      Statement bs cs ls t
  | guarded {bs cs ls t} (htype : t.type? = some "TryStatement")
      (hblock : Statement bs cs [] (t.get "block"))
      (hclause : (t.get "handler").isSet → (t.get "handler").type? = some "CatchClause")
      (hparam : (t.get "handler").isSet → isCalm ((t.get "handler").get "param"))
      (hhandler : (t.get "handler").isSet → Statement bs cs [] ((t.get "handler").get "body"))
      (hfinal : (t.get "finalizer").isSet → Statement bs cs [] (t.get "finalizer")) :
      Statement bs cs ls t
  | within {bs cs ls t} (htype : t.type? = some "WithStatement")
      (hobject : isCalm (t.get "object")) (hbody : Statement bs cs [] (t.get "body")) :
      Statement bs cs ls t
  | loop {bs cs ls t} (hloop : isLoop t)
      (hhead : ∀ key ∈ ["init", "test", "update", "left", "right"], isCalm (t.get key))
      (hbody : Statement bs (ls ++ cs) [] (t.get "body")) : Statement bs cs ls t
  | breaks {bs cs ls t} (htype : t.type? = some "BreakStatement")
      (hlabel : (t.get "label").isSet → ∃ l ∈ bs, (t.get "label").name? = some l) :
      Statement bs cs ls t
  | continues {bs cs ls t} (htype : t.type? = some "ContinueStatement")
      (hlabel : (t.get "label").isSet → ∃ l ∈ cs, (t.get "label").name? = some l) :
      Statement bs cs ls t
  | returns {bs cs ls t} (htype : t.type? = some "ReturnStatement")
      (hvalue : isCalm (t.get "argument")) : Statement bs cs ls t
  | throws {bs cs ls t} (htype : t.type? = some "ThrowStatement")
      (hvalue : isCalm (t.get "argument")) : Statement bs cs ls t
  | atom {bs cs ls t s} (htype : t.type? = some s) (hs : s ∉ loopTypes ++ structuredTypes)
      (hcalm : isCalm t) : Statement bs cs ls t

/-! ## Corresponding runs -/

/-- How a statement ends once its jumps are signals. -/
def encode (c : Nesting) : Completion → Completion
  | .breaks none => if c.inLoop || c.inSwitch then .breaks none else .returns (.text "break")
  | .continues none => if c.inLoop then .continues none else .returns .undefined
  | .returns v => .returns (.box v)
  | x => x

/-- Where a statement stands, and the signals that it sends. -/
structure Place where
  breakable : List String
  continuable : List String
  nesting : Nesting
  signals : Signals

/-- The ways in which a statement of the place can end: its labels are around it, and what leaves the
moved body is among its signals. -/
def Place.Allows (p : Place) : Completion → Prop
  | .breaks none =>
    p.nesting.inLoop = false → p.nesting.inSwitch = false → p.signals.hasBreak = true
  | .breaks (some l) => l ∈ p.breakable
  | .continues (some l) => l ∈ p.continuable
  | .returns _ => p.signals.hasReturn = true
  | _ => True

/-- The second run asks the same atoms as the first and ends as signals make it end. -/
structure Simulates (p : Place) (r r' : Run) : Prop where
  run : ∀ h, r' h = (r h).map fun x => (encode p.nesting x.1, x.2)
  allows : ∀ h x h', r h = some (x, h') → p.Allows x

section

variable {p : Place}

theorem simulates_none : Simulates p (fun _ => none) (fun _ => none) := ⟨fun _ => rfl, nofun⟩

theorem simulates_done (hx : p.Allows x) : Simulates p (.done x) (.done (encode p.nesting x)) where
  run _ := rfl
  allows h y h' heq := by
    cases heq
    exact hx

theorem simulates_after {a : Action α} {next next' : α → Run} (h : ∀ v, Simulates p (next v) (next' v)) :
    Simulates p (.after a next) (.after a next') where
  run h₀ := by
    unfold Run.after
    split
    · exact (h _).run _
    · rfl
  allows h₀ x h' heq := by
    unfold Run.after at heq
    split at heq
    · exact (h _).allows _ _ _ heq
    · cases heq
      trivial

/-- Both runs go on in corresponding ways. -/
theorem Simulates.andThen {p₁ : Place} {r r' : Run} {next next' : Completion → Run} (h : Simulates p₁ r r')
    (hnext : ∀ x, p₁.Allows x → Simulates p (next x) (next' (encode p₁.nesting x))) :
    Simulates p (r.andThen next) (r'.andThen next') where
  run h₀ := by
    unfold Run.andThen
    rw [h.run h₀]
    cases hr : r h₀ with
    | none => rfl
    | some y => exact (hnext y.1 (h.allows h₀ y.1 y.2 hr)).run y.2
  allows h₀ x h' heq := by
    unfold Run.andThen at heq
    cases hr : r h₀ with
    | none => simp [hr] at heq
    | some y =>
      rw [hr] at heq
      exact (hnext y.1 (h.allows h₀ y.1 y.2 hr)).allows _ _ _ heq

/-! ### Ways of going on -/

/-- Only jumps end otherwise than before. -/
theorem eq_of_encode_eq {c : Nesting} {y : Completion} (h : encode c x = y)
    (hy : y = .normal ∨ ∃ e, y = .throws e) : x = y := by
  unfold encode at h
  split at h
  · split at h <;> subst h <;> simp at hy
  · split at h <;> subst h <;> simp at hy
  · subst h
    simp at hy
  · exact h

theorem ifNormal_of_ne (h : x ≠ .normal) : ifNormal next x = .done x := by
  cases x <;> first | rfl | exact absurd rfl h

theorem simulates_ifNormal {next' : Run} (h : Simulates p next next') (hx : p.Allows x) :
    Simulates p (ifNormal next x) (ifNormal next' (encode p.nesting x)) := by
  by_cases hnormal : x = .normal
  · subst hnormal
    exact h
  · rw [ifNormal_of_ne hnormal, ifNormal_of_ne fun heq => hnormal (eq_of_encode_eq heq (.inl rfl))]
    exact simulates_done hx

theorem simulates_runAll {run' : Tree → Run} {ts : List Tree} (h : ∀ t ∈ ts, Simulates p (run t) (run' (f t))) :
    Simulates p (runAll run ts) (runAll run' (ts.map f)) := by
  induction ts with
  | nil => exact simulates_done trivial
  | cons t rest ih =>
    have hrest := ih fun u hu => h u (List.mem_cons_of_mem _ hu)
    exact (h t (List.mem_cons_self ..)).andThen fun x hx => simulates_ifNormal hrest hx

theorem simulates_runFinally {run' : Tree → Run} {f f' : Tree} (hset : f'.isSet = f.isSet)
    (h : f.isSet → Simulates p (run f) (run' f')) (hx : p.Allows x) :
    Simulates p (runFinally run f x) (runFinally run' f' (encode p.nesting x)) := by
  unfold runFinally
  rw [hset]
  split
  · rename_i hf
    exact (h hf).andThen fun y hy => simulates_ifNormal (simulates_done hx) hy
  · exact simulates_done hx

/-! ### Leaving a loop, a switch, a label -/

variable {bs cs ls : List String} {c : Nesting} {s : Signals}

/-- A turn of a loop ends: the loop goes on, or ends in a way that its place allows. -/
theorem simulates_afterTurn {next' : Run} (h : Simulates ⟨bs, cs, c, s⟩ next next')
    (hx : Place.Allows ⟨bs, ls ++ cs, { c with inLoop := true }, s⟩ x) :
    Simulates ⟨bs, cs, c, s⟩ (afterTurn ls next x)
      (afterTurn ls next' (encode { c with inLoop := true } x)) := by
  cases x with
  | normal => exact h
  | breaks l =>
    cases l with
    | none => exact simulates_done (x := .normal) trivial
    | some l => exact simulates_done (x := .breaks (some l)) hx
  | continues l =>
    cases l with
    | none => exact h
    | some l =>
      by_cases hl : l ∈ ls
      · simpa [afterTurn, encode, Completion.goesOn, hl] using h
      · have hmem : l ∈ cs := by
          have hx : l ∈ ls ++ cs := hx
          exact (List.mem_append.mp hx).resolve_left hl
        have hdone := simulates_done (p := ⟨bs, cs, c, s⟩) (x := .continues (some l)) hmem
        simpa [afterTurn, encode, Completion.goesOn, Completion.left, hl] using hdone
  | returns v => exact simulates_done (x := .returns v) hx
  | throws e => exact simulates_done (x := .throws e) trivial

section

variable {body body' : Run} (h : Simulates ⟨bs, ls ++ cs, { c with inLoop := true }, s⟩ body body')

include h

theorem simulates_turns {head : Head} :
    ∀ n, Simulates ⟨bs, cs, c, s⟩ (turns ls head body n) (turns ls head body' n) := by
  intro n
  induction n with
  | zero => exact simulates_none
  | succ n ih =>
    refine simulates_after fun isOn => ?_
    cases isOn with
    | false => exact simulates_done (x := .normal) trivial
    | true => exact h.andThen fun x hx => simulates_afterTurn (simulates_after fun _ => ih) hx

theorem simulates_runLoop {head : Head} (n : Nat) :
    Simulates ⟨bs, cs, c, s⟩ (runLoop ls head body n) (runLoop ls head body' n) := by
  refine simulates_after fun _ => ?_
  split
  · exact simulates_turns h n
  · exact h.andThen fun x hx => simulates_afterTurn (simulates_turns h n) hx

end

theorem simulates_leftSwitch (hx : Place.Allows ⟨bs, cs, { c with inSwitch := true }, s⟩ x) :
    Simulates ⟨bs, cs, c, s⟩ (.done x.left) (.done (encode { c with inSwitch := true } x).left) := by
  cases x with
  | normal => exact simulates_done (x := .normal) trivial
  | breaks l =>
    cases l with
    | none =>
      have hdone := simulates_done (p := ⟨bs, cs, c, s⟩) (x := .normal) trivial
      simpa [encode, Completion.left] using hdone
    | some l => exact simulates_done (x := .breaks (some l)) hx
  | continues l =>
    cases l with
    | none =>
      have hdone := simulates_done (p := ⟨bs, cs, c, s⟩) (x := .continues none) trivial
      cases hloop : c.inLoop <;> simpa [encode, Completion.left, hloop] using hdone
    | some l => exact simulates_done (x := .continues (some l)) hx
  | returns v => exact simulates_done (x := .returns v) hx
  | throws e => exact simulates_done (x := .throws e) trivial

theorem simulates_leftLabel {l : String} (hx : Place.Allows ⟨l :: bs, cs, c, s⟩ x) :
    Simulates ⟨bs, cs, c, s⟩ (.done (x.leftLabel (some l))) (.done ((encode c x).leftLabel (some l))) := by
  cases x with
  | normal => exact simulates_done (x := .normal) trivial
  | breaks l' =>
    cases l' with
    | none =>
      have hdone := simulates_done (p := ⟨bs, cs, c, s⟩) (x := .breaks none) hx
      cases hn : (c.inLoop || c.inSwitch) <;>
        simpa [encode, Completion.leftLabel, hn] using hdone
    | some l' =>
      by_cases hl : l = l'
      · have hdone := simulates_done (p := ⟨bs, cs, c, s⟩) (x := .normal) trivial
        simpa [encode, Completion.leftLabel, hl] using hdone
      · have hmem : l' ∈ bs := by
          have hx : l' ∈ l :: bs := hx
          exact (List.mem_cons.mp hx).resolve_left fun heq => hl heq.symm
        have hdone := simulates_done (p := ⟨bs, cs, c, s⟩) (x := .breaks (some l')) hmem
        simpa [encode, Completion.leftLabel, hl] using hdone
  | continues l' =>
    cases l' with
    | none =>
      have hdone := simulates_done (p := ⟨bs, cs, c, s⟩) (x := .continues none) trivial
      cases hloop : c.inLoop <;> simpa [encode, Completion.leftLabel, hloop] using hdone
    | some l' => exact simulates_done (x := .continues (some l')) hx
  | returns v => exact simulates_done (x := .returns v) hx
  | throws e => exact simulates_done (x := .throws e) trivial

end

/-! ## Statements and their signalled form -/

theorem Statement.exists_type {ls : List String} {t : Tree} (h : Statement bs cs ls t) :
    ∃ s, t.type? = some s := by
  cases h with
  | loop hloop =>
    obtain ⟨s, -, htype⟩ := isTypeIn_iff.mp hloop
    exact ⟨s, htype⟩
  | _ => exact ⟨_, ‹_›⟩

variable (w : World) (known : Known)

/-- The statement corresponds to its signalled form in runs with so much fuel. -/
def Corresponds (n : Nat) (bs cs ls : List String) (c : Nesting) (t : Tree) : Prop :=
  Simulates ⟨bs, cs, c, (signalled c t).2⟩ (exec w known n ls t) (exec w known n ls (signalled c t).1)

/-- Every statement corresponds to its signalled form in runs with so much fuel. -/
def SimulatesAt (n : Nat) : Prop :=
  ∀ {bs cs ls : List String} {t : Tree}, Statement bs cs ls t → ∀ c : Nesting,
    Simulates ⟨bs, cs, c, (signalled c t).2⟩ (exec w known n ls t) (exec w known n ls (signalled c t).1)

variable {w known}

theorem Place.Allows.widen {c : Nesting} {s s' : Signals} (hs : Within s s')
    (h : Place.Allows ⟨bs, cs, c, s⟩ x) : Place.Allows ⟨bs, cs, c, s'⟩ x := by
  cases x with
  | breaks l =>
    cases l with
    | none => exact fun hl hs' => hs.1 (h hl hs')
    | some l => exact h
  | continues l => cases l <;> exact h
  | returns v => exact hs.2 h
  | _ => trivial

theorem Simulates.widen {c : Nesting} {s s' : Signals} {r r' : Run} (h : Simulates ⟨bs, cs, c, s⟩ r r')
    (hs : Within s s') : Simulates ⟨bs, cs, c, s'⟩ r r' where
  run := h.run
  allows h₀ x h' heq := (h.allows h₀ x h' heq).widen hs

section

variable {n : Nat} {bs cs ls : List String} {c c' : Nesting} {t : Tree}

/-- The statement in a field of another one. -/
theorem SimulatesAt.field (ih : SimulatesAt w known n) (hpass : Passes c c' t) (hkey : isSyntaxKey key)
    (hs : Statement bs cs ls (t.get key)) :
    Simulates ⟨bs, cs, c', (signalled c t).2⟩ (exec w known n ls (t.get key))
      (exec w known n ls ((signalled c t).1.get key)) := by
  obtain ⟨s, htype⟩ := hs.exists_type
  obtain ⟨hget, hwithin⟩ := hpass.get key
  rw [part_of_type? htype c' hkey] at hget hwithin
  rw [hget]
  exact (ih hs c').widen hwithin

/-- A statement among others. -/
theorem SimulatesAt.item (ih : SimulatesAt w known n) (hpass : Passes c c' t) (hkey : isSyntaxKey key)
    {u : Tree} (hu : u ∈ t.children key) (hs : Statement bs cs ls u) :
    Simulates ⟨bs, cs, c', (signalled c t).2⟩ (exec w known n ls u) (exec w known n ls (item c' u).1) := by
  obtain ⟨s, htype⟩ := hs.exists_type
  have hwithin := hpass.within_item hkey hu
  rw [item_of_type? htype] at hwithin ⊢
  exact (ih hs c').widen hwithin

theorem Passes.get_of_isCalm (hpass : Passes c c' t) (h : isCalm (t.get key)) :
    (signalled c t).1.get key = t.get key := by
  rw [(hpass.get key).1, part_of_isCalm h]

/-- A field that holds a statement or nothing is set before and after. -/
theorem Passes.isSet_get (hpass : Passes c c' t) (key : String) (hkey : isSyntaxKey key)
    (h : (t.get key).isSet → ∃ s, (t.get key).type? = some s) :
    ((signalled c t).1.get key).isSet = (t.get key).isSet := by
  rw [(hpass.get key).1]
  cases hset : (t.get key).isSet with
  | false => rw [part_of_not_isSet hset, hset]
  | true =>
    obtain ⟨s, htype⟩ := h hset
    rw [part_of_type? htype c' hkey]
    obtain ⟨m, fs, hobject⟩ := isObject_of_type? htype
    rw [hobject] at htype ⊢
    refine (isObject_signalled c' m fs).2 ?_
    rintro rfl
    cases htype

/-- Around its body a loop does the same as before. -/
theorem headOf_signalled (hpass : Passes c c' t)
    (hhead : ∀ key ∈ ["init", "test", "update", "left", "right"], isCalm (t.get key)) :
    headOf w known (signalled c t).1 = headOf w known t := by
  have hget : ∀ key ∈ ["init", "test", "update", "left", "right"],
      (signalled c t).1.get key = t.get key := fun key hkey => hpass.get_of_isCalm (hhead key hkey)
  unfold headOf
  rw [hpass.type?, hget "init" (by simp), hget "test" (by simp), hget "update" (by simp),
    hget "left" (by simp), hget "right" (by simp)]

/-- The tests of a `switch` do not change, so the same case is found. -/
theorem matching_map (h : ∀ u ∈ cases, (f u).get "test" = u.get "test") (v : Value) :
    matching w known v (cases.map f) = matching w known v cases := by
  induction cases with
  | nil => rfl
  | cons u rest ih =>
    have hrest := ih fun x hx => h x (List.mem_cons_of_mem _ hx)
    rw [List.map_cons, matching, matching, h u (List.mem_cons_self ..), hrest]

theorem chosen_map {g : Tree → Tree} (htest : ∀ u ∈ cases, (f u).get "test" = u.get "test")
    (hbody : ∀ u ∈ cases, (f u).children "consequent" = (u.children "consequent").map g) (found : Option Nat) :
    chosen (cases.map f) found = (chosen cases found).map g := by
  have hdrop : ∀ ds ⊆ cases, (ds.map f).flatMap (·.children "consequent") =
      (ds.flatMap (·.children "consequent")).map g := by
    intro ds hds
    induction ds with
    | nil => rfl
    | cons u rest ih =>
      rw [List.map_cons, List.flatMap_cons, List.flatMap_cons, List.map_append,
        hbody u (hds (List.mem_cons_self ..)), ih fun x hx => hds (List.mem_cons_of_mem _ hx)]
  have hwhile : (cases.map f).dropWhile (fun u => (u.get "test").isSet) =
      (cases.dropWhile fun u => (u.get "test").isSet).map f := by
    clear hdrop hbody
    induction cases with
    | nil => rfl
    | cons u rest ih =>
      rw [List.map_cons, List.dropWhile_cons, List.dropWhile_cons, htest u (List.mem_cons_self ..)]
      split
      · exact ih fun x hx => htest x (List.mem_cons_of_mem _ hx)
      · rfl
  cases found with
  | some i =>
    show ((cases.map f).drop i).flatMap _ = _
    rw [← List.map_drop]
    exact hdrop _ (List.drop_subset i cases)
  | none =>
    show ((cases.map f).dropWhile _).flatMap _ = _
    rw [hwhile]
    exact hdrop _ (List.dropWhile_subset _)

theorem mem_of_mem_chosen {found : Option Nat} {u : Tree} (h : u ∈ chosen cases found) :
    ∃ d ∈ cases, u ∈ d.children "consequent" := by
  obtain ⟨d, hd, hu⟩ := List.mem_flatMap.mp h
  refine ⟨d, ?_, hu⟩
  cases found with
  | some i => exact List.mem_of_mem_drop hd
  | none => exact List.dropWhile_subset _ hd

theorem runCatch_of_ne {handler : Tree} (h : ∀ e, x ≠ .throws e) :
    runCatch w known run handler x = .done x := by
  cases x <;> first | rfl | exact absurd rfl (h _)

/-! ### One case for each kind of statement -/

section

variable (ih : SimulatesAt w known n)

include ih

theorem simulates_loop (hloop : isLoop t)
    (hhead : ∀ key ∈ ["init", "test", "update", "left", "right"], isCalm (t.get key))
    (hbody : Statement bs (ls ++ cs) [] (t.get "body")) :
    Corresponds w known (n + 1) bs cs ls c t := by
  unfold Corresponds
  have hpass := passes_loop hloop c
  have hloop' : isLoop (signalled c t).1 := (hpass.isTypeIn loopTypes).trans hloop
  rw [exec_loop hloop, exec_loop hloop', headOf_signalled hpass hhead]
  exact simulates_runLoop (ih.field hpass (by decide) hbody) n

theorem simulates_switch (htype : t.type? = some "SwitchStatement")
    (hvalue : isCalm (t.get "discriminant"))
    (hcase : ∀ d ∈ t.children "cases", d.type? = some "SwitchCase")
    (htest : ∀ d ∈ t.children "cases", isCalm (d.get "test"))
    (hbody : ∀ d ∈ t.children "cases", ∀ s ∈ d.children "consequent", Statement bs cs [] s) :
    Corresponds w known (n + 1) bs cs ls c t := by
  unfold Corresponds
  have hpass := passes_switch htype c
  have hcasePass : ∀ d ∈ t.children "cases", Passes { c with inSwitch := true }
      { c with inSwitch := true } d := fun d hd => passes_plain (hcase d hd) (by decide) _
  have hitem : ∀ d ∈ t.children "cases",
      item { c with inSwitch := true } d = signalled { c with inSwitch := true } d :=
    fun d hd => item_of_type? (hcase d hd) _
  have htest' : ∀ d ∈ t.children "cases",
      (item { c with inSwitch := true } d).1.get "test" = d.get "test" := by
    intro d hd
    rw [hitem d hd]
    exact (hcasePass d hd).get_of_isCalm (htest d hd)
  have hbody' : ∀ d ∈ t.children "cases",
      (item { c with inSwitch := true } d).1.children "consequent" =
        (d.children "consequent").map fun u => (item { c with inSwitch := true } u).1 := by
    intro d hd
    rw [hitem d hd]
    exact (hcasePass d hd).children (by decide)
  rw [exec_switch htype, exec_switch (hpass.type?.trans htype), hpass.get_of_isCalm hvalue,
    hpass.children (by decide)]
  refine simulates_after fun v => ?_
  rw [matching_map htest']
  refine simulates_after fun found => ?_
  rw [chosen_map htest' hbody']
  refine Simulates.andThen ?_ fun x hx => simulates_leftSwitch hx
  refine simulates_runAll fun u hu => ?_
  obtain ⟨d, hd, hu⟩ := mem_of_mem_chosen hu
  have hwithin := hpass.within_item (by decide) hd
  rw [hitem d hd] at hwithin
  exact (ih.item (hcasePass d hd) (by decide) hu (hbody d hd u hu)).widen hwithin

variable (hclause : (t.get "handler").isSet → (t.get "handler").type? = some "CatchClause")
  (hparam : (t.get "handler").isSet → isCalm ((t.get "handler").get "param"))
  (hhandler : (t.get "handler").isSet → Statement bs cs [] ((t.get "handler").get "body"))

include hclause hparam hhandler

theorem simulates_runCatch (hpass : Passes c c t)
    (hx : Place.Allows ⟨bs, cs, c, (signalled c t).2⟩ x) :
    Simulates ⟨bs, cs, c, (signalled c t).2⟩ (runCatch w known (exec w known n []) (t.get "handler") x)
      (runCatch w known (exec w known n []) ((signalled c t).1.get "handler") (encode c x)) := by
  by_cases hthrow : ∃ e, x = .throws e
  · obtain ⟨e, rfl⟩ := hthrow
    have hset := hpass.isSet_get "handler" (by decide) fun h => ⟨_, hclause h⟩
    simp only [runCatch, encode, hset]
    split
    · rename_i hh
      have htype := hclause hh
      have hinner := passes_plain htype (by decide) c
      obtain ⟨hget, hwithin⟩ := hpass.get "handler"
      rw [part_of_type? htype c (by decide)] at hget hwithin
      rw [hget, hinner.get_of_isCalm (hparam hh)]
      exact simulates_after fun _ => (ih.field hinner (by decide) (hhandler hh)).widen hwithin
    · exact simulates_done (x := .throws e) trivial
  · have hne : ∀ e, x ≠ .throws e := fun e heq => hthrow ⟨e, heq⟩
    rw [runCatch_of_ne hne, runCatch_of_ne fun e heq => hne e (eq_of_encode_eq heq (.inr ⟨e, rfl⟩))]
    exact simulates_done hx

theorem simulates_try (htype : t.type? = some "TryStatement")
    (hblock : Statement bs cs [] (t.get "block"))
    (hfinal : (t.get "finalizer").isSet → Statement bs cs [] (t.get "finalizer")) :
    Corresponds w known (n + 1) bs cs ls c t := by
  unfold Corresponds
  have hpass := passes_plain htype (by decide) c
  have hset := hpass.isSet_get "finalizer" (by decide) fun h => (hfinal h).exists_type
  rw [exec_try htype, exec_try (hpass.type?.trans htype)]
  have hguarded := (ih.field hpass (by decide) hblock).andThen fun x hx =>
    simulates_runCatch ih hclause hparam hhandler hpass hx
  exact hguarded.andThen fun x hx =>
    simulates_runFinally hset (fun h => ih.field hpass (by decide) (hfinal h)) hx

end

theorem name?_of_not_isSet {v : Tree} (h : v.isSet = false) : v.name? = none := by
  cases v with
  | obj m fs =>
    obtain rfl : fs = [] := by simpa [isSet] using h
    rfl
  | _ => rfl

theorem simulates_break (htype : t.type? = some "BreakStatement")
    (hlabel : (t.get "label").isSet → ∃ l ∈ bs, (t.get "label").name? = some l) :
    Corresponds w known (n + 1) bs cs ls c t := by
  unfold Corresponds
  rw [signalled_break htype]
  cases hset : (t.get "label").isSet with
  | true =>
    obtain ⟨l, hl, hname⟩ := hlabel hset
    rw [Bool.true_or, Bool.true_or, if_pos rfl, exec_break htype, hname]
    exact simulates_done (x := .breaks (some l)) hl
  | false =>
    cases hstay : (c.inLoop || c.inSwitch) with
    | true =>
      have hallowed : Place.Allows ⟨bs, cs, c, {}⟩ (.breaks none) := by
        intro hloop hswitch
        have hloop : c.inLoop = false := hloop
        have hswitch : c.inSwitch = false := hswitch
        simp [hloop, hswitch] at hstay
      have hdone := simulates_done hallowed
      simp only [encode, hstay, if_true] at hdone
      rw [Bool.false_or, hstay, if_pos rfl, exec_break htype, name?_of_not_isSet hset]
      exact hdone
    | false =>
      have hdone := simulates_done (p := ⟨bs, cs, c, { hasBreak := true }⟩) (x := .breaks none)
        fun _ _ => rfl
      simp only [encode, hstay] at hdone
      rw [Bool.false_or, hstay, if_neg Bool.false_ne_true, exec_break htype,
        name?_of_not_isSet hset, exec_returnStatement rfl]
      exact hdone

theorem simulates_continue (htype : t.type? = some "ContinueStatement")
    (hlabel : (t.get "label").isSet → ∃ l ∈ cs, (t.get "label").name? = some l) :
    Corresponds w known (n + 1) bs cs ls c t := by
  unfold Corresponds
  rw [signalled_continue htype]
  cases hset : (t.get "label").isSet with
  | true =>
    obtain ⟨l, hl, hname⟩ := hlabel hset
    rw [Bool.true_or, if_pos rfl, exec_continue htype, hname]
    exact simulates_done (x := .continues (some l)) hl
  | false =>
    have hdone := simulates_done (p := ⟨bs, cs, c, {}⟩) (x := .continues none) trivial
    cases hloop : c.inLoop with
    | true =>
      simp only [encode, hloop, if_true] at hdone
      rw [Bool.false_or, if_pos rfl, exec_continue htype, name?_of_not_isSet hset]
      exact hdone
    | false =>
      simp only [encode, hloop] at hdone
      rw [Bool.false_or, if_neg Bool.false_ne_true, exec_continue htype, name?_of_not_isSet hset,
        exec_newReturn]
      exact hdone

theorem after_map {β : Type} (a : Action α) (f : α → β) (next : β → Run) :
    Run.after (f <$> a) next = .after a fun v => next (f v) := by
  funext h
  have hmap : (f <$> a) h = ((a h).1.map f, (a h).2) := congrFun (ExceptT.run_map f a) h
  unfold Run.after
  rw [hmap]
  cases a h with
  | mk r h' => cases r <;> rfl

theorem simulates_return (htype : t.type? = some "ReturnStatement")
    (hvalue : isCalm (t.get "argument")) :
    Corresponds w known (n + 1) bs cs ls c t := by
  unfold Corresponds
  obtain ⟨t', hargument, ht', hsent⟩ := signalled_return htype c
  rw [part_of_isCalm hvalue] at hargument
  have hdone : ∀ v, Simulates ⟨bs, cs, c, (signalled c t).2⟩ (.done (.returns v))
      (.done (.returns (.box v))) := fun v => simulates_done (x := .returns v) hsent
  rw [ht', boxedReturn, hargument, exec_returnStatement rfl, eval_box, after_map, exec_return htype]
  split
  · exact simulates_after hdone
  · exact hdone .undefined

end

/-- **Every statement corresponds to its signalled form, in every run.** -/
theorem simulates_exec : ∀ n, SimulatesAt w known n := by
  intro n
  induction n with
  | zero => exact fun _ _ => simulates_none
  | succ n ih =>
    intro bs cs ls t h c
    cases h with
    | block htype hbody =>
      have hpass := passes_plain htype (by decide) c
      rw [exec_block htype, exec_block (hpass.type?.trans htype), hpass.children (by decide)]
      exact simulates_runAll fun u hu => ih.item hpass (by decide) hu (hbody u hu)
    | branch htype htest hthen helse =>
      have hpass := passes_plain htype (by decide) c
      have hset := hpass.isSet_get "alternate" (by decide) fun h => (helse h).exists_type
      rw [exec_if htype, exec_if (hpass.type?.trans htype), hpass.get_of_isCalm htest, hset]
      refine simulates_after fun v => ?_
      split
      · exact ih.field hpass (by decide) hthen
      · split
        · exact ih.field hpass (by decide) (helse ‹_›)
        · exact simulates_done trivial
    | labeled htype hlabel hcalm hbody =>
      have hpass := passes_plain htype (by decide) c
      rw [exec_labeled htype, exec_labeled (hpass.type?.trans htype), hpass.get_of_isCalm hcalm, hlabel]
      exact (ih.field hpass (by decide) hbody).andThen fun x hx => simulates_leftLabel hx
    | switch htype hvalue hcase htest hbody =>
      exact simulates_switch ih htype hvalue hcase htest hbody
    | guarded htype hblock hclause hparam hhandler hfinal =>
      exact simulates_try ih hclause hparam hhandler htype hblock hfinal
    | within htype hobject hbody =>
      have hpass := passes_plain htype (by decide) c
      rw [exec_with htype, exec_with (hpass.type?.trans htype), hpass.get_of_isCalm hobject]
      exact simulates_after fun _ => ih.field hpass (by decide) hbody
    | loop hloop hhead hbody => exact simulates_loop ih hloop hhead hbody
    | breaks htype hlabel => exact simulates_break htype hlabel
    | continues htype hlabel => exact simulates_continue htype hlabel
    | returns htype hvalue => exact simulates_return htype hvalue
    | throws htype hvalue =>
      have hpass := passes_plain htype (by decide) c
      rw [exec_throw htype, exec_throw (hpass.type?.trans htype), hpass.get_of_isCalm hvalue]
      exact simulates_after fun v => simulates_done (x := .throws v) trivial
    | atom htype hs hcalm =>
      rw [signalled_of_isCalm hcalm, exec_atom htype hs]
      exact simulates_after fun _ => simulates_done (x := .normal) trivial

/-! ## The moved body -/

section

variable {w : World} {name : String} {m : Nat}

theorem eval_known (v : Value) : eval w (some (name, v)) (identifier name) = pure v := by
  have hnode : identifier name = .obj none [("type", .str "Identifier"), ("name", .str name)] := rfl
  have hform : formOf (some (name, v)) (identifier name) = .value v := by
    show (if decide (name = name) = true then Form.value v else .atom) = _
    simp
  rw [hnode] at hform ⊢
  simp only [eval, hform]

theorem after_pure (v : α) (next : α → Run) : Run.after (pure v) next = next v := rfl

/-- An `if` with no `else` whose test has a value. -/
theorem exec_ifStatement {known : Option (String × Value)} {test body : Tree} {b : Bool}
    (htest : eval w known test = pure (.bool b)) :
    exec w known (m + 1) [] (ifStatement test body) =
      if b then exec w known m [] body else .done .normal := by
  have hget : (ifStatement test body).get "test" = test := rfl
  rw [exec_if rfl, hget, htest, after_pure]
  cases b <;> rfl

/-- `if (result === "break") break;` -/
theorem exec_breakSignal (v : Value) :
    exec w (some (name, v)) (m + 2) []
        (ifStatement (binary "===" (identifier name) (literal (.str "break"))) breakStatement) =
      .done (if w.strictlyEqual v (.text "break") then .breaks none else .normal) := by
  have htest : eval w (some (name, v)) (binary "===" (identifier name) (literal (.str "break"))) =
      pure (.bool (w.strictlyEqual v (.text "break"))) := by
    show (do
      let l ← eval w (some (name, v)) (identifier name)
      let r ← eval w (some (name, v)) (literal (.str "break"))
      return Value.bool (w.strictlyEqual l r)) = _
    rw [eval_known]
    rfl
  rw [exec_ifStatement htest]
  cases w.strictlyEqual v (.text "break") <;> rfl

/-- `if (typeof result === "object") return result.v;` -/
theorem exec_returnSignal (v : Value) :
    exec w (some (name, v)) (m + 2) []
        (ifStatement (binary "===" (unary "typeof" (identifier name)) (literal (.str "object")))
          (returnStatement (some (dot (identifier name) "v")))) =
      if w.typeText v = "object" then
        .after (eval w (some (name, v)) (dot (identifier name) "v")) fun v => .done (.returns v)
      else .done .normal := by
  have htest : eval w (some (name, v))
      (binary "===" (unary "typeof" (identifier name)) (literal (.str "object"))) =
      pure (.bool (w.typeText v = "object")) := by
    show (do
      let l ← (do
        let u ← eval w (some (name, v)) (identifier name)
        return Value.text (w.typeText u) : Action Value)
      let r ← eval w (some (name, v)) (literal (.str "object"))
      return Value.bool (w.strictlyEqual l r)) = _
    rw [eval_known]
    rfl
  rw [exec_ifStatement htest, exec_returnStatement rfl]
  simp

theorem eval_content (v : Value) : eval w (some (name, .box v)) (dot (identifier name) "v") = pure v := by
  show (eval w (some (name, .box v)) (identifier name) >>= _ : Action Value) = _
  rw [eval_known]
  rfl

/-- How the loop goes on once the moved body has returned a value. -/
def reaction (s : Signals) : Value → Completion
  | .text _ => if s.hasBreak then .breaks none else .normal
  | .box v => if s.hasReturn then .returns v else .normal
  | _ => .normal

theorem done_andThen (x : Completion) (next : Completion → Run) : (Run.done x).andThen next = next x := rfl

/-- What follows the call takes the signals apart. -/
theorem execAll_dispatch (s : Signals) {v : Value}
    (hv : v = .undefined ∨ v = .text "break" ∨ ∃ u, v = .box u) :
    execAll w (some (name, v)) (m + 2) (dispatch name s) = .done (reaction s v) := by
  obtain ⟨hasBreak, hasReturn⟩ := s
  rcases hv with rfl | rfl | ⟨u, rfl⟩ <;> cases hasBreak <;> cases hasReturn <;>
    simp [dispatch, execAll, runAll, exec_breakSignal, exec_returnSignal, eval_content, after_pure,
      done_andThen, ifNormal, reaction, World.strictlyEqual, World.typeText]

end

/-- The end of a turn of a loop: going on to the next turn is the normal end. -/
def Completion.settled : Completion → Completion
  | .continues none => .normal
  | x => x

/-- **A moved body keeps its flow of control.** Statements whose labelled jumps stay inside are moved
into a function and their jumps become signals. Calling the function and looking at its signals ends as
the statements themselves do, going on and ending normally being the same, and asks the world for the same
atoms in the same order. -/
theorem call_signal {statements : List Tree} (hs : ∀ t ∈ statements, Statement [] [] [] t) :
    ∃ moved signals, signal statements = .ok (moved, signals) ∧
      ∀ (w : World) (name : String) (n m : Nat) (asked : List Tree),
        call w n moved (fun v => execAll w (some (name, v)) (m + 2) (dispatch name signals)) asked =
          (execAll w none n statements asked).map fun x => (x.1.settled, x.2) := by
  refine ⟨_, _, signal_eq statements, ?_⟩
  intro w name n m asked
  have hsim : Simulates ⟨[], [], {}, (signalledItems {} statements).2⟩ (execAll w none n statements)
      (execAll w none n (signalledItems {} statements).1) := by
    rw [signalledItems_fst]
    refine simulates_runAll fun t ht => ?_
    obtain ⟨s, htype⟩ := (hs t ht).exists_type
    have hwithin := within_signalledItems (c := {}) ht
    rw [item_of_type? htype] at hwithin ⊢
    exact (simulates_exec n (hs t ht) {}).widen hwithin
  unfold call Run.andThen
  rw [hsim.run asked]
  cases hrun : execAll w none n statements asked with
  | none => rfl
  | some y =>
    obtain ⟨x, asked'⟩ := y
    have hallowed := hsim.allows asked x asked' hrun
    cases x with
    | normal =>
      show execAll w (some (name, .undefined)) (m + 2) _ asked' = some (.normal, asked')
      rw [execAll_dispatch _ (.inl rfl)]
      rfl
    | breaks l =>
      cases l with
      | none =>
        have hbreak : (signalledItems {} statements).2.hasBreak = true := hallowed rfl rfl
        show execAll w (some (name, .text "break")) (m + 2) _ asked' = some (.breaks none, asked')
        rw [execAll_dispatch _ (.inr (.inl rfl)), reaction, hbreak]
        rfl
      | some l => exact absurd hallowed List.not_mem_nil
    | continues l =>
      cases l with
      | none =>
        show execAll w (some (name, .undefined)) (m + 2) _ asked' = some (.normal, asked')
        rw [execAll_dispatch _ (.inl rfl)]
        rfl
      | some l => exact absurd hallowed List.not_mem_nil
    | returns v =>
      have hreturn : (signalledItems {} statements).2.hasReturn = true := hallowed
      show execAll w (some (name, .box v)) (m + 2) _ asked' = some (.returns v, asked')
      rw [execAll_dispatch _ (.inr (.inr ⟨v, rfl⟩)), reaction, hreturn]
      rfl
    | throws e => rfl

/-- `l: while (a) { if (b) break l; return c; }` and `if (d) break; else continue;`. -/
def sampleBody : List Tree :=
  [make "LabeledStatement"
    [("label", identifier "l"),
     ("body", make "WhileStatement"
       [("test", identifier "a"),
        ("body", block
          [ifStatement (identifier "b") (make "BreakStatement" [("label", identifier "l")]),
           returnStatement (some (identifier "c"))])])],
   ifStatement (identifier "d") breakStatement (some (make "ContinueStatement" []))]

theorem statement_sampleBody : ∀ t ∈ sampleBody, Statement [] [] [] t := by
  have hexit : Statement ["l"] ["l"] []
      (ifStatement (identifier "b") (make "BreakStatement" [("label", identifier "l")])) :=
    .branch rfl rfl (.breaks rfl fun _ => ⟨"l", by simp, rfl⟩) nofun
  have hreturn : Statement ["l"] ["l"] [] (returnStatement (some (identifier "c"))) := .returns rfl rfl
  have hloop : Statement ["l"] [] ["l"] (make "WhileStatement"
      [("test", identifier "a"),
       ("body", block
         [ifStatement (identifier "b") (make "BreakStatement" [("label", identifier "l")]),
          returnStatement (some (identifier "c"))])]) := by
    refine .loop rfl (by decide) (.block rfl ?_)
    intro s hs
    rcases List.mem_cons.mp hs with rfl | hs
    · exact hexit
    · obtain rfl := List.mem_singleton.mp hs
      exact hreturn
  intro t ht
  rcases List.mem_cons.mp ht with rfl | ht
  · exact .labeled rfl rfl rfl hloop
  · obtain rfl := List.mem_singleton.mp ht
    exact .branch rfl rfl (.breaks rfl nofun) fun _ => .continues rfl nofun

/-- A world in which `a` is true, `b` is false and everything else is the seventh value. -/
def sampleWorld : World where
  ask _ t := .ok (if (t.get "name").isStr "a" then .bool true
    else if (t.get "name").isStr "b" then .bool false else .other 7)
  isTrue _ := true
  typeOf _ := "number"
  same v v' := v = v'

theorem call_signal_sample : ∃ moved signals, signal sampleBody = .ok (moved, signals) ∧
    call sampleWorld 9 moved
        (fun v => execAll sampleWorld (some ("_ret", v)) 2 (dispatch "_ret" signals)) [] =
      some (.returns (.other 7), [identifier "a", identifier "b", identifier "c"]) := by
  obtain ⟨moved, signals, hsignal, hcall⟩ := call_signal statement_sampleBody
  refine ⟨moved, signals, hsignal, ?_⟩
  rw [hcall sampleWorld "_ret" 9 0 []]
  rfl

end Downlevel.Flow
