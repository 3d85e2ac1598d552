import Downlevel.Proofs.Lower.Fault
import Downlevel.Session
import Mathlib.Logic.Relation

/-!
# `Proofs.Session.History`: sessions over whole histories

A session is asked for one operation after the other, in any order, and some of them fail. In between the
files may change in any way, the grammar, the compiler and the beautifier are any functions, and a lowering that
fails may leave any tree. Whatever happens, an operation changes how far a session has come only by a few
**moves**: a program is read, it is lowered once more or damaged by a lowering that fails, lowering ends, the
text is written out or given again. What holds of a session after every history follows from the moves: that
phase, program and text agree is kept by each of them.
-/

namespace Downlevel.Session

open Lower Source Emit

variable {setup : Setup} {p p' : Progress} {run : Run} {s' : Session}

/-! ## Histories -/

/-- An operation with its arguments. -/
inductive Call where
  | read (text : String) (dialect : Option String) (sourceName : String)
  | load (path : String) (dialect : Option String)
  | apply (name : String)
  | applyAll
  | output
  | save (path : String)
  /-- Writing to a file, with a report in place of a failure. -/
  | saveReporting (path : String)

/-- What an operation gives if it does not fail. -/
inductive Answer where
  | run (run : Run)
  | diagnostics (diagnostics : List Diagnostic)
  | text (text : String)
  | saved (problem : Option Fault)

/-- Performs an operation. -/
def perform (setup : Setup) : Call → Action Answer
  | .read text dialect sourceName => .run <$> read setup text dialect sourceName
  | .load path dialect => .run <$> load setup path dialect
  | .apply name => .diagnostics <$> apply setup name
  | .applyAll => .diagnostics <$> applyAll setup
  | .output => .text <$> output setup
  | .save path => (fun _ => .saved none) <$> save setup path
  | .saveReporting path => .saved <$> saveReporting setup path

/-- An operation, and the files as it finds them. -/
structure Occasion where
  files : Files.Table
  call : Call

/-- What an operation gives, and the session after it. -/
def step (setup : Setup) (s : Session) (o : Occasion) : Except Fault Answer × Session :=
  (perform setup o.call).run { s with files := o.files }

/-- The session after a history. -/
def after (setup : Setup) (s : Session) (history : List Occasion) : Session :=
  history.foldl (fun s o => (step setup s o).2) s

theorem after_append (setup : Setup) (s : Session) (before later : List Occasion) :
    after setup s (before ++ later) = after setup (after setup s before) later :=
  List.foldl_append

/-! ## Moves -/

/-- What can happen to the progress of a session. -/
inductive Move (setup : Setup) : Progress → Progress → Prop
  | read {p : Progress} {request : Request} {program : Program} (hphase : p.phase = .configured)
      (h : readProgram setup.tools request = .ok program) :
      Move setup p { p with phase := .parsed, run := some (.ofProgram program) }
  | lower {p : Progress} {run : Run} {pass : Pass} {l : Lowered} (hphase : p.phase ∈ [.parsed, .lowered])
      (hrun : p.run = some run) (h : pass.lower run.tree = .ok l) :
      Move setup p { p with phase := .lowered, run := some (run.add pass l) }
  | fail {p : Progress} {run : Run} {pass : Pass} {fault : Fault} (hphase : p.phase ∈ [.parsed, .lowered])
      (hrun : p.run = some run) (h : pass.lower run.tree = .error fault) :
      Move setup p { p with run := some { run with tree := setup.remains pass run.tree } }
  | finish {p : Progress} (hphase : p.phase ∈ [.parsed, .lowered]) : Move setup p { p with phase := .lowered }
  | emit {p : Progress} {run : Run} {out : Output} {notes : List LogRecord}
      (hphase : p.phase ∈ [.lowered, .emitted]) (hrun : p.run = some run) (hnone : p.output = none)
      (h : run.emit setup = .ok (out, notes)) :
      Move setup p { p with phase := .emitted, output := some out.text }
  | again {p : Progress} {text : String} (hphase : p.phase ∈ [.lowered, .emitted])
      (htext : p.output = some text) : Move setup p { p with phase := .emitted }

/-- Several moves. -/
abbrev Moves (setup : Setup) : Progress → Progress → Prop := Relation.ReflTransGen (Move setup)

/-- **No move goes back.** -/
theorem Move.rank_le (h : Move setup p p') : p.phase.rank ≤ p'.phase.rank := by
  have hlowered : ∀ phase ∈ [Phase.parsed, .lowered], phase.rank ≤ Phase.lowered.rank := by decide
  have hemitted : ∀ phase : Phase, phase.rank ≤ Phase.emitted.rank := by rintro (_ | _ | _ | _) <;> decide
  cases h with
  | read hphase h =>
    rw [hphase]
    exact Nat.zero_le _
  | lower hphase hrun h => exact hlowered _ hphase
  | fail hphase hrun h => exact Nat.le_refl _
  | finish hphase => exact hlowered _ hphase
  | emit hphase hrun hnone h => exact hemitted _
  | again hphase htext => exact hemitted _

theorem Moves.rank_le (h : Moves setup p p') : p.phase.rank ≤ p'.phase.rank := by
  induction h with
  | refl => exact Nat.le_refl _
  | tail _ hmove ih => exact Nat.le_trans ih hmove.rank_le

/-- Nothing happens any more once a text is written out. -/
theorem Move.eq_of_emitted {text : String} (h : Move setup p p') (hphase : p.phase = .emitted)
    (htext : p.output = some text) : p' = p := by
  have hover : ∀ {phases : List Phase}, p.phase ∈ phases → Phase.emitted ∈ phases := fun hmem => hphase ▸ hmem
  cases h with
  | read hread h => cases hread.symm.trans hphase
  | lower hlower hrun h => exact absurd (hover hlower) (by decide)
  | fail hlower hrun h => exact absurd (hover hlower) (by decide)
  | finish hlower => exact absurd (hover hlower) (by decide)
  | emit _ hrun hnone h => cases hnone.symm.trans htext
  | again _ _ =>
    rw [← hphase]

theorem Moves.eq_of_emitted {text : String} (h : Moves setup p p') (hphase : p.phase = .emitted)
    (htext : p.output = some text) : p' = p := by
  induction h with
  | refl => rfl
  | tail _ hmove ih =>
    subst ih
    exact hmove.eq_of_emitted hphase htext

/-! ## What an operation comes to -/

/-- The faults that come up before an operation changes anything. -/
def isRefusal : Fault → Bool
  | .outOfOrder _ _ _ => true
  | .unknownPass _ => true
  | .unparsable _ => true
  | .unreadable _ _ => true
  | _ => false

section

variable (setup : Setup) {α β : Type} {s : Session} {Q : Except Fault α → Session → Prop}

/-- The result of an operation and the session after it satisfy a relation. -/
def Ends (x : Action α) (s : Session) (Q : Except Fault α → Session → Prop) : Prop :=
  Q (x.run s).1 (x.run s).2

namespace Ends

theorem run_bind (x : Action β) (f : Except Fault β → StateM Session (Except Fault α)) (s : Session) :
    (x.run >>= f) s = f (x.run s).1 (x.run s).2 := rfl

theorem pure {a : α} (h : Q (.ok a) s) : Ends (Pure.pure a) s Q := h

theorem throw {fault : Fault} (h : Q (.error fault) s) : Ends (MonadExcept.throw fault : Action α) s Q := h

theorem bind {x : Action β} {f : β → Action α}
    (h : Ends x s fun r s' => match r with
      | .ok a => Ends (f a) s' Q
      | .error fault => Q (.error fault) s') : Ends (x >>= f) s Q := by
  unfold Ends at h ⊢
  rw [ExceptT.run_bind, run_bind]
  generalize x.run s = p at h
  obtain ⟨fault | a, s'⟩ := p
  · exact h
  · exact h

theorem get_bind {f : Session → Action α} (h : Ends (f s) s Q) : Ends (get >>= f) s Q := bind (x := get) h

theorem set_bind {s' : Session} {f : PUnit → Action α} (h : Ends (f ⟨⟩) s' Q) : Ends (set s' >>= f) s Q :=
  bind (x := set s') h

theorem note {records : List LogRecord} {Q : Except Fault Unit → Session → Prop}
    (h : Q (.ok ()) { s with logs := s.logs ++ records }) : Ends (Session.note records) s Q := h

theorem note_bind {records : List LogRecord} {f : Unit → Action α}
    (h : Ends (f ()) { s with logs := s.logs ++ records } Q) : Ends (Session.note records >>= f) s Q :=
  bind (x := Session.note records) h

theorem advance_bind {g : Progress → Progress} {f : Unit → Action α}
    (h : Ends (f ()) { s with progress := g s.progress } Q) : Ends (advance g >>= f) s Q :=
  bind (x := advance g) h

theorem require_bind {operation : String} {phases : List Phase} {f : Unit → Action α}
    (hok : s.progress.phase ∈ phases → Ends (f ()) s Q)
    (herror : s.progress.phase ∉ phases → ∀ fault, Q (.error fault) s) :
    Ends (require operation phases >>= f) s Q := by
  refine bind ?_
  unfold require
  refine get_bind ?_
  simp only
  split
  · exact pure (hok ‹_›)
  · exact throw (herror ‹_› _)

theorem program_bind {f : Run → Action α} (hok : ∀ run, s.progress.run = some run → Ends (f run) s Q)
    (herror : Q (.error .noProgram) s) : Ends (program >>= f) s Q := by
  refine bind ?_
  unfold program
  refine get_bind ?_
  split
  · exact pure (hok _ ‹_›)
  · exact throw herror

theorem lift_bind {x : Except Fault β} {f : β → Action α}
    (hok : ∀ a, x = .ok a → Ends (f a) s Q) (herror : ∀ fault, x = .error fault → Q (.error fault) s) :
    Ends (liftM x >>= f) s Q := by
  cases x with
  | ok a => exact hok a rfl
  | error fault => exact herror fault rfl

theorem map {x : Action β} {f : β → α} (h : Ends x s fun r s' => Q (r.map f) s') : Ends (f <$> x) s Q := by
  rw [← bind_pure_comp]
  refine bind ?_
  unfold Ends at h ⊢
  cases hx : (x.run s).1 <;> rw [hx] at h <;> exact h

theorem tryCatch {x : Action α} {handler : Fault → Action α}
    (h : Ends x s fun r s' => match r with
      | .ok a => Q (.ok a) s'
      | .error fault => Ends (handler fault) s' Q) : Ends (MonadExcept.tryCatch x handler) s Q := by
  unfold Ends at h ⊢
  rw [ExceptT.run_tryCatch, run_bind]
  generalize x.run s = p at h
  obtain ⟨fault | a, s'⟩ := p
  · exact h
  · exact h

theorem mono {x : Action α} {Q' : Except Fault α → Session → Prop} (h : Ends x s Q)
    (hQ : ∀ r s', Q r s' → Q' r s') : Ends x s Q' := hQ _ _ h

end Ends

/-- An operation only moves, and a refusal changes nothing. -/
def Lawful (setup : Setup) (s : Session) (r : Except Fault α) (s' : Session) : Prop :=
  Moves setup s.progress s'.progress ∧
    ∀ fault, r = .error fault → isRefusal fault = true → s'.progress = s.progress

variable {setup} in
theorem lawful_of_eq {r : Except Fault α} (h : s'.progress = s.progress) : Lawful setup s r s' :=
  ⟨h ▸ .refl, fun _ _ _ => h⟩

variable {setup} in
theorem lawful_of_move {a : α} (h : Moves setup s.progress s'.progress) : Lawful setup s (.ok a) s' := ⟨h, nofun⟩

variable {setup} in
/-- A failure is lawful whatever the operation would have given. -/
theorem Lawful.error {fault : Fault} (h : Lawful setup s (.error fault : Except Fault β) s') :
    Lawful setup s (.error fault : Except Fault α) s' :=
  ⟨h.1, fun _ hfault => h.2 _ (by cases hfault; rfl)⟩

/-! ## Each operation -/

theorem lawful_read (text : String) (dialect : Option String) (sourceName : String) :
    Ends (read setup text dialect sourceName) s (Lawful setup s) := by
  unfold read
  refine .require_bind (fun hphase => ?_) fun _ fault => lawful_of_eq rfl
  refine .note_bind (.lift_bind (fun program hprogram => ?_) fun fault _ => lawful_of_eq rfl)
  -- A program was read: the session moves on, and what follows only notes.
  refine .advance_bind (.note_bind (.pure (lawful_of_move ?_)))
  exact .single (.read (List.mem_singleton.mp hphase) hprogram)

theorem lawful_load (path : String) (dialect : Option String) :
    Ends (load setup path dialect) s (Lawful setup s) := by
  unfold load
  refine .require_bind (fun _ => .get_bind ?_) fun _ fault => lawful_of_eq rfl
  split
  · exact lawful_read setup _ _ _
  · exact .throw (lawful_of_eq rfl)

/-- What lowering comes to: the session moves on and can be lowered further, and a failure is no refusal. -/
def Lowers (setup : Setup) (s : Session) (r : Except Fault α) (s' : Session) : Prop :=
  Moves setup s.progress s'.progress ∧ s'.progress.phase ∈ [.parsed, .lowered] ∧
    ∀ fault, r = .error fault → isRefusal fault = false

theorem lowers_lowerRun (pass : Pass) (context : String) (hphase : s.progress.phase ∈ [.parsed, .lowered])
    (hrun : s.progress.run = some run) : Ends (lowerRun setup pass context run) s (Lowers setup s) := by
  unfold lowerRun
  refine .note_bind ?_
  split
  · rename_i l hl
    refine .note_bind (.note_bind (.advance_bind (.pure ?_)))
    exact ⟨.single (.lower hphase hrun hl), by simp, nofun⟩
  · rename_i fault hfault
    refine .advance_bind (.throw ⟨.single (.fail hphase hrun hfault), hphase, ?_⟩)
    obtain ⟨key, rfl⟩ := Pass.lower_error hfault
    rintro fault ⟨⟩
    rfl

theorem lowers_applyPass (pass : Pass) (context : Option String)
    (hphase : s.progress.phase ∈ [.parsed, .lowered]) :
    Ends (applyPass setup pass context) s (Lowers setup s) := by
  unfold applyPass
  refine .require_bind (fun _ => ?_) fun hno => absurd hphase hno
  refine .program_bind (fun run hrun => lowers_lowerRun setup pass _ hphase hrun) ⟨.refl, hphase, ?_⟩
  rintro fault ⟨⟩
  rfl

/-- Several lowerings, one after the other. -/
theorem lowers_applyEach (passes : List Pass) : ∀ {s : Session}, s.progress.phase ∈ [.parsed, .lowered] →
    Ends (applyEach setup passes) s (Lowers setup s) := by
  induction passes with
  | nil => exact fun hphase => ⟨.refl, hphase, nofun⟩
  | cons pass rest ih =>
    intro s hphase
    refine .bind ((lowers_applyPass setup pass none hphase).mono ?_)
    rintro (fault | a) s' ⟨hmoves, hphase', hfault⟩
    · exact ⟨hmoves, hphase', fun _ heq => hfault _ (by cases heq; rfl)⟩
    · refine (ih hphase').mono ?_
      rintro r s'' ⟨hmoves', hrest⟩
      exact ⟨hmoves.trans hmoves', hrest⟩

variable {setup} in
theorem Lowers.lawful {r : Except Fault α} (h : Lowers setup s r s') : Lawful setup s r s' := by
  refine ⟨h.1, fun fault hr hrefusal => ?_⟩
  rw [h.2.2 fault hr] at hrefusal
  cases hrefusal

theorem lawful_apply (name : String) : Ends (apply setup name) s (Lawful setup s) := by
  unfold apply
  refine .require_bind (fun hphase => ?_) fun _ fault => lawful_of_eq rfl
  split
  · exact (lowers_applyPass setup _ none hphase).mono fun _ _ h => h.lawful
  · exact .throw (lawful_of_eq rfl)

theorem lawful_applyAll : Ends (applyAll setup) s (Lawful setup s) := by
  unfold applyAll
  refine .require_bind (fun hparsed => ?_) fun _ fault => lawful_of_eq rfl
  have hphase : s.progress.phase ∈ [.parsed, .lowered] := List.mem_cons.mpr (.inl (List.mem_singleton.mp hparsed))
  refine .bind ((lowers_applyEach setup _ hphase).mono ?_)
  rintro (fault | a) s' hlowers
  · exact hlowers.lawful.error
  · -- Lowering ends, also where no lowering is configured.
    refine .advance_bind (.get_bind (.pure (lawful_of_move ?_)))
    exact hlowers.1.tail (.finish hlowers.2.1)

theorem lawful_output : Ends (output setup) s (Lawful setup s) := by
  unfold output
  refine .require_bind (fun hphase => .get_bind ?_) fun _ fault => lawful_of_eq rfl
  split
  · rename_i text htext
    exact .advance_bind (.pure (lawful_of_move (.single (.again hphase htext))))
  · rename_i hnone
    refine .program_bind (fun run hrun => ?_) (lawful_of_eq rfl)
    refine .lift_bind (fun written hwritten => ?_) fun fault _ => lawful_of_eq rfl
    refine .note_bind (.advance_bind (.pure (lawful_of_move ?_)))
    exact .single (.emit hphase hrun hnone hwritten)

/-- Writing to a file leaves the progress alone, and is never refused. -/
theorem ends_write (path text : String) : Ends (write path text) s fun r s' =>
    s'.progress = s.progress ∧ ∀ fault, r = .error fault → isRefusal fault = false := by
  unfold write
  refine .get_bind (.set_bind ?_)
  split
  · exact .note ⟨rfl, nofun⟩
  · refine .throw ⟨rfl, ?_⟩
    rintro fault ⟨⟩
    rfl

variable {setup} in
/-- What follows an operation, leaves the progress alone and is never refused, is lawful with it. -/
theorem Lawful.followed {a : β} {s'' : Session} {r : Except Fault α} (h : Lawful setup s (.ok a) s')
    (hsame : s''.progress = s'.progress) (hfault : ∀ fault, r = .error fault → isRefusal fault = false) :
    Lawful setup s r s'' := by
  refine ⟨hsame ▸ h.1, fun fault hr hrefusal => ?_⟩
  rw [hfault fault hr] at hrefusal
  cases hrefusal

theorem lawful_save (path : String) : Ends (save setup path) s (Lawful setup s) := by
  unfold save
  refine .bind ((lawful_output setup).mono ?_)
  rintro (fault | text) s' hlawful
  · exact hlawful.error
  · refine (ends_write path text).mono ?_
    rintro r s'' ⟨hsame, hfault⟩
    exact hlawful.followed hsame hfault

theorem lawful_saveReporting (path : String) : Ends (saveReporting setup path) s (Lawful setup s) := by
  unfold saveReporting
  refine .bind ((lawful_output setup).mono ?_)
  rintro (fault | text) s' hlawful
  · exact hlawful.error
  · refine .tryCatch (.bind ((ends_write path text).mono ?_))
    rintro (fault | a) s'' ⟨hsame, -⟩
    · exact .pure (hlawful.followed hsame nofun)
    · exact .pure (hlawful.followed hsame nofun)

/-- **Every operation only moves, and where it is refused it changes nothing.** -/
theorem lawful_perform (call : Call) : Ends (perform setup call) s (Lawful setup s) := by
  have hmap : ∀ {α : Type} {x : Action α} {f : α → Answer}, Ends x s (Lawful setup s) →
      Ends (f <$> x) s (Lawful setup s) := by
    intro α x f hx
    refine .map (hx.mono ?_)
    rintro (fault | a) s' h
    · exact h.error
    · exact lawful_of_move h.1
  cases call with
  | read text dialect sourceName => exact hmap (lawful_read setup _ _ _)
  | load path dialect => exact hmap (lawful_load setup _ _)
  | apply name => exact hmap (lawful_apply setup _)
  | applyAll => exact hmap (lawful_applyAll setup)
  | output => exact hmap (lawful_output setup)
  | save path => exact hmap (lawful_save setup _)
  | saveReporting path => exact hmap (lawful_saveReporting setup _)

end

/-! ## What holds after every history -/

/-- One tree becomes another by lowerings, each with a result of its own, and by what is left of it where a
lowering fails. -/
inductive Lowerings (setup : Setup) : Tree → List Pass → List Lowered → Tree → Prop
  | none (t : Tree) : Lowerings setup t [] [] t
  | more {t t' : Tree} {passes : List Pass} {results : List Lowered} {pass : Pass} {l : Lowered}
      (h : Lowerings setup t passes results t') (hl : pass.lower t' = .ok l) :
      Lowerings setup t (passes ++ [pass]) (results ++ [l]) l.tree
  | failed {t t' : Tree} {passes : List Pass} {results : List Lowered} {pass : Pass} {fault : Fault}
      (h : Lowerings setup t passes results t') (hfault : pass.lower t' = .error fault) :
      Lowerings setup t passes results (setup.remains pass t')

/-- The run comes from a program that was read, by the lowerings it lists, and its diagnostics are theirs,
one after the other. -/
def IsTraced (setup : Setup) (run : Run) : Prop :=
  ∃ request p results, readProgram setup.tools request = .ok p ∧
    run.text = p.parsed.text ∧ run.comments = p.parsed.comments ∧ run.tokens = p.parsed.tokens ∧
    Lowerings setup p.parsed.tree run.applied results run.tree ∧
    run.diagnostics = results.flatMap Lowered.diagnostics

/-- Phase, run and text belong together: there is a run once a program was read, and a text once it was written
out; the run is traced, and the text is that of the run. -/
structure IsSound (setup : Setup) (p : Progress) : Prop where
  run_iff : p.run.isSome ↔ p.phase ≠ .configured
  output_iff : p.output.isSome ↔ p.phase = .emitted
  traced : ∀ run, p.run = some run → IsTraced setup run
  written : ∀ text, p.output = some text →
    ∃ run out notes, p.run = some run ∧ run.emit setup = .ok (out, notes) ∧ out.text = text

section

variable {setup : Setup}

theorem IsTraced.add {pass : Pass} {l : Lowered} (h : IsTraced setup run) (hl : pass.lower run.tree = .ok l) :
    IsTraced setup (run.add pass l) := by
  obtain ⟨request, program, results, hread, htext, hcomments, htokens, hlowered, hdiagnostics⟩ := h
  refine ⟨request, program, results ++ [l], hread, htext, hcomments, htokens, hlowered.more hl, ?_⟩
  show run.diagnostics ++ l.diagnostics = _
  rw [hdiagnostics]
  simp

theorem IsTraced.damage {pass : Pass} {fault : Fault} (h : IsTraced setup run)
    (hfault : pass.lower run.tree = .error fault) :
    IsTraced setup { run with tree := setup.remains pass run.tree } := by
  obtain ⟨request, program, results, hread, htext, hcomments, htokens, hlowered, hdiagnostics⟩ := h
  exact ⟨request, program, results, hread, htext, hcomments, htokens, hlowered.failed hfault, hdiagnostics⟩

/-- A session that has not written its program out has no text, whatever becomes of its run. -/
theorem IsSound.unwritten {q : Progress} (h : IsSound setup p) (hphase : p.phase ≠ .emitted)
    (hsame : q.output = p.output) (hq : q.phase ≠ .emitted) (hrun : q.run.isSome ↔ q.phase ≠ .configured)
    (htraced : ∀ run, q.run = some run → IsTraced setup run) : IsSound setup q := by
  have hnone : q.output = none := by
    rw [hsame, ← Option.not_isSome_iff_eq_none, h.output_iff]
    exact hphase
  refine ⟨hrun, ?_, htraced, ?_⟩
  · simp [hnone, hq]
  · intro text htext
    cases hnone.symm.trans htext

/-- **Each move keeps phase, run and text in agreement.** -/
theorem Move.isSound (h : Move setup p p') (hs : IsSound setup p) : IsSound setup p' := by
  have hlowering : p.phase ∈ [.parsed, .lowered] → p.phase ≠ .configured ∧ p.phase ≠ .emitted := by
    cases p.phase <;> decide
  cases h with
  | read hphase h =>
    refine hs.unwritten (by simp [hphase]) rfl (by simp) (by simp) ?_
    rintro run ⟨⟩
    exact ⟨_, _, [], h, rfl, rfl, rfl, .none _, rfl⟩
  | lower hphase hrun h =>
    refine hs.unwritten (hlowering hphase).2 rfl (by simp) (by simp) ?_
    rintro run' ⟨⟩
    exact (hs.traced _ hrun).add h
  | fail hphase hrun h =>
    refine hs.unwritten (hlowering hphase).2 rfl (hlowering hphase).2 (by simp [(hlowering hphase).1]) ?_
    rintro run' ⟨⟩
    exact (hs.traced _ hrun).damage h
  | finish hphase =>
    refine hs.unwritten (hlowering hphase).2 rfl (by simp) ?_ hs.traced
    simp [hs.run_iff, (hlowering hphase).1]
  | @emit run out notes hphase hrun hnone h =>
    refine ⟨by simp [hrun], by simp, hs.traced, ?_⟩
    rintro text ⟨⟩
    exact ⟨run, out, notes, hrun, h, rfl⟩
  | again hphase htext =>
    -- There is a text, so the phase was the last one before.
    have hemitted : p.phase = .emitted := hs.output_iff.mp (by rw [htext]; rfl)
    rwa [← hemitted]

theorem Moves.isSound (h : Moves setup p p') (hs : IsSound setup p) : IsSound setup p' := by
  induction h with
  | refl => exact hs
  | tail _ hmove ih => exact hmove.isSound ih

end

section

variable (setup : Setup) (s : Session)

theorem lawful_step (o : Occasion) : Lawful setup s (step setup s o).1 (step setup s o).2 := by
  have h : Ends (perform setup o.call) { s with files := o.files } _ := lawful_perform setup o.call
  exact h

/-- A whole history only moves. -/
theorem moves_after (history : List Occasion) : Moves setup s.progress (after setup s history).progress := by
  induction history generalizing s with
  | nil => exact .refl
  | cons o rest ih => exact (lawful_step setup s o).1.trans (ih _)

theorem isSound_start (files : Files.Table) : IsSound setup (start setup.config files).progress :=
  ⟨by simp [start], by simp [start], nofun, nofun⟩

/-- A text that was written out is given again. -/
theorem step_output_of_emitted {text : String} (hphase : s.progress.phase = .emitted)
    (htext : s.progress.output = some text) (files : Files.Table) :
    (step setup s ⟨files, .output⟩).1 = .ok (.text text) := by
  have hends : Ends (perform setup .output) { s with files := files } fun r _ =>
      r = .ok (.text text) := by
    refine .map ?_
    unfold output
    refine .require_bind (fun _ => .get_bind ?_) fun hno => absurd (by simp [hphase]) hno
    show Ends (match s.progress.output with | _ => _) _ _
    rw [htext]
    exact .advance_bind (.pure rfl)
  exact hends

end

/-- **Sessions over whole histories.** The phase never goes back. An operation that is refused, because it
is out of order, its name is unknown, its source does not parse or its file cannot be read, leaves phase, run
and text as they were. There is a run exactly once a program was read, and a text exactly once it was written
out; then it is the text of the run as it is, and every later request gives it again. The diagnostics are those
of the applied lowerings, one after the other. -/
theorem session_history (setup : Setup) (files : Files.Table) (before later : List Occasion) :
    let s := after setup (start setup.config files) before
    let s' := after setup (start setup.config files) (before ++ later)
    s.progress.phase.rank ≤ s'.progress.phase.rank ∧
    (∀ o fault, (step setup s o).1 = .error fault → isRefusal fault = true →
      (step setup s o).2.progress = s.progress) ∧
    ((s.progress.run.isSome ↔ s.progress.phase ≠ .configured) ∧
      (s.progress.output.isSome ↔ s.progress.phase = .emitted) ∧
      ∀ text, s.progress.output = some text →
        (∃ run out notes, s.progress.run = some run ∧ run.emit setup = .ok (out, notes) ∧ out.text = text) ∧
        ∀ files', (step setup s' ⟨files', .output⟩).1 = .ok (.text text)) ∧
    ∀ run, s.progress.run = some run → IsTraced setup run := by
  intro s s'
  have hsound : IsSound setup s.progress := (moves_after setup _ before).isSound (isSound_start setup files)
  have hlater : Moves setup s.progress s'.progress := by
    show Moves setup s.progress (after setup _ (before ++ later)).progress
    rw [after_append]
    exact moves_after setup s later
  refine ⟨hlater.rank_le, ?_, ⟨hsound.run_iff, hsound.output_iff, ?_⟩, hsound.traced⟩
  · intro o fault hfault hrefusal
    exact (lawful_step setup s o).2 fault hfault hrefusal
  · intro text htext
    refine ⟨hsound.written text htext, fun files' => ?_⟩
    have hemitted : s.progress.phase = .emitted := hsound.output_iff.mp (by rw [htext]; rfl)
    have hsame : s'.progress = s.progress := hlater.eq_of_emitted hemitted htext
    exact step_output_of_emitted setup s' (hsame ▸ hemitted) (hsame ▸ htext) files'

end Downlevel.Session
