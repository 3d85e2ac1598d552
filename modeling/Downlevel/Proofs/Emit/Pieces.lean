import Downlevel.Proofs.Emit.Queue
import Downlevel.Proofs.Emit.Written

/-!
# `Proofs.Emit.Pieces`: texts made of code and comments

Comments leave the queue at many points while a layout is set: before a statement, behind it, at the end
of a list. Each step writes just the comments that it takes. So a text is made of pieces: code of the
layout, and the comments that left the queue.

A line comment is written at the end of a line, and nearly always a line break follows: between the lines
of a list, or before its closing brace. Only the last line of a case can end its text. Then no comment
follows there: the line comment ends a line of the source text, and the rest of the queue starts behind it.
-/

namespace Downlevel.Emit

open Tree Text

/-! ## Pieces -/

/-- A piece of a text. -/
inductive Piece where
  | code (s : String)
  | comment (c : Tree)

namespace Piece

def text : Piece → String
  | .code s => s
  | .comment c => Comment.text c

/-- The text that pieces make up. -/
def join : List Piece → String
  | [] => ""
  | p :: ps => p.text ++ join ps

/-- The comments among pieces. -/
def comments : List Piece → List Tree
  | [] => []
  | .code _ :: ps => comments ps
  | .comment c :: ps => c :: comments ps

/-- Does a line or the whole text end before this text? -/
def EndsLine (s : String) : Prop := s = "" ∨ s.toList.head? = some '\n'

/-- Every line comment ends its line, if `behind` follows the pieces. -/
def Clear (behind : String) : List Piece → Prop
  | [] => True
  | .code _ :: ps => Clear behind ps
  | .comment c :: ps => (c.isType "Line" = true → EndsLine (join ps ++ behind)) ∧ Clear behind ps

variable {ps qs : List Piece}

theorem join_append : join (ps ++ qs) = join ps ++ join qs := by
  induction ps with
  | nil => simp [join]
  | cons p ps ih => rw [List.cons_append, join, join, ih, String.append_assoc]

theorem comments_append : comments (ps ++ qs) = comments ps ++ comments qs := by
  induction ps with
  | nil => rfl
  | cons p ps ih => cases p <;> simp [comments, ih]

theorem clear_append {behind : String} :
    Clear behind (ps ++ qs) ↔ Clear (join qs ++ behind) ps ∧ Clear behind qs := by
  induction ps with
  | nil => simp [Clear]
  | cons p ps ih => cases p <;> simp [Clear, join_append, String.append_assoc, ih, and_assoc]

end Piece

namespace Aim

variable {a : Aim} {s s' : String} {cs ds : List Tree} {isOpen isOpen' : Bool}

/-- What is shown of pieces. If they are open, then a line comment can be the last of them. -/
def Fits : Aim → Bool → List Piece → Prop
  | .total _, _, _ => True
  | .free g, _, ps => ∀ s, .code s ∈ ps → g.Lacks s
  | .tidy, isOpen, ps => ∀ behind, (isOpen = true → Piece.EndsLine behind) → Piece.Clear behind ps

theorem Fits.append {ps qs : List Piece} (h : a.Fits isOpen ps) (h' : a.Fits isOpen' qs)
    (hline : isOpen → (Piece.join qs).toList.head? = some '\n') : a.Fits isOpen' (ps ++ qs) := by
  cases a with
  | total _ => trivial
  | free g =>
    intro s hs
    exact (List.mem_append.mp hs).elim (h s) (h' s)
  | tidy =>
    intro behind hbehind
    refine Piece.clear_append.mpr ⟨h _ fun hopen => .inr ?_, h' behind hbehind⟩
    rw [String.toList_append, List.head?_append, hline hopen]
    rfl

/-- A text is made of pieces that fit, with these comments among them. -/
def Written (a : Aim) (isOpen : Bool) (s : String) (cs : List Tree) : Prop :=
  ∃ ps, Piece.join ps = s ∧ List.Perm (Piece.comments ps) cs ∧ a.Fits isOpen ps

theorem written_code (h : a.Spares s) : a.Written isOpen s [] := by
  refine ⟨[.code s], String.append_empty, .nil, ?_⟩
  cases a with
  | total _ => trivial
  | free g =>
    intro s' hs'
    cases List.mem_singleton.mp hs'
    exact h
  | tidy => exact fun _ _ => trivial

theorem written_comment {c : Tree} (h : a = .tidy → c.isType "Line" → isOpen) :
    a.Written isOpen (Comment.text c) [c] := by
  refine ⟨[.comment c], String.append_empty, .refl _, ?_⟩
  cases a with
  | total _ => trivial
  | free g => exact fun s hs => by cases List.mem_singleton.mp hs
  | tidy => exact fun behind hbehind => ⟨fun hline => by simpa [Piece.join] using hbehind (h rfl hline), trivial⟩

namespace Written

theorem opened (h : a.Written false s cs) : a.Written isOpen s cs := by
  obtain ⟨ps, hs, hcs, hps⟩ := h
  refine ⟨ps, hs, hcs, ?_⟩
  cases a with
  | total _ => trivial
  | free g => exact hps
  | tidy => exact fun behind _ => hps behind Bool.noConfusion

/-- Only the tidy aim looks at what follows a text. -/
theorem closed (h : a.Written true s cs) (ha : a ≠ .tidy) : a.Written isOpen s cs := by
  cases a with
  | tidy => exact absurd rfl ha
  | _ => exact h

theorem perm (h : a.Written isOpen s cs) (hperm : List.Perm cs ds) : a.Written isOpen s ds := by
  obtain ⟨ps, hs, hcs, hps⟩ := h
  exact ⟨ps, hs, hcs.trans hperm, hps⟩

theorem append (h : a.Written false s cs) (h' : a.Written isOpen s' ds) :
    a.Written isOpen (s ++ s') (cs ++ ds) := by
  obtain ⟨ps, rfl, hcs, hps⟩ := h
  obtain ⟨qs, rfl, hds, hqs⟩ := h'
  refine ⟨ps ++ qs, Piece.join_append, ?_, hps.append hqs Bool.noConfusion⟩
  rw [Piece.comments_append]
  exact hcs.append hds

/-- A text on the line behind another. -/
theorem line (h : a.Written true s cs) (h' : a.Written isOpen s' ds) :
    a.Written isOpen (s ++ "\n" ++ s') (cs ++ ds) := by
  obtain ⟨ps, rfl, hcs, hps⟩ := h
  obtain ⟨qs, hjoin, hds, hqs⟩ : a.Written isOpen ("\n" ++ s') ([] ++ ds) :=
    (written_code (spares_of_isAscii rfl)).append h'
  refine ⟨ps ++ qs, ?_, ?_, hps.append hqs fun _ => ?_⟩
  · rw [Piece.join_append, hjoin, String.append_assoc]
  · rw [Piece.comments_append]
    exact hcs.append hds
  · rw [hjoin, String.toList_append]
    rfl

end Written

/-! ## Lines -/

/-- Lines are made of pieces, with these comments among them. -/
inductive Lined (a : Aim) : Bool → List String → List Tree → Prop
  | nil {isOpen : Bool} : Lined a isOpen [] []
  | add {isOpen : Bool} {lines : List String} {s : String} {cs ds es : List Tree} (h : Lined a true lines cs)
      (hs : a.Written isOpen s ds) (hperm : List.Perm (cs ++ ds) es) : Lined a isOpen (lines ++ [s]) es

variable {lines : List String}

theorem joinWith_concat (separator : String) (hlines : lines ≠ []) :
    joinWith separator (lines ++ [s]) = joinWith separator lines ++ separator ++ s := by
  induction lines with
  | nil => exact absurd rfl hlines
  | cons line rest ih =>
    cases rest with
    | nil => rfl
    | cons next more =>
      show line ++ separator ++ joinWith separator (next :: more ++ [s]) = _
      rw [ih (List.cons_ne_nil _ _)]
      simp [joinWith, String.append_assoc]

namespace Lined

/-- Lines are a text. -/
theorem written (h : a.Lined isOpen lines cs) : a.Written isOpen (joinWith "\n" lines) cs := by
  induction h with
  | nil => exact written_code (spares_of_isAscii rfl)
  | @add isOpen lines s cs ds es h hs hperm ih =>
    cases h with
    | nil => exact hs.perm hperm
    | add h hs' =>
      rw [joinWith_concat "\n" (by simp)]
      exact (ih.line hs).perm hperm

theorem blankLines {l : Lines} (h : a.Lined true l.lines cs) (source : List Char) (start : Option Int) :
    a.Lined true (l.blankLines source start).lines cs := by
  have hblank : ∀ n, a.Lined true (l.lines ++ List.replicate n "") cs := by
    intro n
    induction n with
    | zero => simpa using h
    | succ n ih =>
      rw [List.replicate_succ', ← List.append_assoc]
      exact .add ih (written_code (spares_of_isAscii rfl)) (.of_eq (List.append_nil _))
  unfold Lines.blankLines
  split
  · split
    · exact h
    · exact hblank _
  · exact h

theorem addComments {indent : String} (hindent : a.Spares indent) (source : List Char) {l : Lines}
    (h : a.Lined true l.lines cs) (ds : List Tree) :
    a.Lined true (l.addComments source indent ds).lines (cs ++ ds) := by
  induction ds generalizing l cs with
  | nil => simpa [Lines.addComments] using h
  | cons d ds ih =>
    have hline : a.Written true (indent ++ Comment.text d) [d] :=
      (written_code hindent).append (written_comment fun _ _ => rfl)
    have hlines := ih (l := ⟨_, Comment.end? d⟩)
      (.add (h.blankLines source (Comment.start? d)) hline (.refl _))
    rwa [List.append_assoc] at hlines

end Lined

/-! ## Taking comments -/

/-- The comments of a queue stand behind one another in the source text and start in its lines, and a line
comment ends a line. -/
structure InOrder (source : List Char) (pending : List Tree) : Prop where
  apart : pending.Pairwise fun c d => ∀ s ∈ Comment.start? d, ∃ p ∈ c.range?, p.2 ≤ s
  start : ∀ c ∈ pending, ∀ s ∈ Comment.start? c, 0 ≤ s ∧ ∃ x ∈ source[s.toNat]?, x ≠ '\n'
  line : ∀ c ∈ pending, c.isType "Line" → ∀ p ∈ c.range?, p.1 < p.2 ∧ ∀ x ∈ source[p.2.toNat]?, x = '\n'

/-- Between an offset and the next comments, a line ends. -/
def Blocked (q : CommentQueue) (offset : Int) : Prop :=
  ∀ c ∈ q.pending, ∀ s ∈ Comment.start? c, '\n' ∈ slice q.source offset s

variable {q : CommentQueue} {rest : List Tree}

theorem Blocked.not_trails {offset : Int} {c : Tree} (h : Blocked q offset) (hc : c ∈ q.pending) :
    q.trails offset c = false := by
  unfold CommentQueue.trails
  split
  · rfl
  · rename_i s hs
    rw [List.contains_iff_mem.mpr (h c hc s hs), Bool.not_true, Bool.and_false, Bool.false_and]

theorem start?_of_range? {t : Tree} {p : Int × Int} (h : t.range? = some p) : t.start? = some p.1 := by
  unfold Tree.range? at h
  split at h
  · rename_i hrange
    cases h
    rw [Tree.start?, hrange]
  · cases h

/-- Behind a line comment that trails code, the line ends. -/
theorem InOrder.blocked {c : Tree} (h : InOrder q.source (c :: rest)) (hline : c.isType "Line")
    {stop e : Int} (htrails : q.trails stop c) (hpos : 0 ≤ e) (hle : e ≤ stop) :
    Blocked { q with pending := rest } e := by
  intro d hd s hs
  obtain ⟨p, hp, hps⟩ := (List.pairwise_cons.mp h.apart).1 d hd s hs
  obtain ⟨hlt, hbreak⟩ := h.line c List.mem_cons_self hline p hp
  obtain ⟨-, x, hx, hne⟩ := h.start d (List.mem_cons_of_mem _ hd) s hs
  have hstart : stop ≤ p.1 := by
    rw [CommentQueue.trails, Comment.start?, start?_of_range? hp] at htrails
    simp only [Bool.and_eq_true, decide_eq_true_eq] at htrails
    exact htrails.1.1
  -- The comment ends at a line break before the next one.
  obtain ⟨hlength, -⟩ := List.getElem?_eq_some_iff.mp hx
  have hend : q.source[p.2.toNat]? = some '\n' := by
    have hsome := List.getElem?_eq_getElem (l := q.source) (i := p.2.toNat) (by omega)
    rw [hsome, hbreak _ hsome]
  have hne : p.2 ≠ s := by
    rintro rfl
    rw [hend] at hx
    cases hx
    exact hne rfl
  exact (mem_slice hpos (by omega)).mpr ⟨p.2.toNat, by omega, by omega, hend⟩

/-- What is known of the queue. -/
def Placed (a : Aim) (q : CommentQueue) : Prop := a = .tidy → InOrder q.source q.pending

theorem Placed.drop (h : a.Placed q) (hsplit : q.pending = cs ++ rest) :
    a.Placed { q with pending := rest } := by
  intro htidy
  have hsub : List.Sublist rest q.pending := hsplit ▸ List.sublist_append_right cs rest
  obtain ⟨hapart, hstart, hline⟩ := h htidy
  exact ⟨hapart.sublist hsub, fun c hc => hstart c (hsub.subset hc), fun c hc => hline c (hsub.subset hc)⟩

/-! ## Setting -/

section

variable {α β : Type} {x : Setting α} {P Q : α → List Tree → CommentQueue → Prop}

/-- What is shown of the result of a step, of the comments that it takes, and of the rest of the queue. -/
def Sets (a : Aim) (q : CommentQueue) (x : Setting α) (P : α → List Tree → CommentQueue → Prop) : Prop :=
  a.Placed q → ∃ cs, q.pending = cs ++ (x.run q).2.pending ∧ a.Placed (x.run q).2 ∧
    P (x.run q).1 cs (x.run q).2

namespace Sets

theorem pure {v : α} (h : P v [] q) : a.Sets q (Pure.pure v) P := fun hq => ⟨[], rfl, hq, h⟩

theorem bind {f : α → Setting β} {R : β → List Tree → CommentQueue → Prop} (hx : a.Sets q x P)
    (hf : ∀ v cs q', P v cs q' → a.Sets q' (f v) fun w ds q'' => R w (cs ++ ds) q'') :
    a.Sets q (x >>= f) R := by
  intro hq
  obtain ⟨cs, hcs, hq', hv⟩ := hx hq
  obtain ⟨ds, hds, hq'', hw⟩ := hf _ cs _ hv hq'
  refine ⟨cs ++ ds, ?_, hq'', hw⟩
  rw [hcs, hds, List.append_assoc]
  rfl

/-- Looking at the queue takes nothing. -/
theorem get {f : CommentQueue → Setting α} (h : a.Sets q (f q) P) : a.Sets q (MonadState.get >>= f) P := h

theorem imp (h : a.Sets q x P) (himp : ∀ v cs q', P v cs q' → Q v cs q') : a.Sets q x Q := by
  intro hq
  obtain ⟨cs, hcs, hq', hv⟩ := h hq
  exact ⟨cs, hcs, hq', himp _ _ _ hv⟩

end Sets

end

/-- What is written is closed; or it can end with a line comment, and the queue is blocked. -/
def Ends (a : Aim) (isBlocked : Prop) (W : Bool → Prop) : Prop := W false ∨ a = .tidy ∧ W true ∧ isBlocked

theorem Ends.imp {p r : Prop} {W V : Bool → Prop} (h : a.Ends p W) (hp : a = .tidy → p → r)
    (hW : ∀ {isOpen}, W isOpen → V isOpen) : a.Ends r V :=
  Or.imp hW (fun h => ⟨h.1, hW h.2.1, hp h.1 h.2.2⟩) h

/-- Code that ends no later than an offset does not share a line with the next comments. -/
def Stopped (q : CommentQueue) (stop : Int) : Prop := ∀ e, 0 ≤ e → e ≤ stop → Blocked q e

theorem sets_takeBefore (offset : Int) : a.Sets q (takeBefore offset) fun comments cs q' =>
    cs = comments ∧ ∀ e, Blocked q e → Blocked q' e := by
  intro hq
  have hsplit : q.pending = q.pending.takeWhile (Comment.isBefore offset) ++
    q.pending.dropWhile (Comment.isBefore offset) := List.takeWhile_append_dropWhile.symm
  exact ⟨_, hsplit, hq.drop hsplit, rfl, fun e h c hc => h c ((List.dropWhile_sublist _).subset hc)⟩

theorem sets_takeRest : a.Sets q takeRest fun comments cs _ => cs = comments := by
  intro hq
  have hsplit : q.pending = q.pending ++ [] := (List.append_nil _).symm
  exact ⟨_, hsplit, hq.drop hsplit, rfl⟩

/-- A comment that trails code is written behind it. -/
theorem sets_takeTrailing (offset : Int) : a.Sets q (takeTrailing offset) fun c? cs q' =>
    cs = c?.toList ∧ ∀ c ∈ c?, ¬ Blocked q offset ∧ a.Ends (Stopped q' offset) fun isOpen =>
      a.Written isOpen (Comment.text c) [c] := by
  intro hq
  have hrun : (takeTrailing offset).run q = q.takeTrailing offset := rfl
  rw [hrun, CommentQueue.takeTrailing]
  split
  · exact ⟨[], rfl, hq, rfl, by simp⟩
  · rename_i c rest hpending
    have hsplit : q.pending = [c] ++ rest := hpending
    split
    · rename_i htrails
      refine ⟨[c], hsplit, hq.drop hsplit, rfl, ?_⟩
      intro d hd
      cases hd
      refine ⟨fun hblocked => ?_, ?_⟩
      · rw [hblocked.not_trails (hpending ▸ List.mem_cons_self)] at htrails
        cases htrails
      by_cases hline : a = .tidy ∧ c.isType "Line"
      · have horder := hq hline.1
        rw [hpending] at horder
        exact .inr ⟨hline.1, written_comment fun _ _ => rfl, fun e hpos hle =>
          horder.blocked hline.2 htrails hpos hle⟩
      · exact .inl (written_comment fun htidy htype => absurd ⟨htidy, htype⟩ hline)
    · exact ⟨[], rfl, hq, rfl, by simp⟩

section

variable {indent : String} (hindent : a.Spares indent) {l : Lines}

include hindent

theorem sets_leadIn (start : Int) (hl : a.Lined true l.lines cs) :
    a.Sets q (leadIn indent start l) fun l' ds _ => a.Lined true l'.lines (cs ++ ds) := by
  refine (sets_takeBefore start).bind ?_
  rintro _ comments q' ⟨rfl, -⟩
  refine .get (.pure ?_)
  rw [List.append_nil]
  exact (hl.addComments hindent _ comments).blankLines _ _

/-- The line of a statement ends with its text, or with a comment that trails it. -/
theorem sets_leadOut {stop : Int} (hl : a.Lined true l.lines cs)
    (hs : a.Ends (Blocked q stop) fun isOpen => a.Written isOpen s ds) :
    a.Sets q (leadOut indent s stop l) fun l' es q' => a.Lined true l'.lines (cs ++ (ds ++ es)) ∧
      (a.Written false s ds → a.Ends (Stopped q' stop) fun isOpen =>
        a.Lined isOpen l'.lines (cs ++ (ds ++ es))) := by
  refine (sets_takeBefore stop).bind ?_
  rintro _ inner q' ⟨rfl, hblocked⟩
  refine .get ((sets_takeTrailing stop).bind ?_)
  have hinner := Lined.addComments hindent q'.source (l := ⟨l.lines, none⟩) hl inner
  rintro trailing _ q'' ⟨rfl, htrailing⟩
  cases trailing with
  | none =>
    have hline : ∀ {isOpen}, a.Written isOpen s ds → a.Lined isOpen _ (cs ++ (ds ++ (inner ++ []))) := fun h =>
      .add hinner ((written_code hindent).append h) (by simpa using List.perm_append_comm.append_left cs)
    refine .pure ⟨?_, fun hclosed => .inl (hline hclosed)⟩
    exact hs.elim (fun h => hline h.opened) fun h => hline h.2.1
  | some c =>
    obtain ⟨hnot, hc⟩ := htrailing c rfl
    have hclosed : a.Written false s ds := hs.resolve_right fun h => hnot (hblocked _ h.2.2)
    have hcode : a.Written false (indent ++ s ++ " ") (ds ++ []) :=
      ((written_code hindent).append hclosed).append (written_code (spares_of_isAscii rfl))
    have hline : ∀ {isOpen}, a.Written isOpen (Comment.text c) [c] →
        a.Lined isOpen _ (cs ++ (ds ++ (inner ++ [c]))) := fun h =>
      .add hinner (hcode.append h) (by simpa using (List.perm_append_comm_assoc inner ds [c]).append_left cs)
    refine .pure ⟨?_, fun _ => hc.imp (fun _ => id) hline⟩
    exact hc.elim (fun h => hline h.opened) fun h => hline h.2.1

theorem sets_closeList (close : Close) (hl : a.Lined true l.lines cs) :
    a.Sets q (closeList indent close l) fun lines ds _ => a.Lined true lines (cs ++ ds) := by
  -- Whichever comments the end takes, they become lines.
  have hlines : ∀ comments q', a.Sets q' (do
      let q ← get
      return (l.addComments q.source indent comments).lines) fun lines ds _ =>
        a.Lined true lines (cs ++ (comments ++ ds)) := by
    intro comments q'
    refine .get (.pure ?_)
    rw [List.append_nil]
    exact hl.addComments hindent _ comments
  cases close with
  | nothing => exact hlines [] q
  | before offset =>
    refine (sets_takeBefore offset).bind ?_
    rintro _ comments q' ⟨rfl, -⟩
    exact hlines comments q'
  | rest =>
    refine sets_takeRest.bind ?_
    rintro _ comments q' rfl
    exact hlines comments q'

theorem written_braced (hl : a.Lined true lines cs) :
    a.Written false (Frame.braced.put indent lines) cs := by
  have hopening : a.Spares "\x7b\n" := spares_of_isAscii rfl
  have hclosing : a.Written false (indent ++ "\x7d") [] :=
    written_code (spares_append.mpr ⟨hindent, spares_of_isAscii rfl⟩)
  cases hl with
  | nil => exact (written_code hopening).append hclosing
  | add h hs hperm =>
    have htext := ((written_code hopening).append (Lined.add h hs hperm).written).line hclosing
    rw [List.append_nil, ← String.append_assoc] at htext
    simpa [Frame.put] using htext

end

theorem written_below (hl : a.Lined isOpen lines cs) (indent : String) :
    a.Written isOpen (Frame.below.put indent lines) cs := by
  cases hl with
  | nil => exact written_code (spares_of_isAscii rfl)
  | add h hs hperm =>
    have hbreak : a.Written false "\n" [] := written_code (spares_of_isAscii rfl)
    simpa [Frame.put] using hbreak.append (Lined.add h hs hperm).written

/-! ## Layouts -/

section

variable {unit : String} {level : Nat} {items : List (Option (Int × Int) × Layout)} (hunit : a.Spares unit)

include hunit

theorem spares_indentation : ∀ level, a.Spares (indentation unit level)
  | 0 => spares_of_isAscii rfl
  | level + 1 => spares_append.mpr ⟨hunit, spares_indentation level⟩

omit hunit in
theorem sets_renderAll {parts : List Layout}
    (h : ∀ l ∈ parts, ∀ q, a.Sets q (render unit level l) fun s cs _ => a.Written false s cs) :
    ∀ q, a.Sets q (renderAll unit level parts) fun s cs _ => a.Written false s cs := by
  induction parts with
  | nil => exact fun q => .pure (written_code (spares_of_isAscii rfl))
  | cons part rest ih =>
    rw [List.forall_mem_cons] at h
    intro q
    refine (h.1 q).bind fun s cs q' hs => (ih h.2 q').bind fun more ds q'' hmore => .pure ?_
    rw [List.append_nil]
    exact hs.append hmore

/-- **The statements of a list become lines.** If their texts are closed, then only a comment behind the last
of them can be open. -/
theorem sets_renderItems (areClosed : Prop)
    (h : ∀ item ∈ items, ∀ q, a.Sets q (render unit level item.2) fun s cs q' =>
      (a.Ends (∀ p ∈ item.1, Blocked q' p.2) fun isOpen => a.Written isOpen s cs) ∧
      (areClosed → a.Written false s cs)) (last : Option (Int × Int)) (l : Lines) (cs : List Tree) (q : CommentQueue)
    (hl : a.Lined true l.lines cs)
    (hlast : areClosed → a.Ends (∃ p ∈ last, Stopped q p.2) fun isOpen => a.Lined isOpen l.lines cs) :
    a.Sets q (renderItems unit level l items) fun l' ds q' => a.Lined true l'.lines (cs ++ ds) ∧
      (areClosed → a.Ends (∃ p ∈ (items.map (·.1)).getLast?.getD last, Stopped q' p.2)
        fun isOpen => a.Lined isOpen l'.lines (cs ++ ds)) := by
  have hindent := spares_indentation hunit level
  induction items generalizing last l cs q with
  | nil =>
    refine .pure ?_
    rw [List.append_nil]
    exact ⟨hl, hlast⟩
  | cons item rest ih =>
    rw [List.forall_mem_cons] at h
    obtain ⟨place, part⟩ := item
    simp only [List.map_cons, List.getLast?_cons, Option.getD_some]
    cases place with
    | none =>
      refine (h.1 q).bind fun s ds q' hs => ?_
      have hline : ∀ {isOpen}, a.Written isOpen s ds → a.Lined isOpen _ (cs ++ ds) := fun hs =>
        .add hl ((written_code hindent).append hs) (.refl _)
      simp only [← List.append_assoc]
      refine ih h.2 none (l.add _ none) _ q' ?_ fun hclosed => .inl (hline (hs.2 hclosed))
      exact hs.1.elim (fun h => hline h.opened) fun h => hline h.2.1
    | some p =>
      obtain ⟨start, stop⟩ := p
      refine (sets_leadIn hindent start hl).bind fun l ds q' hl => ?_
      refine (h.1 q').bind fun s es q'' hs => ?_
      refine (sets_leadOut hindent hl (hs.1.imp (fun _ h => h _ rfl) id)).bind fun l fs q₃ hl => ?_
      simp only [← List.append_assoc] at hl ⊢
      refine ih h.2 (some (start, stop)) l _ q₃ hl.1 fun hclosed => ?_
      exact (hl.2 (hs.2 hclosed)).imp (fun _ h => ⟨_, rfl, h⟩) id

/-- What is shown of statements, by their places. -/
def SetsItem (a : Aim) (unit : String) (level : Nat) (place : Option (Int × Int)) (l : Layout) : Prop :=
  ∀ q, a.Sets q (render unit level l) fun s cs q' =>
    a.Ends (∀ p ∈ place, Blocked q' p.2) fun isOpen => a.Written isOpen s cs

theorem sets_lines (frame : Frame)
    (h : ∀ item ∈ items, a.SetsItem unit (frame.inner level) item.1 item.2) (close : Close) (q : CommentQueue) :
    a.Sets q (render unit level (.lines frame items close)) fun s cs _ =>
      ∃ lines, s = frame.put (indentation unit level) lines ∧ a.Lined true lines cs := by
  have hitems := sets_renderItems hunit False (fun item hitem q => (h item hitem q).imp
    fun s cs q' hs => ⟨hs, False.elim⟩) none {} [] q .nil False.elim
  rw [render]
  refine hitems.bind fun l cs q' hl => ?_
  refine (sets_closeList (spares_indentation hunit _) close hl.1).bind fun lines ds q'' hlines => .pure ?_
  rw [List.append_nil]
  exact ⟨lines, rfl, hlines⟩

/-- The statements of a case: only a comment behind the last of them can be open. -/
theorem sets_case {place : Option (Int × Int)}
    (h : ∀ item ∈ items, ∀ q, a.Sets q (render unit (level + 1) item.2) fun s cs _ => a.Written false s cs)
    (hplace : a = .tidy → EndsInTime place (items.map (·.1))) :
    a.SetsItem unit level place (.lines .below items .nothing) := by
  intro q
  have hitems := sets_renderItems hunit True (fun item hitem q => (h item hitem q).imp
    fun s cs q' hs => ⟨.inl hs, fun _ => hs⟩) none {} [] q .nil fun _ => .inl .nil
  rw [render]
  refine hitems.bind fun l cs q' hl => ?_
  show a.Sets q' (pure (Frame.below.put (indentation unit level) l.lines)) _
  refine .pure ?_
  rw [List.append_nil]
  refine (hl.2 trivial).imp ?_ fun hl => written_below hl _
  rintro htidy ⟨r, hr, hstopped⟩ p hp
  obtain ⟨hpos, hle⟩ := hplace htidy p hp
  cases hlast : (items.map (·.1)).getLast? with
  | none =>
    rw [hlast] at hr
    cases hr
  | some last =>
    rw [hlast] at hr
    exact hstopped p.2 hpos (hle last hlast r hr)

mutual

/-- **A layout is set from pieces**: its own code, and the comments that leave the queue. -/
theorem sets_render (ha : a.MayFail) : ∀ {l : Layout}, a.Passes l → ∀ (level : Nat) (q : CommentQueue),
    a.Sets q (render unit level l) fun s cs _ => a.Written false s cs
  | _, .text h, _, _ => .pure (written_code h)
  | _, .cat h, level, q => sets_renderAll (fun l hl => sets_render ha (h l hl) level) q
  | _, .newline, level, _ =>
    .pure (written_code (spares_append.mpr ⟨spares_of_isAscii rfl, spares_indentation hunit level⟩))
  | _, .nest h, level, q => sets_render ha h (level + 1) q
  | _, .wrapIf h hl, level, q => by
    refine (sets_render ha hl level q).bind fun s cs q' hs => .pure ?_
    rw [List.append_nil]
    split
    · have htext : a.Written false _ ([] ++ cs ++ []) := ((written_code h.1).append hs).append (written_code h.2)
      rwa [List.nil_append, List.append_nil] at htext
    · exact hs
  | _, .behind h h', level, q => by
    refine (sets_render ha h' level q).bind fun s cs q' hs => ?_
    refine (sets_render ha h level q').bind fun s' ds q'' hs' => .pure ?_
    rw [List.append_nil]
    exact (hs'.append hs).perm List.perm_append_comm
  | _, .silent h, level, q => by
    -- A part that is not written is a text, so it takes no comments.
    obtain ⟨s, rfl⟩ := h ha
    exact .pure (written_code (spares_of_isAscii rfl))
  | _, .lines hframe h, level, q => by
    refine (sets_lines hunit _ (fun item hitem => sets_renderItem ha (h item hitem) _) _ q).imp ?_
    rintro _ cs q' ⟨lines, rfl, hlines⟩
    rename_i frame _ _
    by_cases htidy : a = .tidy
    · rw [hframe htidy]
      exact written_braced (spares_indentation hunit level) hlines
    · cases frame with
      | plain => exact hlines.written.closed htidy
      | below => exact (written_below hlines _).closed htidy
      | braced => exact written_braced (spares_indentation hunit level) hlines

theorem sets_renderItem (ha : a.MayFail) : ∀ {place : Option (Int × Int)} {l : Layout}, a.PassesItem place l →
    ∀ level : Nat, a.SetsItem unit level place l
  | _, _, .plain h, level => fun q => (sets_render ha h level q).imp fun s cs _ hs => .inl hs
  | _, _, @PassesItem.case _ place label items hlabel h hplace, level => by
    intro q
    refine (sets_render ha hlabel level q).bind fun s cs q' hs => ?_
    show a.Sets q' (render unit level (.lines .below items .nothing) >>= fun s' => pure (s ++ (s' ++ ""))) _
    refine (sets_case hunit (fun item hitem => sets_render ha (h item hitem) _) hplace q').bind
      fun s' ds q'' hs' => .pure ?_
    rw [List.append_nil, String.append_empty]
    exact hs'.imp (fun _ => id) hs.append

end

end

end Aim

/-! ## Programs -/

variable {t : Tree} {q : CommentQueue} {unit text : String}

theorem pending_render_rest (unit : String) (items : List (Option (Int × Int) × Layout)) (q : CommentQueue) :
    ((render unit 0 (.lines .plain items .rest)).run q).2.pending = [] := by
  rw [render]
  rfl

theorem exists_layout (hprogram : t.isType "Program") (h : generate t q unit = .ok text) :
    ∃ parts, (layoutItems .stmt (t.children "body")).mapM id = .ok parts ∧ ((render unit 0
      (.lines .plain (((t.children "body").map Tree.range?).zip parts) .rest)).run q).1 = text := by
  rw [generate, programLayout_eq hprogram] at h
  cases hparts : (layoutItems .stmt (t.children "body")).mapM id with
  | error e =>
    rw [hparts] at h
    cases h
  | ok parts =>
    rw [hparts] at h
    cases h
    exact ⟨parts, rfl, rfl⟩

/-- **The text of a program is made of its code and of all comments.** -/
theorem written_generate {a : Aim} (ha : a.MayFail) (hprogram : t.isType "Program")
    (hnodes : ∀ c ∈ t.children "body", a.Node Emit.statementTypes c) (hkeys : t.Everywhere HasNamedShorthand)
    (hunit : a.Spares unit) (hq : a.Placed q) (h : generate t q unit = .ok text) :
    a.Written true text q.pending := by
  obtain ⟨parts, hparts, rfl⟩ := exists_layout hprogram h
  have hgives := gives_program hnodes fun _ => hkeys
  rw [hparts] at hgives
  obtain ⟨cs, hcs, -, lines, htext, hlines⟩ := Aim.sets_lines hunit .plain (fun item hitem =>
    Aim.sets_renderItem hunit ha (forall_mem_zip hgives item hitem) 0) .rest q hq
  rw [pending_render_rest, List.append_nil] at hcs
  rw [hcs, htext]
  exact hlines.written

end Downlevel.Emit
