import Downlevel.Proofs.Emit.Pieces

/-!
# `Proofs.Emit.Once`: every comment is written once

The text of a program is made of its code and of all comments. So a glyph that the program itself does not
hold stands in the text as often as in the comments. The list of a whole program takes all comments that
are left, so nothing stays behind.
-/

namespace Downlevel

/-- How often the glyph stands in the text. -/
def Glyph.countIn (g : Glyph) (s : String) : Nat := s.toList.count g.char

namespace Glyph

variable {g : Glyph}

theorem countIn_append (s t : String) : g.countIn (s ++ t) = g.countIn s + g.countIn t := by
  rw [countIn, String.toList_append, List.count_append]
  rfl

theorem countIn_eq_zero {s : String} (h : g.Lacks s) : g.countIn s = 0 := List.count_eq_zero_of_not_mem h

theorem countIn_ascii {s : String} (h : isAscii s) : g.countIn s = 0 :=
  countIn_eq_zero (lacks_of_isAscii h)

end Glyph

namespace Emit

open Tree

/-- What a comment says. -/
def Comment.value (comment : Tree) : String := ((comment.get? "value").map Tree.plain).getD ""

section

variable {g : Glyph}

/-- How often the glyph stands in comments. -/
def weight (g : Glyph) (comments : List Tree) : Nat :=
  (comments.map fun c => g.countIn (Comment.text c)).sum

theorem weight_append (cs ds : List Tree) : weight g (cs ++ ds) = weight g cs + weight g ds := by
  rw [weight, List.map_append, List.sum_append]
  rfl

theorem weight_cons (c : Tree) (cs : List Tree) :
    weight g (c :: cs) = g.countIn (Comment.text c) + weight g cs := rfl

theorem weight_perm {cs ds : List Tree} (h : List.Perm cs ds) : weight g cs = weight g ds :=
  List.Perm.sum_nat (h.map _)

/-- The glyph stands in the comments of a text only. -/
theorem countIn_join {ps : List Piece} (h : (Aim.free g).Fits true ps) :
    g.countIn (Piece.join ps) = weight g (Piece.comments ps) := by
  induction ps with
  | nil => exact Glyph.countIn_ascii rfl
  | cons p ps ih =>
    have hrest := ih fun s hs => h s (List.mem_cons_of_mem _ hs)
    rw [Piece.join, Glyph.countIn_append, hrest]
    cases p with
    | code s => rw [Piece.text, Glyph.countIn_eq_zero (h s List.mem_cons_self), Nat.zero_add, Piece.comments]
    | comment c => rw [Piece.text, Piece.comments, weight_cons]

/-- A comment is written as what it says between signs. -/
theorem countIn_text (comment : Tree) :
    g.countIn (Comment.text comment) = g.countIn (Comment.value comment) := by
  show g.countIn (if _ then "//" ++ Comment.value comment
    else "/*" ++ Comment.value comment ++ "*/") = _
  split
  · rw [Glyph.countIn_append, Glyph.countIn_ascii (s := "//") rfl, Nat.zero_add]
  · rw [Glyph.countIn_append, Glyph.countIn_append, Glyph.countIn_ascii (s := "/*") rfl,
      Glyph.countIn_ascii (s := "*/") rfl, Nat.zero_add, Nat.add_zero]

theorem weight_eq_zero {comments : List Tree} (h : ∀ c ∈ comments, g.Lacks (Comment.value c)) :
    weight g comments = 0 := by
  refine List.sum_eq_zero fun n hn => ?_
  obtain ⟨c, hc, rfl⟩ := List.mem_map.mp hn
  rw [countIn_text, Glyph.countIn_eq_zero (h c hc)]

end

/-- **Every comment of a program is written exactly once.** A glyph that one comment says once, that no
other comment says, and that neither the program nor the unit of indentation holds, stands once in the
text; and no comment is left over. -/
theorem generate_writes_comments_once {t : Tree} (hprogram : t.isType "Program" = true)
    (hkeys : t.Everywhere HasNamedShorthand) {comments tokens : List Tree}
    {source unit text : String}
    (h : generate t (.ofTables comments tokens source) unit = .ok text) :
    (∃ l q, programLayout t = .ok l ∧
      (render unit 0 l).run (.ofTables comments tokens source) = (text, q) ∧ q.pending = []) ∧
    ∀ (g : Glyph) (before after : List Tree) (comment : Tree),
      comments = before ++ comment :: after → g.countIn (Comment.value comment) = 1 →
      (∀ c ∈ before ++ after, g.Lacks (Comment.value c)) → t.IsFree g → g.Lacks unit →
      g.countIn text = 1 := by
  refine ⟨?_, ?_⟩
  · obtain ⟨parts, hparts, htext⟩ := exists_layout hprogram h
    have hl := programLayout_eq hprogram
    rw [hparts] at hl
    exact ⟨_, _, hl, Prod.ext htext rfl, pending_render_rest unit _ _⟩
  · intro g before after comment hcomments honce hothers hfree hunit
    obtain ⟨ps, rfl, hperm, hfits⟩ := written_generate (a := .free g) trivial hprogram
      (isFree_items (isFree_get hfree "body")) hkeys hunit (fun hno => Aim.noConfusion hno) h
    have hbefore := weight_eq_zero fun c hc => hothers c (List.mem_append_left _ hc)
    have hafter := weight_eq_zero fun c hc => hothers c (List.mem_append_right _ hc)
    rw [countIn_join hfits, weight_perm (hperm.trans (List.mergeSort_perm _ _)), hcomments, weight_append,
      weight_cons, hbefore, hafter, countIn_text, honce]

/-- `do { f({ a }) } while (b)`, where the condition is set before the block. -/
def shorthandLoop : Tree :=
  let name (s : String) : Tree := Node.identifier s
  let shorthand := (Node.property (name "a") (name "a")).set "shorthand" (.bool true)
  let call := Node.call (name "f") [Node.objectExpression [shorthand]]
  let inner := (Node.expressionStatement call).set "range" (.list [.int 5, .int 13])
  let body := (Node.block [inner]).set "range" (.list [.int 3, .int 40])
  Node.make "Program" [("body", .list [Node.make "DoWhileStatement"
    [("body", body), ("test", name "b"), ("range", .list [.int 0, .int 60])]])]

/-- Comments without a place, in the block and in the condition. -/
def loopComments : List Tree :=
  [Node.make "Block" [("value", .str "last")],
   Node.make "Line" [("value", .str "caf\u00e9"), ("range", .list [.int 20, .int 27])],
   Node.make "Block" [("value", .str "b"), ("range", .list [.int 50, .int 55])]]

theorem generate_writes_comments_once_loop :
    ∃ text, generate shorthandLoop (.ofTables loopComments [] "") "  " = .ok text ∧
      text.toList.count '\u00e9' = 1 := by
  let g : Glyph := ⟨'\u00e9', by decide⟩
  have hkeys : shorthandLoop.Everywhere HasNamedShorthand := by
    simp only [shorthandLoop]
    repeat' constructor
    all_goals
      unfold HasNamedShorthand
      decide
  have hfree : shorthandLoop.IsFree g := by
    simp only [shorthandLoop]
    repeat' constructor
    all_goals exact Glyph.lacks_of_isAscii rfl
  have hothers : ∀ c ∈ [loopComments[0], loopComments[2]], g.Lacks (Comment.value c) := by
    unfold Glyph.Lacks
    decide
  refine ⟨_, rfl, ?_⟩
  exact (generate_writes_comments_once rfl hkeys rfl).2 g [_] [_] _ rfl (by decide) hothers hfree
    (Glyph.lacks_of_isAscii rfl)

end Emit
end Downlevel
