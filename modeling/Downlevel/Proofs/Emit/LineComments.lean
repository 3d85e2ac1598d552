import Downlevel.Proofs.Emit.Pieces
import Mathlib.Data.List.Infix

/-!
# `Proofs.Emit.LineComments`: a line comment swallows no code

Whatever stands behind a line comment on its line would become part of the comment. So in the text of a
program every line comment is followed by a line break, or by nothing.

This rests on the source text. The comments of a text do not overlap and none starts at a line break, and
a line comment ends where its line ends; a case of a switch ends no later than its last statement.
-/

namespace Downlevel.Emit

open Tree

/-- The text is made of code and of these comments, and every line comment ends its line. -/
def EndsLineComments (comments : List Tree) (text : String) : Prop :=
  ∃ ps, Piece.join ps = text ∧ List.Perm (Piece.comments ps) comments ∧ Piece.Clear "" ps

/-- What follows a line comment in the text. -/
theorem Piece.exists_behind {ps : List Piece} {c : Tree} (hclear : Clear "" ps) (hc : c ∈ comments ps)
    (hline : c.isType "Line") :
    ∃ before behind, join ps = before ++ (Comment.text c ++ behind) ∧ EndsLine behind := by
  induction ps with
  | nil => cases hc
  | cons p ps ih =>
    have hrest : Clear "" ps → c ∈ comments ps →
        ∃ before behind, join (p :: ps) = before ++ (Comment.text c ++ behind) ∧ EndsLine behind := by
      intro hclear hc
      obtain ⟨before, behind, hjoin, hends⟩ := ih hclear hc
      exact ⟨p.text ++ before, behind, by rw [join, hjoin, String.append_assoc], hends⟩
    cases p with
    | code s => exact hrest hclear hc
    | comment d =>
      rcases List.mem_cons.mp hc with rfl | hc
      · exact ⟨"", join ps, String.empty_append.symm, by simpa using hclear.1 hline⟩
      · exact hrest hclear.2 hc

/-- Comments with a place are parts of the source text that do not overlap; a line comment goes to the end of
its line. -/
structure AreParts (source : List Char) (comments : List Tree) : Prop where
  inside : ∀ c ∈ comments, c.start? = c.range?.map (·.1) ∧
    ∀ p ∈ c.range?, 0 ≤ p.1 ∧ p.1 < p.2 ∧ p.2 ≤ source.length
  apart : comments.Pairwise fun c d => ∀ p ∈ c.range?, ∀ r ∈ d.range?, p.2 ≤ r.1 ∨ r.2 ≤ p.1
  line : ∀ c ∈ comments, c.isType "Line" →
    ∀ p ∈ c.range?, p.2 = source.length ∨ source[p.2.toNat]? = some '\n'

/-- The queue has the comments in the order of the text. -/
theorem inOrder_ofTables {comments tokens : List Tree} {source : String} (h : AreParts source.toList comments)
    (hstart : ∀ c ∈ comments, ∀ s ∈ c.start?, source.toList[s.toNat]? ≠ some '\n') :
    Aim.InOrder (CommentQueue.ofTables comments tokens source).source
      (CommentQueue.ofTables comments tokens source).pending := by
  obtain ⟨hperm, hsorted, -⟩ := isStableSort_mergeSort comments
  have hapart := (hperm.pairwise_iff fun {c d} hcd p hp r hr => (hcd r hr p hp).symm).mpr h.apart
  have hplace : ∀ c ∈ comments.mergeSort Comment.startLe, ∀ s ∈ Comment.start? c,
      ∃ e, c.range? = some (s, e) ∧ 0 ≤ s ∧ s < e ∧ e ≤ source.toList.length := by
    intro c hc s hs
    obtain ⟨hrange, hinside⟩ := h.inside c (hperm.mem_iff.mp hc)
    obtain ⟨p, hp, rfl⟩ := Option.map_eq_some_iff.mp (hrange.symm.trans hs)
    exact ⟨p.2, hp, hinside p hp⟩
  refine ⟨(hsorted.and hapart).imp_of_mem ?_, fun c hc s hs => ?_, fun c hc hline p hp => ⟨?_, fun x hx => ?_⟩⟩
  · intro c d hc hd ⟨hle, hside⟩ s hs
    obtain ⟨e, hrange, -, hlt, -⟩ := hplace d hd s hs
    rw [Comment.startLe, hs] at hle
    cases hx : Comment.start? c with
    | none =>
      rw [hx] at hle
      cases hle
    | some x =>
      rw [hx] at hle
      obtain ⟨e', hrange', -⟩ := hplace c hc x hx
      have hside := hside _ hrange' _ hrange
      exact ⟨_, hrange', by simp at hle; omega⟩
  · obtain ⟨e, -, hpos, hlt, hle⟩ := hplace c hc s hs
    have hsome := List.getElem?_eq_getElem (l := source.toList) (i := s.toNat) (by omega)
    refine ⟨hpos, _, hsome, fun heq => hstart c (hperm.mem_iff.mp hc) s hs ?_⟩
    rw [hsome, heq]
  · exact ((h.inside c (hperm.mem_iff.mp hc)).2 p hp).2.1
  · rcases h.line c (hperm.mem_iff.mp hc) hline p hp with hend | hbreak
    · simp [hend, CommentQueue.ofTables] at hx
    · exact Option.some.inj (hx.symm.trans hbreak)

/-- **A line comment swallows no code**: in the text of a program, a line break or the end of the text follows
it, if its cases stand in switches and end in time, and no comment starts at a line break. -/
theorem generate_ends_line_comments {t : Tree} (hprogram : t.isType "Program")
    (hkeys : t.Everywhere HasNamedShorthand) (hcases : t.Everywhere KeepsCases) {comments tokens : List Tree}
    {source unit text : String} (hparts : AreParts source.toList comments)
    (hstart : ∀ c ∈ comments, ∀ s ∈ c.start?, source.toList[s.toNat]? ≠ some '\n')
    (h : generate t (.ofTables comments tokens source) unit = .ok text) : EndsLineComments comments text := by
  obtain ⟨ps, hjoin, hperm, hclear⟩ := written_generate (a := .tidy) trivial hprogram hcases.children hkeys
    trivial (fun _ => inOrder_ofTables hparts hstart) h
  exact ⟨ps, hjoin, hperm.trans (List.mergeSort_perm _ _), hclear "" fun _ => .inl rfl⟩

/-- `switch (a) { case 1: x; }`, as it stands in the text. -/
def oneCase : Tree :=
  let body := (Node.expressionStatement (Node.identifier "x")).set "range" (.list [.int 17, .int 19])
  let case := Node.make "SwitchCase" [("test", Node.literal (.int 1)), ("consequent", .list [body]),
    ("range", .list [.int 10, .int 19])]
  Node.make "Program" [("body", .list [Node.make "SwitchStatement"
    [("discriminant", Node.identifier "a"), ("cases", .list [case]), ("range", .list [.int 0, .int 29])]])]

def oneCaseText : String := "switch(a)\x7bcase 1:x;//c\n/*d*/\x7d"

/-- A line comment behind the statement, and a comment on the next line that starts at an offset. -/
def caseComments (offset : Int) : List Tree :=
  [Node.make "Line" [("value", .str "c"), ("range", .list [.int 19, .int 22])],
   Node.make "Block" [("value", .str "d"), ("range", .list [.int offset, .int 28])]]

theorem oneCase_keepsCases : oneCase.Everywhere KeepsCases := by
  simp only [oneCase]
  repeat' constructor
  all_goals
    try unfold EndsInTime
    decide

theorem oneCase_hasNamedShorthand : oneCase.Everywhere HasNamedShorthand := by
  simp only [oneCase]
  repeat' constructor
  all_goals
    unfold HasNamedShorthand
    decide

theorem generate_ends_line_comments_oneCase :
    ∃ text, generate oneCase (.ofTables (caseComments 23) [] oneCaseText) "  " = .ok text ∧
      EndsLineComments (caseComments 23) text := by
  obtain ⟨text, htext⟩ : ∃ text, generate oneCase (.ofTables (caseComments 23) [] oneCaseText) "  " = .ok text :=
    ⟨_, rfl⟩
  exact ⟨text, htext, generate_ends_line_comments rfl oneCase_hasNamedShorthand oneCase_keepsCases
    ⟨by decide, by decide, by decide⟩ (by decide) htext⟩

/-- A comment that starts at the line break behind a line comment trails the case, on the line of that
comment. -/
theorem line_comment_swallows : oneCase.Everywhere HasNamedShorthand ∧ oneCase.Everywhere KeepsCases ∧
    AreParts oneCaseText.toList (caseComments 22) ∧
    ∃ text, generate oneCase (.ofTables (caseComments 22) [] oneCaseText) "  " = .ok text ∧
      ¬ EndsLineComments (caseComments 22) text := by
  let text := "switch (a) \x7b\n  case 1:\n    x; //c /*d*/\n\x7d"
  have hqueue : CommentQueue.ofTables (caseComments 22) [] oneCaseText =
      ⟨caseComments 22, [], oneCaseText.toList⟩ := by
    have hsorted : (caseComments 22).mergeSort Comment.startLe = caseComments 22 :=
      List.mergeSort_of_pairwise (by decide)
    rw [CommentQueue.ofTables, hsorted, List.filterMap_nil, List.mergeSort_nil]
  have htails : ∀ cs ∈ text.toList.tails, cs ≠ "//c".toList ∧ cs.take 4 ≠ "//c\n".toList := by decide +kernel
  refine ⟨oneCase_hasNamedShorthand, oneCase_keepsCases, ⟨by decide, by decide, by decide⟩, text, ?_, ?_⟩
  · rw [hqueue]
    decide +kernel
  rintro ⟨ps, hjoin, hperm, hclear⟩
  obtain ⟨before, behind, htext, hends⟩ := Piece.exists_behind hclear (hperm.mem_iff.mpr List.mem_cons_self) rfl
  rw [hjoin] at htext
  have hmem : "//c".toList ++ behind.toList ∈ text.toList.tails := by
    refine (List.mem_tails _ _).mpr ⟨before.toList, ?_⟩
    rw [htext, String.toList_append, String.toList_append]
    rfl
  obtain ⟨hne, hbreak⟩ := htails _ hmem
  rcases hends with rfl | hhead
  · exact hne rfl
  · obtain ⟨rest, hrest⟩ := List.head?_eq_some_iff.mp hhead
    rw [hrest] at hbreak
    exact hbreak rfl

end Downlevel.Emit
