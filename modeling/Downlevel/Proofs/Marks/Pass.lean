import Downlevel.Proofs.Lower.Pass
import Downlevel.Proofs.Marks.Block
import Downlevel.Proofs.Marks.Class

/-!
# `Proofs.Marks.Pass`: lowerings keep a tree a tree

A syntax tree is a tree: none of its objects stands at two places. The lowerings keep it one. They move
nodes into new ones, but each node of the program stands at most once in what they give. A node that they make
has no mark, and becomes an object at each place where it stands.
-/

namespace Downlevel

namespace Tree

mutual

theorem markFrom_of_isMarked : ∀ (t : Tree) (next : Nat), t.IsMarked → markFrom next t = (t, next)
  | .list xs, next, h => by rw [markFrom, markItems_of_itemsMarked xs next h]
  | .obj (some m) fs, next, h => by rw [markFrom, markFields_of_fieldsMarked fs next h.2]
  | .obj none fs, next, h => by cases h.1
  | .null, _, _ | .bool _, _, _ | .int _, _, _ | .real _, _, _ | .str _, _, _ => rfl

theorem markItems_of_itemsMarked : ∀ (xs : List Tree) (next : Nat), ItemsMarked xs →
    markItems next xs = (xs, next)
  | [], _, _ => rfl
  | t :: rest, next, h => by
    rw [markItems, markFrom_of_isMarked t next h.1]
    dsimp only
    rw [markItems_of_itemsMarked rest next h.2]

theorem markFields_of_fieldsMarked : ∀ (fs : Fields) (next : Nat), FieldsMarked fs →
    markFields next fs = (fs, next)
  | [], _, _ => rfl
  | (k, v) :: rest, next, h => by
    rw [markFields]
    split
    · rw [markFields_of_fieldsMarked rest next h.2]
    · rename_i hplace
      rw [markFrom_of_isMarked v next (h.1 (by simpa using hplace))]
      dsimp only
      rw [markFields_of_fieldsMarked rest next h.2]

end

/-- All objects are told apart by their marks, and each is at one place. -/
structure IsTree (t : Tree) : Prop where
  marked : t.IsMarked
  nodup : t.marks.Nodup

theorem isTree_identify {t : Tree} (h : t.marks.Nodup) : t.identify.IsTree :=
  ⟨isMarked_identify t, nodup_marks_identify h⟩

end Tree

namespace Lower
namespace Pass

open Tree Grammar

variable {t : Tree}

/-- **No lowering makes a copy** of an object of the program. -/
theorem copies_lower_le (p : Pass) (ht : Derives .any .program t) (hmarked : t.IsMarked) {out : Lowered}
    (h : p.lower t = .ok out) (m : Nat) : copies m out.tree ≤ copies m t := by
  cases p with
  | classes => exact Class.copies_lower_le h
  | stringTemplates => exact Template.copies_lower_le h
  | arrowFunctions => exact Arrow.copies_lower_le ht h
  | blockScopedBindings =>
    rw [lower, Block.lower, identify, markFrom_of_isMarked _ _ hmarked] at h
    exact Block.copies_lowerMarked_le h
  | defaultArguments => exact Default.copies_lower_le ht h
  | objectMethods => exact Method.copies_lower_le h

/-- **One lowering** of a program that is a tree. -/
theorem exists_lower_of_isTree (p : Pass) (hprogram : isProgram t) (htree : t.IsTree) :
    ∃ out, p.lower t = .ok out ∧ isProgram out.tree ∧ out.tree.marks.Nodup ∧
      ∀ m, copies m out.tree ≤ copies m t := by
  obtain ⟨typeOf, hd⟩ := exists_derives_iff.mpr ⟨hprogram, Block.isCoherent_of_nodup htree.nodup⟩
  obtain ⟨out, typeOf', hlower, hout⟩ := exists_lower p hd
  have hcopies := copies_lower_le p (fits_one_iff.mp hprogram) htree.marked hlower
  refine ⟨out, hlower, (exists_derives_iff.mp ⟨typeOf', hout⟩).1, ?_, hcopies⟩
  rw [List.nodup_iff_count_le_one]
  exact fun m => Nat.le_trans (hcopies m) (List.nodup_iff_count_le_one.mp htree.nodup m)

/-- Applies lowerings one after the other, with marks for all objects before each of them and at the end. -/
def lowerMarked (passes : List Pass) (t : Tree) : Except Fault Tree :=
  passes.foldlM (fun t p => (fun out => out.tree.identify) <$> p.lower t) t.identify

/-- **Lowerings keep a tree a tree.** In a program in which no object stands at two places, every object stands
at most as often in what a lowering gives as before, and so after any sequence of lowerings. A node that a
lowering makes has no mark: it is marked as one more object at each place where it stands, so that nothing is
said here of a new node that stands at two. -/
theorem isTree_lowerMarked (hprogram : isProgram t = true) (hshared : t.marks.Nodup) :
    (∀ p : Pass, ∃ out, p.lower t.identify = .ok out ∧
      ∀ m, out.tree.marks.count m ≤ t.identify.marks.count m) ∧
    ∀ passes : List Pass, ∃ out, lowerMarked passes t = .ok out ∧ isProgram out = true ∧ out.IsTree := by
  have htree := isTree_identify hshared
  have hidentified : isProgram t.identify = true := fits_identify hprogram
  refine ⟨fun p => ?_, fun passes => ?_⟩
  · obtain ⟨out, hlower, -, -, hcopies⟩ := exists_lower_of_isTree p hidentified htree
    exact ⟨out, hlower, hcopies⟩
  · -- What a lowering gives is a program without sharing, so with marks it is a tree again.
    have hfold : ∀ (passes : List Pass) (u : Tree), isProgram u = true → u.IsTree →
        ∃ out, passes.foldlM (fun t p => (fun out => out.tree.identify) <$> p.lower t) u = .ok out ∧
          isProgram out = true ∧ out.IsTree := by
      intro passes
      induction passes with
      | nil => exact fun u hu hutree => ⟨u, rfl, hu, hutree⟩
      | cons p passes ih =>
        intro u hu hutree
        obtain ⟨out, hlower, hout, hnodup, -⟩ := exists_lower_of_isTree p hu hutree
        obtain ⟨last, hlast, hresult⟩ := ih out.tree.identify (fits_identify hout) (isTree_identify hnodup)
        refine ⟨last, ?_, hresult⟩
        rw [List.foldlM_cons, hlower]
        exact hlast
    exact hfold passes t.identify hidentified htree

/-- `class A { get x() { return 1; } set x(v) {} }`, `for (let i of xs) { var y = i; f(() => i); }` and
`function g(a = 1) {}`, with marks. -/
def movedParts : Tree :=
  let accessor := fun kind params statements => Node.make "MethodDefinition"
    [("key", Node.identifier "x"), ("kind", .str kind),
     ("value", Node.functionExpression params (Node.block statements))]
  let arrow := Node.make "ArrowFunctionExpression"
    [("params", .list []), ("body", Node.identifier "i"), ("expression", .bool true)]
  identify (Node.make "Program" [("body", .list
    [Node.make "ClassDeclaration" [("id", Node.identifier "A"), ("superClass", .null),
      ("body", Node.make "ClassBody" [("body", .list
        [accessor "get" [] [Node.returnStatement (some (Node.literal (.int 1)))],
         accessor "set" [Node.identifier "v"] []])])],
     Node.make "ForOfStatement"
      [("left", Node.declaration "let" [Node.declarator (Node.identifier "i")]),
       ("right", Node.identifier "xs"),
       ("body", Node.block [Node.var "y" (some (Node.identifier "i")),
         Node.expressionStatement (Node.call (Node.identifier "f") [arrow])])],
     Node.functionDeclaration "g" [Node.make "AssignmentPattern"
      [("left", Node.identifier "a"), ("right", Node.literal (.int 1))]] (Node.block [])])])

theorem isTree_lowerMarked_movedParts : isProgram movedParts = true ∧ movedParts.marks.Nodup ∧
    (∀ p : Pass, ∃ out, p.lower movedParts.identify = .ok out ∧
      ∀ m, out.tree.marks.count m ≤ movedParts.identify.marks.count m) ∧
    ∃ out, lowerMarked all movedParts = .ok out ∧ isProgram out = true ∧ out.IsTree := by
  have hprogram : isProgram movedParts = true := by decide
  have hshared : movedParts.marks.Nodup := by decide
  obtain ⟨hone, hall⟩ := isTree_lowerMarked hprogram hshared
  exact ⟨hprogram, hshared, hone, hall all⟩

end Pass
end Lower
end Downlevel
