import Downlevel.Lower.Pass
import Downlevel.Proofs.Grammar.Matches
import Downlevel.Proofs.Settled.Class
import Downlevel.Proofs.Settled.Template

/-!
# `Proofs.Settled.Twice`: lowering a second time

Four of the lowerings do all they can in one run: a second run changes nothing, and reports what the first
one did. Programs are meant here as a parser writes them: a template ends with a segment, and the key of a
constructor is written out. Lowered programs are such programs again.
-/

namespace Downlevel.Lower.Pass

open Tree Node Grammar

/-- The lowerings that do all they can in one run. -/
def repeatable : List Pass := [.classes, .stringTemplates, .defaultArguments, .objectMethods]

/-- **A second run changes nothing**, neither a node nor the order of its fields, and reports as many
constructs as the first. Neither run fails. -/
theorem lower_lower {p : Pass} (hp : p ∈ repeatable) {t : Tree} (hwellFormed : isWellFormed t = true) :
    ∃ out out', p.lower t = .ok out ∧ p.lower out.tree = .ok out' ∧ out'.tree = out.tree ∧
      out'.diagnostics.length = out.diagnostics.length := by
  have ht : Derives .strict .program t := fits_one_iff.mp hwellFormed
  have hprogram : Derives .any .program t := fits_one_iff.mp (isWellFormed_iff.mp hwellFormed).1
  simp only [repeatable, List.mem_cons, List.not_mem_nil, or_false] at hp
  rcases hp with rfl | rfl | rfl | rfl
  · exact Class.lower_settles ht
  · exact Template.lower_settles ht
  · exact Default.lower_settles hprogram
  · exact Method.lower_settles hprogram

/-- `class A { constructor(a = 1) { super.f(); } }`, and a tagged template with a method that uses `super`
in it: `` f`${{ m() { super.f(); } }}`; ``. -/
def leftAlone : Tree :=
  let superCall := expressionStatement (call (dot (make "Super" []) "f"))
  let defaulted := make "AssignmentPattern"
    [("left", identifier "a"), ("right", literal (.int 1))]
  let constructor' := make "MethodDefinition"
    [("key", identifier "constructor"), ("kind", .str "constructor"),
     ("value", functionExpression [defaulted] (block [superCall]))]
  let method := make "Property"
    [("key", identifier "m"), ("kind", .str "init"), ("method", .bool true),
     ("value", functionExpression [] (block [superCall]))]
  let quasi := make "TemplateElement"
    [("value", record [("raw", .str ""), ("cooked", .str "")])]
  make "Program" [("body", .list
    [make "ClassDeclaration"
      [("id", identifier "A"), ("superClass", .null),
       ("body", make "ClassBody" [("body", .list [constructor'])])],
     expressionStatement (make "TaggedTemplateExpression"
      [("tag", identifier "f"), ("quasi", make "TemplateLiteral"
        [("quasis", .list [quasi, quasi]), ("expressions", .list [objectExpression [method]])])])])]

theorem lower_lower_leftAlone : isWellFormed leftAlone = true ∧
    ∀ p ∈ repeatable, ∃ out out', p.lower leftAlone = .ok out ∧ p.lower out.tree = .ok out' ∧
      out'.tree = out.tree ∧ out'.diagnostics.length = out.diagnostics.length := by
  have hwellFormed : isWellFormed leftAlone = true := by decide
  exact ⟨hwellFormed, fun p hp => lower_lower hp hwellFormed⟩

end Downlevel.Lower.Pass
