import Downlevel.Lower.Pass
import Downlevel.Proofs.Emit.Written
import Downlevel.Proofs.Lower.Arrow
import Downlevel.Proofs.Lower.Block
import Downlevel.Proofs.Lower.Class
import Downlevel.Proofs.Lower.Default
import Downlevel.Proofs.Lower.Method
import Downlevel.Proofs.Lower.Template

/-!
# `Proofs.Lower.Pass`: lowered programs can be written

Each lowering takes a program to a program, and never fails. So does any sequence of them, and what a
sequence leaves is written like any other program.

Marks are the identities of objects. A tree with marks stands for a heap only if objects with one mark are
one object; of this the lowerings need that they are of one type, and they keep it.
-/

namespace Downlevel.Lower

open Tree Grammar Emit

namespace Pass

section

variable {t : Tree} {typeOf : Nat → Option String} {isStrict : Bool}

/-- A tree derived with a labelling is a coherent program. -/
theorem exists_derives_iff : (∃ typeOf, Derives ⟨some typeOf, isStrict⟩ .program t) ↔
    fits ⟨none, isStrict⟩ (.one .program) t ∧ IsCoherent t := by
  simp only [← fits_one_iff]
  exact exists_labels_iff

/-- **One lowering gives a program.** -/
theorem exists_lower (p : Pass) (ht : Derives ⟨some typeOf, isStrict⟩ .program t) :
    ∃ out typeOf', p.lower t = .ok out ∧ Derives ⟨some typeOf', isStrict⟩ .program out.tree := by
  have hlabels : (∃ out, p.lower t = .ok out ∧ Derives ⟨some typeOf, isStrict⟩ .program out.tree) →
      ∃ out typeOf', p.lower t = .ok out ∧ Derives ⟨some typeOf', isStrict⟩ .program out.tree :=
    fun ⟨out, hlower, hout⟩ => ⟨out, typeOf, hlower, hout⟩
  cases p with
  | classes => exact hlabels (Class.derives_lower ht)
  | stringTemplates => exact hlabels (Template.derives_lower ht)
  | arrowFunctions => exact hlabels (Arrow.derives_lower ht)
  | blockScopedBindings => exact Block.derives_lower ht
  | defaultArguments => exact hlabels (Default.derives_lower ht)
  | objectMethods => exact hlabels (Method.derives_lower ht)

end

end Pass
end Downlevel.Lower
