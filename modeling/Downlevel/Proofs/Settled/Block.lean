import Downlevel.Proofs.Block.Plain
import Downlevel.Proofs.Lower.Block

/-!
# `Proofs.Settled.Block`: block bindings, lowered twice

A run of the block lowering that reports nothing has kept nothing, so it leaves a plain program, and a second
run has nothing to do.

A run that reports something can be undone by itself. A loop whose body assigns to a binding of its head is
left alone; but the assignment is recognised by its name, and the run renames what it can inside of the loop.
If the name was that of another binding, a second run no longer finds the assignment, and wraps the loop.
-/

namespace Downlevel.Lower.Block

open Tree Node Grammar Scope

/-! ## Quiet runs -/

/-- Whatever is kept is reported. -/
def Plan.IsQuiet (p : Plan) : Prop := p.diagnostics = [] → p.kept = []

/-- A plan with one more diagnostic. -/
theorem Plan.isQuiet_append (kept loops : List Nat) (ds : List Diagnostic) (d : Diagnostic) :
    Plan.IsQuiet ⟨kept, loops, ds ++ [d]⟩ := by
  intro h
  exact absurd h (List.append_ne_nil_of_right_ne_nil _ (List.cons_ne_nil _ _))

theorem isQuiet_keepDynamic (a : Analysis) (bindings : List (Nat × Binding)) :
    (keepDynamic a bindings).IsQuiet := by
  unfold keepDynamic
  refine List.foldlRecOn _ _ (fun _ => rfl) fun p hp function _ => ?_
  split
  · exact hp
  · exact Plan.isQuiet_append _ _ _ _

theorem isQuiet_keepLoops (loops : List Tree) {p : Plan} (hp : p.IsQuiet) : (keepLoops loops p).IsQuiet := by
  unfold keepLoops
  refine List.foldlRecOn _ _ hp fun p hp loop _ => ?_
  split
  · exact Plan.isQuiet_append _ _ _ _
  · exact hp

/-- **Where nothing is reported, nothing is kept.** -/
theorem kept_of_quiet {a : Analysis} (h : (plan a).diagnostics = []) : (plan a).kept = [] :=
  isQuiet_keepLoops _ (isQuiet_keepDynamic a _) h

/-! ## The second run -/

/-- **A second run changes nothing where the first one reports nothing**: it marks the nodes that are new,
and reports nothing itself. The first run does not fail. -/
theorem lower_of_quiet {t : Tree} (hprogram : isProgram t = true) (hshared : t.marks.Nodup) :
    ∃ out, lower t = .ok out ∧ (out.diagnostics = [] → lower out.tree = .ok ⟨out.tree.identify, []⟩) := by
  obtain ⟨typeOf, hlabelled⟩ := exists_labels_iff.mpr ⟨hprogram, isCoherent_of_nodup hshared⟩
  obtain ⟨wrapped, declared, typeOf', -, hdeclare, hlower, hwrapped, hdeclared⟩ :=
    exists_steps (fits_one_iff.mp hlabelled)
  refine ⟨_, hlower, ?_⟩
  intro hquiet
  dsimp only at hquiet
  have hkept := kept_of_quiet hquiet
  rw [hkept] at hdeclare
  have hplain : IsPlain declared.identify := isPlain_markFrom (isPlain_declareVars hwrapped hdeclare) _
  have hagain : isProgram declared = true := (exists_labels_iff.mp ⟨typeOf', fits_one_iff.mpr hdeclared⟩).1
  exact lowerMarked_of_isPlain (fits_one_iff.mp (fits_identify hagain)) hplain

/-- `for (let i of xs) { f(() => { …; return i; }); }`, a loop with a captured binding. -/
def capturing (statements : List Tree) : Tree :=
  let arrow := make "ArrowFunctionExpression"
    [("params", .list []), ("body", block (statements ++ [returnStatement (some (identifier "i"))])),
     ("expression", .bool false)]
  make "Program" [("body", .list [make "ForOfStatement"
    [("left", declaration "let" [declarator (identifier "i")]), ("right", identifier "xs"),
     ("body", block [expressionStatement (call (identifier "f") [arrow])])]])]

theorem lower_of_quiet_capturing : isProgram (capturing []) = true ∧ (capturing []).marks.Nodup ∧
    ∃ out, lower (capturing []) = .ok out ∧ out.diagnostics = [] ∧
      lower out.tree = .ok ⟨out.tree.identify, []⟩ := by
  have hprogram : isProgram (capturing []) = true := by decide
  have hshared : (capturing []).marks.Nodup := by decide
  have hquiet : (lower (capturing [])).toOption.map (·.diagnostics) = some [] := by decide +kernel
  obtain ⟨out, hlower, hagain⟩ := lower_of_quiet hprogram hshared
  rw [hlower] at hquiet
  have hnone : out.diagnostics = [] := Option.some.inj hquiet
  exact ⟨hprogram, hshared, out, hlower, hnone, hagain hnone⟩

/-- The function of the loop has a block `{ let i = 0; i = 1; }` with an `i` of its own. -/
def shadowed : Tree :=
  capturing [block [declaration "let" [declarator (identifier "i") (some (literal (.int 0)))],
    expressionStatement (assign (identifier "i") (literal (.int 1)))]]

/-- **A second run can wrap a loop that the first one left alone**: the first run takes the assignment to the
inner `i` for one to the binding of the loop, and then renames it. -/
theorem lower_shadowed : isProgram shadowed = true ∧ shadowed.marks.Nodup ∧
    ∃ out again, lower shadowed = .ok out ∧ lower out.tree = .ok again ∧
      again.tree ≠ out.tree.identify := by
  have hlengths : ((lower shadowed).toOption.bind fun out => (lower out.tree).toOption.map fun again =>
      ((out.tree.identify.children "body").length, (again.tree.children "body").length)) =
        some (1, 2) := by decide +kernel
  refine ⟨by decide, by decide, ?_⟩
  obtain ⟨out, hout, hlengths⟩ := Option.bind_eq_some_iff.mp hlengths
  obtain ⟨again, hagain, hlengths⟩ := Option.map_eq_some_iff.mp hlengths
  refine ⟨out, again, eq_ok_of_toOption hout, eq_ok_of_toOption hagain, ?_⟩
  intro heq
  rw [heq] at hlengths
  have hsame := (Prod.mk.inj hlengths).1.symm.trans (Prod.mk.inj hlengths).2
  cases hsame

end Downlevel.Lower.Block
