import Downlevel.Proofs.Block.Plain
import Downlevel.Proofs.Lower.Block

/-!
# `Proofs.Block.Resolution`: references mean what they meant

Where no loop is wrapped, the block lowering renames, and turns `let` and `const` into `var`. The names it
gives are safe (`isSafe_renameAll`), and what it moves is movable, so every reference of the new program is a
reference of the old one, and means the declaration that it meant before.
-/

namespace Downlevel.Lower.Block

open Tree Node Grammar Scope

variable {a a' : Analysis} {t : Tree} {α β : Type}

/-! ## Unpredictable functions -/

section

variable {α : Type} {step : Plan → α → Plan}

theorem kept_subset_foldl (hstep : ∀ p x, p.kept ⊆ (step p x).kept) (xs : List α) (p : Plan) :
    p.kept ⊆ (xs.foldl step p).kept := by
  induction xs generalizing p with
  | nil => exact List.Subset.refl _
  | cons x xs ih => exact List.Subset.trans (hstep p x) (ih (step p x))

/-- What one step keeps, all steps together keep. -/
theorem mem_kept_foldl (hstep : ∀ p x, p.kept ⊆ (step p x).kept) {m : Nat} {x : α}
    (hx : ∀ p, m ∈ (step p x).kept) : ∀ {xs : List α} (p : Plan), x ∈ xs → m ∈ (xs.foldl step p).kept
  | y :: xs, p, hmem => by
    rcases List.mem_cons.mp hmem with rfl | hmem
    · exact kept_subset_foldl hstep xs _ (hx p)
    · exact mem_kept_foldl hstep hx (step p y) hmem

end

/-- The declarations in the blocks of an unpredictable function are kept. -/
theorem mem_kept_of_dynamic {f m : Nat} {c : Nat × Binding} (hf : f ∈ dynamicFunctions a)
    (hc : c ∈ nestedBindings a (blockBindings a) f) (hm : c.2.declaration.mark? = some m) :
    m ∈ (plan a).kept := by
  -- First it is kept because of the function; what is kept because of loops comes on top.
  have hkept : m ∈ (keepDynamic a (blockBindings a)).kept := by
    unfold keepDynamic
    refine mem_kept_foldl (fun p g => ?_) (fun p => ?_) _ hf
    · split
      · exact List.Subset.refl _
      · exact List.subset_append_left _ _
    · split
      · rename_i hnil
        rw [hnil] at hc
        cases hc
      · rename_i first rest hcons
        rw [hcons] at hc
        exact List.mem_append_right _ (List.mem_filterMap.mpr ⟨_, List.mem_map_of_mem hc, hm⟩)
  show m ∈ (keepLoops _ _).kept
  unfold keepLoops
  refine kept_subset_foldl (fun p loop => ?_) _ _ hkept
  split
  · exact List.subset_append_left _ _
  · exact List.Subset.refl _

/-- **What can move is in no function whose names are unpredictable.** -/
theorem not_mem_dynamicFunctions (ht : IsSource t) {i : Nat} {b : Binding}
    (hb : (analyzeMarked t).bindings[i]? = some b)
    (hmov : IsMovableAt (analyzeMarked t) (plan (analyzeMarked t)).kept i) :
    (analyzeMarked t).functionOf b.scope ∉ dynamicFunctions (analyzeMarked t) := by
  intro hdynamic
  have htree := isTree_analyzeMarked t
  have hmem := List.mem_of_getElem? hb
  obtain ⟨b', hb', hmov⟩ := hmov
  obtain rfl := Option.some.inj (hb.symm.trans hb')
  simp only [isMovable, Bool.and_eq_true, bne_iff_ne, ne_eq, Bool.not_eq_true'] at hmov
  obtain ⟨⟨hkind, hscope⟩, hkept⟩ := hmov
  obtain ⟨m, hm⟩ := Option.isSome_iff_exists.mp (ht.isSome_mark?_declaration hmem)
  obtain ⟨s, hs, hid⟩ := htree.exists_scope (htree.bindings b hmem)
  have hfunction : (analyzeMarked t).functionOf b.scope = s.function := by
    rw [← hid]
    exact htree.functionOf_id hs
  have hnested : (i, b) ∈ nestedBindings (analyzeMarked t) (blockBindings (analyzeMarked t))
      ((analyzeMarked t).functionOf b.scope) := by
    refine List.mem_filter.mpr ⟨(mem_blockBindings htree).mpr ⟨hb, hkind⟩, ?_⟩
    have hscope? : (analyzeMarked t).scope? b.scope = some s := htree.scope?_eq_some.mpr ⟨hs, hid⟩
    simp only [hscope?, hfunction, beq_self_eq_true, Bool.true_and, Bool.not_eq_true']
    -- A scope that is a function is its own function.
    by_contra hisFunction
    rw [Bool.not_eq_false] at hisFunction
    exact hscope (by rw [hfunction, ← hid, htree.function_eq_id hs hisFunction])
  have hmkept := mem_kept_of_dynamic hdynamic hnested hm
  rw [isKept, hm] at hkept
  exact absurd hmkept (by simpa using hkept)

/-! ## The steps together -/

theorem rel_getElem? {R : α → β → Prop} {xs : List α} {ys : List β} (h : List.Forall₂ R xs ys) (i : Nat) :
    Option.Rel R xs[i]? ys[i]? := by
  induction h generalizing i with
  | nil => exact .none
  | cons hx _ ih =>
    cases i with
    | zero => exact .some hx
    | succ i => exact ih i

theorem rel_comp {γ : Type} {R : α → β → Prop} {S : β → γ → Prop} {x : Option α} {y : Option β} {z : Option γ}
    (h : Option.Rel R x y) (h' : Option.Rel S y z) : Option.Rel (fun a c => ∃ b, R a b ∧ S b c) x z := by
  cases h with
  | none =>
    cases h' with
    | none => exact .none
  | some hr =>
    cases h' with
    | some hs => exact .some ⟨_, hr, hs⟩

theorem rel_imp {R S : α → β → Prop} {x : Option α} {y : Option β} (h : Option.Rel R x y)
    (himp : ∀ a b, x = some a → R a b → S a b) : Option.Rel S x y := by
  cases h with
  | none => exact .none
  | some hr => exact .some (himp _ _ rfl hr)

theorem name_renamingChange (r : Renaming) (t : Tree) :
    (renamingChange r).name t.mark? t.name? = newName r t := by
  rw [newName, name?_eq]
  rfl

section

variable {kept : List Nat} {r : Renaming} {a a₁ a₂ a₃ : Analysis}

/-- A binding, renamed, declared with `var` or not, and marked. -/
theorem binding_of_alike (h₁ : AnalysisAlike (renamingChange r) a a₁)
    {b b₁ b₂ b₃ : Binding} (hmark : (b.declaration.mark?).isSome)
    (hb₁ : BindingAlike (renamingChange r) a.functionOf b b₁)
    (hb₂ : BindingAlike (declaringChange kept) a₁.functionOf b₁ b₂)
    (hb₃ : BindingAlike .none a₂.functionOf b₂ b₃) :
    b₃.name = newName r b.identifier ∧ (b₃.scope = b.scope ∨
      isMovable kept (a.functionOf b.scope) b ∧ b₃.scope = a.functionOf b.scope) := by
  have hname : b₃.name = newName r b.identifier := by
    rw [← name_renamingChange, ← hb₁.identifier.name]
    exact hb₃.identifier.name.trans hb₂.identifier.name
  obtain ⟨hkind₁, hscope₁⟩ := hb₁.moved.resolve_right fun h => h.2.2.2
  obtain ⟨-, hscope₃⟩ := hb₃.moved.resolve_right fun h => h.2.2.2
  refine ⟨hname, ?_⟩
  rw [hscope₃]
  rcases hb₂.moved with ⟨-, hscope₂⟩ | ⟨hkind, -, hscope₂, hmoves⟩
  · exact .inl (hscope₂.trans hscope₁)
  · rw [hscope₂, h₁.functionOf_eq, hscope₁]
    by_cases hself : b.scope = a.functionOf b.scope
    · exact .inl hself.symm
    · -- The declaration carries a mark, which is not kept.
      obtain ⟨m, hm⟩ := Option.isSome_iff_exists.mp hmark
      have hnot : m ∉ kept := hmoves m (hb₁.mark m hm)
      refine .inr ⟨?_, rfl⟩
      rw [hkind₁] at hkind
      simp [isMovable, hkind, hself, isKept, hm, hnot]

/-- **Renaming, declaring and marking, one after the other.** -/
theorem moves_of_alike (h₁ : AnalysisAlike (renamingChange r) a a₁)
    (h₂ : AnalysisAlike (declaringChange kept) a₁ a₂) (h₃ : AnalysisAlike .none a₂ a₃)
    (hmark : ∀ b ∈ a.bindings, (b.declaration.mark?).isSome) :
    Moves a kept (bindingName a r) (referenceName a r) a₃ where
  around := fun n => by rw [h₃.around_eq, h₂.around_eq, h₁.around_eq]
  bindings := by
    intro i
    have hrel := rel_comp (rel_getElem? h₁.bindings i)
      (rel_comp (rel_getElem? h₂.bindings i) (rel_getElem? h₃.bindings i))
    refine rel_imp hrel ?_
    rintro b b₃ hb ⟨b₁, hb₁, b₂, hb₂, hb₃⟩
    obtain ⟨hname, hscope⟩ := binding_of_alike h₁ (hmark b (List.mem_of_getElem? hb)) hb₁ hb₂ hb₃
    rw [bindingName_eq hb]
    exact ⟨hname, hscope.imp_right fun h => ⟨⟨b, hb, h.1⟩, h.2⟩⟩
  references := by
    intro k
    have hrel := rel_comp (rel_getElem? h₁.references k)
      (rel_comp (rel_getElem? h₂.references k) (rel_getElem? h₃.references k))
    refine rel_imp hrel ?_
    rintro x x₃ hx ⟨x₁, hx₁, x₂, hx₂, hx₃⟩
    rw [referenceName_eq hx, ← name_renamingChange, ← hx₁.identifier.name]
    exact ⟨hx₃.identifier.name.trans hx₂.identifier.name, hx₃.scope.trans (hx₂.scope.trans hx₁.scope)⟩

end

/-! ## References to elements -/

/-- No reference is the name of an element. -/
def HasNoElements (a : Analysis) : Prop := ∀ r ∈ a.references, r.identifier.type? ≠ some "JSXIdentifier"

theorem hasNoElements_of_alike {x : Change} (h : AnalysisAlike x a a') (ha : HasNoElements a) :
    HasNoElements a' := by
  intro r' hr'
  obtain ⟨k, hk⟩ := List.mem_iff_getElem?.mp hr'
  have hrel := rel_getElem? h.references k
  rw [hk] at hrel
  cases hr : a.references[k]? with
  | none =>
    rw [hr] at hrel
    cases hrel
  | some r =>
    rw [hr] at hrel
    cases hrel with
    | some hlike =>
      rw [hlike.identifier.type]
      exact ha r (List.mem_of_getElem? hr)

theorem hasNoElements_of_objects (hnamed : ∀ o ∈ t.objects, isWellNamed o)
    (h : ∀ o ∈ t.objects, o.type? ≠ some "JSXIdentifier") : HasNoElements (analyzeMarked t) := by
  intro r hr
  have hmem : r.identifier ∈ (analyzeMarked t).identifiers :=
    List.mem_append_right _ (List.mem_map_of_mem hr)
  exact h _ (isNameIn_of_mem_identifiers hnamed hmem).1

/-! ## Marks of identifiers -/

/-- The identifiers of two programs carry the same marks, in the same order. -/
structure SameMarks (a a' : Analysis) : Prop where
  bindings : a'.bindings.map (·.identifier.mark?) = a.bindings.map (·.identifier.mark?)
  references : a'.references.map (·.identifier.mark?) = a.references.map (·.identifier.mark?)

theorem map_mark?_eq {f : α → Tree} {xs ys : List α}
    (h : List.Forall₂ (fun x y => KeepsMark (f x) (f y)) xs ys)
    (hmark : ∀ x ∈ xs, ((f x).mark?).isSome) :
    ys.map (fun y => (f y).mark?) = xs.map fun x => (f x).mark? := by
  induction h with
  | nil => rfl
  | cons hxy _ ih =>
    rw [List.forall_mem_cons] at hmark
    obtain ⟨m, hm⟩ := Option.isSome_iff_exists.mp hmark.1
    rw [List.map_cons, List.map_cons, ih hmark.2, hm, hxy m hm]

theorem sameMarks_of_alike {x : Change} (h : AnalysisAlike x a a') (ha : HasDistinctMarks a) :
    SameMarks a a' where
  bindings := map_mark?_eq (f := Binding.identifier) (h.bindings.imp fun _ _ hb => hb.identifier.mark)
    ha.bindings
  references := map_mark?_eq (f := Reference.identifier)
    (h.references.imp fun _ _ hr => hr.identifier.mark) ha.references

theorem SameMarks.trans {a'' : Analysis} (h : SameMarks a a') (h' : SameMarks a' a'') :
    SameMarks a a'' where
  bindings := h'.bindings.trans h.bindings
  references := h'.references.trans h.references

theorem SameMarks.hasDistinctMarks (h : SameMarks a a') (ha : HasDistinctMarks a) :
    HasDistinctMarks a' where
  bindings := by
    intro b hb
    have hmem : b.identifier.mark? ∈ a.bindings.map (·.identifier.mark?) :=
      h.bindings ▸ List.mem_map_of_mem hb
    obtain ⟨c, hc, heq⟩ := List.mem_map.mp hmem
    rw [← heq]
    exact ha.bindings c hc
  references := by
    intro r hr
    have hmem : r.identifier.mark? ∈ a.references.map (·.identifier.mark?) :=
      h.references ▸ List.mem_map_of_mem hr
    obtain ⟨c, hc, heq⟩ := List.mem_map.mp hmem
    rw [← heq]
    exact ha.references c hc
  nodup := by
    rw [h.bindings, h.references]
    exact ha.nodup

/-! ## Meanings -/

/-- Two nodes with one mark. -/
def IsSameNode (t t' : Tree) : Prop := ∃ m, t.mark? = some m ∧ t'.mark? = some m

/-- A reference of one program and a reference of another one: they are the same node, and mean what is
declared at the same node. Where one means nothing known, so does the other, and has the same name. -/
structure MeansAlike (a a' : Analysis) (r r' : Reference) : Prop where
  node : IsSameNode r.identifier r'.identifier
  meaning : Option.Rel (fun i i' => ∃ b b', a.bindings[i]? = some b ∧ a'.bindings[i']? = some b' ∧
    IsSameNode b.identifier b'.identifier) (a.resolve r) (a'.resolve r')
  name : a.resolve r = none → r'.name = r.name

theorem isSameNode_of_mark? {t' : Tree} (hmark : (t.mark?).isSome) (h : t'.mark? = t.mark?) :
    IsSameNode t t' := by
  obtain ⟨m, hm⟩ := Option.isSome_iff_exists.mp hmark
  exact ⟨m, hm, h.trans hm⟩

section

variable {a a' : Analysis} {kept : List Nat} {bindingName referenceName : Nat → Option String}
  (htree : a.IsTree) (htree' : a'.IsTree) (hd : HasDistinctMarks a) (hmarks : SameMarks a a')
  (safe : IsSafe a kept bindingName referenceName) (moves : Moves a kept bindingName referenceName a')

include htree htree' hd hmarks safe moves

/-- **Under a safe naming, a reference means the declaration that it meant.** -/
theorem meansAlike_of_isSafe {k : Nat} {r r' : Reference} (hr : a.references[k]? = some r)
    (hr' : a'.references[k]? = some r') : MeansAlike a a' r r' where
  node := by
    refine isSameNode_of_mark? (hd.references r (List.mem_of_getElem? hr)) ?_
    have hk := congrArg (·[k]?) hmarks.references
    simpa [hr, hr'] using hk
  meaning := by
    rw [resolve_eq_of_isSafe htree htree' safe moves hr hr']
    cases hres : a.resolve r with
    | none => exact .none
    | some i =>
      obtain ⟨-, -, ⟨b, hb, -, -⟩, -⟩ := htree.resolve_eq_some_iff.mp hres
      obtain ⟨b', hb', -⟩ := moves.exists_binding' hb
      refine .some ⟨b, b', hb, hb', isSameNode_of_mark? (hd.bindings b (List.mem_of_getElem? hb)) ?_⟩
      have hi := congrArg (·[i]?) hmarks.bindings
      simpa [hb, hb'] using hi
  name := by
    intro hres
    have hrel := moves.references k
    rw [hr, hr'] at hrel
    cases hrel with
    | some h => rw [h.1, safe.unresolved k r hr hres]

theorem forall₂_meansAlike : List.Forall₂ (MeansAlike a a') a.references a'.references := by
  refine List.forall₂_iff_get.mpr ⟨?_, fun k hk hk' => ?_⟩
  · have hlength := congrArg List.length hmarks.references
    simpa using hlength.symm
  · exact meansAlike_of_isSafe htree htree' hd hmarks safe moves (k := k) (by simp) (by simp)

end

/-- **Where no loop is wrapped, the block lowering keeps what names mean.** The references of the program are
the same nodes in the same order; each means what is declared at the node where it was declared before, or
still means nothing known. -/
theorem lower_meansAlike {t : Tree} (hprogram : isProgram t = true) (hshared : t.marks.Nodup)
    (helements : ∀ o ∈ t.objects, o.type? ≠ some "JSXIdentifier")
    (hloops : (plan (analyze t)).loops = []) :
    ∃ out, lower t = .ok out ∧ HasDistinctMarks (analyze out.tree) ∧
      List.Forall₂ (MeansAlike (analyze t) (analyze out.tree)) (analyze t).references
        (analyze out.tree).references := by
  have hsource := isSource_identify hprogram hshared
  have hcoherent := isCoherent_of_nodup hshared
  obtain ⟨typeOf, hlabelled⟩ := exists_labels_iff.mpr ⟨hprogram, hcoherent⟩
  obtain ⟨wrapped, declared, typeOf', hwrap, hdeclare, hlower, -, -⟩ :=
    exists_steps (fits_one_iff.mp hlabelled)
  rw [show (plan (analyzeMarked t.identify)).loops = [] from hloops, wrapLoops_nil] at hwrap
  obtain rfl := Except.ok.inj hwrap
  -- The three steps, each with an analysis like the one before.
  have helements₀ := hasNoElements_of_alike
    (analysisAlike_of_simulation isSimulation_marked (programAlike_identify t)
      (hasNoElements_of_objects (isWellNamed_of_fits hprogram) helements))
    (hasNoElements_of_objects (isWellNamed_of_fits hprogram) helements)
  have h₁ := analysisAlike_of_simulation (isSimulation_renamed (isUnderscored_renameAll t.identify _ _))
    (programAlike_apply (isUnderscored_renameAll t.identify _ _)
      (renamesNames hsource.named (isCoherent_identify hcoherent) (plan (analyzeMarked t.identify)).kept
        (.ofTree t.identify))) helements₀
  have helements₁ := hasNoElements_of_alike h₁ helements₀
  have h₂ := analysisAlike_of_simulation (isSimulation_declared _) (programAlike_declareVars hdeclare)
    helements₁
  have h₃ := analysisAlike_of_simulation isSimulation_marked (programAlike_identify declared)
    (hasNoElements_of_alike h₂ helements₁)
  have hd := hsource.hasDistinctMarks
  have hmarks₁ := sameMarks_of_alike h₁ hd
  have hmarks₂ := hmarks₁.trans (sameMarks_of_alike h₂ (hmarks₁.hasDistinctMarks hd))
  have hmarks₃ := hmarks₂.trans (sameMarks_of_alike h₃ (hmarks₂.hasDistinctMarks hd))
  have hsafe := isSafe_renameAll (isTree_analyzeMarked t.identify) hd hsource.knowsNames
    fun i b hb hmov => not_mem_dynamicFunctions hsource hb hmov
  have hmoves := moves_of_alike h₁ h₂ h₃ fun b hb => hsource.isSome_mark?_declaration hb
  exact ⟨_, hlower, hmarks₃.hasDistinctMarks hd,
    forall₂_meansAlike (isTree_analyzeMarked _) (isTree_analyzeMarked _) hd hmarks₃ hsafe hmoves⟩

/-- `let x = 1; { let x = 2; f(x); } f(x);`, where one `x` has to be renamed. -/
def shadowing : Tree :=
  let x := fun (n : Int) => declaration "let" [declarator (identifier "x") (some (literal (.int n)))]
  let use := expressionStatement (call (identifier "f") [identifier "x"])
  make "Program" [("body", .list [x 1, block [x 2, use], use])]

theorem lower_meansAlike_shadowing : isProgram shadowing = true ∧ shadowing.marks.Nodup ∧
    (∀ o ∈ shadowing.objects, o.type? ≠ some "JSXIdentifier") ∧ (plan (analyze shadowing)).loops = [] ∧
    ∃ out, lower shadowing = .ok out ∧ HasDistinctMarks (analyze out.tree) ∧
      List.Forall₂ (MeansAlike (analyze shadowing) (analyze out.tree)) (analyze shadowing).references
        (analyze out.tree).references := by
  have hprogram : isProgram shadowing = true := by decide
  have hshared : shadowing.marks.Nodup := by decide
  have helements : ∀ o ∈ shadowing.objects, o.type? ≠ some "JSXIdentifier" := by decide
  have hloops : (plan (analyze shadowing)).loops = [] := by decide +kernel
  exact ⟨hprogram, hshared, helements, hloops, lower_meansAlike hprogram hshared helements hloops⟩

end Downlevel.Lower.Block
