import Downlevel.Lower.Block.Basic
import Downlevel.Proofs.Block.Declare
import Downlevel.Proofs.Block.Source
import Downlevel.Proofs.Lower.Hoist

/-!
# `Proofs.Lower.Block`: programs without block bindings are programs

The block lowering marks the nodes, renames identifiers, wraps loops and declares with `var`. Marking and
renaming do not matter for the grammar, as long as objects with one mark are of one type. A wrapped loop
is preceded by further statements, which can stand wherever a loop can.
-/

namespace Downlevel.Lower.Block

open Tree Node Grammar Scope

variable {labels : Labelling} {s : Symbol} {t : Tree}

/-! ## Signals -/

/-- Where a jump can stand, every statement can. -/
theorem statementTypes_subset {type : String} (h : type ∈ s.types)
    (htype : type ∈ ["BreakStatement", "ContinueStatement", "ReturnStatement"]) :
    statementTypes ⊆ s.types := by
  simp only [List.mem_cons, List.not_mem_nil, or_false] at htype
  revert h
  rcases htype with rfl | rfl | rfl <;> cases s <;> decide

theorem signalHandle_keeps : HandlerKeeps (regularContract Nesting Signals labels) labels signalHandle := by
  intro nesting s t parts st _ ht hparts _
  have hpass : ∀ nesting, ∃ o st', Yields (passOver nesting parts) st o st' ∧
      (regularContract Nesting Signals labels).yields nesting s o ∧
      (regularContract Nesting Signals labels).invariant st' := fun nesting => by
    obtain ⟨t', st', hyields, ht', -⟩ := hparts.descend_all ht (fun _ => some nesting) st
    exact ⟨_, st', hyields.map _, regular_keep ht', trivial⟩
  have hreturn : ∀ {type : String} {argument : Option Tree}, t.type? = some type →
      type ∈ ["BreakStatement", "ContinueStatement", "ReturnStatement"] →
      (∀ e ∈ argument, Derives labels .expression e) → ∀ place,
      Derives labels s (returnStatement argument place) := fun htype hmem hargument place =>
    derives_returnStatement hargument place (statementTypes_subset (ht.mem_types htype) hmem (by decide))
  simp only [signalHandle]
  split
  · exact ⟨_, st, Yields.pure _ _, regular_keep ht, trivial⟩
  · split
    · exact hpass _
    · split
      · exact hpass _
      · rename_i htype
        split
        · exact ⟨_, st, Yields.pure _ _, regular_keep ht, trivial⟩
        · refine ⟨_, _, (yields_modify _).bind (Yields.pure _ _), regular_keep ?_, trivial⟩
          refine hreturn htype (by decide) (fun e he => ?_) t
          rw [← Option.some.inj he]
          exact derives_literal rfl .null (by decide)
      · rename_i htype
        split
        · exact ⟨_, st, Yields.pure _ _, regular_keep ht, trivial⟩
        · refine ⟨_, _, Yields.pure _ _, regular_keep ?_, trivial⟩
          exact hreturn htype (by decide) (fun e he => by cases he) t
      · rename_i htype
        obtain ⟨t', st', hyields, ht', htype'⟩ := hparts.descend_all ht (fun _ => some nesting) st
        refine ⟨_, _, hyields.bind ((yields_modify _).bind (Yields.pure _ _)), regular_keep ?_, trivial⟩
        refine hreturn htype (by decide) (fun e he => ?_) t'
        rw [← Option.some.inj he]
        have hvalue : Derives labels .expression
            (if (t'.get "argument").isSet then t'.get "argument" else voidZero) := by
          split
          · rename_i hset
            refine (ht'.optional (htype'.trans htype) rfl).resolve_left fun hnull => ?_
            rw [hnull] at hset
            cases hset
          · exact derives_voidZero (by decide)
        refine derives_objectExpression (fun p hp => ?_) (by decide)
        rw [List.mem_singleton.mp hp]
        exact derives_property (derives_identifier "v" .null (by decide)) hvalue .null
      · exact hpass _

/-- **Signals leave statements.** -/
theorem derives_signal {ts : List Tree} (h : ∀ t ∈ ts, Derives labels .statement t) :
    ∃ moved signals, signal ts = .ok (moved, signals) ∧ ∀ t ∈ moved, Derives labels .statement t := by
  obtain ⟨os, signals, hyields, -, hos, -⟩ := visitItems_keep signalHandle_keeps ts {} .statement
    false {} (fun t ht => (h t ht).fits) (fun _ _ _ => trivial) trivial
  refine ⟨_, signals, hyields, fun t ht => ?_⟩
  obtain ⟨o, ho, ht⟩ := List.mem_flatMap.mp ht
  exact ((hos o ho).resolve_right fun hfalse => Bool.noConfusion hfalse.1).inList t ht

/-! ## Wrapped loops -/

/-- The body of a loop is a statement. -/
theorem slot?_body (h : isLoop t) : slot? s t "body" = some (.one .statement) := by
  have hrule : ∀ type ∈ loopTypes, (rulesFor type).lookup "body" = some (.one .statement) := by decide
  obtain ⟨type, hmem, htype⟩ := isTypeIn_iff.mp h
  exact slot?_one htype (hrule type hmem)

theorem derives_statements (ht : Derives labels s t) (h : isLoop t) :
    ∀ x ∈ statements t, Derives labels .statement x := by
  have hbody := fits_one_iff.mp (ht.get?_of_slot? (slot?_body h) rfl).2
  simp only [statements]
  split
  · rename_i hblock
    exact (hbody.many (isType_iff.mp hblock) rfl).2
  · rw [if_pos hbody.isSet]
    exact List.forall_mem_singleton.mpr hbody

/-- What declares the bindings of a loop is a part of it. -/
theorem exists_derives_head (ht : Derives labels s t) (h : isBlockDeclaration (head t)) :
    ∃ x, Derives labels x (head t) := by
  have hnull : ¬ isBlockDeclaration .null := by decide
  have hone : ∀ {x : Symbol}, Derives labels x (t.get "left") → ∃ x, Derives labels x (t.get "left") :=
    fun h => ⟨_, h⟩
  rw [head, headKey?] at h ⊢
  split at h
  · rename_i htype
    rcases ht.optional htype (k := "init") rfl with hinit | hinit
    · simp only [Option.map_some, Option.getD_some, hinit] at h
      exact absurd h hnull
    · exact ⟨_, hinit⟩
  · rename_i htype
    exact hone (ht.one htype rfl)
  · rename_i htype
    exact hone (ht.one htype rfl)
  · exact absurd h hnull

theorem isSome_of_mem_headNames (ht : Derives labels s t) : ∀ n ∈ headNames t, n.isSome := by
  intro n hn
  rw [headNames] at hn
  split at hn
  · rename_i hblock
    obtain ⟨x, hhead⟩ := exists_derives_head ht hblock
    obtain ⟨d, hd, hn⟩ := List.mem_flatMap.mp hn
    have hdeclarator := (hhead.several (isBlockDeclaration_iff.mp hblock).1 rfl).2.2 d hd
    have hid : Derives labels .pattern (d.get "id") := hdeclarator.one (hdeclarator.type_eq rfl) rfl
    exact isSome_of_mem_patternNames hid.fits n hn
  · cases hn

theorem derives_named {n : Option String} (h : n.isSome) (hs : "Identifier" ∈ s.types) :
    Derives labels s (named n) := by
  obtain ⟨name, rfl⟩ := Option.isSome_iff_exists.mp h
  exact derives_identifierNode ⟨name, rfl⟩ hs

theorem derives_hoistedDeclaration {names : List (Option String)} (h : ∀ n ∈ names, n.isSome) :
    ∀ d ∈ hoistedDeclaration t names, Derives labels .statement d := by
  intro d hd
  rw [hoistedDeclaration] at hd
  split at hd
  · cases hd
  · rename_i hne
    have hdeclaration : Derives labels .statement
        (declaration "var" (names.map fun n => declarator (named n))) := by
      refine derives_declaration (by decide) ?_ ?_ .null (by decide)
      · rw [Ne, List.map_eq_nil_iff]
        exact fun hnil => hne (List.isEmpty_iff.mpr hnil)
      · rw [List.forall_mem_map]
        exact fun n hn => derives_declarator (derives_named (h n hn) (by decide)) (fun e he => by cases he)
    split at hd
    · rw [List.mem_singleton.mp hd]
      refine derives_set hdeclaration (by decide) ?_
      rw [slot?_of_isPlaceKey rfl]
      exact .inl rfl
    · rw [List.mem_singleton.mp hd]
      exact hdeclaration

theorem derives_invocation {arguments : List Tree}
    (h : ∀ a ∈ arguments, Derives labels .argument a) (name : String) (usesThis : Bool) :
    Derives labels .expression (invocation name arguments usesThis) := by
  have hname : ∀ {x : Symbol}, "Identifier" ∈ x.types → Derives labels x (identifier name) :=
    fun hx => derives_identifier name .null hx
  rw [invocation]
  split
  · refine derives_call (derives_dot (hname (by decide)) "call" (by decide)) ?_ .null (by decide)
    exact List.forall_mem_cons.mpr ⟨derives_thisExpression .null (by decide), h⟩
  · exact derives_call (hname (by decide)) h .null (by decide)

theorem derives_dispatch (name : String) (signals : Signals) :
    ∀ d ∈ dispatch name signals, Derives labels .statement d := by
  have hname : ∀ {x : Symbol}, "Identifier" ∈ x.types → Derives labels x (identifier name) :=
    fun hx => derives_identifier name .null hx
  have htext : ∀ text, Derives labels .expression (literal (.str text)) := fun text =>
    derives_literal rfl .null (by decide)
  refine List.forall_mem_append.mpr ⟨?_, ?_⟩
  · split
    · exact List.forall_mem_singleton.mpr (derives_ifStatement
        (derives_binary (by decide) (hname (by decide)) (htext "break") .null (by decide))
        (derives_new (by decide) (by repeat constructor) rfl (by decide) nofun) (by decide))
    · exact List.forall_mem_nil _
  · split
    · refine List.forall_mem_singleton.mpr (derives_ifStatement
        (derives_binary (by decide) (derives_unary "typeof" (hname (by decide)) (by decide))
          (htext "object") .null (by decide))
        (derives_returnStatement (fun e he => ?_) .null (by decide)) (by decide))
      rw [← Option.some.inj he]
      exact derives_dot (hname (by decide)) "v" (by decide)
    · exact List.forall_mem_nil _

theorem exists_newBody {call : Tree} (hcall : Derives labels .expression call) (signals : Signals)
    (names : NameSupply) : ∃ body names', Yields (newBody signals call) names body names' ∧
      Derives labels .statement body := by
  rw [newBody]
  cases hany : signals.any with
  | true =>
    refine ⟨_, _, yields_get.bind ((yields_set _).bind (Yields.pure _ _)), ?_⟩
    refine derives_block (List.forall_mem_cons.mpr ⟨?_, derives_dispatch _ signals⟩) .null (by decide)
    exact derives_var _ hcall .null (by decide)
  | false =>
    refine ⟨_, _, Yields.pure _ _, derives_block (List.forall_mem_singleton.mpr ?_) .null (by decide)⟩
    exact derives_expressionStatement hcall .null (by decide)

/-- **A wrapped loop**: what goes in front of it are statements, and so is its new body. -/
theorem exists_wrap (ht : Derives labels s t) (h : isLoop t) (names : NameSupply) :
    ∃ w names', Yields (wrap t) names w names' ∧
      (∀ x ∈ w.before, Derives labels .statement x) ∧ Derives labels .statement w.body := by
  obtain ⟨hoisted, varNames, hhoist, hhoisted, hvarNames⟩ := derives_hoist (derives_statements ht h)
  obtain ⟨moved, signals, hsignal, hmoved⟩ := derives_signal hhoisted
  have hnamed : ∀ {x : Symbol}, "Identifier" ∈ x.types →
      ∀ p ∈ (headNames t).map named, Derives labels x p := by
    intro x hx
    rw [List.forall_mem_map]
    exact fun n hn => derives_named (isSome_of_mem_headNames ht n hn) hx
  have hfunction : Derives labels .expression
      (functionExpression ((headNames t).map named) (block moved)) :=
    derives_functionExpression (hnamed (by decide)) (derives_block hmoved .null (by decide)) {} .null
      (by decide)
  have hbefore : ∀ name, ∀ x ∈ hoistedDeclaration t varNames ++
      [var name (some (functionExpression ((headNames t).map named) (block moved))) t],
      Derives labels .statement x := fun name =>
    List.forall_mem_append.mpr ⟨derives_hoistedDeclaration hvarNames,
      List.forall_mem_singleton.mpr (derives_var name hfunction t (by decide))⟩
  have hcall := fun name => derives_invocation (hnamed (by decide)) name (bodyUsesThis moved)
  obtain ⟨body, names', hbody, hderives⟩ := exists_newBody (hcall _) signals _
  exact ⟨_, names', (yields_liftM hhoist).bind ((yields_liftM hsignal).bind (yields_get.bind
    ((yields_set _).bind (hbody.bind (Yields.pure _ _))))), hbefore _, hderives⟩

/-- Where a loop can stand, every statement can. -/
theorem symbol_of_loop (ht : Derives labels s t) (h : isLoop t) :
    s = .statement ∨ s = .moduleItem := by
  obtain ⟨type, hmem, htype⟩ := isTypeIn_iff.mp h
  have hin := ht.mem_types htype
  simp only [loopTypes, List.mem_cons, List.not_mem_nil, or_false] at hmem
  revert hin
  rcases hmem with rfl | rfl | rfl | rfl | rfl <;> cases s <;> decide

theorem wrapHandle_keeps (loops : List Nat) : ∀ depth,
    HandlerKeeps (regularContract Unit NameSupply labels) labels (wrapHandle loops depth) := by
  intro depth
  -- The loops in what goes in front of a loop are wrapped at a smaller depth.
  induction depth with
  | zero =>
    intro c s t parts st _ ht hparts hst
    exact hparts.pass () ht (fun _ _ _ _ _ _ _ _ => trivial) (fun _ _ => id) hst
  | succ depth ih =>
    intro c s t parts st _ ht hparts hst
    simp only [wrapHandle]
    split
    · exact hparts.pass () ht (fun _ _ _ _ _ _ _ _ => trivial) (fun _ _ => id) hst
    · rename_i hplanned
      have hloop : isLoop t := by
        simp only [Bool.not_eq_true', Bool.not_eq_false, Bool.and_eq_true] at hplanned
        exact hplanned.1
      obtain ⟨w, st₁, hwrap, hbefore, hbody⟩ := exists_wrap ht hloop st
      obtain ⟨os, st₂, hvisit, -, hos, -⟩ := visitItems_keep ih w.before () .statement false st₁
        (fun x hx => (hbefore x hx).fits) (fun _ _ _ => trivial) trivial
      obtain ⟨t', st₃, hdescend, ht', htype'⟩ := hparts.descend_all ht
        (fun key => if key = "body" then none else some ()) st₂
      have hloop' : isLoop t' := by
        rw [isLoop, isTypeIn_congr htype']
        exact hloop
      have hsymbol := symbol_of_loop ht hloop
      refine ⟨_, st₃, hwrap.bind (hvisit.bind (hdescend.bind (Yields.pure _ _))),
        .inr ⟨_, rfl, hsymbol, List.forall_mem_append.mpr ⟨fun x hx => ?_, ?_⟩⟩, trivial⟩
      · obtain ⟨o, ho, hx⟩ := List.mem_flatMap.mp hx
        have hregular := (hos o ho).resolve_right fun hfalse => Bool.noConfusion hfalse.1
        exact (hregular.inList x hx).as_item hsymbol
      · exact List.forall_mem_singleton.mpr
          (ht'.set_slot (slot?_body hloop') (by decide) hbody.fits)

/-- **A program with wrapped loops is a program.** -/
theorem derives_wrapLoops (ht : Derives labels .program t) (loops : List Nat) (names : NameSupply) :
    ∃ t', wrapLoops loops names t = .ok t' ∧ Derives labels .program t' := by
  obtain ⟨t', names', hyields, ht'⟩ := visit_program (wrapHandle_keeps loops (loops.length + 1)) ht
    trivial (fun _ => id) trivial
  refine ⟨t', ?_, ht'⟩
  rw [wrapLoops, show StateT.run _ _ = _ from hyields]
  rfl

/-! ## Declarations with `var` -/

theorem derives_resetDeclarator {d : Tree} (h : Derives labels .declarator d) :
    Derives labels .declarator (resetDeclarator d) := by
  rw [resetDeclarator]
  split
  · exact h.set_slot (slot?_optional (h.type_eq rfl) rfl)
      (by decide) (fits_optional_iff.mpr (.inr (derives_voidZero (by decide))))
  · exact h

theorem derives_withDeclarators (ht : Derives labels s t)
    (htype : t.type? = some "VariableDeclaration") (inLoop : Bool) :
    Derives labels s (withDeclarators inLoop t) := by
  obtain ⟨-, hne, hall⟩ := ht.several htype (k := "declarations") rfl
  rw [withDeclarators]
  split
  · refine ht.set_slot (slot?_several htype rfl) (by decide) (fits_several_iff.mpr ⟨_, rfl, ?_, ?_⟩)
    · rwa [Ne, List.map_eq_nil_iff]
    · rw [List.forall_mem_map]
      exact fun d hd => derives_resetDeclarator (hall d hd)
  · exact ht

/-- Whatever the keyword, a declaration is one. -/
theorem derives_set_kind {kind : String} (ht : Derives labels s t)
    (htype : t.type? = some "VariableDeclaration") (hkind : kind ∈ ["var", "let", "const"]) :
    Derives labels s (t.set "kind" (.str kind)) := by
  have htype' : (t.set "kind" (.str kind)).type? = some "VariableDeclaration" := by
    rw [type?, get_set_of_ne (by decide)]
    exact htype
  have hs : s ≠ .patternProperty := by
    rintro rfl
    exact absurd (ht.mem_types htype) (by decide)
  have hrules : ∀ {t' : Tree}, t'.type? = some "VariableDeclaration" →
      rulesOf t' = [("kind", .keyword), ("declarations", .several .declarator)] := by
    intro t' h
    rw [rulesOf_of_type? h, rulesFor_of_mem (by repeat constructor)]
  have hparts := ht.parts
  rw [hrules htype] at hparts
  simp only [List.forall_mem_cons] at hparts
  refine derives_of_parts ((isObject_set t _ _).trans ht.isObject) ?_
    (admits_of_mem htype' (ht.mem_types htype) hs) (distinct_set ht.distinct) ?_ ?_
  · rw [agrees_congr (mark?_set t _ _) (htype'.trans htype.symm)
      ((isWritten_of_type? htype' (by decide)).trans (isWritten_of_type? htype (by decide)).symm)]
    exact ht.agrees
  · rw [hrules htype']
    simp only [List.forall_mem_cons]
    refine ⟨?_, ?_, List.forall_mem_nil _⟩
    · rw [get_set_self ht.isObject]
      exact List.contains_iff_mem.mpr hkind
    · rw [get_set_of_ne (by decide)]
      exact hparts.2.1
  · intro f hf hnone
    rw [hrules htype'] at hnone
    cases t with
    | obj m fs =>
      rcases mem_insert hf with rfl | hf
      · cases hnone
      · exact ht.rest f hf (by rw [hrules htype]; exact hnone)
    | _ => cases hf

theorem derives_convert (ht : Derives labels s t) (kept : List Nat) (inLoop : Bool) :
    Derives labels s (convert kept inLoop t) := by
  rcases convert_cases kept inLoop t with heq | ⟨hblock, -, heq⟩
  · rw [heq]
    exact ht
  · rw [heq]
    have htype := (isBlockDeclaration_iff.mp hblock).1
    refine derives_set_kind (derives_withDeclarators ht htype inLoop) ?_ (by decide)
    rw [type?, get_withDeclarators (by decide)]
    exact htype

theorem declareHandle_keeps (kept : List Nat) :
    HandlerKeeps (regularContract Surroundings Unit labels) labels (declareHandle kept) := by
  intro c s t parts st _ ht hparts hst
  obtain ⟨contexts, inLoop, -, hhandle⟩ := declareHandle_eq kept c t parts
  obtain ⟨t', st', hyields, ht', -⟩ := hparts.descend_all ht contexts ()
  refine ⟨_, (), hhandle ▸ hyields.map _, regular_keep ?_, trivial⟩
  split
  · exact derives_convert ht' kept inLoop
  · exact ht'

/-- **A program with `var` for `let` and `const` is a program.** -/
theorem derives_declareVars (ht : Derives labels .program t) (kept : List Nat) :
    ∃ t', declareVars kept t = .ok t' ∧ Derives labels .program t' := by
  obtain ⟨t', st', hyields, ht'⟩ := visit_program (declareHandle_keeps kept) ht trivial
    (fun _ => id) trivial
  refine ⟨t', ?_, ht'⟩
  rw [declareVars, show StateT.run _ _ = _ from hyields]
  rfl

/-! ## The lowering -/

/-- **The steps of the lowering**: none of them fails, and each leaves a program, in which objects with one
mark are still of one type. -/
theorem exists_steps {typeOf : Nat → Option String} {isStrict : Bool}
    (ht : Derives ⟨some typeOf, isStrict⟩ .program t) :
    let a := analyzeMarked t.identify
    let renamed := renameAll a (plan a).kept (.ofTree t.identify)
    ∃ wrapped declared typeOf',
      wrapLoops (plan a).loops renamed.names (renamed.changes.apply t.identify) = .ok wrapped ∧
      declareVars (plan a).kept wrapped = .ok declared ∧ lower t = .ok ⟨declared, (plan a).diagnostics⟩ ∧
      Derives ⟨some typeOf', isStrict⟩ .program wrapped ∧
      Derives ⟨some typeOf', isStrict⟩ .program declared := by
  intro a renamed
  obtain ⟨hprogram, hcoherent⟩ := exists_labels_iff.mp ⟨typeOf, ht.fits⟩
  have hmarked := fits_identify hprogram
  have hmarks := isCoherent_identify hcoherent
  obtain ⟨typeOf', hlabelled⟩ := exists_labels_iff.mpr ⟨hmarked, hmarks⟩
  have hrenamed := fits_one_iff.mp (fits_apply hlabelled
    (renamesNames (isWellNamed_of_fits hmarked) hmarks (plan a).kept (.ofTree t.identify)))
  obtain ⟨wrapped, hwrap, hwrapped⟩ := derives_wrapLoops hrenamed (plan a).loops renamed.names
  obtain ⟨declared, hdeclare, hdeclared⟩ := derives_declareVars hwrapped (plan a).kept
  refine ⟨wrapped, declared, typeOf', hwrap, hdeclare, ?_, hwrapped, hdeclared⟩
  have hlower : lower t = (do
      let wrapped ← wrapLoops (plan a).loops renamed.names (renamed.changes.apply t.identify)
      return ⟨← declareVars (plan a).kept wrapped, (plan a).diagnostics⟩) := rfl
  rw [hlower, hwrap, ok_bind, hdeclare, ok_bind]
  rfl

/-- **A program without block bindings is a program**, and objects with one mark are still of one type. -/
theorem derives_lower {typeOf : Nat → Option String} {isStrict : Bool}
    (ht : Derives ⟨some typeOf, isStrict⟩ .program t) :
    ∃ out typeOf', lower t = .ok out ∧ Derives ⟨some typeOf', isStrict⟩ .program out.tree := by
  obtain ⟨wrapped, declared, typeOf', -, -, hlower, -, hdeclared⟩ := exists_steps ht
  exact ⟨_, typeOf', hlower, hdeclared⟩

end Downlevel.Lower.Block
