import Downlevel.Lower.Arrow
import Downlevel.Proofs.Grammar.Regular

/-!
# `Proofs.Lower.Arrow`: programs without arrow functions are programs

An arrow function becomes a function expression with the same parameters and a block for a body; aliases
are identifiers in the place of other expressions; and a frame gets declarations among its statements.
-/

namespace Downlevel.Lower.Arrow

open Tree Node Grammar

variable {labels : Labelling} {s : Symbol} {t : Tree} {parts : Parts Context Aliases} {v : Tree}

/-! ## Aliases -/

/-- The alias of `this`, taken from the supply if there is none yet. -/
def Aliases.withThis (st : Aliases) : String × Aliases :=
  match st.thisAlias with
  | some name => (name, st)
  | none =>
    let (name, names) := st.names.fresh "this"
    (name, { st with names := names, thisAlias := some name })

/-- The alias of `arguments`, taken from the supply if there is none yet. -/
def Aliases.withArguments (st : Aliases) : String × Aliases :=
  match st.argumentsAlias with
  | some name => (name, st)
  | none =>
    let (name, names) := st.names.fresh "arguments"
    (name, { st with names := names, argumentsAlias := some name })

theorem yields_thisName (st : Aliases) : Yields thisName st st.withThis.1 st.withThis.2 := by
  refine yields_get.bind ?_
  rw [Aliases.withThis]
  cases st.thisAlias <;> rfl

theorem yields_argumentsName (st : Aliases) :
    Yields argumentsName st st.withArguments.1 st.withArguments.2 := by
  refine yields_get.bind ?_
  rw [Aliases.withArguments]
  cases st.argumentsAlias <;> rfl

/-- The aliases once that of `this` is there, if it is needed. -/
def Aliases.afterThis (st : Aliases) : Aliases := if st.usesThis then st.withThis.2 else st

/-- The declarations of the aliases that the current frame needs. -/
def Aliases.declarations (st : Aliases) : List Tree :=
  (if st.usesThis then [var st.withThis.1 (some thisExpression)] else []) ++
    (if st.usesArguments then
      [var st.afterThis.withArguments.1 (some (identifier "arguments"))] else [])

/-- The aliases once they are declared. -/
def Aliases.declared (st : Aliases) : Aliases :=
  if st.usesArguments then st.afterThis.withArguments.2 else st.afterThis

theorem yields_aliasDeclarations (st : Aliases) :
    Yields aliasDeclarations st st.declarations st.declared := by
  -- What follows once the alias of `this` is declared.
  have hclose : ∀ (forThis : List Tree) (st₁ : Aliases), Yields
      (if st.usesArguments = true then do
        let name ← argumentsName
        let forArguments ← pure [var name (some (identifier "arguments"))]
        pure (forThis ++ forArguments)
      else do
        let forArguments ← pure []
        pure (forThis ++ forArguments)) st₁
      (forThis ++ if st.usesArguments then
        [var st₁.withArguments.1 (some (identifier "arguments"))] else [])
      (if st.usesArguments then st₁.withArguments.2 else st₁) := by
    intro forThis st₁
    cases st.usesArguments with
    | false => exact (Yields.pure _ _).bind (Yields.pure _ _)
    | true => exact (yields_argumentsName st₁).bind ((Yields.pure _ _).bind (Yields.pure _ _))
  refine yields_get.bind ?_
  rw [Aliases.declarations, Aliases.declared, Aliases.afterThis]
  cases st.usesThis with
  | false => exact (Yields.pure _ _).bind (hclose _ _)
  | true => exact (yields_thisName st).bind ((Yields.pure _ _).bind (hclose _ _))

/-- The declarations of aliases can stand wherever declarations can. -/
theorem derives_declarations (st : Aliases) (hs : "VariableDeclaration" ∈ s.types) :
    ∀ d ∈ st.declarations, Derives labels s d := by
  have hthis : ∀ name, Derives labels s (var name (some thisExpression)) :=
    fun name => derives_var name (derives_thisExpression .null (by decide)) .null hs
  have harguments : ∀ name, Derives labels s (var name (some (identifier "arguments"))) :=
    fun name => derives_var name (derives_identifier _ .null (by decide)) .null hs
  rw [Aliases.declarations]
  refine List.forall_mem_append.mpr ⟨?_, ?_⟩
  · cases st.usesThis
    · simp
    · exact List.forall_mem_singleton.mpr (hthis _)
  · cases st.usesArguments
    · simp
    · exact List.forall_mem_singleton.mpr (harguments _)

/-! ## Frames -/

/-- Nodes that provide `this`. -/
def frameTypes : List String := ["Program", "FunctionDeclaration", "FunctionExpression"]

/-- The context in which the parts of a frame are visited. -/
def frameContext (c : Context) (t : Tree) : Context :=
  { allowsArguments := !t.isType "Program"
    superCallMissing := decide (c.place = .constructorFunction) && !(statementsOf t).any isSuperCall }

/-- A frame with declarations of aliases among its statements. -/
def withDeclarations (derived : Bool) (declarations : List Tree) (t : Tree) : Tree :=
  if declarations.isEmpty then t
  else
    let n := aliasIndex derived (statementsOf t)
    setStatements t ((statementsOf t).take n ++ declarations ++ (statementsOf t).drop n)

theorem yields_frame {c : Context} {st st₁ : Aliases} {t₁ : Tree}
    (h : Yields (parts.descend fun key => some ((frameContext c t).at t key))
      { st with usesThis := false, usesArguments := false } t₁ st₁) :
    Yields (frame c t parts) st
      (.keep (withDeclarations (decide (c.place = .constructorFunction)) st₁.declarations
        (withStatements t₁)))
      { st₁.declared with usesThis := st.usesThis, usesArguments := st.usesArguments } := by
  refine yields_get.bind ((yields_set _).bind (h.bind
    ((yields_aliasDeclarations st₁).bind ((yields_modify _).bind ?_))))
  rw [withDeclarations]
  split <;> exact Yields.pure _ _

/-- A frame is a program, or a function whose body is a block. -/
theorem frame_cases (ht : Derives labels s t) (h : t.isTypeIn frameTypes) :
    (t.isType "Program" ∧ slot? s t "body" = some (.many .moduleItem)) ∨
      (t.isType "Program" = false ∧ slot? s t "body" = some (.one .block) ∧
        Derives labels .block (t.get "body")) := by
  obtain ⟨type, hmem, htype⟩ := isTypeIn_iff.mp h
  have hfunction : slot? s t "body" = some (.one .block) → Derives labels .block (t.get "body") :=
    fun hslot => fits_one_iff.mp (ht.get?_of_slot? hslot rfl).2
  simp only [frameTypes, List.mem_cons, List.not_mem_nil, or_false] at hmem
  rcases hmem with rfl | rfl | rfl
  · exact .inl ⟨isType_iff.mpr htype, slot?_many htype rfl⟩
  all_goals
    have hslot : slot? s t "body" = some (.one .block) := slot?_one htype rfl
    exact .inr ⟨isType_of_type? htype _, hslot, hfunction hslot⟩

/-- A derived frame has a list of statements. -/
theorem withStatements_of_derives (ht : Derives labels s t) (h : t.isTypeIn frameTypes) :
    withStatements t = t := by
  rcases frame_cases ht h with ⟨hprogram, hslot⟩ | ⟨hprogram, hslot, hblock⟩
  · rw [withStatements, if_pos hprogram, withBody, has, (ht.get?_of_slot? hslot rfl).1]
    rfl
  · have hbody : withBody (t.get "body") = t.get "body" := by
      rw [withBody, has, (hblock.get?_of_slot? hblock.slot?_block rfl).1]
      rfl
    rw [withStatements, if_neg (by simp [hprogram]), if_pos hblock.isSet, hbody,
      set_of_get? (ht.get?_of_slot? hslot rfl).1]

/-- A frame with declarations among its statements is still a frame. -/
theorem derives_withDeclarations (ht : Derives labels s t) (h : t.isTypeIn frameTypes)
    (derived : Bool) {new : List Tree}
    (hnew : ∀ x : Symbol, "VariableDeclaration" ∈ x.types → ∀ d ∈ new, Derives labels x d) :
    Derives labels s (withDeclarations derived new t) := by
  rw [withDeclarations]
  split
  · exact ht
  rcases frame_cases ht h with ⟨hprogram, hslot⟩ | ⟨hprogram, hslot, hblock⟩
  · rw [setStatements, statementsOf, if_pos hprogram, if_pos hprogram]
    exact ht.insert_many hslot (by decide) (hnew _ (by decide)) _
  · rw [setStatements, statementsOf, if_neg (by simp [hprogram]), if_neg (by simp [hprogram])]
    refine ht.set_slot hslot (by decide) (fits_one_iff.mpr ?_)
    exact hblock.insert_many hblock.slot?_block (by decide) (hnew _ (by decide)) _

theorem derives_frame (hparts : PartsKeep (regularContract Context Aliases labels) labels s t parts)
    (ht : Derives labels s t) (h : t.isTypeIn frameTypes) (c : Context) (st : Aliases) :
    ∃ o st', Yields (frame c t parts) st o st' ∧ Regular labels s o := by
  obtain ⟨t₁, st₁, hyields, ht₁, htype⟩ := hparts.descend_all ht
    (fun key => some ((frameContext c t).at t key))
    { st with usesThis := false, usesArguments := false }
  have hframe := (isTypeIn_congr htype _).trans h
  refine ⟨_, _, yields_frame hyields, regular_keep ?_⟩
  rw [withStatements_of_derives ht₁ hframe]
  exact derives_withDeclarations ht₁ hframe _ fun x hx => derives_declarations st₁ hx

/-! ## Arrow functions -/

/-- The body of an arrow function is a block, or an expression that is returned. -/
theorem blockBody_cases (ht : Derives labels s t) (htype : t.type? = some "ArrowFunctionExpression") :
    (Derives labels .block (t.get "body") ∧ blockBody t = t.get "body") ∨
      (Derives labels .expression (t.get "body") ∧
        blockBody t = block [returnStatement (some (t.get "body")) (t.get "body")] (t.get "body")) := by
  rw [blockBody]
  rcases ht.arrow_body htype with ⟨hblock, hexpression⟩ | ⟨hbody, hnot⟩
  · refine .inl ⟨hblock, ?_⟩
    simp [hexpression, isType_iff.mpr (hblock.type_eq rfl)]
  · refine .inr ⟨hbody, ?_⟩
    simp [hnot, hbody.isSet]

theorem derives_blockBody (ht : Derives labels s t)
    (htype : t.type? = some "ArrowFunctionExpression") : Derives labels .block (blockBody t) := by
  rcases blockBody_cases ht htype with ⟨hblock, heq⟩ | ⟨hbody, heq⟩
  all_goals rw [heq]
  · exact hblock
  · refine derives_block (List.forall_mem_singleton.mpr ?_) _ (by decide)
    refine derives_returnStatement ?_ _ (by decide)
    intro e he
    cases he
    exact hbody

/-- The function that an arrow function becomes. -/
def asFunction (t : Tree) : Tree :=
  functionExpression (t.children "params") (blockBody t) ⟨none, false, (t.get "async").isSet⟩ t

theorem derives_asFunction (ht : Derives labels s t)
    (htype : t.type? = some "ArrowFunctionExpression") : Derives labels s (asFunction t) := by
  have hfunction : t.isTypeIn functionTypes := isTypeIn_of_mem htype (by decide)
  refine derives_functionExpression (ht.function_params hfunction) (derives_blockBody ht htype) _ t ?_
  exact expressionTypes_subset (ht.mem_types htype) (by decide) (by decide)

section

variable {c : Context} {parts : Parts Context Aliases} {st st₁ : Aliases} {t₁ : Tree}

/-- An arrow function that uses `this` before it exists stays as it is. -/
theorem yields_arrow_left (parts : Parts Context Aliases) (st : Aliases)
    (h : (c.superCallMissing && t.usesThis)) :
    ∃ ds, Yields (arrow c t parts) st (.keep t) { st with diagnostics := ds } := by
  rw [arrow, if_pos h]
  exact ⟨_, (yields_modify _).bind (Yields.pure _ _)⟩

/-- An arrow function that uses `super` or `new.target` is only searched. -/
theorem yields_arrow_stays (h : (c.superCallMissing && t.usesThis) = false)
    (hstays : (t.usesSuper || t.usesNewTarget))
    (hparts : Yields (parts.descend fun key => some { c.at t key with inArrow := true }) st t₁ st₁) :
    ∃ ds, Yields (arrow c t parts) st (.keep t₁) { st₁ with diagnostics := ds } := by
  rw [arrow, if_neg (by simp [h])]
  simp only [hstays, if_true]
  exact ⟨_, hparts.bind ((yields_modify _).bind (Yields.pure _ _))⟩

/-- All other arrow functions become functions. -/
theorem yields_arrow_function (h : (c.superCallMissing && t.usesThis) = false)
    (hstays : (t.usesSuper || t.usesNewTarget) = false)
    (hparts : Yields (parts.descend fun key => some { c.at t key with inArrow := true }) st t₁ st₁) :
    Yields (arrow c t parts) st (.keep (asFunction t₁)) st₁ := by
  rw [arrow, if_neg (by simp [h])]
  refine hparts.bind ?_
  rw [if_neg (by simp [hstays])]
  exact Yields.pure _ _

end

theorem derives_arrow (hparts : PartsKeep (regularContract Context Aliases labels) labels s t parts)
    (ht : Derives labels s t) (htype : t.type? = some "ArrowFunctionExpression") (c : Context) (st : Aliases) :
    ∃ o st', Yields (arrow c t parts) st o st' ∧ Regular labels s o := by
  obtain ⟨t₁, st₁, hyields, ht₁, htype₁⟩ :=
    hparts.descend_all ht (fun key => some { c.at t key with inArrow := true }) st
  cases hleft : c.superCallMissing && t.usesThis with
  | true =>
    obtain ⟨ds, h⟩ := yields_arrow_left parts st hleft
    exact ⟨_, _, h, regular_keep ht⟩
  | false =>
    cases hstays : t.usesSuper || t.usesNewTarget with
    | true =>
      obtain ⟨ds, h⟩ := yields_arrow_stays hleft hstays hyields
      exact ⟨_, _, h, regular_keep ht₁⟩
    | false =>
      exact ⟨_, _, yields_arrow_function hleft hstays hyields,
        regular_keep (derives_asFunction ht₁ (htype₁.trans htype))⟩

/-! ## Members and properties -/

section

variable {c : Context} {parts : Parts Context Aliases} {st st₁ st₂ : Aliases} {o₁ o₂ : Outcome}

theorem yields_keyed_computed (hkey : t.get? "key" = some v) (hcomputed : (t.get "computed").isSet)
    (hvalue : (t.get "value").isNull = false) (h₁ : Yields (parts.field "key" (c.at t "key")) st o₁ st₁)
    (h₂ : Yields (parts.field "value" (c.at (t.set "key" o₁.value) "value")) st₁ o₂ st₂) :
    Yields (keyed c t parts) st (.keep ((t.set "key" o₁.value).set "value" o₂.value)) st₂ := by
  rw [keyed, hcomputed]
  refine (yields_require hkey).bind (h₁.bind ((Yields.pure _ _).bind ?_))
  have hsame : ((t.set "key" o₁.value).get "value").isNull = false := by
    rw [get_set_of_ne (by decide), hvalue]
  simp only [hsame, Bool.false_eq_true, if_false]
  exact h₂.bind (Yields.pure _ _)

end

/-- The value of a property or a method is a single node. -/
theorem slot?_value (h : t.isTypeIn ["Property", "MethodDefinition"]) :
    ∃ x, slot? s t "value" = some (.one x) ∧ x ≠ .statement ∧ x ≠ .moduleItem := by
  obtain ⟨type, hmem, htype⟩ := isTypeIn_iff.mp h
  rcases List.mem_pair.mp hmem with rfl | rfl
  · have hslot : slot? s t "value" = some (valueSlot.resolve s t) := slot?_of_rule htype rfl
    rw [hslot, valueSlot, Slot.resolve]
    split
    · exact ⟨_, rfl, by decide⟩
    · rw [Slot.resolve]
      split
      · exact ⟨_, rfl, by decide⟩
      · exact ⟨_, rfl, by decide⟩
  · exact ⟨.function, slot?_one htype rfl, by decide⟩

/-- The key of a property or a method is an expression if it is computed. -/
theorem slot?_key (h : t.isTypeIn ["Property", "MethodDefinition"])
    (hcomputed : (t.get "computed").isSet) : slot? s t "key" = some (.one .expression) := by
  obtain ⟨type, hmem, htype⟩ := isTypeIn_iff.mp h
  have hslot : slot? s t "key" = some (keySlot.resolve s t) := by
    rcases List.mem_pair.mp hmem with rfl | rfl
    all_goals exact slot?_of_rule htype rfl
  rwa [keySlot, Slot.resolve, Trait.holds, if_pos hcomputed] at hslot

section

variable {parts : Parts Context Aliases}
  (hparts : PartsKeep (regularContract Context Aliases labels) labels s t parts)

include hparts

/-- A field with one node can be visited and written again. -/
theorem derives_set_field {key : String} {x : Symbol} {t' : Tree} (ht : Derives labels s t)
    (hslot : slot? s t key = some (.one x)) (hx : x ≠ .statement ∧ x ≠ .moduleItem)
    (hkey : key ∉ traitKeys) (ht' : Derives labels s t')
    (hslot' : slot? s t' key = slot? s t key) (c : Context) (st : Aliases) :
    ∃ o st', Yields (parts.field key c) st o st' ∧ Derives labels s (t'.set key o.value) := by
  obtain ⟨v, st', hyields, hv, -⟩ := hparts.one c ht hslot hx (fun _ => trivial) (fun _ => id) trivial
  exact ⟨.keep v, st', hyields, ht'.set_slot (hslot'.trans hslot) hkey hv.fits⟩

theorem derives_memberExpression (ht : Derives labels s t)
    (htype : t.type? = some "MemberExpression") (c : Context) (st : Aliases) :
    ∃ o st', Yields (memberExpression c t parts) st o st' ∧ Regular labels s o := by
  have hobject : slot? s t "object" = some (.one .callee) := slot?_one htype rfl
  have hsome := (ht.get?_of_slot? hobject rfl).1
  obtain ⟨o₁, st₁, hyields₁, ht₁⟩ := derives_set_field hparts ht hobject (by decide) (by decide) ht
    rfl (c.at t "object") st
  cases hcomputed : (t.get "computed").isSet with
  | false =>
    refine ⟨_, st₁, (yields_require hsome).bind (hyields₁.bind ?_), regular_keep ht₁⟩
    have hsame : ((t.set "object" o₁.value).get "computed").isSet = false := by
      rw [get_set_of_ne (by decide), hcomputed]
    simp only [hsame, Bool.not_false, if_true]
    exact Yields.pure _ _
  | true =>
    have hproperty : slot? s t "property" = some (.one .expression) := by
      rw [slot?_property htype, if_pos hcomputed]
    have hslot : slot? s (t.set "object" o₁.value) "property" = slot? s t "property" :=
      slot?_set (by decide) _ _
    obtain ⟨o₂, st₂, hyields₂, ht₂⟩ := derives_set_field hparts ht hproperty (by decide)
      (by decide) ht₁ hslot (c.at (t.set "object" o₁.value) "property") st₁
    have hsome₁ := (ht₁.get?_of_slot? (hslot.trans hproperty) rfl).1
    refine ⟨_, st₂, (yields_require hsome).bind (hyields₁.bind ?_), regular_keep ht₂⟩
    have hsame : ((t.set "object" o₁.value).get "computed").isSet := by
      rw [get_set_of_ne (by decide), hcomputed]
    simp only [hsame, Bool.not_true, Bool.false_eq_true, if_false]
    exact (yields_require hsome₁).bind (hyields₂.bind (Yields.pure _ _))

theorem derives_keyed (ht : Derives labels s t)
    (h : t.isTypeIn ["Property", "MethodDefinition"]) (c : Context) (st : Aliases) :
    ∃ o st', Yields (keyed c t parts) st o st' ∧ Regular labels s o := by
  obtain ⟨x, hvalue, hx⟩ := slot?_value h (s := s)
  have hnull : (t.get "value").isNull = false := (fits_one_iff.mp (ht.get?_of_slot? hvalue rfl).2).isNull
  cases hcomputed : (t.get "computed").isSet with
  | false =>
    obtain ⟨o₁, st₁, hyields₁, ht₁⟩ := derives_set_field hparts ht hvalue hx (by decide) ht rfl
      (c.at t "value") st
    refine ⟨_, st₁, ?_, regular_keep ht₁⟩
    rw [keyed, hcomputed]
    refine (Yields.pure _ _).bind ?_
    simp only [hnull, Bool.false_eq_true, if_false]
    exact hyields₁.bind (Yields.pure _ _)
  | true =>
    have hkey := slot?_key h hcomputed (s := s)
    obtain ⟨o₁, st₁, hyields₁, ht₁⟩ := derives_set_field hparts ht hkey (by decide) (by decide) ht
      rfl (c.at t "key") st
    obtain ⟨o₂, st₂, hyields₂, ht₂⟩ := derives_set_field hparts ht hvalue hx (by decide) ht₁
      (slot?_set (by decide) _ _) (c.at (t.set "key" o₁.value) "value") st₁
    exact ⟨_, st₂, yields_keyed_computed (ht.get?_of_slot? hkey rfl).1 hcomputed hnull hyields₁
      hyields₂, regular_keep ht₂⟩

end

/-! ## The lowering -/

theorem handle_keeps : HandlerKeeps (regularContract Context Aliases labels) labels handle := by
  intro c s t parts st _ ht hparts _
  suffices h : ∃ o st', Yields (handle c t parts) st o st' ∧ Regular labels s o by
    obtain ⟨o, st', hyields, ho⟩ := h
    exact ⟨o, st', hyields, ho, trivial⟩
  have hframe : t.isTypeIn frameTypes →
      ∃ o st', Yields (frame c t parts) st o st' ∧ Regular labels s o :=
    fun h => derives_frame hparts ht h c st
  simp only [handle]
  split
  · rename_i htype
    exact hframe (isTypeIn_of_mem htype (by decide))
  · rename_i htype
    exact hframe (isTypeIn_of_mem htype (by decide))
  · rename_i htype
    exact hframe (isTypeIn_of_mem htype (by decide))
  · rename_i htype
    exact derives_arrow hparts ht htype c st
  · rename_i htype
    rw [aliasThis]
    split
    · exact ⟨_, _, Yields.pure _ _, regular_keep ht⟩
    · refine ⟨_, _, (yields_modify _).bind ((yields_thisName _).bind (Yields.pure _ _)),
        regular_keep (derives_identifier _ t ?_)⟩
      exact expressionTypes_subset (ht.mem_types htype) (by decide) (by decide)
  · rename_i htype
    rw [aliasArguments]
    split
    · exact ⟨_, _, Yields.pure _ _, regular_keep ht⟩
    · exact ⟨_, _, (yields_modify _).bind ((yields_argumentsName _).bind (Yields.pure _ _)),
        regular_keep (derives_identifier _ t (ht.mem_types htype))⟩
  · rename_i htype
    exact derives_memberExpression hparts ht htype c st
  · rename_i htype
    exact derives_keyed hparts ht (isTypeIn_of_mem htype (by decide)) c st
  · rename_i htype
    exact derives_keyed hparts ht (isTypeIn_of_mem htype (by decide)) c st
  · obtain ⟨t', st', hyields, ht', -⟩ := hparts.descend_all ht (fun key => some (c.at t key)) st
    exact ⟨_, st', hyields.map _, regular_keep ht'⟩

/-- **A program without arrow functions is a program.** -/
theorem derives_lower (ht : Derives labels .program t) :
    ∃ out, lower t = .ok out ∧ Derives labels .program out.tree := by
  obtain ⟨t', st, hyields, ht'⟩ := visit_program handle_keeps (c := {}) ht trivial (fun _ => id) trivial
  refine ⟨⟨t', st.diagnostics⟩, ?_, ht'⟩
  rw [lower, hyields]
  rfl

end Downlevel.Lower.Arrow
