import Downlevel.Lower.Block.Hoist
import Downlevel.Lower.Block.Loop
import Downlevel.Proofs.Grammar.Objects
import Downlevel.Proofs.Grammar.Regular

/-!
# `Proofs.Lower.Hoist`: hoisting leaves statements

A `var` declaration in the body of a loop is a statement, or it stands in the head of a loop. The first
becomes the statement of its assignments, or nothing, where it stands in a list; the second becomes their
expression. Exports do not stand in loops. The names that are collected are all there, since patterns
bind identifiers.
-/

namespace Downlevel

namespace Lower
namespace Block

open Tree Node Grammar Scope

variable {labels : Labelling} {s : Symbol} {t : Tree} {slot : Slot} {key : String} {seat : Seat}

/-- The names that a pattern binds are all there. -/
theorem isSome_of_mem_patternNames (h : fits labels slot t) :
    ∀ n ∈ t.patternNames, n.isSome := by
  intro n hn
  obtain ⟨i, hi, rfl⟩ := List.mem_map.mp hn
  obtain ⟨hmem, htype⟩ := mem_objects_of_boundBy hi
  exact (isNameIn_of_isTypeIn (isWellNamed_of_fits h) hmem (by rw [isTypeIn_of_type? htype]; rfl)).2.2

theorem forall_isSome_addNames {names new : List (Option String)}
    (h : ∀ n ∈ names, n.isSome) (hnew : ∀ n ∈ new, n.isSome) :
    ∀ n ∈ addNames names new, n.isSome := by
  rw [addNames]
  induction new generalizing names with
  | nil => exact h
  | cons n new ih =>
    rw [List.forall_mem_cons] at hnew
    rw [List.foldl_cons]
    refine ih ?_ hnew.2
    split
    · exact h
    · exact List.forall_mem_append.mpr ⟨h, List.forall_mem_singleton.mpr hnew.1⟩

/-! ## Where declarations stand -/

/-- The types of what stands outside of all loops. -/
def outerTypes : List String := "Program" :: moduleTypes

/-- The symbols of what can stand in a loop. -/
def isInner (s : Symbol) : Bool :=
  !([.program, .moduleItem, .declaration, .defaultExport, .importSpecifier, .exportSpecifier].contains s)

/-- What stands in a node that can stand in a loop can stand there too. -/
theorem isInner_content {x : Symbol} (hs : isInner s) (ht : Derives labels s t)
    (hslot : slot? s t key = some slot) (hx : slot.content? = some x) : isInner x := by
  have hrules : ∀ rule ∈ rules, rule.1 ∈ outerTypes ∨
      ∀ entry ∈ rule.2, ∀ x ∈ entry.2.contents, isInner x := by decide
  obtain ⟨type, rs, entry, htype, hrs, hentry, hmem⟩ := mem_contents_of_slot? hslot hx
  have houter : ∀ type ∈ s.types, type ∉ outerTypes := by
    revert hs
    cases s <;> decide
  exact (hrules _ hrs).resolve_left (houter type (ht.mem_types htype)) _ hentry x hmem

/-- A declaration in a loop is a statement, or the head of another loop. -/
theorem symbol_of_declaration (hs : isInner s) (h : "VariableDeclaration" ∈ s.types) :
    s = .statement ∨ s = .forInit ∨ s = .forTarget := by
  revert hs h
  cases s <;> decide

theorem isVarDeclaration_iff : isVarDeclaration t ↔
    t.type? = some "VariableDeclaration" ∧ (t.get "kind").isStr "var" := by
  rw [isVarDeclaration, Bool.and_eq_true, isType_iff]

/-- The heads of loops are single nodes. -/
theorem symbol?_of_head {x : Symbol} (hslot : slot? s t key = some slot) (hx : slot.content? = some x)
    (hhead : x = .forInit ∨ x = .forTarget) :
    slot.symbol? = some x ∧ (x = .forInit ∧ t.type? = some "ForStatement" ∧ key = "init" ∨
      x = .forTarget ∧ (t.type? = some "ForInStatement" ∨ t.type? = some "ForOfStatement") ∧
        key = "left") := by
  have hrules : ∀ rule ∈ rules, ∀ entry ∈ rule.2,
      (.forInit ∈ entry.2.contents →
        entry.2 = .optional .forInit ∧ rule.1 = "ForStatement" ∧ entry.1 = "init") ∧
      (.forTarget ∈ entry.2.contents → entry.2 = .one .forTarget ∧
        (rule.1 = "ForInStatement" ∨ rule.1 = "ForOfStatement") ∧ entry.1 = "left") := by decide
  obtain ⟨type, rs, entry, htype, hrs, hentry, rfl⟩ := slot?_mem hslot
  have hmem := mem_contents_of_resolve hx
  obtain ⟨hinit, htarget⟩ := hrules _ hrs _ hentry
  rcases hhead with rfl | rfl
  · obtain ⟨hentry, rfl, rfl⟩ := hinit hmem
    simp only at hentry
    rw [hentry]
    exact ⟨rfl, .inl ⟨rfl, htype, rfl⟩⟩
  · obtain ⟨hentry, htypes, rfl⟩ := htarget hmem
    simp only at hentry
    rw [hentry, htype]
    exact ⟨rfl, .inr ⟨rfl, htypes.imp (congrArg some) (congrArg some), rfl⟩⟩

/-! ## The contract -/

/-- In a list or alone in a field, all kinds of nodes are visited, but `var` declarations only as
statements; these can vanish from lists. What is assigned in place of a declaration or a declarator is
an expression, or nothing. -/
def hoistContract (labels : Labelling) : Contract Seat (List (Option String)) where
  admits seat s t := match seat with
    | .inList | .alone => isInner s = true ∧ (isVarDeclaration t = true → s = .statement)
    | .declarator => s = .declarator
    | .loopHead => isVarDeclaration t = true
  yields seat s o := match seat with
    | .inList => (∃ t, o = .keep t ∧ Derives labels s t) ∨ (o = .remove ∧ s = .statement)
    | .alone => ∃ t, o = .keep t ∧ Derives labels s t
    | .declarator | .loopHead => o = .remove ∨ ∃ e, o = .keep e ∧ Derives labels .expression e
  invariant names := ∀ n ∈ names, n.isSome = true

/-- A node that is kept is what a visit in a list or alone can yield. -/
theorem yields_keep {t' : Tree} (hseat : seat = .inList ∨ seat = .alone) (h : Derives labels s t') :
    (hoistContract labels).yields seat s (.keep t') := by
  rcases hseat with rfl | rfl
  · exact .inl ⟨t', rfl, h⟩
  · exact ⟨t', rfl, h⟩

/-- The parts of a node can be visited in their seats, unless they are `var` declarations in the head of a
loop. -/
theorem slotAdmits_seatOf {v : Tree} (hs : isInner s) (ht : Derives labels s t)
    (hslot : slot? s t key = some slot) (hv : fits labels slot v)
    (hhead : ∀ x, slot.content? = some x → (x = .forInit ∨ x = .forTarget) →
      isVarDeclaration v = false) : (hoistContract labels).SlotAdmits (seatOf t key) slot v := by
  refine slotAdmits_of hv fun x y hx hy hderives => ?_
  have hgoal : isInner x ∧ (isVarDeclaration y → x = .statement) := by
    have hinner := isInner_content hs ht hslot hx
    refine ⟨hinner, fun hvar => ?_⟩
    have hmem := hderives.mem_types (isVarDeclaration_iff.mp hvar).1
    refine (symbol_of_declaration hinner hmem).resolve_right fun hx' => ?_
    have hsymbol := (symbol?_of_head hslot hx hx').1
    have hnot := hhead x hx hx'
    rcases hy with rfl | hy
    · rw [hvar] at hnot
      cases hnot
    · -- A head has no items.
      cases v with
      | list xs =>
        rw [fits] at hv
        cases slot <;> first | cases hv | cases hsymbol
      | _ => cases hy
  rw [seatOf]
  split
  · exact hgoal
  · exact hgoal

/-- What a visit leaves in a field in its seat fits there again. -/
theorem refits_seatOf {o : Outcome} (hslot : slot? s t key = some slot)
    (hv : fits labels slot (t.get key))
    (h : (hoistContract labels).SlotYields (seatOf t key) slot (t.get key) o) :
    Refits labels slot (t.get key) o := by
  have hcases : ∀ x y, (hoistContract labels).yields (seatOf t key) x y →
      (∃ t', y = .keep t' ∧ Derives labels x t') ∨ ((t.get key).isList ∧ y = .remove ∧ x = .statement) := by
    intro x y hy
    rw [seatOf] at hy
    split at hy
    · rename_i hlist
      exact hy.imp_right fun h => ⟨hlist, h⟩
    · exact .inl hy
  refine refits_of_outcomes hv (fun x hx y hy => ?_) (fun x _ y hy => ?_) (fun hcounted x hx y hy => ?_) h
  · rcases hcases x y hy with ⟨t', rfl, ht'⟩ | ⟨hlist, -⟩
    · exact .inr (.inl ⟨t', rfl, ht'.refills hx⟩)
    · -- A single node is no list.
      cases hget : t.get key with
      | list xs =>
        rw [hget] at hv
        cases slot <;> first | cases hv | cases hx
      | _ =>
        rw [hget] at hlist
        cases hlist
  · rcases hcases x y hy with ⟨t', rfl, ht'⟩ | ⟨-, rfl, -⟩
    · exact List.forall_mem_singleton.mpr ht'
    · exact List.forall_mem_nil _
  · -- Only statements vanish.
    rcases hcases x y hy with ⟨t', rfl, -⟩ | ⟨-, -, hstatement⟩
    · rfl
    · exact absurd hstatement (ne_of_isCounted (isRegular_of_slot? hslot) hcounted hx).1

/-! ## The handler -/

section

variable {parts : Parts Seat (List (Option String))} {st : List (Option String)}

/-- Several assignments are one expression. -/
theorem derives_of_sequence {es : List Tree} (h : ∀ e ∈ es, Derives labels .expression e) :
    ∀ e ∈ sequence es, Derives labels .expression e := by
  intro e he
  match es with
  | [] => cases he
  | [a] =>
    obtain rfl : a = e := Option.some.inj he
    exact h a List.mem_cons_self
  | a :: b :: rest =>
    rw [← Option.some.inj he]
    refine derives_new (by decide) (by repeat constructor) rfl (by decide) ?_
    exact List.forall_mem_cons.mpr ⟨fits_many h, nofun⟩

theorem exists_declaratorAssignment (ht : Derives labels .declarator t)
    (hparts : PartsKeep (hoistContract labels) labels .declarator t parts)
    (hst : (hoistContract labels).invariant st) :
    ∃ o st', Yields (declaratorAssignment t parts) st o st' ∧
      (hoistContract labels).yields .declarator .declarator o ∧
      (hoistContract labels).invariant st' := by
  have htype := ht.type_eq rfl
  have hid : slot? .declarator t "id" = some (.one .pattern) := slot?_one htype rfl
  have hinit : slot? .declarator t "init" = some (.optional .expression) := slot?_optional htype rfl
  obtain ⟨hsome, hfits⟩ := ht.get?_of_slot? hid rfl
  have hnames := forall_isSome_addNames hst (isSome_of_mem_patternNames hfits)
  rw [declaratorAssignment]
  cases hnull : (t.get "init").isNull with
  | true => exact ⟨.remove, _, (yields_modify _).bind (Yields.pure _ _), .inl rfl, hnames⟩
  | false =>
    obtain ⟨o, st', hyields, ⟨e, rfl, he⟩, hst'⟩ := hparts.field_optional .alone ht hinit hnull
      (fun h => ⟨rfl, fun hvar => absurd (h.mem_types (isVarDeclaration_iff.mp hvar).1) (by decide)⟩)
      hnames
    refine ⟨_, st', (yields_modify _).bind (hyields.bind
      ((yields_require hsome).bind (Yields.pure _ _))), .inr ⟨_, rfl, ?_⟩, hst'⟩
    exact derives_assign (fits_one_iff.mp hfits) he t (by decide)

/-- What a loop over a collection assigns to is a pattern. -/
theorem exists_loopTarget {left : Tree} (h : Derives labels .forTarget left)
    (hvar : isVarDeclaration left) :
    ∃ target, loopTarget left = .ok target ∧ Derives labels .forTarget target := by
  have htype := (isVarDeclaration_iff.mp hvar).1
  obtain ⟨hlist, hne, hall⟩ := h.several htype (k := "declarations") rfl
  obtain ⟨d, rest, hd⟩ := List.exists_cons_of_ne_nil hne
  rw [hd] at hlist hall
  have hdeclarator := hall d List.mem_cons_self
  have hid : Derives labels .pattern (d.get "id") := hdeclarator.one (hdeclarator.type_eq rfl) rfl
  refine ⟨d.get "id", ?_, ?_⟩
  · rw [loopTarget, need, get?_of_get hlist rfl]
    show d.need "id" = _
    rw [need, get?_of_get rfl hid.isNull]
  · obtain ⟨type, hmem, htype⟩ := hid.type
    have htypes : ∀ type ∈ Symbol.types .pattern, type ∈ Symbol.types .forTarget ∧
        type ∉ contextTypes := by decide
    exact hid.as htype (htypes type hmem).1 (htypes type hmem).2 (by decide)

section

variable (ht : Derives labels s t) (hparts : PartsKeep (hoistContract labels) labels s t parts)
  (hst : (hoistContract labels).invariant st)

include ht hparts hst

theorem exists_collect (htype : t.type? = some "VariableDeclaration") :
    ∃ e? st', Yields (collect parts) st e? st' ∧ (∀ e ∈ e?, Derives labels .expression e) ∧
      (hoistContract labels).invariant st' := by
  have hslot : slot? s t "declarations" = some (.several .declarator) := slot?_several htype rfl
  obtain ⟨hsome, hfits⟩ := ht.get?_of_slot? hslot rfl
  obtain ⟨o, st', hyields, ⟨os, rfl, -, hos⟩, hst'⟩ := hparts.field "declarations" _ .declarator st
    hslot rfl (by rw [hsome]; rfl)
    (slotAdmits_of hfits fun x y hx _ _ => (Option.some.inj hx).symm) hst
  refine ⟨_, st', hyields.bind (Yields.pure _ _), derives_of_sequence fun e he => ?_, hst'⟩
  obtain ⟨x, hx, he⟩ := List.mem_flatMap.mp he
  rcases hos x hx with rfl | ⟨e', rfl, he'⟩
  · cases he
  · rw [List.mem_singleton.mp he]
    exact he'

/-- The parts of a node are visited in their seats, `var` declarations in the head of a loop apart. -/
theorem exists_descend (hs : isInner s) (contexts : String → Option Seat)
    (hcontexts : ∀ key c, contexts key = some c → c = seatOf t key)
    (hhead : ∀ key c, contexts key = some c → headKey? t = some key →
      isVarDeclaration (t.get key) = false) :
    ∃ t' st', Yields (parts.descend contexts) st t' st' ∧ Derives labels s t' ∧
      t'.type? = t.type? ∧ (hoistContract labels).invariant st' := by
  obtain ⟨t', st', hyields, ht', htype', -, hst'⟩ := hparts.descend contexts st
    (fun key slot c v hslot hc hmem => by
      cases hcontexts key c hc
      have hfits := ht.fields (key, v) hmem
      rw [hslot] at hfits
      have hv : t.get key = v := ht.get_of_mem hmem
      refine ⟨slotAdmits_seatOf hs ht hslot hfits fun x hx hx' => ?_, fun o ho => ?_⟩
      · rw [← hv]
        refine hhead key _ hc ?_
        rcases (symbol?_of_head hslot hx hx').2 with ⟨-, htype, rfl⟩ | ⟨-, htype | htype, rfl⟩
        · simp only [headKey?, htype]
        · simp only [headKey?, htype]
        · simp only [headKey?, htype]
      · rw [← hv] at hfits ho ⊢
        exact refits_seatOf hslot hfits ho) hst
  exact ⟨t', st', hyields, ht', htype', hst'⟩

/-- The other parts of a loop are visited after its head. -/
theorem exists_descend_rest (hs : isInner s) {head : String} (hhead : headKey? t = some head) :
    ∃ t' st', Yields (parts.descend fun key => if key = head then none else some (seatOf t key)) st t' st' ∧
      Derives labels s t' ∧ t'.type? = t.type? ∧ (hoistContract labels).invariant st' := by
  refine exists_descend ht hparts hst hs _ (fun key c hc => ?_) fun key c hc hkey => ?_
  · split at hc
    · cases hc
    · exact (Option.some.inj hc).symm
  · rw [hhead, Option.some.injEq] at hkey
    simp [hkey.symm] at hc

theorem exists_statementAssignment (htype : t.type? = some "VariableDeclaration")
    (hseat : seat = .inList ∨ seat = .alone) (hs : s = .statement) :
    ∃ o st', Yields (statementAssignment seat t parts) st o st' ∧
      (hoistContract labels).yields seat s o ∧ (hoistContract labels).invariant st' := by
  obtain ⟨e?, st', hyields, he, hst'⟩ := exists_collect ht hparts hst htype
  subst hs
  cases e? with
  | some e =>
    refine ⟨_, st', hyields.bind (Yields.pure _ _), yields_keep hseat ?_, hst'⟩
    exact derives_expressionStatement (he e rfl) t (by decide)
  | none =>
    rcases hseat with rfl | rfl
    · exact ⟨_, st', hyields.bind (Yields.pure _ _), .inr ⟨rfl, rfl⟩, hst'⟩
    · exact ⟨_, st', hyields.bind (Yields.pure _ _),
        ⟨_, rfl, derives_located (derives_bare (by decide) rfl (by decide)) .null⟩, hst'⟩

theorem exists_forLoop (hs : isInner s) (htype : t.type? = some "ForStatement")
    (hvar : isVarDeclaration (t.get "init")) :
    ∃ t' st', Yields (forLoop t parts) st (.keep t') st' ∧ Derives labels s t' ∧
      (hoistContract labels).invariant st' := by
  have hslot : ∀ {t' : Tree}, t'.type? = t.type? → slot? s t' "init" = some (.optional .forInit) := fun h =>
    slot?_optional (h.trans htype) rfl
  have hnull : (t.get "init").isNull = false := by
    cases hinit : t.get "init" with
    | null =>
      rw [hinit] at hvar
      cases hvar
    | _ => rfl
  obtain ⟨o, st₁, hyields₁, ho, hst₁⟩ :=
    hparts.field_optional .loopHead ht (hslot rfl) hnull (fun _ => hvar) hst
  have hhead : headKey? t = some "init" := by simp only [headKey?, htype]
  obtain ⟨t', st₂, hyields₂, ht', htype', hst₂⟩ := exists_descend_rest ht hparts hst₁ hs hhead
  rcases ho with rfl | ⟨e, rfl, he⟩
  · refine ⟨_, st₂, hyields₁.bind (hyields₂.bind (Yields.pure _ _)), ?_, hst₂⟩
    exact ht'.erase (hslot htype') rfl (by decide)
  · refine ⟨_, st₂, hyields₁.bind (hyields₂.bind (Yields.pure _ _)), ?_, hst₂⟩
    exact ht'.set_slot (hslot htype') (by decide) (fits_optional_iff.mpr
      (.inr (he.as_expression (List.subset_cons_of_subset _ (List.Subset.refl _)))))

theorem exists_collectionLoop (hs : isInner s)
    (htype : t.type? = some "ForInStatement" ∨ t.type? = some "ForOfStatement")
    (hvar : isVarDeclaration (t.get "left")) :
    ∃ t' st', Yields (collectionLoop t parts) st (.keep t') st' ∧ Derives labels s t' ∧
      (hoistContract labels).invariant st' := by
  have hslot : ∀ {t' : Tree}, t'.type? = t.type? → slot? s t' "left" = some (.one .forTarget) := by
    intro t' h
    rcases htype with htype | htype
    · exact slot?_one (h.trans htype) rfl
    · exact slot?_one (h.trans htype) rfl
  have hleft := fits_one_iff.mp (ht.get?_of_slot? (hslot rfl) rfl).2
  obtain ⟨target, htarget, hderives⟩ := exists_loopTarget hleft hvar
  obtain ⟨o, st₁, hyields₁, -, hst₁⟩ := hparts.field_one .loopHead ht (hslot rfl) (fun _ => hvar) hst
  have hhead : headKey? t = some "left" := by
    rcases htype with htype | htype
    · simp only [headKey?, htype]
    · simp only [headKey?, htype]
  obtain ⟨t', st₂, hyields₂, ht', htype', hst₂⟩ := exists_descend_rest ht hparts hst₁ hs hhead
  refine ⟨_, st₂, hyields₁.bind ((yields_liftM htarget).bind (hyields₂.bind (Yields.pure _ _))), ?_, hst₂⟩
  exact ht'.set_slot (hslot htype') (by decide) hderives.fits

theorem exists_hoistNode (hseat : seat = .inList ∨ seat = .alone) (hs : isInner s)
    (hvar : isVarDeclaration t → s = .statement) :
    ∃ o st', Yields (hoistNode seat t parts) st o st' ∧ (hoistContract labels).yields seat s o ∧
      (hoistContract labels).invariant st' := by
  rw [hoistNode]
  split
  · exact ⟨.keep t, st, Yields.pure _ _, yields_keep hseat ht, hst⟩
  · split
    · rename_i hdeclaration
      exact exists_statementAssignment ht hparts hst (isVarDeclaration_iff.mp hdeclaration).1 hseat
        (hvar hdeclaration)
    · split
      · rename_i hfor
        rw [Bool.and_eq_true, isType_iff] at hfor
        obtain ⟨t', st', hyields, ht', hst'⟩ := exists_forLoop ht hparts hst hs hfor.1 hfor.2
        exact ⟨_, st', hyields, yields_keep hseat ht', hst'⟩
      · split
        · rename_i hin
          rw [Bool.and_eq_true] at hin
          obtain ⟨t', st', hyields, ht', hst'⟩ := exists_collectionLoop ht hparts hst hs
            (by simpa [isTypeIn, isType_iff] using hin.1) hin.2
          exact ⟨_, st', hyields, yields_keep hseat ht', hst'⟩
        · -- No head of the node declares with `var`.
          rename_i hfor hin
          obtain ⟨t', st', hyields, ht', -, hst'⟩ := exists_descend ht hparts hst hs
            (fun key => some (seatOf t key)) (fun key c hc => (Option.some.inj hc).symm)
            (fun key c _ hhead => by
              rw [headKey?] at hhead
              split at hhead
              · rename_i htype
                cases hhead
                simpa [isType_iff.mpr htype] using hfor
              · rename_i htype
                cases hhead
                simpa [isTypeIn, isType_iff.mpr htype] using hin
              · rename_i htype
                cases hhead
                simpa [isTypeIn, isType_iff.mpr htype] using hin
              · cases hhead)
          exact ⟨_, st', hyields.map _, yields_keep hseat ht', hst'⟩

end

end

theorem hoistHandle_keeps : HandlerKeeps (hoistContract labels) labels hoistHandle := by
  intro seat s t parts st hadmits ht hparts hst
  cases seat with
  | inList => exact exists_hoistNode ht hparts hst (.inl rfl) hadmits.1 hadmits.2
  | alone => exact exists_hoistNode ht hparts hst (.inr rfl) hadmits.1 hadmits.2
  | declarator =>
    cases hadmits
    exact exists_declaratorAssignment ht hparts hst
  | loopHead =>
    obtain ⟨e?, st', hyields, he, hst'⟩ := exists_collect ht hparts hst (isVarDeclaration_iff.mp hadmits).1
    cases e? with
    | none => exact ⟨_, st', hyields.bind (Yields.pure _ _), .inl rfl, hst'⟩
    | some e => exact ⟨_, st', hyields.bind (Yields.pure _ _), .inr ⟨e, rfl, he e rfl⟩, hst'⟩

/-- **Hoisting leaves statements**, and the names that it collects are all there. -/
theorem derives_hoist {ts : List Tree} (h : ∀ t ∈ ts, Derives labels .statement t) :
    ∃ moved names, hoist ts = .ok (moved, names) ∧ (∀ t ∈ moved, Derives labels .statement t) ∧
      ∀ n ∈ names, n.isSome := by
  obtain ⟨os, names, hyields, -, hos, hnames⟩ := visitItems_keep hoistHandle_keeps ts .inList
    .statement false [] (fun t ht => (h t ht).fits) (fun t ht _ => ⟨rfl, fun _ => rfl⟩)
    (fun n hn => absurd hn List.not_mem_nil)
  refine ⟨_, names, hyields, fun t ht => ?_, hnames⟩
  obtain ⟨o, ho, ht⟩ := List.mem_flatMap.mp ht
  rcases hos o ho with (⟨t', rfl, ht'⟩ | ⟨rfl, -⟩) | ⟨hfalse, -⟩
  · rw [List.mem_singleton.mp ht]
    exact ht'
  · cases ht
  · cases hfalse

end Block
end Lower
end Downlevel
