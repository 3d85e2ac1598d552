import Downlevel.Proofs.Block.Resolution
import Downlevel.Proofs.Scope.Lexical

/-!
# `Proofs.Block.Writes`: wrapped loops do not write to their heads

The lowering looks for writes by name, in assignments and updates; the scope analysis knows every write. Each
of its writes has a **writer**, the construct that writes, which stands inside all scopes around the write. So
a write in the body of a loop that the lowering overlooks has a loop over a collection as its writer.
-/

namespace Downlevel
namespace Tree

/-! ## Objects inside of objects -/

theorem objects_subset {v t : Tree} (h : v ∈ t.objects) : v.objects ⊆ t.objects := by
  induction t using inductionOnParts with
  | scalar t hscalar =>
    rw [objects_of_isScalar hscalar] at h
    cases h
  | list xs ih =>
    rw [objects, objectsOfItems_eq] at h ⊢
    obtain ⟨x, hx, h⟩ := List.mem_flatMap.mp h
    exact fun o ho => List.mem_flatMap.mpr ⟨x, hx, ih x hx h ho⟩
  | obj m fs ih =>
    rcases List.mem_cons.mp h with rfl | h
    · exact List.Subset.refl _
    · obtain ⟨f, hf, hplace, h⟩ := mem_objectsOfFields.mp h
      exact fun o ho => List.mem_cons_of_mem _ (mem_objectsOfFields.mpr ⟨f, hf, hplace, ih f hf h ho⟩)

theorem partNodes_subset_objects (stopAt : List String) (t : Tree) : partNodes stopAt t ⊆ t.objects := by
  induction t using inductionOnParts with
  | scalar t hscalar => cases t <;> first | exact List.nil_subset _ | cases hscalar
  | list xs ih =>
    rw [partNodes_list, objects, objectsOfItems_eq]
    intro o ho
    obtain ⟨x, hx, ho⟩ := List.mem_flatMap.mp ho
    exact List.mem_flatMap.mpr ⟨x, hx, ih x hx ho⟩
  | obj m fs ih =>
    have hfields : (fs.filter (isSyntaxKey ·.1)).flatMap (fun f => partNodes stopAt f.2) ⊆
        objectsOfFields fs := by
      intro o ho
      obtain ⟨f, hf, ho⟩ := List.mem_flatMap.mp ho
      obtain ⟨hf, hkey⟩ := List.mem_filter.mp hf
      exact mem_objectsOfFields.mpr ⟨f, hf, isPlaceKey_of_isSyntaxKey hkey, ih f hf ho⟩
    rw [partNodes_obj]
    split
    · exact List.nil_subset _
    · split
      · exact List.cons_subset_cons _ (List.nil_subset _)
      · exact List.cons_subset_cons _ hfields

/-- Nodes are objects. -/
theorem nodes_subset_objects (t : Tree) : t.nodes ⊆ t.objects := by
  rw [← partNodes_nil]
  exact partNodes_subset_objects [] t

end Tree

namespace Scope

open Tree

/-! ## The steps that write -/

/-- The part of a pattern that is assigned to in a role. -/
def Role.assigned? : Role → Option PatternPart
  | .assign | .loopHead => some .pattern
  | .assignProperties => some .properties
  | .assignProperty => some .property
  | .assignEach => some .elements
  | _ => none

/-- Is a whole pattern assigned to in the role? -/
def Role.isTarget (role : Role) : Bool := role == .assign || role == .loopHead

theorem assigned?_of_isTarget {role : Role} (h : role.isTarget) : role.assigned? = some .pattern := by
  rcases Bool.or_eq_true_iff.mp h with hrole | hrole <;> rw [beq_iff_eq.mp hrole] <;> rfl

/-- The constructs that write, each with the field that holds its target. -/
def writerKeys : List (String × String) :=
  [("AssignmentExpression", "left"), ("UpdateExpression", "argument"), ("ForInStatement", "left"),
   ("ForOfStatement", "left")]

/-- Does the step begin no write, or is the node a construct that writes? -/
def isWriterStep (type : Option String) : Act → Bool
  | (_, .refer write) => !write
  | (_, .read _ role key) => role.assigned?.isNone ||
      role.isTarget && writerKeys.any fun w => some w.1 == type && w.2 == key
  | _ => true

/-- Does the step go on with a write that a construct around the node has begun? -/
def isTargetStep (role : Role) (type : Option String) : Act → Bool
  | ([], .refer _) => role.isTarget && type == some "Identifier"
  | ([], .read _ part key) =>
    if role == .assignProperty then
      part == .assign && key == if type == some "RestElement" then "argument" else "value"
    else role.isTarget &&
      [(some "ObjectPattern", Role.assignProperties, "properties"),
       (some "ArrayPattern", .assignEach, "elements"), (some "AssignmentPattern", .assign, "left"),
       (some "RestElement", .assign, "argument")].contains (type, part, key)
  | _ => false

/-- Is the step one that the constructs take, as far as writes go? -/
def isKnownStep (role : Role) (type : Option String) (act : Act) : Bool :=
  act.2.isAtom && (isWriterStep type act || isTargetStep role type act)

theorem isKnownStep_getD {role : Role} {table : List (String × List Step)}
    (hall : table.all (fun e => (atomsOf [] [] e.2).all (isKnownStep role (some e.1) ·.2)) = true)
    (type : Option String) {others : List Step}
    (hothers : ∀ a ∈ atomsOf [] [] others, isKnownStep role type a.2) :
    ∀ a ∈ atomsOf [] [] ((type.bind (List.lookup · table)).getD others), isKnownStep role type a.2 := by
  cases h : type.bind (List.lookup · table) with
  | none => exact hothers
  | some steps =>
    obtain ⟨name, rfl, hlookup⟩ := Option.bind_eq_some_iff.mp h
    exact List.all_eq_true.mp (List.all_eq_true.mp hall _ (mem_of_lookup hlookup))

theorem isKnownStep_nodeSteps (role : Role) (type : Option String) :
    ∀ a ∈ atomsOf [] [] (nodeSteps type), isKnownStep role type a.2 :=
  isKnownStep_getD (by rfl) type (List.forall_mem_singleton.mpr rfl)

/-- **A node begins writes only if it is a construct that writes**, or else goes on with them. -/
theorem isKnownStep_stepsIn (role : Role) (type : Option String) :
    ∀ a ∈ atomsOf [] [] (stepsIn role type), isKnownStep role type a.2 := by
  cases role with
  | visit => exact isKnownStep_nodeSteps _ type
  | bind => exact isKnownStep_getD (by decide) type (isKnownStep_nodeSteps _ type)
  | assign => exact isKnownStep_getD (by decide) type (isKnownStep_nodeSteps _ type)
  | loopHead =>
    rw [stepsIn]
    split
    · exact isKnownStep_nodeSteps _ type
    · exact isKnownStep_getD (by decide) type (isKnownStep_nodeSteps _ type)
  | functionBody =>
    rw [stepsIn]
    split
    · exact List.forall_mem_singleton.mpr rfl
    · exact isKnownStep_nodeSteps _ type
  | bindProperty =>
    rw [stepsIn, propertySteps]
    split
    · exact List.forall_mem_singleton.mpr rfl
    · exact List.all_eq_true.mp rfl
  | assignProperty =>
    rw [stepsIn, propertySteps]
    split
    · rename_i htype
      rw [htype]
      exact List.all_eq_true.mp (by decide)
    · rename_i htype
      have hvalue : isTargetStep .assignProperty type ([], .read .inherited .assign "value") := by
        rw [isTargetStep, beq_eq_false_iff_ne.mpr htype]
        rfl
      refine List.forall_mem_cons.mpr ⟨rfl, List.forall_mem_singleton.mpr ?_⟩
      exact Bool.and_eq_true_iff.mpr ⟨rfl, Bool.or_eq_true_iff.mpr (.inr hvalue)⟩
  | elementName dotted =>
    rw [stepsIn, elementNameSteps]
    split
    · exact List.forall_mem_singleton.mpr rfl
    · split
      · exact List.forall_mem_singleton.mpr rfl
      · exact List.forall_mem_nil _
  | declarator => exact List.all_eq_true.mp rfl
  | handler => exact List.all_eq_true.mp rfl
  | catchBody | exported | imported => exact List.forall_mem_singleton.mpr rfl
  | bindProperties | bindEach | assignProperties | assignEach | declarators | importedEach | exportedEach =>
    exact List.forall_mem_nil _

/-! ## Writers -/

/-- What is assigned to in a field of a pattern is assigned to in the pattern. -/
theorem boundBy_of_isTargetStep {role part : Role} {manner : Manner} {key : String} {opened : List ScopeType}
    {m : Option Nat} {fs : Fields}
    (h : isTargetStep role (Tree.obj m fs).type? (opened, .read manner part key)) :
    opened = [] ∧ ∃ whole inner, role.assigned? = some whole ∧ part.assigned? = some inner ∧
      boundBy inner ((Tree.obj m fs).get key) = boundBy whole (.obj m fs) := by
  cases opened with
  | cons type rest => cases h
  | nil =>
    refine ⟨rfl, ?_⟩
    rw [isTargetStep] at h
    split at h
    · rename_i hrole
      rw [beq_iff_eq] at hrole
      rw [Bool.and_eq_true, beq_iff_eq, beq_iff_eq] at h
      obtain ⟨rfl, rfl⟩ := h
      refine ⟨.property, .pattern, by rw [hrole]; rfl, rfl, ?_⟩
      rw [← boundInField_eq, boundBy]
      by_cases htype : (Tree.obj m fs).type? = some "RestElement"
      · rw [htype, isType_iff.mpr htype]
        rfl
      · rw [beq_eq_false_iff_ne.mpr htype, Bool.eq_false_iff.mpr fun h => htype (isType_iff.mp h)]
        rfl
    · rw [Bool.and_eq_true, List.contains_iff_mem] at h
      have hwhole := assigned?_of_isTarget h.1
      simp only [List.mem_cons, Prod.mk.injEq, List.not_mem_nil, or_false] at h
      rcases h.2 with ⟨htype, rfl, rfl⟩ | ⟨htype, rfl, rfl⟩ | ⟨htype, rfl, rfl⟩ | ⟨htype, rfl, rfl⟩ <;>
        exact ⟨.pattern, _, hwhole, rfl, by rw [← boundInField_eq, boundBy, htype]; rfl⟩

/-- The names that a construct writes to. -/
def writes (t : Tree) : List (Option String) :=
  writerKeys.flatMap fun w => if t.isType w.1 then (t.get w.2).patternNames else []

/-- The node is inside of all scopes around it, and so is the writer of what is assigned to in it. -/
def HasWriter (chain : List Tag) (role : Role) (_ : Binder) (t : Tree) : Prop :=
  (∀ tag ∈ chain, t.objects ⊆ tag.2.objects) ∧ ∀ part, role.assigned? = some part →
    ∃ n, (∀ tag ∈ chain, n ∈ tag.2.objects) ∧ ∀ i ∈ boundBy part t, i.name? ∈ writes n

/-- The writer of a leaf that is a write. -/
def LeafHasWriter (l : Leaf) : Prop :=
  ∀ i, l.2 = .refer i true → ∃ n, (∀ tag ∈ l.1, n ∈ tag.2.objects) ∧ i.name? ∈ writes n

section

variable {chain : List Tag} {role : Role} {b : Binder} {m : Option Nat} {fs : Fields}

/-- A node is inside of the scopes that it opens. -/
theorem objects_subset_openedIn {v t : Tree} (h : ∀ tag ∈ chain, t.objects ⊆ tag.2.objects)
    (hv : v.objects ⊆ t.objects) (opened : List ScopeType) :
    ∀ tag ∈ openedIn t opened chain, v.objects ⊆ tag.2.objects := by
  intro tag htag
  rcases List.mem_append.mp htag with htag | htag
  · obtain ⟨type, -, rfl⟩ := List.mem_map.mp htag
    exact hv
  · exact List.Subset.trans hv (h tag htag)

theorem stepKeeps_hasWriter (h : HasWriter chain role b (.obj m fs)) {act : Act}
    (hact : act ∈ actsOf (·.holds (.obj m fs)) [] (stepsIn role (Tree.obj m fs).type?)) :
    StepKeeps LeafHasWriter HasWriter (openedIn (.obj m fs) act.1 chain) b (.obj m fs) act.2 := by
  obtain ⟨known, ha, -⟩ := exists_atom_of_mem_actsOf hact
  have hknown := isKnownStep_stepsIn role _ _ ha
  obtain ⟨opened, step⟩ := act
  rw [isKnownStep, Bool.and_eq_true, Bool.or_eq_true] at hknown
  obtain ⟨hatom, hknown⟩ := hknown
  cases step with
  | readAll =>
    intro f hf hplace
    refine ⟨objects_subset_openedIn h.1 (fun o ho => ?_) opened, fun part hpart => by cases hpart⟩
    exact List.mem_cons_of_mem _ (mem_objectsOfFields.mpr ⟨f, hf, hplace, ho⟩)
  | refer write =>
    refine List.forall_mem_singleton.mpr fun i hi => ?_
    obtain ⟨rfl, rfl⟩ := Item.refer.inj hi
    -- Only a target is written to.
    rcases hknown with hwriter | htarget
    · cases hwriter
    · cases opened with
      | cons _ _ => cases htarget
      | nil =>
        rw [isTargetStep, Bool.and_eq_true, beq_iff_eq] at htarget
        obtain ⟨n, hn, hnames⟩ := h.2 _ (assigned?_of_isTarget htarget.1)
        refine ⟨n, hn, hnames _ ?_⟩
        rw [boundBy, htarget.2]
        exact List.mem_cons_self
  | read manner part key =>
    have hkey : isPlaceKey key = false := Bool.not_eq_true' _ ▸ hatom
    refine ⟨objects_subset_openedIn h.1 (fun o ho => mem_objects_get hkey ho) opened, fun inner hinner => ?_⟩
    rcases hknown with hwriter | htarget
    · -- The node is the writer.
      rw [isWriterStep, hinner, Option.isNone_some, Bool.false_or, Bool.and_eq_true] at hwriter
      obtain ⟨w, hw, hwt⟩ := List.any_eq_true.mp hwriter.2
      rw [Bool.and_eq_true, beq_iff_eq, beq_iff_eq] at hwt
      obtain ⟨htype, rfl⟩ := hwt
      have hpattern : inner = .pattern :=
        Option.some.inj (hinner.symm.trans (assigned?_of_isTarget hwriter.1))
      refine ⟨.obj m fs, fun tag htag => ?_, fun i hi => List.mem_flatMap.mpr ⟨w, hw, ?_⟩⟩
      · exact objects_subset_openedIn h.1 (List.Subset.refl _) opened tag htag List.mem_cons_self
      · rw [if_pos (isType_iff.mpr htype.symm)]
        rw [hpattern] at hi
        exact List.mem_map_of_mem hi
    · obtain ⟨rfl, whole, inner', hwhole, hinner', hbound⟩ := boundBy_of_isTargetStep htarget
      cases hinner.symm.trans hinner'
      rw [hbound]
      exact h.2 _ hwhole
  | declare _ _ | issue _ _ =>
    refine List.forall_mem_singleton.mpr fun i hi => ?_
    cases hi
  | scope _ _ | outside _ | choose _ _ _ => cases hatom

/-- The items of a list share the writer of the list. -/
theorem hasWriter_items {r : Role} {xs : List Tree} (hrole : role.ofItems? = some r)
    (h : HasWriter chain role b (.list xs)) : ∀ x ∈ xs, HasWriter chain r b x := by
  intro x hx
  refine ⟨fun tag htag o ho => h.1 tag htag (mem_objects_items hx ho), fun part hpart => ?_⟩
  have hbound : ∀ {part}, ∀ i ∈ boundBy part x, i ∈ boundByItems part xs := by
    intro part i hi
    rw [boundByItems_eq]
    exact List.mem_flatMap.mpr ⟨x, hx, hi⟩
  cases role <;> cases hrole <;> cases hpart
  · obtain ⟨n, hn, hnames⟩ := h.2 _ rfl
    exact ⟨n, hn, fun i hi => hnames i (hbound i hi)⟩
  · obtain ⟨n, hn, hnames⟩ := h.2 _ rfl
    exact ⟨n, hn, fun i hi => hnames i (hbound i hi)⟩

/-- **Every write has a writer**, which stands inside all scopes around the write. -/
theorem exists_writer {t : Tree} {r : Reference} (hr : r ∈ (analyzeMarked t).references)
    (hwrite : r.write) :
    ∃ n, r.name ∈ writes n ∧
      ∀ k ∈ (analyzeMarked t).around r.scope, n ∈ ((analyzeMarked t).nodeOf k).objects := by
  obtain ⟨chain, hl, haround⟩ := exists_leaf_of_reference hr
  have hroot : ∀ type, HasWriter [(type, t)] .visit ⟨.var, true, t⟩ (t.get "body") := fun _ =>
    ⟨List.forall_mem_singleton.mpr fun o ho => mem_objects_get rfl ho, fun part hpart => by cases hpart⟩
  obtain ⟨n, hn, hname⟩ := forall_leaves_ofProgram (fun h _ hact => stepKeeps_hasWriter h hact) hasWriter_items
    hroot _ hl r.identifier (by rw [hwrite])
  refine ⟨n, hname, fun k hk => ?_⟩
  have hmem : (analyzeMarked t).nodeOf k ∈ chain.map (·.2) := haround ▸ List.mem_map_of_mem hk
  obtain ⟨tag, htag, heq⟩ := List.mem_map.mp hmem
  exact heq ▸ hn tag htag

end

end Scope

/-! ## Planned loops -/

namespace Lower
namespace Block

open Tree Node Grammar Scope

section

variable {t loop : Tree}

/-- A loop with a captured binding is a node of the program. -/
theorem mem_objects_of_captured (h : IsDistinct t) {kept : List Nat}
    (hloop : loop ∈ capturedLoops (analyzeMarked t) (blockBindings (analyzeMarked t)) kept) :
    loop ∈ t.objects := by
  have htree := isTree_analyzeMarked t
  -- Leaving out loops that are there already adds none.
  have hmem : ∀ {loops : List Tree}, loop ∈ loops.foldl
      (fun seen l => if seen.any (·.mark? == l.mark?) then seen else seen ++ [l]) [] → loop ∈ loops := by
    intro loops
    refine List.foldlRecOn loops _ (motive := fun seen => loop ∈ seen → loop ∈ loops)
      (fun h => absurd h List.not_mem_nil) fun seen ih l hl => ?_
    split
    · exact ih
    · intro hloop
      rcases List.mem_append.mp hloop with hloop | hloop
      · exact ih hloop
      · exact List.mem_singleton.mp hloop ▸ hl
  obtain ⟨⟨i, b⟩, hb, hsome⟩ := List.mem_filterMap.mp (hmem hloop)
  split at hsome
  · cases hsome
  obtain ⟨s, hs, hsome⟩ := Option.bind_eq_some_iff.mp hsome
  obtain ⟨l, hl, hsome⟩ := Option.bind_eq_some_iff.mp hsome
  split at hsome
  · cases hsome
    obtain ⟨id, -, hl⟩ := List.mem_filterMap.mp
      (List.takeWhile_subset _ (List.mem_of_find?_eq_some hl))
    exact node_mem_objects h (htree.scope?_eq_some.mp hl).1
  · cases hsome

/-- The declaration in the head of a loop is one of those in the loop. -/
theorem head_mem_blockDeclarations (hhead : isBlockDeclaration (head loop)) :
    head loop ∈ blockDeclarations loop ∧ head loop ∈ loop.objects := by
  have htype := (isBlockDeclaration_iff.mp hhead).1
  obtain ⟨key, hget, hnode, hkey⟩ : ∃ key, head loop = loop.get key ∧ loop.isNode ∧
      isSyntaxKey key := by
    cases hk : headKey? loop with
    | none =>
      rw [head, hk] at htype
      cases htype
    | some key =>
      refine ⟨key, by rw [head, hk]; rfl, ?_⟩
      unfold headKey? at hk
      split at hk <;> rename_i hloop <;> cases hk <;> exact ⟨isNode_of_type? hloop, by decide⟩
  have hpart : head loop ∈ partNodes functionTypes (head loop) := by
    obtain ⟨m, fs, heq⟩ := isObject_of_type? htype
    rw [heq] at htype ⊢
    rw [partNodes_obj, isNode_of_type? htype, isTypeIn_of_type? htype]
    exact List.mem_cons_self
  have hobject : head loop ∈ (head loop).objects := partNodes_subset_objects _ _ hpart
  refine ⟨List.mem_filter.mpr ⟨?_, hhead⟩, ?_⟩
  · cases loop with
    | obj m fs =>
      rw [nodes_obj hnode]
      refine List.mem_cons_of_mem _ (List.mem_flatMap.mpr ⟨(key, head (.obj m fs)), ?_, hpart⟩)
      obtain ⟨m', fs', heq⟩ := isObject_of_type? htype
      exact List.mem_filter.mpr ⟨mem_of_lookup_eq_some (lookup_of_get hget.symm (by rw [heq]; rfl)), hkey⟩
    | _ => cases hnode
  · rw [hget] at hobject ⊢
    exact mem_objects_get (isPlaceKey_of_isSyntaxKey hkey) hobject

/-- **A planned loop that declares bindings in its head has no problem.** -/
theorem wrapProblem?_of_planned (h : IsDistinct t) (hloop : loop ∈ t.objects) {m : Nat}
    (hmark : loop.mark? = some m) (hplanned : m ∈ (plan (analyzeMarked t)).loops)
    (hhead : isBlockDeclaration (head loop)) : wrapProblem? loop = none := by
  dsimp only [plan, marksOf] at hplanned
  obtain ⟨loop', hfilter, hmark'⟩ := List.mem_filterMap.mp hplanned
  obtain ⟨hcaptured, hkept⟩ := List.mem_filter.mp hfilter
  have heq : loop' = loop := eq_of_mark? (List.nodup_iff_count_le_one.mp h.nodup m)
    (mem_objects_of_captured h hcaptured) hloop hmark' hmark
  subst heq
  by_contra hproblem
  obtain ⟨problem, hproblem⟩ := Option.ne_none_iff_exists'.mp hproblem
  obtain ⟨hmem, hobject⟩ := head_mem_blockDeclarations hhead
  obtain ⟨k, hk⟩ := Option.isSome_iff_exists.mp
    (isSome_mark?_of_isMarked t h.marked _ (objects_subset hloop hobject))
  have hkeeps : k ∈ (keepLoops (capturedLoops (analyzeMarked t) (blockBindings (analyzeMarked t))
      (keepDynamic (analyzeMarked t) (blockBindings (analyzeMarked t))).kept)
      (keepDynamic (analyzeMarked t) (blockBindings (analyzeMarked t)))).kept := by
    unfold keepLoops
    refine mem_kept_foldl (fun p l => ?_) (fun p => ?_) _ hcaptured
    · split
      · exact List.subset_append_left _ _
      · exact List.Subset.refl _
    · rw [hproblem]
      exact List.mem_append_right _ (List.mem_filterMap.mpr ⟨_, hmem, hk⟩)
  rw [Bool.not_eq_true', List.any_eq_false] at hkept
  refine hkept _ hmem ?_
  rw [isKept, hk]
  exact List.contains_iff_mem.mpr hkeeps

/-- The binding is one of those that a loop makes anew for every iteration in its head. -/
def IsHeadBinding (loop : Tree) (b : Binding) : Prop :=
  isBlockDeclaration (head loop) = true ∧
    ∃ d ∈ (head loop).children "declarations", b.identifier ∈ (d.get "id").patternIdentifiers

/-- Does a loop over a collection in the body write to a binding of the head? -/
def overwritesHead (loop : Tree) : Bool :=
  (loop.get "body").nodes.any fun n => n.isTypeIn ["ForInStatement", "ForOfStatement"] &&
    (n.get "left").patternNames.any (headNames loop).contains

theorem isNode_of_mem_writes {n : Tree} {name : Option String} (h : name ∈ writes n) : n.isNode := by
  obtain ⟨w, -, hname⟩ := List.mem_flatMap.mp h
  split at hname
  · rename_i htype
    exact isNode_of_type? (isType_iff.mp htype)
  · cases hname

/-- What the lowering looks for, and loops over collections, are all there is to write to a name. -/
theorem mem_written {n : Tree} {name : Option String} (h : name ∈ writes n) :
    name ∈ writtenNames n ∨
      n.isTypeIn ["ForInStatement", "ForOfStatement"] ∧ name ∈ (n.get "left").patternNames := by
  obtain ⟨w, hw, hname⟩ := List.mem_flatMap.mp h
  split at hname
  · rename_i htype
    simp only [writerKeys, List.mem_cons, List.not_mem_nil, or_false] at hw
    rcases hw with rfl | rfl | rfl | rfl
    · rw [writtenNames, if_pos htype]
      exact .inl hname
    · have hnot : n.isType "AssignmentExpression" = false := by
        rw [isType_of_type? (isType_iff.mp htype)]
        decide
      rw [writtenNames, hnot, if_pos htype]
      exact .inl hname
    · exact .inr ⟨isTypeIn_of_mem (isType_iff.mp htype) (by decide), hname⟩
    · exact .inr ⟨isTypeIn_of_mem (isType_iff.mp htype) (by decide), hname⟩
  · cases hname

end

/-- The plan is to wrap the loop of a program. -/
def IsWrapped (t loop : Tree) : Prop :=
  loop ∈ t.identify.nodes ∧ ∃ m ∈ (plan (analyze t)).loops, loop.mark? = some m

/-- A reference in a scope inside the body of a loop writes to a binding. -/
structure BodyWrites (t loop : Tree) (r : Reference) (b : Binding) : Prop where
  reference : r ∈ (analyze t).references
  write : r.write = true
  inBody : ∃ s ∈ (analyze t).scopes, s.id ∈ (analyze t).around r.scope ∧
    s.node ∈ (loop.get "body").nodes
  means : ((analyze t).resolve r).bind ((analyze t).bindings[·]?) = some b

/-- **The body of a wrapped loop never writes to the bindings of the head**, where no loop over a collection in
the body has one of them as its target. -/
theorem head_not_written {t loop : Tree} (hprogram : isProgram t = true) (hshared : t.marks.Nodup)
    (hwrapped : IsWrapped t loop) (htargets : overwritesHead loop = false) {r : Reference} {b : Binding}
    (hwrites : BodyWrites t loop r b) : ¬ IsHeadBinding loop b := by
  rintro ⟨hhead, d, hd, hidentifier⟩
  have hdistinct := isDistinct_identify hprogram hshared
  have hsource := isSource_identify hprogram hshared
  have htree := isTree_analyzeMarked t.identify
  obtain ⟨hloop, m, hplanned, hmark⟩ := hwrapped
  obtain ⟨inner, hinner, hround, hbody⟩ := hwrites.inBody
  obtain ⟨i, hi, hb⟩ := Option.bind_eq_some_iff.mp hwrites.means
  have hobject := nodes_subset_objects _ hloop
  -- The name is written in the body, by name.
  obtain ⟨n, hname, hwriter⟩ := exists_writer (t := t.identify) hwrites.reference hwrites.write
  have hn : n ∈ (loop.get "body").nodes := by
    have hsub : (loop.get "body").objects ⊆ t.identify.objects := fun o ho =>
      objects_subset hobject (mem_objects_get rfl ho)
    refine mem_nodes_of_mem_objects (fun o ho => hsource.isNodal o (hsub ho)) ?_ ?_
    · have hnode := hwriter _ hround
      rw [htree.nodeOf_id hinner] at hnode
      exact objects_subset (nodes_subset_objects _ hbody) hnode
    · exact isNode_of_mem_writes hname
  -- The name is one of the head.
  have hheadName : r.name ∈ headNames loop := by
    obtain ⟨k, -, ⟨b', hb', -, hname'⟩, -⟩ := htree.resolve_eq_some_iff.mp hi
    obtain rfl : b' = b := Option.some.inj (hb'.symm.trans hb)
    rw [headNames, if_pos hhead, ← hname']
    exact List.mem_flatMap.mpr ⟨d, hd, List.mem_map_of_mem hidentifier⟩
  have hcontains := List.contains_iff_mem.mpr hheadName
  rcases mem_written hname with hwritten | ⟨htype, htarget⟩
  · -- The lowering has seen the write.
    have hproblem := wrapProblem?_of_planned hdistinct hobject hmark hplanned hhead
    have hwrites : writesHead loop = true :=
      List.any_eq_true.mpr ⟨n, hn, List.any_eq_true.mpr ⟨_, hwritten, hcontains⟩⟩
    rw [wrapProblem?, if_pos hwrites] at hproblem
    cases hproblem
  · have hover : overwritesHead loop = true := by
      refine List.any_eq_true.mpr ⟨n, hn, ?_⟩
      rw [htype, Bool.true_and]
      exact List.any_eq_true.mpr ⟨_, htarget, hcontains⟩
    rw [htargets] at hover
    cases hover

/-- `for (let i of xs) { …; f(() => i); }` -/
def loopOver (body : List Tree) : Tree :=
  make "ForOfStatement" [("left", declaration "let" [declarator (identifier "i")]), ("right", identifier "xs"),
    ("body", block (body ++ [expressionStatement (call (identifier "f")
      [make "ArrowFunctionExpression" [("params", .list []), ("body", identifier "i"),
        ("expression", .bool true)]])]))]

/-- `var x; for (let i of xs) { x = i; f(() => i); }` -/
def copying : Tree :=
  make "Program" [("body", .list
    [var "x", loopOver [expressionStatement (assign (identifier "x") (identifier "i"))]])]

/-- `for (let i of xs) { for (i of ys) {} f(() => i); }` -/
def overwriting : Tree :=
  make "Program" [("body", .list
    [loopOver [make "ForOfStatement"
      [("left", identifier "i"), ("right", identifier "ys"), ("body", block [])]]])]

theorem head_not_written_copying : isProgram copying = true ∧ copying.marks.Nodup ∧
    ∃ loop r b, IsWrapped copying loop ∧ overwritesHead loop = false ∧ BodyWrites copying loop r b ∧
      ¬ IsHeadBinding loop b := by
  have hprogram : isProgram copying = true := by decide
  have hshared : copying.marks.Nodup := by decide
  have hwrapped : IsWrapped copying ((copying.identify.children "body").getD 1 .null) :=
    ⟨List.mem_of_getElem? (i := 4) rfl, 4, by decide +kernel, rfl⟩
  have hwrites : BodyWrites copying ((copying.identify.children "body").getD 1 .null) _ _ :=
    { reference := List.mem_of_getElem? (i := 1) rfl
      write := rfl
      inBody := ⟨_, List.mem_of_getElem? (i := 2) rfl, List.mem_of_getElem? (i := 0) rfl,
        List.mem_of_getElem? (i := 0) rfl⟩
      means := rfl }
  have htargets : overwritesHead ((copying.identify.children "body").getD 1 .null) = false := by decide +kernel
  exact ⟨hprogram, hshared, _, _, _, hwrapped, htargets, hwrites,
    head_not_written hprogram hshared hwrapped htargets hwrites⟩

/-- **A loop over a collection is overlooked**: its target is the binding of the wrapped loop around it. -/
theorem head_written_overwriting : isProgram overwriting = true ∧ overwriting.marks.Nodup ∧
    ∃ loop r b, IsWrapped overwriting loop ∧ BodyWrites overwriting loop r b ∧ IsHeadBinding loop b := by
  have hwrites : BodyWrites overwriting ((overwriting.identify.children "body").getD 0 .null) _ _ :=
    { reference := List.mem_of_getElem? (i := 1) rfl
      write := rfl
      inBody := ⟨_, List.mem_of_getElem? (i := 2) rfl, List.mem_of_getElem? (i := 1) rfl,
        List.mem_of_getElem? (i := 0) rfl⟩
      means := rfl }
  refine ⟨by decide, by decide, _, _, _, ?_, hwrites, rfl, _, List.mem_cons_self,
    List.mem_of_getElem? (i := 0) rfl⟩
  exact ⟨List.mem_of_getElem? (i := 1) rfl, 1, by decide +kernel, rfl⟩

end Block
end Lower
end Downlevel
