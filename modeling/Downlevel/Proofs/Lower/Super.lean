import Downlevel.Lower.Class.Basic
import Downlevel.Proofs.Grammar.Mentions

/-!
# `Proofs.Lower.Super`: nothing is left of `super`

What becomes of a node in a method of a derived class depends on the node alone: `superless` says what, by
recursion on the tree. `Replaced` says it by rules, one for each way in which `super` can be used; the grammar
allows no other. A method is replaced by the rules, and then mentions `super` no more.
-/

namespace Downlevel.Lower.Class

open Tree Node Grammar

variable {labels : Labelling} {s : Symbol} {t : Tree}

/-! ## Parts of calls and members -/

theorem derives_superBase (superName : String) (isStatic : Bool) :
    Derives labels .callee (superBase superName isStatic) := by
  rw [superBase]
  split
  · exact derives_identifier superName .null (by decide)
  · exact derives_path (derives_identifier superName .null (by decide)) _ (by decide)

/-- The arguments of a call are children. -/
theorem mem_childNodes_arguments (ht : Derives labels s t) (htype : t.type? = some "CallExpression") {y : Tree}
    (hy : y ∈ t.children "arguments") :
    ("arguments", y) ∈ t.childNodes ∧ Derives labels .argument y := by
  obtain ⟨-, hall⟩ := ht.many htype (k := "arguments") rfl
  exact ⟨mem_childNodes_get rfl (mem_nodesIn.mpr ⟨.inr hy, (hall y hy).isNode⟩), hall y hy⟩

/-- A field that holds one node holds a child. -/
theorem mem_childNodes_one {key : String} {x : Symbol} (hk : isSyntaxKey key)
    (h : Derives labels x (t.get key)) : (key, t.get key) ∈ t.childNodes :=
  mem_childNodes_get hk (mem_nodesIn.mpr ⟨.inl rfl, h.isNode⟩)

theorem get_one (f : String → Tree → Tree) {key : String} {x : Symbol} (hk : isSyntaxKey key)
    (h : Derives labels x (t.get key)) : (mapChildren f t).get key = f key (t.get key) := by
  rw [get_mapChildren hk, mapNodes_of_isNode h.isNode]

theorem mapNodes_arguments (f : Tree → Tree) (ht : Derives labels s t)
    (htype : t.type? = some "CallExpression") :
    mapNodes f (.list (t.children "arguments")) = .list ((t.children "arguments").map f) := by
  rw [mapNodes]
  exact congrArg _ (List.map_congr_left fun y hy =>
    if_pos (mem_childNodes_arguments ht htype hy).2.isNode)

theorem derives_memberProperty (ht : Derives labels s t) (htype : t.type? = some "MemberExpression") :
    t.get? "property" = some (t.get "property") ∧
      Derives labels (if (t.get "computed").isSet then .expression else .identifier)
        (t.get "property") :=
  (ht.get?_of_slot? (slot?_property htype) rfl).imp id fits_one_iff.mp

theorem type?_of_isSuperMember (h : isSuperMember t) :
    t.type? = some "MemberExpression" ∧ (t.get "object").type? = some "Super" := by
  rw [isSuperMember, Bool.and_eq_true] at h
  exact ⟨isType_iff.mp h.1, isType_iff.mp h.2⟩

/-! ## Without a visit -/

/-- What becomes of a node `t` whose parts were replaced in `t₁`. -/
def finishSuper (superName : String) (isStatic : Bool) (t t₁ : Tree) : Tree :=
  if t.isTypeIn ownSuperTypes then t
  else if t.isType "CallExpression" && (t.get "callee").isType "Super" then
    call (path (identifier superName) ["call"]) (thisExpression :: t₁.children "arguments") t
  else if t.isType "CallExpression" && isSuperMember (t.get "callee") then
    call (dot (t₁.get "callee") "call") (thisExpression :: t₁.children "arguments") t
  else if isSuperMember t then
    if (t.get "computed").isSet then located (member (superBase superName isStatic) (t₁.get "property") true) t
    else located (member (superBase superName isStatic) (t.get "property")) t
  else t₁

/-- A node with every `super` replaced. -/
def superless (superName : String) (isStatic : Bool) : Tree → Tree :=
  remake (fun _ _ _ => some ()) (fun _ => finishSuper superName isStatic) ()

/-- A node of which the parts have every `super` replaced. -/
def superlessParts (superName : String) (isStatic : Bool) : Tree → Tree :=
  mapChildren fun _ => superless superName isStatic

variable {superName : String} {isStatic : Bool}

theorem superless_eq (h : t.isObject) : superless superName isStatic t =
    finishSuper superName isStatic t (superlessParts superName isStatic t) := remake_eq h

theorem children_superlessParts (ht : Derives labels s t) (htype : t.type? = some "CallExpression") :
    (superlessParts superName isStatic t).children "arguments" =
      (t.children "arguments").map (superless superName isStatic) := by
  rw [superlessParts, children, get_mapChildren (by decide), (ht.many htype (k := "arguments") rfl).1,
    mapNodes_arguments _ ht htype, items]

/-- **The ways in which a node uses `super`**, and what becomes of it. -/
theorem superless_cases (superName : String) (isStatic : Bool) (ht : Derives labels s t) :
    (t.isTypeIn ownSuperTypes ∧ superless superName isStatic t = t) ∨
    (t.type? = some "CallExpression" ∧ (t.get "callee").type? = some "Super" ∧
      superless superName isStatic t = call (path (identifier superName) ["call"])
        (thisExpression :: (t.children "arguments").map (superless superName isStatic)) t) ∨
    (t.type? = some "CallExpression" ∧ isSuperMember (t.get "callee") ∧
      Derives labels .callee (t.get "callee") ∧
      superless superName isStatic t = call (dot (superless superName isStatic (t.get "callee")) "call")
        (thisExpression :: (t.children "arguments").map (superless superName isStatic)) t) ∨
    (isSuperMember t ∧ (t.get "computed").isSet ∧ Derives labels .expression (t.get "property") ∧
      superless superName isStatic t = located (member (superBase superName isStatic)
        (superless superName isStatic (t.get "property")) true) t) ∨
    (isSuperMember t ∧ (t.get "computed").isSet = false ∧ Derives labels .identifier (t.get "property") ∧
      superless superName isStatic t = located (member (superBase superName isStatic) (t.get "property")) t) ∨
    t.isTypeIn ownSuperTypes = false ∧ (t.type? = some "CallExpression" →
      (t.get "callee").type? ≠ some "Super" ∧ isSuperMember (t.get "callee") = false) ∧
      isSuperMember t = false ∧ superless superName isStatic t = superlessParts superName isStatic t := by
  rw [superless_eq ht.isObject, finishSuper]
  by_cases hown : t.isTypeIn ownSuperTypes
  · exact .inl ⟨hown, if_pos hown⟩
  rw [if_neg hown]
  by_cases hconstruct : (t.isType "CallExpression" && (t.get "callee").isType "Super")
  · rw [if_pos hconstruct]
    rw [Bool.and_eq_true, isType_iff, isType_iff] at hconstruct
    rw [children_superlessParts ht hconstruct.1]
    exact .inr (.inl ⟨hconstruct.1, hconstruct.2, rfl⟩)
  rw [if_neg hconstruct]
  by_cases hinvoke : (t.isType "CallExpression" && isSuperMember (t.get "callee"))
  · rw [if_pos hinvoke]
    rw [Bool.and_eq_true, isType_iff] at hinvoke
    have hcallee : Derives labels .callee (t.get "callee") := ht.one hinvoke.1 rfl
    rw [children_superlessParts ht hinvoke.1, superlessParts, get_one _ (by decide) hcallee]
    exact .inr (.inr (.inl ⟨hinvoke.1, hinvoke.2, hcallee, rfl⟩))
  rw [if_neg hinvoke]
  by_cases hmember : isSuperMember t
  · rw [if_pos hmember]
    obtain ⟨-, hproperty⟩ := derives_memberProperty ht (type?_of_isSuperMember hmember).1
    rw [superlessParts, get_one _ (by decide) hproperty]
    cases hcomputed : (t.get "computed").isSet with
    | true =>
      rw [hcomputed, if_pos rfl] at hproperty
      exact .inr (.inr (.inr (.inl ⟨hmember, rfl, hproperty, if_pos rfl⟩)))
    | false =>
      rw [hcomputed, if_neg Bool.false_ne_true] at hproperty
      exact .inr (.inr (.inr (.inr (.inl ⟨hmember, rfl, hproperty, if_neg Bool.false_ne_true⟩))))
  · rw [if_neg hmember]
    refine .inr (.inr (.inr (.inr (.inr ⟨by simpa using hown, fun htype => ⟨fun hsuper => ?_, ?_⟩,
      by simpa using hmember, rfl⟩))))
    · exact hconstruct (by rw [isType_iff.mpr htype, isType_iff.mpr hsuper]; rfl)
    · simpa [isType_iff.mpr htype] using hinvoke

/-- What becomes of a node, by where it stands. -/
def superlessAt (superName : String) (isStatic : Bool) : Depth → Tree → Tree
  | .method => superlessParts superName isStatic
  | .inside => superless superName isStatic

/-- The handler makes every node anew. -/
theorem replaceHandle_remakes {parts : Parts Depth Unit} (depth : Depth) (ht : Derives labels s t)
    (hparts : PartsRemake (superlessAt superName isStatic) t parts) (st : Unit) :
    Yields (replaceHandle superName isStatic depth t parts) st
      (.keep (superlessAt superName isStatic depth t)) st := by
  have hpass := (hparts.descend .inside st).map Outcome.keep
  cases depth with
  | method => exact hpass
  | inside =>
    show Yields _ st (Outcome.keep (superless superName isStatic t)) st
    have hone : ∀ {key x}, t.get? key = some (t.get key) → isSyntaxKey key →
        Derives labels x (t.get key) → Yields (parts.field key .inside) st
          (.keep ((superlessParts superName isStatic t).get key)) st := by
      intro key x hget hk hd
      have hvisit := hparts.field .inside st hget hk (by rw [isVisited, hd.isNode]; rfl)
      rw [mapNodes_of_isNode hd.isNode] at hvisit
      rwa [superlessParts, get_one _ hk hd]
    have harguments : t.type? = some "CallExpression" → Yields (parts.field "arguments" .inside) st
        (.keep (.list ((superlessParts superName isStatic t).children "arguments"))) st := by
      intro htype
      have hget := get?_of_get (ht.many htype (k := "arguments") rfl).1 rfl
      have hvisit := hparts.field .inside st hget (by decide) rfl
      rw [mapNodes_arguments _ ht htype] at hvisit
      rwa [children_superlessParts ht htype]
    rw [superless_eq ht.isObject, finishSuper]
    simp only [replaceHandle]
    split
    · exact Yields.pure _ _
    split
    · rename_i hcall
      rw [Bool.and_eq_true] at hcall
      exact (harguments (isType_iff.mp hcall.1)).bind (Yields.pure _ _)
    split
    · rename_i hcall
      rw [Bool.and_eq_true] at hcall
      have htype := isType_iff.mp hcall.1
      have hcallee : Derives labels .callee (t.get "callee") := ht.one htype rfl
      refine (hone (get?_of_get rfl hcallee.isNull) (by decide) hcallee).bind ?_
      exact (harguments htype).bind (Yields.pure _ _)
    split
    · rename_i hmember
      obtain ⟨hget, hproperty⟩ := derives_memberProperty ht (type?_of_isSuperMember hmember).1
      refine (yields_require hget).bind ?_
      cases hcomputed : (t.get "computed").isSet with
      | true => exact ((hone hget (by decide) hproperty).map _).bind (Yields.pure _ _)
      | false => exact (Yields.pure _ _).bind (Yields.pure _ _)
    · exact hpass

/-- **Replacing `super` in a function** makes its parts anew. -/
theorem replace_eq (superName : String) (isStatic : Bool) (ht : Derives labels .function t) :
    replace superName isStatic t = .ok (superlessParts superName isStatic t) := by
  have hvisit := visit_remakes (g := superlessAt superName isStatic)
    (fun depth ht hparts st => replaceHandle_remakes depth ht hparts st) ht .method ()
  rw [replace, hvisit]
  rfl

/-! ## Derivations -/

/-- What becomes of a node stands for the same symbol. -/
theorem derives_superless (ht : Derives labels s t) : Derives labels s (superless superName isStatic t) := by
  refine ht.inductionOnChildren
    (motive := fun t => ∀ s, Derives labels s t → Derives labels s (superless superName isStatic t)) ?_ s ht
  intro _ t _ ih s ht
  have harguments : t.type? = some "CallExpression" →
      ∀ a ∈ thisExpression :: (t.children "arguments").map (superless superName isStatic),
        Derives labels .argument a := by
    intro htype
    rw [List.forall_mem_cons, List.forall_mem_map]
    refine ⟨derives_thisExpression .null (by decide), fun y hy => ?_⟩
    obtain ⟨hchild, hd⟩ := mem_childNodes_arguments ht htype hy
    exact ih _ hchild _ hd
  rcases superless_cases superName isStatic ht with ⟨-, heq⟩ | ⟨htype, -, heq⟩ | ⟨htype, -, hcallee, heq⟩ |
    ⟨hmember, -, hproperty, heq⟩ | ⟨hmember, -, hproperty, heq⟩ | ⟨-, -, -, heq⟩
  all_goals rw [heq]
  · exact ht
  · exact derives_call (derives_path (derives_identifier superName .null (by decide)) _ (by decide))
      (harguments htype) t (ht.mem_types htype)
  · exact derives_call (derives_dot (ih _ (mem_childNodes_one (by decide) hcallee) _ hcallee) _ (by decide))
      (harguments htype) t (ht.mem_types htype)
  · have hmem := ht.mem_types (type?_of_isSuperMember hmember).1
    have hkey := ih _ (mem_childNodes_one (by decide) hproperty) _ hproperty
    exact derives_located (derives_member (derives_superBase _ _) hkey hmem) t
  · have hmem := ht.mem_types (type?_of_isSuperMember hmember).1
    exact derives_located (derives_member (derives_superBase _ _) hproperty hmem) t
  · exact ht.mapChildren fun p hp x => ih p hp x

theorem derives_superlessParts (ht : Derives labels s t) :
    Derives labels s (superlessParts superName isStatic t) :=
  ht.mapChildren fun _ _ _ => derives_superless

/-- A function stays one when its `super` is replaced. -/
theorem derives_replace (superName : String) (isStatic : Bool) (h : Derives labels .function t) :
    ∃ f, replace superName isStatic t = .ok f ∧ Derives labels .function f :=
  ⟨_, replace_eq superName isStatic h, derives_superlessParts h⟩

theorem childNodes_superlessParts (ht : Derives labels s t) :
    (superlessParts superName isStatic t).childNodes =
      t.childNodes.map fun p => (p.1, superless superName isStatic p.2) := by
  refine childNodes_mapChildren fun p hp => ?_
  obtain ⟨-, x, -, -, hd⟩ := ht.child hp
  exact (derives_superless hd).isNode

/-! ## The rules -/

/-- What `super` is replaced by: `superName` holds the superclass, and `base` is the object that `super.p` looks
into. Nested functions and classes have a `super` of their own. -/
inductive Replaced (superName : String) (base : Tree) : Tree → Tree → Prop
  | own {t : Tree} (h : t.isTypeIn ownSuperTypes) : Replaced superName base t t
  /-- `super(a, …)` becomes `superName.call(this, a, …)`. -/
  | construct {t : Tree} {arguments : List Tree} (htype : t.type? = some "CallExpression")
      (hcallee : (t.get "callee").type? = some "Super")
      (h : List.Forall₂ (Replaced superName base) (t.children "arguments") arguments) :
      Replaced superName base t
        (call (path (identifier superName) ["call"]) (thisExpression :: arguments) t)
  /-- `super.m(a, …)` becomes `base.m.call(this, a, …)`. -/
  | invoke {t callee : Tree} {arguments : List Tree} (htype : t.type? = some "CallExpression")
      (hmember : isSuperMember (t.get "callee"))
      (hcallee : Replaced superName base (t.get "callee") callee)
      (h : List.Forall₂ (Replaced superName base) (t.children "arguments") arguments) :
      Replaced superName base t (call (dot callee "call") (thisExpression :: arguments) t)
  /-- `super.p` becomes `base.p`. -/
  | named {t : Tree} (hmember : isSuperMember t) (h : (t.get "computed").isSet = false) :
      Replaced superName base t (located (member base (t.get "property")) t)
  /-- `super[k]` becomes `base[k]`. -/
  | keyed {t key : Tree} (hmember : isSuperMember t) (h : (t.get "computed").isSet)
      (hkey : Replaced superName base (t.get "property") key) :
      Replaced superName base t (located (member base key true) t)
  /-- In all other nodes only the children are replaced. -/
  | other {t : Tree} {f : String → Tree → Tree} (hown : t.isTypeIn ownSuperTypes = false)
      (hcall : t.type? = some "CallExpression" → (t.get "callee").type? ≠ some "Super" ∧
        isSuperMember (t.get "callee") = false)
      (hmember : isSuperMember t = false)
      (h : ∀ p ∈ t.childNodes, Replaced superName base p.2 (f p.1 p.2)) :
      Replaced superName base t (mapChildren f t)

/-- **Every node is replaced by the rules.** -/
theorem replaced_superless (superName : String) (isStatic : Bool) (ht : Derives labels s t) :
    Replaced superName (superBase superName isStatic) t (superless superName isStatic t) := by
  refine ht.inductionOnChildren (motive := fun t =>
    Replaced superName (superBase superName isStatic) t (superless superName isStatic t)) ?_
  intro s t ht ih
  have harguments : t.type? = some "CallExpression" →
      List.Forall₂ (Replaced superName (superBase superName isStatic)) (t.children "arguments")
        ((t.children "arguments").map (superless superName isStatic)) := by
    intro htype
    rw [List.forall₂_map_right_iff, List.forall₂_same]
    exact fun y hy => ih _ (mem_childNodes_arguments ht htype hy).1
  rcases superless_cases superName isStatic ht with ⟨hown, heq⟩ | ⟨htype, hcallee, heq⟩ |
    ⟨htype, hcallee, hpart, heq⟩ | ⟨hmember, hcomputed, hproperty, heq⟩ | ⟨hmember, hcomputed, -, heq⟩ |
    ⟨hown, hcall, hmember, heq⟩
  all_goals rw [heq]
  · exact .own hown
  · exact .construct htype hcallee (harguments htype)
  · exact .invoke htype hcallee (ih _ (mem_childNodes_one (by decide) hpart)) (harguments htype)
  · exact .keyed hmember hcomputed (ih _ (mem_childNodes_one (by decide) hproperty))
  · exact .named hmember hcomputed
  · exact .other hown hcall hmember ih

/-! ## Nothing is left -/

/-- `super` stands in a call or in a member only. -/
theorem parent_of_super (ht : Derives labels s t) {p : String × Tree} (hp : p ∈ t.childNodes)
    (h : p.2.type? = some "Super") :
    (t.type? = some "CallExpression" ∧ p.2 = t.get "callee") ∨
      t.type? = some "MemberExpression" ∧ p.2 = t.get "object" := by
  obtain ⟨slot, x, hslot, hx, hd⟩ := ht.child hp
  obtain ⟨type, rs, entry, htype, hrs, hentry, hmem⟩ := mem_contents_of_slot? hslot hx
  have hcallee : x = .callee := by
    have hsuper := hd.mem_types h
    cases x <;> first | rfl | exact absurd hsuper (by decide)
  have hall : ∀ rule ∈ rules, ∀ entry ∈ rule.2, .callee ∈ entry.2.contents →
      rule.1 = "CallExpression" ∧ entry.1 = "callee" ∨
        rule.1 = "MemberExpression" ∧ entry.1 = "object" := by decide
  rcases hall _ hrs _ hentry (hcallee ▸ hmem) with ⟨rfl, hkey⟩ | ⟨rfl, hkey⟩
  · have hpart : Derives labels .callee (t.get "callee") := ht.one htype rfl
    exact .inl ⟨htype, hkey ▸ ht.child_eq_get hp (by rw [show p.1 = _ from hkey]; exact hpart.isList)⟩
  · have hpart : Derives labels .callee (t.get "object") := ht.one htype rfl
    exact .inr ⟨htype, hkey ▸ ht.child_eq_get hp (by rw [show p.1 = _ from hkey]; exact hpart.isList)⟩

/-- Is `super` mentioned, outside of functions and classes with a `super` of their own? -/
def mentionsSuper : Tree → Bool := mentions ownSuperTypes (·.isType "Super")

theorem mentionsSuper_make {type : String} {fs : Fields} {place : Tree}
    (htype : type ≠ "Super") (h : ∀ f ∈ fs, mentionsSuper f.2 = false) :
    mentionsSuper (located (make type fs) place) = false := by
  refine mentions_make ?_ h
  have hown : (located (make type fs) place).type? = some type := by
    rw [type?, get_located (by decide) (by decide)]
    rfl
  rw [isType_of_type? hown, decide_eq_false htype]

theorem mentionsSuper_call {callee place : Tree} {arguments : List Tree}
    (hcallee : mentionsSuper callee = false) (harguments : ∀ a ∈ arguments, mentionsSuper a = false) :
    mentionsSuper (call callee (thisExpression :: arguments) place) = false := by
  refine mentionsSuper_make (by decide) (List.forall_mem_cons.mpr ⟨hcallee, ?_⟩)
  exact List.forall_mem_singleton.mpr (mentions_list (List.forall_mem_cons.mpr ⟨rfl, harguments⟩))

theorem mentionsSuper_member {object property : Tree} {computed : Bool} (place : Tree)
    (hobject : mentionsSuper object = false) (hproperty : mentionsSuper property = false) :
    mentionsSuper (located (member object property computed) place) = false := by
  refine mentionsSuper_make (by decide) ?_
  simp only [List.forall_mem_cons]
  exact ⟨rfl, hobject, hproperty, nofun⟩

/-- **No `super` is left in what replaces a node.** -/
theorem mentionsSuper_superless (ht : Derives labels s t) (h : t.type? ≠ some "Super") :
    mentionsSuper (superless superName isStatic t) = false := by
  refine ht.inductionOnChildren (motive := fun t => t.type? ≠ some "Super" →
    mentionsSuper (superless superName isStatic t) = false) ?_ h
  intro s t ht ih h
  have hbase : mentionsSuper (superBase superName isStatic) = false := by cases isStatic <;> rfl
  have harguments : t.type? = some "CallExpression" →
      ∀ a ∈ (t.children "arguments").map (superless superName isStatic), mentionsSuper a = false := by
    intro htype
    rw [List.forall_mem_map]
    intro y hy
    obtain ⟨hchild, hd⟩ := mem_childNodes_arguments ht htype hy
    exact ih _ hchild fun hsuper => absurd (hd.mem_types hsuper) (by decide)
  rcases superless_cases superName isStatic ht with ⟨hown, heq⟩ | ⟨htype, -, heq⟩ |
    ⟨htype, hcallee, hpart, heq⟩ | ⟨-, -, hproperty, heq⟩ | ⟨-, -, hproperty, heq⟩ |
    ⟨-, hcall, hmember, heq⟩
  all_goals rw [heq]
  · rw [mentionsSuper, mentions_eq ht.isObject, hown, Bool.not_true, Bool.false_and, Bool.or_false,
      ← Bool.not_eq_true, isType_iff]
    exact h
  · exact mentionsSuper_call rfl (harguments htype)
  · have hnone : mentionsSuper (superless superName isStatic (t.get "callee")) = false := by
      refine ih _ (mem_childNodes_one (by decide) hpart) ?_
      rw [(type?_of_isSuperMember hcallee).1]
      decide
    exact mentionsSuper_call (mentionsSuper_member .null hnone rfl) (harguments htype)
  · refine mentionsSuper_member t hbase (ih _ (mem_childNodes_one (by decide) hproperty) fun hsuper => ?_)
    exact absurd (hproperty.mem_types hsuper) (by decide)
  · refine mentionsSuper_member t hbase ?_
    rw [mentionsSuper, hproperty.mentions_name (hproperty.type_eq rfl) (by decide),
      isType_of_type? (hproperty.type_eq rfl)]
    decide
  · refine mentions_eq_false (derives_superlessParts ht).isObject ?_ fun q hq => ?_
    · rw [superlessParts, isType_congr type?_mapChildren, ← Bool.not_eq_true, isType_iff]
      exact h
    · rw [childNodes_superlessParts ht] at hq
      obtain ⟨p, hp, rfl⟩ := List.mem_map.mp hq
      refine ih p hp fun hsuper => ?_
      rcases parent_of_super ht hp hsuper with ⟨htype, hpart⟩ | ⟨htype, hpart⟩
      · exact (hcall htype).1 (hpart ▸ hsuper)
      · rw [isSuperMember, isType_iff.mpr htype, ← hpart, isType_iff.mpr hsuper] at hmember
        cases hmember

/-- A function whose parts are replaced mentions no `super`. -/
theorem usesSuper_superlessParts (superName : String) (isStatic : Bool) (ht : Derives labels .function t) :
    (superlessParts superName isStatic t).usesSuper = false := by
  have hd : Derives labels .function (superlessParts superName isStatic t) := derives_superlessParts ht
  rw [usesSuper, hd.nodes_eq_of_stopAt, List.any_cons, isType_of_type? (hd.type_eq rfl),
    List.any_flatMap, Bool.or_eq_false_iff, List.any_eq_false]
  refine ⟨by decide, fun q hq => ?_⟩
  obtain ⟨-, x, -, -, hq'⟩ := hd.child hq
  rw [hq'.any_partNodes]
  rw [childNodes_superlessParts ht] at hq
  obtain ⟨p, hp, rfl⟩ := List.mem_map.mp hq
  obtain ⟨-, x, -, -, hp'⟩ := ht.child hp
  refine Bool.not_eq_true _ ▸ mentionsSuper_superless hp' fun hsuper => ?_
  rcases parent_of_super ht hp hsuper with ⟨htype, -⟩ | ⟨htype, -⟩
  · exact absurd ((ht.type_eq rfl).symm.trans htype) (by decide)
  · exact absurd ((ht.type_eq rfl).symm.trans htype) (by decide)

/-! ## The methods of a class -/

/-- A method of which the parts are replaced, so that `super` is gone. In a static method `super.p` looks into the
superclass, in all others into its prototype. -/
def MethodReplaced (superName : String) (method method' : Tree) : Prop :=
  ∃ f : String → Tree → Tree, method' = method.set "value" (mapChildren f (method.get "value")) ∧
    (∀ p ∈ (method.get "value").childNodes, Replaced superName
      (if (method.get "static").isSet then identifier superName
        else path (identifier superName) ["prototype"]) p.2 (f p.1 p.2)) ∧
    (mapChildren f (method.get "value")).usesSuper = false

theorem methodReplaced_replaceSuper (superName : String) {method : Tree} (h : Derives labels .method method) :
    ∃ m, replaceSuper superName method = .ok m ∧ MethodReplaced superName method m := by
  have hslot : slot? .method method "value" = some (.one .function) := slot?_one (h.type_eq rfl) rfl
  obtain ⟨hsome, hfits⟩ := h.get?_of_slot? hslot rfl
  have hfunction := fits_one_iff.mp hfits
  refine ⟨_, ?_, _, rfl, fun p hp => ?_,
    usesSuper_superlessParts superName (method.get "static").isSet hfunction⟩
  · rw [replaceSuper, need, hsome, ok_bind, replace_eq _ _ hfunction]
    rfl
  · obtain ⟨-, x, -, -, hd⟩ := hfunction.child hp
    exact replaced_superless superName _ hd

theorem forall₂_mapM_replaceSuper {methods ms : List Tree} (h : ∀ m ∈ methods, Derives labels .method m)
    (hms : methods.mapM (replaceSuper superName) = .ok ms) :
    List.Forall₂ (MethodReplaced superName) methods ms := by
  induction methods generalizing ms with
  | nil =>
    cases hms
    exact .nil
  | cons method rest ih =>
    rw [List.forall_mem_cons] at h
    obtain ⟨m, hm, hreplaced⟩ := methodReplaced_replaceSuper superName h.1
    rw [List.mapM_cons, hm, ok_bind] at hms
    cases hrest : rest.mapM (replaceSuper superName) with
    | error fault =>
      rw [hrest] at hms
      cases hms
    | ok ms' =>
      rw [hrest] at hms
      cases hms
      exact .cons hreplaced (ih h.2 hrest)

end Downlevel.Lower.Class
