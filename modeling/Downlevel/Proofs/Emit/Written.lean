import Downlevel.Emit.Program
import Downlevel.Proofs.Grammar.Objects
import Downlevel.Proofs.Grammar.Regular
import Downlevel.Proofs.Text.Glyph

/-!
# `Proofs.Emit.Written`: what is written of a tree

A layout consists of the texts of its tree, of keywords and of punctuation. So the layout of a tree
without a glyph is without it as well, whichever of its nodes the printing rules put where. A part that
is laid out and not written is only ever a single name, which takes no comments.

Each role writes nodes of certain types. Wherever a node of a program asks for a part in a role, the
grammar has a node of such a type there; so by induction all of it is written.

Only the case of a switch ends with the lines of its statements; everything else closes what it opens. So
if cases stand in switches only, then code follows the lines of statements only behind a brace.

These facts go through all printing rules. They are *aims* of the same proof.
-/

namespace Downlevel.Emit

open Tree Grammar

/-! ## Roles -/

/-- The types of nodes that are written as expressions. -/
def writtenTypes : List String :=
  ["Super", "SpreadElement", "JSXEmptyExpression"] ++ expressionTypes ++
    ["ObjectPattern", "ArrayPattern", "AssignmentPattern", "RestElement", "JSXOpeningElement",
     "JSXClosingElement", "JSXIdentifier", "JSXMemberExpression", "JSXNamespacedName",
     "JSXAttribute", "JSXSpreadAttribute", "JSXText", "JSXExpressionContainer", "JSXElement"]

/-- The types of nodes that are written in a role. -/
def Role.types : Role → List String
  | .expr _ => writtenTypes
  | .element => writtenTypes
  | .stmt => Emit.statementTypes
  | .body => Emit.statementTypes
  | .ownBlock => Emit.statementTypes
  | .block => ["BlockStatement", "ClassBody"]
  | .declaration => ["VariableDeclaration"]
  | .declarator => ["VariableDeclarator"]
  | .loopHead _ => "VariableDeclaration" :: writtenTypes
  | .functionTail => ["FunctionExpression"]
  | .template => ["TemplateLiteral"]
  | .property => "Property" :: writtenTypes
  | .handler => ["CatchClause"]
  | .tagEnd => ["JSXOpeningElement"]

/-! ## Aims -/

/-- What is shown of the layouts of a tree. -/
inductive Aim where
  /-- The nodes of a program have one. -/
  | total (labels : Labelling)
  /-- They are without a glyph that the tree is without. -/
  | free (g : Glyph)
  /-- Nothing follows the statements of a case on their last line. -/
  | tidy

/-- A case ends no later than the last of its statements. -/
def EndsInTime (place : Option (Int × Int)) (places : List (Option (Int × Int))) : Prop :=
  ∀ p ∈ place, 0 ≤ p.2 ∧ ∀ last ∈ places.getLast?, ∀ q ∈ last, p.2 ≤ q.2

/-- Cases stand among those of a switch, and end in time. -/
def KeepsCases (t : Tree) : Prop :=
  (∀ f ∈ t.fields, f.2.isType "SwitchCase" = false ∧ ∀ c ∈ f.2.items, c.isType "SwitchCase" = true →
    t.isType "SwitchStatement" = true ∧ f.1 = "cases") ∧
  (t.isType "SwitchCase" = true → EndsInTime t.range? ((t.children "consequent").map Tree.range?))

namespace Aim

variable {s : String} {parts : List Layout} {l : Layout}

/-- What is shown of texts. -/
def Spares : Aim → String → Prop
  | .free g, s => g.Lacks s
  | _, _ => True

/-- What is known of values. -/
def Clean : Aim → Tree → Prop
  | .free g, t => t.IsFree g
  | _, _ => True

/-- What is known of nodes, if they have one of these types. -/
def Node : Aim → List String → Tree → Prop
  | .total labels, types, t => t.isTypeIn types = true ∧ ∃ s, Derives labels s t
  | .free g, _, t => t.IsFree g
  | .tidy, _, t => t.Everywhere KeepsCases

/-- What is known of nodes outside the lists of switches. -/
def Plain (a : Aim) (t : Tree) : Prop := a = .tidy → t.isType "SwitchCase" = false

/-- Layouts can be missing where the tree does not have to be a program. -/
def MayFail : Aim → Prop
  | .total _ => False
  | _ => True

mutual

/-- What is shown of layouts; what is not written is a single text. -/
inductive Passes (a : Aim) : Layout → Prop
  | text {s : String} (h : a.Spares s) : Passes a (.text s)
  | cat {parts : List Layout} (h : ∀ l ∈ parts, Passes a l) : Passes a (.cat parts)
  | newline : Passes a .newline
  | nest {l : Layout} (h : Passes a l) : Passes a (.nest l)
  | wrapIf {test : TextTest} {opening closing : String} {l : Layout}
      (h : a.Spares opening ∧ a.Spares closing) (hl : Passes a l) : Passes a (.wrapIf test opening closing l)
  | behind {first second : Layout} (h : Passes a first) (h' : Passes a second) : Passes a (.behind first second)
  | silent {l : Layout} (h : a.MayFail → ∃ s, l = .text s) : Passes a (.silent l)
  | lines {frame : Frame} {items : List (Option (Int × Int) × Layout)} {close : Close}
      (hframe : a = .tidy → frame = .braced) (h : ∀ item ∈ items, PassesItem a item.1 item.2) :
      Passes a (.lines frame items close)

/-- What is shown of the layouts of statements, by their places. -/
inductive PassesItem (a : Aim) : Option (Int × Int) → Layout → Prop
  | plain {place : Option (Int × Int)} {l : Layout} (h : Passes a l) : PassesItem a place l
  | case {place : Option (Int × Int)} {label : Layout} {items : List (Option (Int × Int) × Layout)}
      (hlabel : Passes a label) (h : ∀ item ∈ items, Passes a item.2)
      (hplace : a = .tidy → EndsInTime place (items.map (·.1))) :
      PassesItem a place (.cat [label, .lines .below items .nothing])

end

variable {a : Aim}

/-! ### Texts -/

@[simp] theorem spares_of_isAscii (h : isAscii s) : a.Spares s := by
  cases a with
  | free g => exact Glyph.lacks_of_isAscii h
  | _ => trivial

@[simp] theorem spares_append {t : String} : a.Spares (s ++ t) ↔ a.Spares s ∧ a.Spares t := by
  cases a with
  | free g => exact Glyph.lacks_append
  | _ => simp [Spares]

@[simp] theorem spares_ite_iff {p : Prop} [Decidable p] {t : String} :
    a.Spares (if p then s else t) ↔ if p then a.Spares s else a.Spares t := by
  split <;> rfl

theorem spares_joinWith {separator : String} {texts : List String} (hseparator : a.Spares separator)
    (h : ∀ s ∈ texts, a.Spares s) : a.Spares (Text.joinWith separator texts) := by
  cases a with
  | free g => exact Glyph.lacks_joinWith hseparator h
  | _ => trivial

/-! ### Layouts -/

@[simp] theorem passes_text : a.Passes (.text s) ↔ a.Spares s :=
  ⟨fun h => by cases h; assumption, .text⟩

@[simp] theorem passes_cat : a.Passes (.cat parts) ↔ ∀ l ∈ parts, a.Passes l :=
  ⟨fun h => by cases h; assumption, .cat⟩

@[simp] theorem passes_newline : a.Passes .newline := .newline

@[simp] theorem passes_nest : a.Passes (.nest l) ↔ a.Passes l := ⟨fun h => by cases h; assumption, .nest⟩

@[simp] theorem passes_wrapIf {test : TextTest} {opening closing : String} :
    a.Passes (.wrapIf test opening closing l) ↔ (a.Spares opening ∧ a.Spares closing) ∧ a.Passes l :=
  ⟨fun h => by cases h; exact ⟨‹_›, ‹_›⟩, fun h => .wrapIf h.1 h.2⟩

@[simp] theorem passes_behind {first second : Layout} :
    a.Passes (.behind first second) ↔ a.Passes first ∧ a.Passes second :=
  ⟨fun h => by cases h; exact ⟨‹_›, ‹_›⟩, fun h => .behind h.1 h.2⟩

@[simp] theorem passes_parenthesized : a.Passes l.parenthesized ↔ a.Passes l := by
  simp +decide [Layout.parenthesized]

/-- Only the tidy aim tells a case from other statements. -/
theorem PassesItem.passes {place : Option (Int × Int)} (h : a.PassesItem place l) (ha : a ≠ .tidy) :
    a.Passes l := by
  cases h with
  | plain h => exact h
  | @case _ label items hlabel h =>
    have hlines : a.Passes (.lines .below items .nothing) :=
      .lines (fun heq => absurd heq ha) fun item hitem => .plain (h item hitem)
    simp [hlabel, hlines]

theorem passes_between {separator : Layout} (hseparator : a.Passes separator) (h : ∀ l ∈ parts, a.Passes l) :
    ∀ l ∈ Layout.between separator parts, a.Passes l := by
  induction parts with
  | nil => exact List.forall_mem_nil _
  | cons part rest ih =>
    obtain ⟨hpart, hrest⟩ := List.forall_mem_cons.mp h
    cases rest with
    | nil => exact h
    | cons next more =>
      exact List.forall_mem_cons.mpr ⟨hpart, List.forall_mem_cons.mpr ⟨hseparator, ih hrest⟩⟩

/-! ### Values -/

section

variable {t : Tree} {types kinds : List String} {type key : String}

theorem Clean.get (h : a.Clean t) (key : String) : a.Clean (t.get key) := by
  cases a with
  | free g => exact isFree_get h key
  | _ => trivial

theorem Clean.plain (h : a.Clean t) : a.Spares t.plain := by
  cases a with
  | free g => exact lacks_plain h
  | _ => trivial

/-- The text of a value that can be missing. -/
theorem Clean.plainD (h : a.Clean t) (key : String) : a.Spares (((t.get? key).map Tree.plain).getD "") := by
  have hget := h.get key
  rw [Tree.get] at hget
  cases hv : t.get? key with
  | none => exact spares_of_isAscii rfl
  | some v =>
    rw [hv] at hget
    exact hget.plain

/-- A literal is written with the texts of its fields. -/
theorem Clean.literalText (h : a.Clean t) : a.Spares (literalText t) := by
  have hslash : a.Spares "/" := spares_of_isAscii rfl
  have hregex := fun key => (h.get "regex").plainD key
  cases a with
  | total _ | tidy => trivial
  | free g =>
    unfold Emit.literalText
    refine Glyph.lacks_ite (lacks_plain (isFree_get h "raw")) (Glyph.lacks_ite ?_ ?_)
    · exact spares_append.mpr ⟨spares_append.mpr ⟨spares_append.mpr ⟨hslash, hregex _⟩, hslash⟩, hregex _⟩
    · have hvalue := isFree_get h "value"
      cases hv : t.get "value" with
      | null => exact Glyph.lacks_of_isAscii rfl
      | bool b => cases b <;> exact Glyph.lacks_of_isAscii rfl
      | int n => exact Glyph.lacks_intText n
      | real d =>
        dsimp only
        split
        · exact Glyph.lacks_intText _
        · exact Glyph.lacks_render d
      | str s => exact Glyph.lacks_quoteString (by rwa [hv] at hvalue)
      | list xs => exact Glyph.lacks_quoteString (lacks_plain (hv ▸ hvalue))
      | obj m fs => exact Glyph.lacks_quoteString (lacks_plain (hv ▸ hvalue))

/-! ### Nodes -/

theorem Node.clean (h : a.Node types t) : a.Clean t := by
  cases a with
  | free g => exact h
  | _ => trivial

theorem Node.ofTypes (h : a.Node types t) (hkinds : t.isTypeIn kinds) : a.Node kinds t := by
  cases a with
  | total _ => exact ⟨hkinds, h.2⟩
  | _ => exact h

theorem Node.of (h : a.Node types t) (htype : t.type? = some type) (hmem : type ∈ kinds) :
    a.Node kinds t := by
  refine h.ofTypes ?_
  rw [isTypeIn_of_type? htype, decide_eq_true_iff]
  exact hmem

theorem Node.self (h : a.Node types t) (htype : t.type? = some type) : a.Node [type] t :=
  h.of htype (List.mem_singleton_self _)

theorem Node.widen (h : a.Node types t) (hsub : types ⊆ kinds) : a.Node kinds t := by
  cases a with
  | total _ =>
    obtain ⟨type, hmem, htype⟩ := isTypeIn_iff.mp h.1
    exact Node.of (a := .total _) h htype (hsub hmem)
  | _ => exact h

/-- A node that is not of the first type is of one of the others. -/
theorem Node.tail (h : a.Node (type :: types) t) (hno : ¬ t.isType type) : a.Node types t := by
  cases a with
  | total _ =>
    have htypes := h.1
    rw [isTypeIn, List.any_cons, Bool.or_eq_true] at htypes
    exact ⟨htypes.resolve_left hno, h.2⟩
  | _ => exact h

/-- A node that is no node of these types stands in no program. -/
theorem Node.mayFail (h : a.Node types t) (hno : ∀ type ∈ types, t.type? ≠ some type) : a.MayFail := by
  cases a with
  | total _ =>
    obtain ⟨type, hmem, htype⟩ := isTypeIn_iff.mp h.1
    exact absurd htype (hno type hmem)
  | _ => trivial

/-- A value without a type stands in no program. -/
theorem Node.mayFail_of_type? (h : a.Node types t) (hno : t.type? = none) : a.MayFail := by
  refine h.mayFail fun type _ htype => ?_
  rw [hno] at htype
  cases htype

theorem Node.mayFail_of_isSet (h : a.Node types t) (hno : t.isSet = false) : a.MayFail := by
  cases a with
  | total _ =>
    obtain ⟨-, s, hs⟩ := h
    rw [hs.isSet] at hno
    cases hno
  | _ => trivial

end
end Aim

open Aim

/-! ## What the grammar offers -/

/-- Is a slot for a node of these types, or perhaps for nothing? -/
def isFor (kinds : List String) (orNothing : Bool) (slot : Slot) : Bool :=
  (slot.symbol?.any fun x => x.types.isSublist kinds) && (orNothing || !slot.isOptional)

/-- Is a slot for a list of such nodes? -/
def isForEach (kinds : List String) (orNothing : Bool) (slot : Slot) : Bool :=
  slot.items?.any fun item => isFor kinds orNothing item.1

/-- Is a slot for a text? -/
def isForText (slot : Slot) : Bool := slot matches .text | .operator | .keyword

/-- Does a slot pass a test, whatever the traits of its node are? -/
def slotPasses (test : Slot → Bool) : Slot → Bool
  | .choice _ yes no => slotPasses test yes && slotPasses test no
  | slot => test slot

/-- Does the slot of a field pass a test, in the rules for nodes of these types? -/
def offers (types : List String) (key : String) (test : Slot → Bool) : Bool :=
  types.all fun type => ((rulesFor type).lookup key).any (slotPasses test)

theorem passes_resolve {test : Slot → Bool} {s : Symbol} {t : Tree} {slot : Slot}
    (h : slotPasses test slot) : test (slot.resolve s t) := by
  induction slot with
  | choice trait yes no ihyes ihno =>
    rw [slotPasses, Bool.and_eq_true] at h
    rw [Slot.resolve]
    split
    · exact ihyes h.1
    · exact ihno h.2
  | _ => exact h

section

variable {labels : Labelling} {s : Symbol} {t v : Tree} {types kinds : List String} {key : String}
  {test : Slot → Bool} {orNothing : Bool} {slot : Slot}

/-- The value of a field is in a slot that passes the test. -/
theorem exists_slot (h : (Aim.total labels).Node types t) (hoffers : offers types key test) :
    ∃ slot, test slot ∧ fits labels slot (t.get key) := by
  obtain ⟨htypes, s, hs⟩ := h
  obtain ⟨type, hmem, htype⟩ := isTypeIn_iff.mp htypes
  have hslot := List.all_eq_true.mp hoffers type hmem
  rw [Option.any_eq_true] at hslot
  obtain ⟨slot, hlookup, hpasses⟩ := hslot
  exact ⟨_, passes_resolve hpasses, hs.part htype hlookup⟩

theorem exists_resolve {type : String} (key : String) (h : (Aim.total labels).Node [type] t)
    (hrule : (rulesFor type).lookup key = some slot) :
    ∃ s, fits labels (slot.resolve s t) (t.get key) := by
  obtain ⟨htypes, s, hs⟩ := h
  obtain ⟨_, hmem, htype⟩ := isTypeIn_iff.mp htypes
  rw [List.mem_singleton.mp hmem] at htype
  exact ⟨s, hs.part htype hrule⟩

theorem node_of_fits (hfor : isFor kinds orNothing slot) (h : fits labels slot v) :
    v = .null ∧ orNothing ∨ (Aim.total labels).Node kinds v := by
  rw [isFor, Bool.and_eq_true, Option.any_eq_true] at hfor
  obtain ⟨⟨x, hx, hkinds⟩, hnothing⟩ := hfor
  have hnode : Derives labels x v → (Aim.total labels).Node kinds v := by
    intro hv
    obtain ⟨type, hmem, htype⟩ := hv.type
    refine ⟨?_, x, hv⟩
    rw [isTypeIn_of_type? htype, decide_eq_true_iff]
    exact (List.isSublist_iff_sublist.mp hkinds).subset hmem
  cases slot <;> cases hx
  case one => exact .inr (hnode (fits_one_iff.mp h))
  case optional =>
    refine (fits_optional_iff.mp h).imp (fun hnull => ⟨hnull, ?_⟩) hnode
    simpa [Slot.isOptional] using hnothing

theorem node_of_fits_one (hfor : isFor kinds false slot) (h : fits labels slot v) :
    (Aim.total labels).Node kinds v :=
  (node_of_fits hfor h).resolve_left fun hno => Bool.noConfusion hno.2

end

/-! ## Computations that can fail -/

/-- What the computation gives; it fails only where it may. -/
def Gives (a : Aim) {α : Type} (x : Except Fault α) (P : α → Prop) : Prop :=
  match x with
  | .ok v => P v
  | .error _ => a.MayFail

/-- A computation that gives layouts as they are aimed at. -/
abbrev Writes (a : Aim) (x : Except Fault Layout) : Prop := Gives a x a.Passes

namespace Gives

variable {a : Aim} {α β : Type} {P : α → Prop} {Q : β → Prop}

theorem pure {v : α} (h : P v) : Gives a (Pure.pure v) P := h

theorem ascii {s : String} (h : isAscii s) : Writes a (Pure.pure (.text s)) :=
  pure (passes_text.mpr (spares_of_isAscii h))

theorem throw (h : a.MayFail) (e : Fault) : Gives a (throw e : Except Fault α) P := h

theorem bind {x : Except Fault α} {f : α → Except Fault β} (hx : Gives a x P)
    (hf : ∀ v, P v → Gives a (f v) Q) : Gives a (x >>= f) Q := by
  cases x with
  | error e => exact hx
  | ok v => exact hf v hx

theorem map {x : Except Fault α} {f : α → β} (hx : Gives a x P) (hf : ∀ v, P v → Q (f v)) :
    Gives a (f <$> x) Q := by
  cases x with
  | error e => exact hx
  | ok v => exact hf v hx

theorem imp {x : Except Fault α} {R : α → Prop} (hx : Gives a x P) (h : ∀ v, P v → R v) : Gives a x R := by
  cases x with
  | error e => exact hx
  | ok v => exact h v hx

theorem ite {p : Prop} [Decidable p] {x y : Except Fault α} (hx : p → Gives a x P)
    (hy : ¬ p → Gives a y P) : Gives a (if p then x else y) P := by
  split
  · exact hx ‹p›
  · exact hy ‹¬ p›

/-- Two ways to a value, and what is done with it. -/
theorem branch {c : Bool} {x y : Except Fault α} {k : α → Except Fault β}
    (hx : c → Gives a x P) (hy : Gives a y P) (hk : ∀ v, P v → Gives a (k v) Q) :
    Gives a (if c then x >>= k else y >>= k) Q :=
  ite (fun h => (hx h).bind hk) fun _ => hy.bind hk

theorem mapM {xs : List β} {f : β → Except Fault α} (h : ∀ x ∈ xs, Gives a (f x) P) :
    Gives a (xs.mapM f) fun vs => ∀ v ∈ vs, P v := by
  induction xs with
  | nil =>
    rw [List.mapM_nil]
    exact pure (List.forall_mem_nil _)
  | cons x xs ih =>
    rw [List.forall_mem_cons] at h
    rw [List.mapM_cons]
    exact h.1.bind fun v hv => (ih h.2).bind fun vs hvs =>
      pure (List.forall_mem_cons.mpr ⟨hv, hvs⟩)

/-- The values of a list, each for the one that it is computed from. -/
theorem mapM₂ {γ : Type} {R : γ → α → Prop} {cs : List γ} {xs : List (Except Fault α)}
    (h : List.Forall₂ (fun c x => Gives a x (R c)) cs xs) : Gives a (xs.mapM id) (List.Forall₂ R cs) := by
  induction h with
  | nil => exact .nil
  | cons hx _ ih =>
    rw [List.mapM_cons]
    exact bind hx fun v hv => ih.bind fun vs hvs => pure (.cons hv hvs)

end Gives

/-! ## Parts -/

/-- Parts of a node are written in roles for their types. -/
structure Reads (a : Aim) (t : Tree) (r : Reader) : Prop where
  field : ∀ role key, a.Node role.types (t.get key) → Writes a (r.field role key)
  each : ∀ role key, key ≠ "cases" →
    (∀ c ∈ t.children key, c = .null ∧ role = .element ∨ a.Node role.types c) →
    ∀ x ∈ r.each role key, Writes a x
  items : ∀ key, (∀ c ∈ t.children key, a.Node Emit.statementTypes c) → List.Forall₂ (fun c x =>
    Gives a x fun l => a.PassesItem c.range? l ∧ (key ≠ "cases" → a.Passes l)) (t.children key) (r.each .stmt key)

section

variable {a : Aim} {t : Tree} {r : Reader} {types kinds : List String} {key : String} {role : Role}

section

variable (h : a.Node types t)

include h

/-- Where the tree does not have to be a program, what is known of it is known of its parts. -/
theorem Aim.Node.field (ha : a.MayFail) : a.Node kinds (t.get key) := by
  cases a with
  | total _ => exact ha.elim
  | free g => exact isFree_get h key
  | tidy => exact Everywhere.get h key

/-- A node in a field that the rules ask for. -/
theorem Aim.Node.get (hoffers : offers types key (isFor kinds false)) : a.Node kinds (t.get key) := by
  cases a with
  | total labels =>
    obtain ⟨slot, hfor, hfits⟩ := exists_slot h hoffers
    exact node_of_fits_one hfor hfits
  | _ => exact h.field trivial

/-- A node in a field that can be empty. -/
theorem Aim.Node.get? (hoffers : offers types key (isFor kinds true)) :
    t.get key = .null ∨ a.Node kinds (t.get key) := by
  cases a with
  | total labels =>
    obtain ⟨slot, hfor, hfits⟩ := exists_slot h hoffers
    exact (node_of_fits hfor hfits).imp_left And.left
  | _ => exact .inr (h.field trivial)

theorem Aim.Node.getSet (hoffers : offers types key (isFor kinds true)) (hset : (t.get key).isSet) :
    a.Node kinds (t.get key) := by
  refine (h.get? hoffers).resolve_left fun hnull => ?_
  rw [hnull] at hset
  cases hset

/-- The nodes in a list, and the holes between them. -/
theorem Aim.Node.sparse {orNothing : Bool} (hoffers : offers types key (isForEach kinds orNothing)) :
    ∀ c ∈ t.children key, c = .null ∧ orNothing ∨ a.Node kinds c := by
  cases a with
  | total labels =>
    obtain ⟨slot, hfor, hfits⟩ := exists_slot h hoffers
    rw [isForEach, Option.any_eq_true] at hfor
    obtain ⟨⟨item, isNonempty⟩, hitem, hfor⟩ := hfor
    obtain ⟨xs, hxs, -, hall⟩ := (fits_list_iff hitem).mp hfits
    rw [children, hxs]
    exact fun c hc => node_of_fits hfor (hall c hc)
  | free g => exact fun c hc => .inr (isFree_items (isFree_get h key) c hc)
  | tidy => exact fun c hc => .inr (Everywhere.children h c hc)

theorem Aim.Node.children (hoffers : offers types key (isForEach kinds false)) :
    ∀ c ∈ t.children key, a.Node kinds c :=
  fun c hc => (h.sparse hoffers c hc).resolve_left fun hno => Bool.noConfusion hno.2

end

namespace Reads

section

variable (hr : Reads a t r) (h : a.Node types t)

include hr h

/-- A part that the rules ask for. -/
theorem part (hoffers : offers types key (isFor role.types false)) : Writes a (r.field role key) :=
  hr.field role key (h.get hoffers)

/-- A part that can be missing. -/
theorem part? (hoffers : offers types key (isFor role.types true)) :
    Gives a (r.field? t role key) fun l? => ∀ l ∈ l?, a.Passes l := by
  refine .ite (fun _ => .pure (by simp)) fun hnull => ?_
  refine (hr.field role key ((h.get? hoffers).resolve_left ?_)).map fun l hl => by simpa using hl
  intro heq
  rw [heq] at hnull
  exact hnull rfl

theorem all (hkey : key ≠ "cases") (hoffers : offers types key (isForEach role.types false)) :
    Gives a ((r.each role key).mapM id) fun parts => ∀ l ∈ parts, a.Passes l :=
  .mapM (hr.each role key hkey fun c hc => .inr (h.children hoffers c hc))

theorem join (hkey : key ≠ "cases") (hoffers : offers types key (isForEach role.types false))
    {separator : String} (hseparator : isAscii separator) : Writes a (r.join role key separator) :=
  (hr.all h hkey hoffers).bind fun _ hparts => .pure (passes_cat.mpr
    (passes_between (passes_text.mpr (spares_of_isAscii hseparator)) hparts))

end

end Reads

/-! ### Texts -/

theorem gives_need (h : a.Node kinds (t.get key)) : Gives a (t.need key) (· = t.get key) := by
  rw [Tree.need]
  rw [Tree.get] at h ⊢
  cases hv : t.get? key with
  | some v => rfl
  | none =>
    rw [hv] at h
    exact Aim.Node.mayFail_of_type? h rfl

theorem gives_textOf (h : a.Clean t) (htext : ∀ labels, a = .total labels → ∃ text, t.get key = .str text) :
    Gives a (textOf t key) a.Spares := by
  have hget := h.get key
  rw [textOf, Tree.need]
  cases hv : t.get? key with
  | some v =>
    rw [Tree.get, hv] at hget
    exact hget.plain
  | none =>
    cases a with
    | free _ | tidy => trivial
    | total labels =>
      obtain ⟨text, htext⟩ := htext labels rfl
      rw [Tree.get, hv] at htext
      cases htext

theorem Aim.Node.text (h : a.Node types t) (hoffers : offers types key isForText) :
    Gives a (textOf t key) a.Spares := by
  refine gives_textOf h.clean ?_
  rintro labels rfl
  obtain ⟨slot, hfor, hfits⟩ := exists_slot h hoffers
  have hshape : slot.symbol? = none ∧ slot.items? = none ∧ slot ≠ .segment ∧ slot.isOptional = false := by
    cases slot with
    | text | operator | keyword => exact ⟨rfl, rfl, Slot.noConfusion, rfl⟩
    | _ => cases hfor
  obtain ⟨hsymbol, hitems, hsegment, hoptional⟩ := hshape
  rcases fits_text_cases hsymbol hitems hsegment hfits with ⟨-, hyes⟩ | ⟨text, htext, -⟩
  · rw [hoptional] at hyes
    cases hyes
  · exact ⟨text, htext⟩

/-- The name of an identifier. -/
theorem Aim.Node.name (h : a.Node ["Identifier"] t) : Gives a (textOf t "name") a.Spares := h.text rfl

theorem gives_nameIn (h : a.Node ["Identifier"] (t.get key)) : Gives a (nameIn t key) a.Spares :=
  (gives_need h).bind fun _ heq => heq ▸ h.name

/-! ## Functions, classes and statement lists -/

theorem forall_mem_zip {R : Option (Int × Int) → Layout → Prop} {cs : List Tree} {parts : List Layout}
    (h : List.Forall₂ (fun c l => R c.range? l) cs parts) :
    ∀ item ∈ (cs.map Tree.range?).zip parts, R item.1 item.2 := by
  induction h with
  | nil => exact List.forall_mem_nil _
  | cons hc _ ih => exact List.forall_mem_cons.mpr ⟨hc, ih⟩

variable (hr : Reads a t r)

include hr

theorem gives_statementLines (h : a.Node types t)
    (hoffers : offers types key (isForEach Emit.statementTypes false)) (close : Close) :
    Writes a (statementLines t r key .braced close) := by
  refine .bind (.mapM₂ (hr.items key (h.children hoffers))) fun parts hparts => .pure ?_
  exact .lines (fun _ => rfl) (forall_mem_zip (hparts.imp fun _ _ h => h.1))

theorem gives_block (h : a.Node ["BlockStatement", "ClassBody"] t) :
    Writes a (block t r) := gives_statementLines hr h rfl _

theorem gives_parameters (h : a.Node functionTypes t) : Writes a (parameters r) :=
  .map (hr.join h (by decide) rfl rfl) fun _ hl => passes_parenthesized.mpr hl

theorem gives_functionTail
    (h : a.Node ["FunctionExpression", "FunctionDeclaration"] t) : Writes a (functionTail r) := by
  refine .bind (gives_parameters hr (h.widen (by decide))) fun params hparams => ?_
  refine .bind (hr.part h rfl) fun body hbody => .pure ?_
  simp +decide [hparams, hbody]

theorem gives_function
    (h : a.Node ["FunctionExpression", "FunctionDeclaration"] t) : Writes a (function t r) := by
  have hempty : a.Spares "" := spares_of_isAscii rfl
  refine .branch (fun hset => (h.getSet rfl hset).name) (.pure hempty) fun name hname => ?_
  refine (gives_functionTail hr h).bind fun tail htail => .pure ?_
  simp +decide [hname, htail]

theorem gives_method (h : a.Node ["FunctionExpression"] (t.get "value"))
    {words : String} (hwords : a.Spares words) {key : Layout} (hkey : a.Passes key) :
    Writes a (method words key t r) := by
  refine .ite (fun hno => .throw (h.mayFail_of_isSet (by simpa using hno)) _) fun _ => ?_
  refine .bind (hr.field _ _ h) fun tail htail => .pure ?_
  simp +decide [hwords, hkey, htail, methodWords]

theorem gives_propertyKey (h : a.Node ["Property", "MethodDefinition"] t) : Writes a (propertyKey t r) := by
  refine .ite (fun _ => .bind (hr.part h rfl) fun key hkey => .pure ?_) fun _ => hr.part h rfl
  simp +decide [hkey]

theorem gives_classLayout (h : a.Node classTypes t) : Writes a (classLayout t r) := by
  have hempty : a.Spares "" := spares_of_isAscii rfl
  have hblank : a.Spares " " := spares_of_isAscii rfl
  have hclass : a.Spares "class" := spares_of_isAscii rfl
  refine .branch (fun hset => (h.getSet rfl hset).name.map fun s hs =>
    spares_append.mpr ⟨hblank, hs⟩) (.pure hempty) fun name hname => ?_
  refine .bind (hr.part? h rfl) fun parent hparent => ?_
  -- The heritage is there or not; name and body are written in both cases.
  have hclose : ∀ heritage : List Layout, (∀ l ∈ heritage, a.Passes l) →
      Writes a (if (t.get "body").isSet then r.field .block "body" >>= fun body =>
          pure (.cat ([.text ("class" ++ name)] ++ heritage ++ [.text " ", body]))
        else pure (.lines .braced [] .nothing) >>= fun body =>
          pure (.cat ([.text ("class" ++ name)] ++ heritage ++ [.text " ", body]))) := by
    intro heritage hheritage
    have hnothing : a.Passes (.lines .braced [] .nothing) := .lines (fun _ => rfl) (List.forall_mem_nil _)
    refine .branch (fun _ => hr.part h rfl) (.pure hnothing) fun body hbody => .pure ?_
    simp only [passes_cat, List.forall_mem_append, List.forall_mem_singleton, passes_text,
      spares_append, List.forall_mem_cons]
    exact ⟨⟨⟨hclass, hname⟩, hheritage⟩, hblank, hbody⟩
  cases parent with
  | none => exact hclose [] (List.forall_mem_nil _)
  | some l =>
    refine hclose [.text " extends ", l] ?_
    simp +decide [hparent l rfl]

/-! ## Expressions -/

omit hr in
/-- The raw text of a segment of a template. -/
theorem gives_segment {q : Tree} (h : a.Node ["TemplateElement"] q) :
    Gives a (q.need "value") fun v => Gives a (textOf v "raw") a.Spares := by
  have hvalue := h.clean.get "value"
  cases a with
  | free _ | tidy =>
    rw [Tree.need]
    cases hv : q.get? "value" with
    | none => trivial
    | some v =>
      rw [Tree.get, hv] at hvalue
      exact gives_textOf hvalue fun _ hno => Aim.noConfusion hno
  | total labels =>
    have hoffers : offers ["TemplateElement"] "value" (· == .segment) := rfl
    obtain ⟨slot, hsegment, hfits⟩ := exists_slot h hoffers
    rw [eq_of_beq hsegment, fits_segment_iff, isSegment, Bool.and_eq_true, Bool.and_eq_true] at hfits
    have hnull : (q.get "value").isNull = false := by
      cases hv : q.get "value" with
      | obj m fs => rfl
      | _ =>
        rw [hv] at hfits
        cases hfits.1.1
    rw [Tree.need, get?_of_get rfl hnull]
    refine gives_textOf (a := .total labels) trivial fun _ _ => ?_
    cases hraw : (q.get "value").get "raw" with
    | str text => exact ⟨text, rfl⟩
    | _ =>
      rw [hraw] at hfits
      cases hfits.2

omit hr in
theorem gives_templateParts {quasis : List Tree} (hquasis : ∀ q ∈ quasis, a.Node ["TemplateElement"] q) :
    ∀ {es : List (Except Fault Layout)}, (∀ e ∈ es, Writes a e) →
      Gives a (templateParts quasis es) fun parts => ∀ l ∈ parts, a.Passes l := by
  induction quasis with
  | nil => exact fun _ => .pure (List.forall_mem_nil _)
  | cons quasi rest ih =>
    intro es hes
    rw [List.forall_mem_cons] at hquasis
    cases es with
    | nil =>
      refine .bind (gives_segment hquasis.1) fun v hv => hv.bind fun raw hraw => ?_
      refine .bind (ih hquasis.2 hes) fun parts hparts => .pure ?_
      simpa [hraw] using hparts
    | cons e es =>
      rw [List.forall_mem_cons] at hes
      refine .bind (gives_segment hquasis.1) fun v hv => hv.bind fun raw hraw => ?_
      refine hes.1.bind fun l hl => (ih hquasis.2 hes.2).bind fun parts hparts => .pure ?_
      simpa +decide [hraw, hl] using hparts

theorem gives_template (h : a.Node ["TemplateLiteral"] t) : Writes a (template t r) := by
  have hvalues : ∀ c ∈ t.children "expressions", a.Node writtenTypes c := h.children rfl
  refine .bind (gives_templateParts (h.children rfl) (hr.each _ _ (by decide) fun c hc =>
    .inr (hvalues c hc))) fun parts hparts => .pure ?_
  have htick : a.Spares "`" := spares_of_isAscii rfl
  simpa [htick, or_imp, forall_and] using hparts

theorem gives_array (h : a.Node ["ArrayExpression", "ArrayPattern"] t) : Writes a (array t r) := by
  have hnodes : ∀ c ∈ t.children "elements", c = .null ∧ true ∨ a.Node writtenTypes c := h.sparse rfl
  have helements := Gives.mapM (hr.each .element "elements" (by decide) fun c hc =>
    (hnodes c hc).imp_left fun hnull => ⟨hnull.1, rfl⟩)
  have hcomma : a.Passes (.text ", ") := passes_text.mpr (spares_of_isAscii rfl)
  refine .bind (helements.bind fun _ hparts =>
    .pure (passes_cat.mpr (passes_between hcomma hparts))) fun elements helements => .pure ?_
  simp +decide [helements]

theorem gives_object (h : a.Node ["ObjectExpression"] t) : Writes a (object t r) := by
  refine .ite (fun _ => .pure (passes_text.mpr (spares_of_isAscii rfl))) fun _ => ?_
  refine .bind (hr.all h (by decide) rfl) fun properties hproperties => .pure ?_
  have hseparator : a.Passes (.cat [.text ",", .newline]) := by simp +decide
  have hlist := passes_between hseparator hproperties
  simpa +decide using hlist

theorem gives_objectPattern (h : a.Node ["ObjectPattern"] t) : Writes a (objectPattern t r) := by
  refine .ite (fun _ => .pure (passes_text.mpr (spares_of_isAscii rfl))) fun _ => ?_
  refine .bind (hr.join h (by decide) rfl rfl) fun properties hproperties => .pure ?_
  simp +decide [hproperties]

/-- One identifier is written without parentheses. -/
theorem gives_arrowParams (h : a.Node functionTypes t)
    {k : Layout → Except Fault Layout} (hk : ∀ l, a.Passes l → Writes a (k l)) :
    Writes a (match t.children "params" with
      | [p] =>
        if p.isType "Identifier" then Layout.text <$> textOf p "name" >>= k else parameters r >>= k
      | _ => parameters r >>= k) := by
  split
  · rename_i p hp
    have hparams : ∀ c ∈ t.children "params", a.Node patternTypes c := h.children rfl
    have hparam := hparams p (by simp [hp])
    exact .branch (fun htype => (hparam.of (isType_iff.mp htype) (List.mem_singleton_self _)).name.map
      fun _ hs => passes_text.mpr hs) (gives_parameters hr h) hk
  · exact (gives_parameters hr h).bind hk

theorem gives_arrow (h : a.Node ["ArrowFunctionExpression"] t) : Writes a (arrow t r) := by
  have hbody : a.Node ("BlockStatement" :: writtenTypes) (t.get "body") := h.get rfl
  refine gives_arrowParams hr (h.widen (by decide)) fun params hparams => ?_
  refine .bind (gives_need hbody) ?_
  rintro _ rfl
  have hclose : ∀ body : Layout, a.Passes body → Writes a (pure (.cat
      [.text (if (t.get "async").isSet then "async " else ""), params, .text " => ", body])) := by
    intro body hbody
    refine .pure ?_
    simp +decide [hparams, hbody]
  refine .ite (fun hblock => .bind (hr.field _ _ (hbody.of (isType_iff.mp hblock) (by decide))) hclose)
    fun hother => ?_
  refine .bind (hr.field _ _ (hbody.tail hother)) fun e he => hclose _ ?_
  simp +decide [he]

omit hr in
/-- Binary operators have a precedence. -/
theorem gives_operatorPrecedence (h : a.Node ["BinaryExpression", "LogicalExpression"] t) :
    Gives a (operatorPrecedence t) fun _ => True := by
  cases a with
  | free _ | tidy => cases operatorPrecedence t <;> trivial
  | total labels =>
    have hoffers : offers ["BinaryExpression", "LogicalExpression"] "operator" (· == .operator) :=
      rfl
    obtain ⟨slot, hoperator, hfits⟩ := exists_slot h hoffers
    rw [eq_of_beq hoperator] at hfits
    obtain ⟨text, htext, hadmits⟩ := (fits_text_cases rfl rfl Slot.noConfusion hfits).resolve_left
      fun hnull => Bool.noConfusion hnull.2
    obtain ⟨p, hp⟩ := Option.isSome_iff_exists.mp hadmits
    refine .bind (P := (· = .str text)) ?_ ?_
    · rw [need, get?_of_get htext rfl]
      rfl
    · rintro _ rfl
      simp only [str?, Option.bind_some, hp]
      trivial

theorem gives_binary (h : a.Node ["BinaryExpression", "LogicalExpression"] t) : Writes a (binary t r) := by
  refine .bind (gives_operatorPrecedence h) fun p _ => .bind (h.text rfl) fun operator hoperator => ?_
  refine .bind (hr.part h rfl) fun left hleft => .bind (hr.part h rfl) fun right hright => .pure ?_
  have hopen : a.Spares "(" := spares_of_isAscii rfl
  have hclose : a.Spares ")" := spares_of_isAscii rfl
  have hblank : a.Spares " " := spares_of_isAscii rfl
  simp only [passes_cat, List.forall_mem_cons, passes_text, spares_append]
  refine ⟨?_, ⟨⟨hblank, hoperator⟩, hblank⟩, hright, List.forall_mem_nil _⟩
  split
  · exact passes_wrapIf.mpr ⟨⟨hopen, hclose⟩, hleft⟩
  · exact hleft

theorem gives_unary (h : a.Node ["UnaryExpression"] t) : Writes a (unary t r) := by
  refine .bind (h.text rfl) fun operator hoperator => ?_
  refine .bind (hr.part h rfl) fun argument hargument => ?_
  have hempty : a.Spares "" := spares_of_isAscii rfl
  have hblank : a.Spares " " := spares_of_isAscii rfl
  refine .ite (fun _ => .pure ?_) fun _ => .ite (fun _ => .pure ?_) fun _ => .pure ?_
  all_goals simp [hoperator, hargument, hempty, hblank]

theorem gives_update (h : a.Node ["UpdateExpression"] t) :
    Writes a (do
      let operator ← textOf t "operator"
      if (t.get "prefix").isSet then
        return Layout.cat [.text operator, ← r.field (.expr Precedence.unary) "argument"]
      else
        return Layout.cat [← r.field (.expr Precedence.update) "argument", .text operator]) := by
  refine .bind (h.text rfl) fun operator hoperator => .ite (fun _ => ?_) fun _ => ?_
  all_goals
    refine .bind (hr.part h rfl) fun argument hargument => .pure ?_
    simp [hoperator, hargument]

omit hr in
/-- The name behind the point, or the expression in the brackets. -/
theorem node_property (h : a.Node ["MemberExpression"] t) :
    a.Node (if (t.get "computed").isSet then writtenTypes else ["Identifier"]) (t.get "property") := by
  cases a with
  | free _ | tidy => exact h.field trivial
  | total labels =>
    obtain ⟨s, hfits⟩ := exists_resolve "property" h rfl
    rw [Slot.resolve, Trait.holds] at hfits
    split at hfits
    · rw [if_pos ‹_›]
      exact node_of_fits_one rfl hfits
    · rw [if_neg ‹_›]
      exact node_of_fits_one rfl hfits

theorem gives_member (h : a.Node ["MemberExpression"] t) : Writes a (member t r) := by
  have hproperty := node_property h
  refine .bind (hr.part h rfl) fun object hobject => .ite (fun hset => ?_) fun hset => ?_
  · rw [if_pos hset] at hproperty
    refine .bind (hr.field _ _ hproperty) fun index hindex => .pure ?_
    simp +decide [hobject, hindex]
  · rw [if_neg hset] at hproperty
    refine .bind (gives_nameIn hproperty) fun name hname => .pure ?_
    simp +decide [hobject, hname]

theorem gives_arguments (h : a.Node ["CallExpression", "NewExpression"] t) : Writes a (arguments r) :=
  .map (hr.join h (by decide) rfl rfl) fun _ hl => passes_parenthesized.mpr hl

theorem gives_callLayout (h : a.Node ["CallExpression"] t) : Writes a (callLayout t r) := by
  refine .bind (hr.part h rfl) fun callee hcallee => ?_
  refine .bind (gives_arguments hr (h.widen (by decide))) fun args hargs => .pure ?_
  simp only [passes_cat, List.forall_mem_cons]
  refine ⟨?_, hargs, List.forall_mem_nil _⟩
  split
  · exact passes_parenthesized.mpr hcallee
  · exact hcallee

theorem gives_newLayout (h : a.Node ["NewExpression"] t) : Writes a (newLayout t r) := by
  refine .bind (hr.part h rfl) fun callee hcallee => ?_
  refine .bind (gives_arguments hr (h.widen (by decide))) fun args hargs => .pure ?_
  simp only [passes_cat, List.forall_mem_cons]
  refine ⟨by simp +decide, ?_, hargs, List.forall_mem_nil _⟩
  split
  · simp +decide [hcallee]
  · exact hcallee

/-! ### JSX -/

theorem gives_element (h : a.Node ["JSXElement"] t) : Writes a (element t r) := by
  have hopening : a.Node ["JSXOpeningElement"] (t.get "openingElement") := h.get rfl
  refine .bind (hr.part h rfl) fun opening hopened => .ite (fun _ => .pure hopened) fun _ => ?_
  refine .bind (hr.join h (by decide) rfl rfl) fun children hchildren => ?_
  refine .branch (fun hset => hr.field _ _ (h.getSet rfl hset)) (hr.field _ _ hopening)
    fun closing hclosing => .pure ?_
  simp [hopened, hchildren, hclosing]

theorem gives_openingTag (h : a.Node ["JSXOpeningElement"] t) : Writes a (openingTag t r) := by
  refine .bind (hr.part h rfl) fun name hname => .bind (hr.all h (by decide) rfl) fun attributes hattributes =>
    .pure ?_
  have hblank : a.Passes (.text " ") := passes_text.mpr (spares_of_isAscii rfl)
  have hlist := passes_between hblank (List.forall_mem_cons.mpr ⟨hname, hattributes⟩)
  simpa +decide [or_imp, forall_and] using hlist

theorem gives_closingTag
    (h : a.Node ["JSXOpeningElement", "JSXClosingElement"] t) : Writes a (closingTag r) := by
  refine .bind (hr.part h rfl) fun name hname => .pure ?_
  simp +decide [hname]

theorem gives_tagAttribute (h : a.Node ["JSXAttribute"] t) : Writes a (tagAttribute t r) := by
  refine .bind (hr.part h rfl) fun name hname => .bind (hr.part? h rfl) fun value hvalue => ?_
  cases value with
  | none => exact .pure hname
  | some l =>
    refine .pure ?_
    simp +decide [hname, hvalue l rfl]

/-! ### All expressions -/

/-- A part between two texts. -/
theorem gives_enclosed (h : a.Node types t) {opening closing : String}
    (hoffers : offers types key (isFor role.types false)) (hopening : isAscii opening)
    (hclosing : isAscii closing) :
    Writes a (do return Layout.cat [.text opening, ← r.field role key, .text closing]) := by
  refine .bind (hr.part h hoffers) fun l hl => .pure ?_
  simp [hl, spares_of_isAscii hopening, spares_of_isAscii hclosing]

/-- A part behind a text. -/
theorem gives_prefixed (h : a.Node types t) {opening : String}
    (hoffers : offers types key (isFor role.types false)) (hopening : isAscii opening) :
    Writes a (do return Layout.cat [.text opening, ← r.field role key]) := by
  refine .bind (hr.part h hoffers) fun l hl => .pure ?_
  simp [hl, spares_of_isAscii hopening]

/-- Two parts with a text between them. -/
theorem gives_pair (h : a.Node types t) {sign first second : String}
    {role' : Role} (hfirst : offers types first (isFor role.types false))
    (hsecond : offers types second (isFor role'.types false)) (hsign : isAscii sign) :
    Writes a (do
      let l ← r.field role first
      return Layout.cat [l, .text sign, ← r.field role' second]) := by
  refine .bind (hr.part h hfirst) fun l hl => .bind (hr.part h hsecond) fun k hk => .pure ?_
  simp [hl, hk, spares_of_isAscii hsign]

/-- **An expression is written.** -/
theorem gives_expression (h : a.Node writtenTypes t) : Writes a (expression t r) := by
  unfold expression
  -- One case for each type of node, in the order of the printing rules.
  split
  next htype => exact ((h.self htype).text rfl).map fun _ hs => passes_text.mpr hs
  next htype => exact ((h.self htype).text rfl).map fun _ hs => passes_text.mpr hs
  next => exact .ascii rfl
  next => exact .ascii rfl
  next htype =>
    refine .bind (gives_nameIn ((h.self htype).get rfl)) fun first hfirst => ?_
    refine .bind (gives_nameIn ((h.self htype).get rfl)) fun second hsecond => .pure ?_
    simp +decide [hfirst, hsecond]
  next => exact .pure (passes_text.mpr h.clean.literalText)
  next htype => exact gives_template hr (h.self htype)
  next htype =>
    refine .bind (hr.part (h.self htype) rfl) fun tag htag =>
      .bind (hr.part (h.self htype) rfl) fun quasi hquasi => .pure ?_
    simp [htag, hquasi]
  next htype => exact gives_array hr (h.of htype (by decide))
  next htype => exact gives_array hr (h.of htype (by decide))
  next htype => exact gives_object hr (h.self htype)
  next htype => exact gives_objectPattern hr (h.self htype)
  next htype => exact gives_pair hr (h.self htype) rfl rfl rfl
  next htype => exact gives_prefixed hr (h.self htype) rfl rfl
  next htype => exact gives_prefixed hr (h.self htype) rfl rfl
  next htype => exact gives_function hr (h.of htype (by decide))
  next htype => exact gives_arrow hr (h.self htype)
  next htype => exact gives_classLayout hr (h.of htype (by decide))
  next htype => exact hr.join (h.self htype) (by decide) rfl rfl
  next htype =>
    refine .bind (hr.part (h.self htype) rfl) fun left hleft =>
      .bind (hr.part (h.self htype) rfl) fun right hright => ?_
    refine .bind ((h.self htype).text rfl) fun operator hoperator => .pure ?_
    simp +decide [hleft, hright, hoperator]
  next htype =>
    refine .bind (hr.part (h.self htype) rfl) fun test htest =>
      .bind (hr.part (h.self htype) rfl) fun yes hyes =>
      .bind (hr.part (h.self htype) rfl) fun no hno => .pure ?_
    simp +decide [htest, hyes, hno]
  next htype => exact gives_binary hr (h.of htype (by decide))
  next htype => exact gives_binary hr (h.of htype (by decide))
  next htype => exact gives_unary hr (h.self htype)
  next htype => exact gives_update hr (h.self htype)
  next htype => exact gives_prefixed hr (h.self htype) rfl rfl
  next htype =>
    refine .bind (hr.part? (h.self htype) rfl) fun argument hargument => ?_
    cases argument with
    | none => exact .pure (by simp +decide)
    | some l => exact .pure (by simp +decide [hargument l rfl])
  next htype => exact gives_member hr (h.self htype)
  next htype => exact gives_callLayout hr (h.self htype)
  next htype => exact gives_newLayout hr (h.self htype)
  next htype => exact gives_element hr (h.self htype)
  next htype => exact gives_openingTag hr (h.self htype)
  next htype => exact gives_closingTag hr (h.of htype (by decide))
  next htype => exact gives_tagAttribute hr (h.self htype)
  next htype => exact gives_enclosed hr (h.self htype) rfl rfl rfl
  next htype => exact gives_enclosed hr (h.self htype) rfl rfl rfl
  next => exact .ascii rfl
  next =>
    refine .pure (passes_text.mpr ?_)
    split
    · exact h.clean.plainD "value"
    · exact (h.clean.get "raw").plain
  next htype => exact gives_pair hr (h.self htype) rfl rfl rfl
  next htype => exact gives_pair hr (h.self htype) rfl rfl rfl
  next =>
    -- No type is left.
    refine .throw (h.mayFail fun type hmem htype => ?_) _
    simp_all [writtenTypes, expressionTypes]

omit hr in
theorem gives_precedenceOf (h : a.Node types t) : Gives a (precedenceOf t) fun _ => True := by
  unfold precedenceOf
  split
  case h_6 htype => exact gives_operatorPrecedence (h.of htype (by decide))
  case h_7 htype => exact gives_operatorPrecedence (h.of htype (by decide))
  all_goals exact .pure trivial

theorem gives_expressionIn (h : a.Node writtenTypes t) (p : Precedence) :
    Writes a (expressionIn p t r) := by
  refine .bind (gives_expression hr h) fun l hl => .bind (gives_precedenceOf h) fun own _ => .pure ?_
  split
  · exact passes_parenthesized.mpr hl
  · exact hl

/-! ## Properties -/

/-- The key of a shorthand property is a single text. -/
def HasPlainKey (t : Tree) (r : Reader) : Prop :=
  (t.get "shorthand").isSet = true → ∀ l, r.field (.expr Precedence.sequence) "key" = .ok l →
    ∃ s, l = .text s

/-- A key that is not written. -/
theorem gives_silentKey (h : a.Node ["Property"] t) (hkey : a.MayFail → HasPlainKey t r) :
    Gives a (propertyKey t r) fun key => a.Passes key ∧
      (((t.get "shorthand").isSet && !(t.get "computed").isSet) = true → a.Passes (.silent key)) := by
  have hgives := gives_propertyKey hr (h.widen (by decide))
  cases hl : propertyKey t r with
  | error e =>
    rw [hl] at hgives
    exact hgives
  | ok key =>
    rw [hl] at hgives
    refine ⟨hgives, fun hshort => .silent fun hfails => ?_⟩
    obtain ⟨hset, hplain⟩ := Bool.and_eq_true_iff.mp hshort
    rw [Bool.not_eq_true'] at hplain
    refine hkey hfails hset key ?_
    rw [← hl, propertyKey, hplain]
    rfl

omit hr in
/-- Accessors and methods have a function for their value. -/
theorem node_function (h : a.Node ["Property"] t) (hcallable : isCallable t) :
    a.Node ["FunctionExpression"] (t.get "value") := by
  cases a with
  | free _ | tidy => exact h.field trivial
  | total labels =>
    obtain ⟨s, hfits⟩ := exists_resolve "value" h rfl
    rw [valueSlot, Slot.resolve, Trait.holds, if_pos hcallable] at hfits
    exact node_of_fits_one rfl hfits

/-- A property, and what can stand among properties. -/
theorem gives_property (h : a.Node ("Property" :: writtenTypes) t)
    (hkey : a.MayFail → t.isType "Property" → HasPlainKey t r) :
    Writes a (property t r) := by
  refine .ite (fun hother => gives_expressionIn hr (h.tail (by simpa using hother)) _) fun hproperty => ?_
  have htype : t.isType "Property" := by simpa using hproperty
  have h : a.Node ["Property"] t := h.of (isType_iff.mp htype) (by decide)
  have hvalue : a.Node writtenTypes (t.get "value") := h.get rfl
  refine .bind (gives_silentKey hr h fun hfree => hkey hfree htype) ?_
  rintro key ⟨hkey, hsilent⟩
  refine .ite (fun hkind => gives_method hr (node_function h ?_) ?_ hkey) fun _ => ?_
  · rw [isCallable, Tree.get]
    cases hget : t.get? "kind" with
    | none => simp [hget, isStr] at hkind
    | some kind =>
      simp only [hget] at hkind
      rw [Option.getD_some, hkind, Bool.true_or]
  · refine spares_append.mpr ⟨?_, spares_of_isAscii rfl⟩
    have hget := (h.clean.get "kind").plain
    rw [Tree.get] at hget
    cases hv : t.get? "kind" with
    | none => exact spares_of_isAscii rfl
    | some kind => rwa [hv] at hget
  refine .ite (fun hmethod => gives_method hr (node_function h ?_) (spares_of_isAscii rfl) hkey) fun _ => ?_
  · rw [isCallable, hmethod, Bool.or_true]
  -- Only the two shorthand forms leave the key out.
  refine .ite (fun hshort => .pure ?_) fun _ => .ite (fun hshort => ?_) fun _ => ?_
  · rw [Bool.and_eq_true_iff, Bool.and_eq_true_iff] at hshort
    have hname : a.Spares (((t.get "key").name?).getD "") := by
      have hclean := ((h.clean.get "key").get "name").plain
      rw [name?]
      cases hv : (t.get "key").get "name" with
      | str s =>
        rw [hv] at hclean
        exact hclean
      | _ => exact spares_of_isAscii rfl
    simp only [passes_cat, List.forall_mem_cons, passes_text]
    exact ⟨hsilent hshort.1.1, hname, List.forall_mem_nil _⟩
  · rw [Bool.and_eq_true_iff, Bool.and_eq_true_iff] at hshort
    refine .bind (hr.field _ _ hvalue) fun value hwritten => .pure ?_
    simp only [passes_cat, List.forall_mem_cons]
    exact ⟨hsilent hshort.1.1, hwritten, List.forall_mem_nil _⟩
  · refine .ite (fun hno => .throw (hvalue.mayFail_of_isSet (by simpa using hno)) _) fun _ => ?_
    refine .bind (hr.field _ _ hvalue) fun value hwritten => .pure ?_
    simp +decide [hkey, hwritten]

/-! ## Statements -/

theorem gives_declaration (h : a.Node ["VariableDeclaration"] t) : Writes a (declaration t r) := by
  refine .bind (hr.join h (by decide) rfl rfl) fun declarators hdeclarators =>
    .bind (h.text rfl) fun kind hkind => .pure ?_
  simp +decide [hdeclarators, hkind]

theorem gives_declarator (h : a.Node ["VariableDeclarator"] t) : Writes a (declarator t r) := by
  refine .bind (hr.part h rfl) fun id hid => .bind (hr.part? h rfl) fun init hinit => ?_
  cases init with
  | none => exact .pure hid
  | some l =>
    refine .pure ?_
    simp +decide [hid, hinit l rfl]

omit hr in
theorem gives_jump (h : a.Node ["BreakStatement", "ContinueStatement"] t) {word : String}
    (hword : isAscii word) : Writes a (jump word t) := by
  have hword : a.Spares word := spares_of_isAscii hword
  refine .ite (fun hset => .bind (h.getSet rfl hset).name fun label hlabel => .pure ?_) fun _ => .pure ?_
  · simp +decide [hword, hlabel]
  · simp +decide [hword]

theorem gives_ifLayout (h : a.Node ["IfStatement"] t) : Writes a (ifLayout t r) := by
  have hthen : a.Node Emit.statementTypes (t.get "consequent") := h.get rfl
  have helse : t.get "alternate" = .null ∨ a.Node Emit.statementTypes (t.get "alternate") := h.get? rfl
  refine .bind (gives_need hthen) fun consequent _ => .bind (hr.part h rfl) fun test htest => ?_
  refine .bind (hr.field _ _ ?_) fun body hbody => ?_
  · split <;> exact hthen
  have hstart : ∀ l ∈ [Layout.text "if (", test, .text ")", body], a.Passes l := by
    simp +decide [htest, hbody]
  have hword : ∀ c : Bool, ∀ l ∈ (if c then [Layout.text " else"]
      else [.newline, .text "else"]), a.Passes l := by
    intro c
    cases c <;> simp +decide
  refine .ite (fun _ => .pure (passes_cat.mpr hstart)) fun hnull => ?_
  have helse : a.Node Emit.statementTypes (t.get "alternate") := by
    refine helse.resolve_left fun heq => hnull ?_
    rw [heq]
    rfl
  refine .ite (fun _ => ?_) fun _ => ?_
  all_goals
    refine .bind (hr.field _ _ helse) fun alternate halternate => .pure (passes_cat.mpr ?_)
    refine List.forall_mem_append.mpr ⟨List.forall_mem_append.mpr ⟨hstart, hword _⟩, ?_⟩
    simp +decide [halternate]

theorem gives_forLayout (h : a.Node ["ForStatement"] t) : Writes a (forLayout t r) := by
  refine .bind (hr.part? h rfl) fun init hinit => .bind (hr.part? h rfl) fun test htest => ?_
  refine .bind (hr.part? h rfl) fun update hupdate => .bind (hr.part h rfl) fun body hbody =>
    .pure (passes_cat.mpr ?_)
  have hsign : ∀ {s : String}, isAscii s → ∀ l ∈ [Layout.text s], a.Passes l :=
    fun hs => List.forall_mem_singleton.mpr (passes_text.mpr (spares_of_isAscii hs))
  simp only [List.forall_mem_append]
  refine ⟨⟨⟨⟨⟨⟨hsign rfl, ?_⟩, hsign rfl⟩, ?_⟩, hsign rfl⟩, ?_⟩, ?_⟩
  · simpa using hinit
  · cases test with
    | none => exact List.forall_mem_nil _
    | some l => simp +decide [htest l rfl]
  · cases update with
    | none => exact List.forall_mem_nil _
    | some l => simp +decide [hupdate l rfl]
  · simp +decide [hbody]

theorem gives_forEach (h : a.Node ["ForInStatement", "ForOfStatement"] t)
    {word : String} (hword : isAscii word) (p : Precedence) :
    Writes a (forEach word p r) := by
  have hword : a.Spares word := spares_of_isAscii hword
  refine .bind (hr.part h rfl) fun left hleft => .bind (hr.part h rfl) fun right hright => ?_
  refine .bind (hr.part h rfl) fun body hbody => .pure ?_
  simp +decide [hleft, hword, hright, hbody]

theorem gives_headed (h : a.Node types t) {word : String}
    (hword : isAscii word) (hhead : offers types key (isFor writtenTypes false))
    (hbody : offers types "body" (isFor Emit.statementTypes false)) :
    Writes a (headed word key r) := by
  have hword : a.Spares word := spares_of_isAscii hword
  refine .bind (hr.part h hhead) fun e he => .bind (hr.part h hbody) fun body hbody => .pure ?_
  simp +decide [hword, he, hbody]

theorem gives_doWhile (h : a.Node ["DoWhileStatement"] t) : Writes a (doWhile t r) := by
  have hbody : a.Node Emit.statementTypes (t.get "body") := h.get rfl
  refine .bind (gives_need hbody) ?_
  rintro _ rfl
  refine .bind (hr.part h rfl) fun test htest => .ite (fun hblock => ?_) fun _ => ?_
  · refine .bind (hr.field _ _ (hbody.of (isType_iff.mp hblock) (by decide))) fun body hwritten =>
      .pure ?_
    simp +decide [htest, hwritten]
  · refine .bind (hr.field _ _ hbody) fun body hwritten => .pure ?_
    simp +decide [htest, hwritten]

theorem gives_switchLayout (h : a.Node ["SwitchStatement"] t) : Writes a (switchLayout t r) := by
  refine .bind (gives_statementLines hr h rfl _) fun cases hcases => ?_
  refine .bind (hr.part h rfl) fun value hvalue => .pure ?_
  simp +decide [hcases, hvalue]

/-- The statements of a case stand below its label. -/
theorem gives_switchCase (htype : t.isType "SwitchCase") (h : a.Node ["SwitchCase"] t) :
    Gives a (switchCase t r) (a.PassesItem t.range?) := by
  have hnodes : ∀ c ∈ t.children "consequent", a.Node Emit.statementTypes c := h.children rfl
  have hlines : Gives a (statementLines t r "consequent" .below .nothing) fun l =>
      ∀ label, a.Passes label → a.PassesItem t.range? (.cat [label, l]) := by
    refine .bind (.mapM₂ (hr.items _ hnodes)) fun parts hparts => .pure fun label hlabel => ?_
    refine .case hlabel (forall_mem_zip (R := fun _ l => a.Passes l) (hparts.imp fun _ _ h => h.2 (by decide))) ?_
    rintro rfl
    obtain ⟨m, fs, rfl⟩ := isObject_of_type? (isType_iff.mp htype)
    rw [List.map_fst_zip (by simp [hparts.length_eq])]
    exact h.1.2 htype
  refine .bind (hr.part? h rfl) fun test htest => ?_
  cases test with
  | none => exact hlines.bind fun l hl => .pure (hl _ (by simp +decide))
  | some test => exact hlines.bind fun l hl => .pure (hl _ (by simp +decide [htest test rfl]))

theorem gives_catchClause (h : a.Node ["CatchClause"] t) : Writes a (catchClause t r) := by
  have hbody : Writes a (r.field .block "body") := hr.part h rfl
  refine .bind (hr.part? h rfl) fun param hparam => ?_
  cases param with
  | none =>
    refine hbody.bind fun body hbody => .pure ?_
    simp +decide [hbody]
  | some l =>
    refine hbody.bind fun body hbody => .pure ?_
    simp +decide [hparam l rfl, hbody]

theorem gives_tryLayout (h : a.Node ["TryStatement"] t) : Writes a (tryLayout t r) := by
  refine .bind (hr.part h rfl) fun block hblock => ?_
  refine .branch (fun hset => hr.field _ _ (h.getSet rfl hset))
    (.pure (passes_text.mpr (spares_of_isAscii rfl))) fun handler hhandler => ?_
  refine .ite (fun hset => ?_) fun _ => .pure ?_
  · refine .bind (hr.field _ _ (h.getSet rfl hset)) fun finalizer hfinalizer => .pure ?_
    simp +decide [hblock, hhandler, hfinalizer]
  · simp +decide [hblock, hhandler]

/-! ### Modules -/

omit hr in
theorem gives_specifier {first second : Tree} (hfirst : a.Node ["Identifier"] first)
    (hsecond : a.Node ["Identifier"] second) : Gives a (specifier first second) a.Spares := by
  refine .bind hfirst.name fun x hx => .bind hsecond.name fun y hy => .pure ?_
  simp +decide [hx, hy]

omit hr in
theorem gives_importSpecifier
    (h : a.Node ["ImportSpecifier", "ImportDefaultSpecifier", "ImportNamespaceSpecifier"] t) :
    Gives a (importSpecifier t) fun s => a.Spares (s.elim id id) := by
  have hlocal : a.Node ["Identifier"] (t.get "local") := h.get rfl
  refine .bind (gives_nameIn hlocal) fun bound hbound => ?_
  split
  next => exact .pure hbound
  next =>
    refine .pure ?_
    simp +decide [hbound]
  next hdefault hspace =>
    have h : a.Node ["ImportDefaultSpecifier", "ImportNamespaceSpecifier", "ImportSpecifier"] t :=
      h.widen (by decide)
    replace h := (h.tail (isType_iff.not.mpr hdefault)).tail (isType_iff.not.mpr hspace)
    have himported : a.Node ["Identifier"] (t.get "imported") := h.get rfl
    refine .bind (gives_need himported) ?_
    rintro _ rfl
    refine .bind (gives_need hlocal) ?_
    rintro _ rfl
    exact (gives_specifier himported hlocal).bind fun s hs => .pure hs

theorem gives_importLayout (h : a.Node ["ImportDeclaration"] t) : Writes a (importLayout t r) := by
  refine .bind (hr.part h rfl) fun source hsource => ?_
  refine .bind (.mapM fun c hc => gives_importSpecifier (h.children rfl c hc))
    fun specifiers hspecifiers => .ite (fun _ => .pure ?_) fun _ => .pure ?_
  · simp +decide [hsource]
  · have hcomma : a.Spares ", " := spares_of_isAscii rfl
    have hpick : ∀ f : String ⊕ String → Option String, (∀ x s, f x = some s → s = x.elim id id) →
        ∀ s ∈ specifiers.filterMap f, a.Spares s := by
      intro f hf s hs
      obtain ⟨x, hx, hfx⟩ := List.mem_filterMap.mp hs
      rw [hf x s hfx]
      exact hspecifiers x hx
    simp +decide only [passes_cat, List.forall_mem_cons, passes_text,
      spares_append, spares_of_isAscii, true_and, and_true]
    refine ⟨spares_joinWith hcomma (List.forall_mem_append.mpr ⟨hpick _ ?_, fun s hs => ?_⟩),
      hsource, List.forall_mem_nil _⟩
    · rintro (x | x) s h <;> cases h
      rfl
    split at hs
    · cases hs
    · rw [List.mem_singleton.mp hs]
      simp +decide only [spares_append, spares_of_isAscii, true_and, and_true]
      refine spares_joinWith hcomma (hpick _ ?_)
      rintro (x | x) s h <;> cases h
      rfl

theorem gives_exportNamed (h : a.Node ["ExportNamedDeclaration"] t) : Writes a (exportNamed t r) := by
  refine .ite (fun hset => ?_) fun _ => ?_
  · refine .bind (hr.field _ _ (h.getSet rfl hset)) fun l hl => .pure ?_
    simp +decide [hl]
  refine .bind (.mapM (P := a.Spares) fun c hc => ?_) fun specifiers hspecifiers => ?_
  · have hc : a.Node ["ExportSpecifier"] c := h.children rfl c hc
    have hlocal : a.Node ["Identifier"] (c.get "local") := hc.get rfl
    have hexported : a.Node ["Identifier"] (c.get "exported") := hc.get rfl
    refine .bind (gives_need hlocal) ?_
    rintro _ rfl
    refine .bind (gives_need hexported) ?_
    rintro _ rfl
    exact gives_specifier hlocal hexported
  have hcomma : a.Spares ", " := spares_of_isAscii rfl
  have hjoined := spares_joinWith hcomma hspecifiers
  refine .ite (fun hset => ?_) fun _ => .pure ?_
  · refine .bind (hr.field _ _ (h.getSet rfl hset)) fun source hsource => .pure ?_
    simp +decide [hjoined, hsource]
  · simp +decide [hjoined]

theorem gives_exportDefault (h : a.Node ["ExportDefaultDeclaration"] t) : Writes a (exportDefault t r) := by
  have hdeclaration : a.Node ("FunctionDeclaration" :: "ClassDeclaration" :: writtenTypes)
    (t.get "declaration") := h.get rfl
  refine .bind (gives_need hdeclaration) ?_
  rintro _ rfl
  refine .ite (fun hdeclares => ?_) fun hother => ?_
  · have hstatement : a.Node Emit.statementTypes (t.get "declaration") :=
      (hdeclaration.ofTypes hdeclares).widen (by decide)
    refine .bind (hr.field _ _ hstatement) fun l hl => .pure ?_
    simp +decide [hl]
  · obtain ⟨hfunction, hclass⟩ : ¬ (t.get "declaration").isType "FunctionDeclaration" ∧
      ¬ (t.get "declaration").isType "ClassDeclaration" := by simpa [isTypeIn] using hother
    refine .bind (hr.field _ _ ((hdeclaration.tail hfunction).tail hclass)) fun l hl => .pure ?_
    simp +decide [hl]

theorem gives_methodDefinition (h : a.Node ["MethodDefinition"] t) : Writes a (methodDefinition t r) := by
  have hvalue : a.Node ["FunctionExpression"] (t.get "value") := h.get rfl
  refine .bind (gives_propertyKey hr (h.widen (by decide))) fun key hkey =>
    .bind (gives_need hvalue) fun _ _ => gives_method hr hvalue ?_ hkey
  have hkind := (h.clean.get "kind").plain
  simp +decide [hkind]

/-! ### All statements -/

/-- **A statement is written.** -/
theorem gives_statement (h : a.Node Emit.statementTypes t) (hplain : a.Plain t) : Writes a (statement t r) := by
  unfold statement
  split
  next htype =>
    refine .bind (hr.part (h.self htype) rfl) fun l hl => .ite (fun _ => .pure ?_) fun _ => .pure ?_
    all_goals simp +decide [hl]
  next htype => exact gives_block hr (h.of htype (by decide))
  next => exact .ascii rfl
  next => exact .ascii rfl
  next htype =>
    refine .bind (gives_declaration hr (h.self htype)) fun l hl => .pure ?_
    simp +decide [hl]
  next htype => exact gives_function hr (h.of htype (by decide))
  next htype => exact gives_classLayout hr (h.of htype (by decide))
  next htype =>
    refine .bind (hr.part? (h.self htype) rfl) fun argument hargument => ?_
    cases argument with
    | none => exact .ascii rfl
    | some l => exact .pure (by simp +decide [hargument l rfl])
  next htype => exact gives_enclosed hr (h.self htype) rfl rfl rfl
  next htype => exact gives_jump (h.of htype (by decide)) rfl
  next htype => exact gives_jump (h.of htype (by decide)) rfl
  next htype =>
    refine .bind (gives_nameIn ((h.self htype).get rfl)) fun label hlabel => ?_
    refine .bind (hr.part (h.self htype) rfl) fun body hbody => .pure ?_
    simp +decide [hlabel, hbody]
  next htype => exact gives_ifLayout hr (h.self htype)
  next htype => exact gives_forLayout hr (h.self htype)
  next htype => exact gives_forEach hr (h.of htype (by decide)) rfl _
  next htype => exact gives_forEach hr (h.of htype (by decide)) rfl _
  next htype => exact gives_headed hr (h.self htype) rfl rfl rfl
  next htype => exact gives_doWhile hr (h.self htype)
  next htype => exact gives_headed hr (h.self htype) rfl rfl rfl
  next htype => exact gives_switchLayout hr (h.self htype)
  next htype =>
    -- A case outside of a switch is no matter of the tidy aim.
    have hcase := isType_iff.mpr htype
    refine (gives_switchCase hr hcase (h.self htype)).imp fun l hl => hl.passes fun htidy => ?_
    rw [hplain htidy] at hcase
    cases hcase
  next htype => exact gives_tryLayout hr (h.self htype)
  next htype => exact gives_importLayout hr (h.self htype)
  next htype => exact gives_exportNamed hr (h.self htype)
  next htype => exact gives_exportDefault hr (h.self htype)
  next htype => exact gives_enclosed hr (h.self htype) rfl rfl rfl
  next htype => exact gives_methodDefinition hr (h.self htype)
  next =>
    refine .throw (h.mayFail fun type hmem htype => ?_) _
    simp_all [Emit.statementTypes]

theorem gives_bodyOf (h : a.Node Emit.statementTypes t) (hplain : a.Plain t) : Writes a (bodyOf t r) := by
  refine .ite (fun hblock => ?_) fun _ => .ite (fun _ => .pure ?_) fun _ => ?_
  · refine .bind (gives_block hr (h.of (isType_iff.mp hblock) (by decide))) fun l hl => .pure ?_
    simp +decide [hl]
  · simp +decide
  · refine .bind (gives_statement hr h hplain) fun l hl => .pure ?_
    simp [hl]

/-! ## Whole trees -/

/-- A node in a role for its type. -/
theorem gives_layoutNode (h : a.Node role.types t) (hplain : a.Plain t)
    (hkey : a.MayFail → t.isType "Property" → HasPlainKey t r) :
    Writes a (layoutNode role t r) := by
  cases role with
  | expr p => exact gives_expressionIn hr h p
  | element => exact gives_expressionIn hr h _
  | stmt => exact gives_statement hr h hplain
  | body => exact gives_bodyOf hr h hplain
  | ownBlock =>
    refine .bind (gives_statement hr h hplain) fun l hl => .pure ?_
    have hlines : a.Passes (.lines .braced [(t.range?, l)] .nothing) :=
      .lines (fun _ => rfl) (List.forall_mem_singleton.mpr (.plain hl))
    simpa +decide using hlines
  | block => exact gives_block hr h
  | declaration => exact gives_declaration hr h
  | declarator => exact gives_declarator hr h
  | loopHead p =>
    refine .ite (fun htype => ?_) fun hother => gives_expressionIn hr (h.tail hother) p
    exact gives_declaration hr (h.of (isType_iff.mp htype) (by decide))
  | functionTail => exact gives_functionTail hr (h.widen (by decide))
  | template => exact gives_template hr h
  | property => exact gives_property hr h hkey
  | handler => exact gives_catchClause hr h
  | tagEnd => exact gives_closingTag hr (h.widen (by decide))

end

/-- A shorthand property has an identifier for its key. -/
def HasNamedShorthand (t : Tree) : Prop :=
  t.isType "Property" = true → (t.get "shorthand").isSet = true → (t.get "key").isType "Identifier" = true

/-- An identifier is laid out as its name alone. -/
theorem layout_identifier {t : Tree} (h : t.isType "Identifier") {l : Layout}
    (hl : layout (.expr Precedence.sequence) t = .ok l) : ∃ s, l = .text s := by
  have htype := isType_iff.mp h
  obtain ⟨m, fs, rfl⟩ := isObject_of_type? htype
  simp only [layout, layoutNode, expressionIn, expression, precedenceOf, htype] at hl
  cases hs : textOf (.obj m fs) "name" with
  | error e =>
    rw [hs] at hl
    cases hl
  | ok s =>
    rw [hs] at hl
    cases hl
    exact ⟨s, rfl⟩

theorem layoutField_eq (role : Role) (key : String) (fs : Fields) :
    layoutField role key fs = match lookup key fs with
      | some v => layout role v
      | none => throw (.missingField key) := by
  induction fs with
  | nil => rfl
  | cons f fs ih =>
    obtain ⟨k, v⟩ := f
    rw [layoutField, lookup, ih]
    split <;> rfl

theorem layoutItems_eq (role : Role) (ts : List Tree) : layoutItems role ts = ts.map (layout role) := by
  induction ts with
  | nil => rfl
  | cons t ts ih => rw [layoutItems, ih, List.map_cons]

theorem layoutEach_eq (role : Role) (key : String) (m : Option Nat) (fs : Fields) :
    layoutEach role key fs = ((Tree.obj m fs).children key).map (layout role) := by
  rw [Tree.children, Tree.get, get?, fields]
  induction fs with
  | nil => rfl
  | cons f fs ih =>
    obtain ⟨k, v⟩ := f
    rw [layoutEach, lookup]
    split
    · cases v with
      | list ts => exact layoutItems_eq role ts
      | _ => rfl
    · exact ih

theorem hasPlainKey_layout {m : Option Nat} {fs : Fields}
    (h : HasNamedShorthand (.obj m fs)) (htype : (Tree.obj m fs).isType "Property") :
    HasPlainKey (.obj m fs) ⟨fun r key => layoutField r key fs, fun r key => layoutEach r key fs⟩ := by
  intro hset l hl
  have hkey := h htype hset
  simp only [layoutField_eq] at hl
  have hget : (Tree.obj m fs).get "key" = (lookup "key" fs).getD .null := rfl
  rw [hget] at hkey
  cases hv : lookup "key" fs with
  | none =>
    rw [hv] at hl
    cases hl
  | some v =>
    rw [hv] at hl hkey
    exact layout_identifier hkey hl

section

variable {a : Aim}

/-- A tree is written in the roles for its type, and as a statement by its place. -/
def Lays (a : Aim) (t : Tree) : Prop :=
  (∀ role : Role, a.Node role.types t → a.Plain t → Writes a (layout role t)) ∧
  (a.Node Emit.statementTypes t → Gives a (layout .stmt t) (a.PassesItem t.range?))

/-- The parts of an object are read as they are written. -/
theorem reads_layout {types : List String} {m : Option Nat} {fs : Fields}
    (h : a.Node types (.obj m fs)) (hparts : ∀ f ∈ fs, Lays a f.2 ∧ ∀ x ∈ f.2.items, Lays a x) :
    Reads a (.obj m fs) ⟨fun r key => layoutField r key fs, fun r key => layoutEach r key fs⟩ := by
  have hcases : ∀ f ∈ fs, a.Plain f.2 ∧ ∀ c ∈ f.2.items, f.1 ≠ "cases" → a.Plain c := by
    refine fun f hf => ⟨?_, fun c hc hkey => ?_⟩
    · rintro rfl
      exact (h.1.1 f hf).1
    · rintro rfl
      exact Bool.eq_false_iff.mpr fun hcase => hkey ((h.1.1 f hf).2 c hc hcase).2
  have hitem : ∀ {key c}, c ∈ (Tree.obj m fs).children key → Lays a c ∧ (key ≠ "cases" → a.Plain c) := by
    intro key c hc
    rw [Tree.children, Tree.get, get?, fields] at hc
    cases hv : lookup key fs with
    | none =>
      rw [hv] at hc
      cases hc
    | some v =>
      rw [hv] at hc
      have hmem := mem_of_lookup_eq_some hv
      exact ⟨(hparts _ hmem).2 c hc, (hcases _ hmem).2 c hc⟩
  refine ⟨fun role key hpart => ?_, fun role key hkey hnodes x hx => ?_, fun key hnodes => ?_⟩
  · simp only [layoutField_eq]
    rw [Tree.get, get?, fields] at hpart
    cases hv : lookup key fs with
    | none =>
      rw [hv] at hpart
      exact .throw (hpart.mayFail_of_type? rfl) _
    | some v =>
      rw [hv] at hpart
      have hmem := mem_of_lookup_eq_some hv
      exact (hparts _ hmem).1.1 role hpart (hcases _ hmem).1
  · simp only [layoutEach_eq role key m fs] at hx
    obtain ⟨c, hc, rfl⟩ := List.mem_map.mp hx
    obtain ⟨hlays, hplain⟩ := hitem hc
    rcases hnodes c hc with ⟨rfl, rfl⟩ | hnode
    · exact .pure (passes_text.mpr (spares_of_isAscii rfl))
    · exact hlays.1 role hnode (hplain hkey)
  · simp only [layoutEach_eq .stmt key m fs]
    refine List.forall₂_map_right_iff.mpr (List.forall₂_same.mpr fun c hc => ?_)
    obtain ⟨hlays, hplain⟩ := hitem hc
    by_cases hkey : key = "cases"
    · exact (hlays.2 (hnodes c hc)).imp fun l hl => ⟨hl, fun hne => absurd hkey hne⟩
    · exact (hlays.1 .stmt (hnodes c hc) (hplain hkey)).imp fun l hl => ⟨.plain hl, fun _ => hl⟩

/-- What is no object is written as nothing, or not at all. -/
theorem lays_of_isObject {t : Tree} (hno : t.isObject = false) : Lays a t := by
  have hwrites : ∀ (role : Role) (types : List String), a.Node types t → Writes a (layout role t) := by
    intro role types h
    cases t with
    | obj m fs => cases hno
    | null =>
      cases role
      case element => exact .pure (passes_text.mpr (spares_of_isAscii rfl))
      all_goals exact .throw (h.mayFail_of_type? rfl) _
    | _ => exact .throw (h.mayFail_of_type? rfl) _
  exact ⟨fun role h _ => hwrites role _ h, fun h => (hwrites .stmt _ h).imp fun _ => .plain⟩

/-- **A tree is written in the roles for its type.** -/
theorem lays_layout {t : Tree} (hs : a.MayFail → t.Everywhere HasNamedShorthand) :
    Lays a t ∧ ∀ x ∈ t.items, Lays a x := by
  induction t using inductionOnParts with
  | scalar t hscalar =>
    cases t with
    | obj m fs => cases hscalar
    | list xs => cases hscalar
    | _ => exact ⟨lays_of_isObject rfl, List.forall_mem_nil _⟩
  | list xs ih =>
    exact ⟨lays_of_isObject rfl, fun x hx => (ih x hx fun hfails => itemsEverywhere_iff.mp (hs hfails) x hx).1⟩
  | obj m fs ih =>
    have hreads := fun {types} (h : a.Node types (.obj m fs)) => reads_layout h fun f hf =>
      ih f hf fun hfails => fieldsEverywhere_iff.mp (hs hfails).2 f hf
    have hkey := fun hfails => hasPlainKey_layout (hs hfails).1
    refine ⟨⟨fun role h hplain => ?_, fun h => ?_⟩, List.forall_mem_nil _⟩
    · rw [layout]
      exact gives_layoutNode (hreads h) h hplain hkey
    · rw [layout]
      by_cases hcase : (Tree.obj m fs).isType "SwitchCase"
      · have hstatement : ∀ r, layoutNode .stmt (.obj m fs) r = switchCase (.obj m fs) r := by
          intro r
          unfold layoutNode statement
          simp only [isType_iff.mp hcase]
        rw [hstatement]
        exact gives_switchCase (hreads h) hcase (h.of (isType_iff.mp hcase) (List.mem_singleton_self _))
      · have hwrites : Writes a (layoutNode .stmt (.obj m fs) _) :=
          gives_layoutNode (hreads h) h (fun _ => Bool.eq_false_iff.mpr hcase) hkey
        exact hwrites.imp fun _ => .plain

/-- The statements of a program. -/
theorem gives_program {t : Tree} (h : ∀ c ∈ t.children "body", a.Node Emit.statementTypes c)
    (hs : a.MayFail → t.Everywhere HasNamedShorthand) :
    Gives a ((layoutItems .stmt (t.children "body")).mapM id)
      (List.Forall₂ (fun c l => a.PassesItem c.range? l) (t.children "body")) := by
  rw [layoutItems_eq]
  refine .mapM₂ (List.forall₂_map_right_iff.mpr (List.forall₂_same.mpr fun c hc => ?_))
  exact ((lays_layout fun hfails => (hs hfails).get "body").2 c hc).2 (h c hc)

end

/-- The layout of a program takes all comments that are left. -/
theorem programLayout_eq {t : Tree} (h : t.isType "Program") :
    programLayout t = (layoutItems .stmt (t.children "body")).mapM id >>= fun parts =>
      pure (.lines .plain (((t.children "body").map Tree.range?).zip parts) .rest) := by
  rw [programLayout, if_pos h]

end Downlevel.Emit
