import Downlevel.Proofs.Grammar.Derives

/-!
# `Proofs.Grammar.Build`: the nodes that lowerings build

Every function that builds a node gives one that the grammar derives, as long as its parts are what the
rules ask for. A symbol is given by the type of the node that it has to admit, so that one law serves all
places where such a node can stand.
-/

namespace Downlevel.Grammar

open Tree Node

variable {labels : Labelling} {s : Symbol}

/-- A new node at a place, where it is neither the property of a pattern nor the rest of one. -/
theorem derives_new {type : String} {fs : Fields} {rs : List (String × Slot)}
    (hs : type ∈ s.types) (hrules : (type, rs) ∈ rules) (hform : isForm rs (fs.map (·.1)))
    (htypes : type ∉ Symbol.types .patternProperty ∧ type ∉ ["TemplateLiteral", "MethodDefinition"])
    (hfields : ∀ f ∈ fs, FieldFits labels ((rs.lookup f.1).map (Slot.resolve s (make type fs))) f.1 f.2) :
    Derives labels s (make type fs) := by
  exact derives_make hs (fun h => htypes.1 (h ▸ hs)) htypes.2 (rulesFor_of_mem hrules) hform hfields

/-- A new node of a type without rules. -/
theorem derives_bare {type : String} (hs : type ∈ s.types) (hrules : rulesFor type = [])
    (htypes : type ∉ Symbol.types .patternProperty ∧ type ∉ ["TemplateLiteral", "MethodDefinition"]) :
    Derives labels s (make type []) := by
  exact derives_make hs (fun h => htypes.1 (h ▸ hs)) htypes.2 hrules rfl nofun

/-! ## Expressions -/

theorem derives_identifierNode {name : Tree} (hname : ∃ text, name = .str text)
    (hs : "Identifier" ∈ s.types) : Derives labels s (make "Identifier" [("name", name)]) := by
  refine derives_new hs (by repeat constructor) rfl (by decide) ?_
  exact List.forall_mem_cons.mpr ⟨fits_text_iff.mpr hname, nofun⟩

theorem derives_identifier (name : String) (place : Tree) (hs : "Identifier" ∈ s.types) :
    Derives labels s (identifier name place) :=
  derives_located (derives_identifierNode ⟨name, rfl⟩ hs) place

theorem derives_literal {value : Tree} (hvalue : isInert labels value) (place : Tree)
    (hs : "Literal" ∈ s.types) : Derives labels s (literal value place) := by
  refine derives_located (derives_new hs (by repeat constructor) rfl (by decide) ?_) place
  exact List.forall_mem_cons.mpr ⟨.inr hvalue, nofun⟩

theorem derives_unary (operator : String) {argument : Tree}
    (hargument : Derives labels .expression argument) (hs : "UnaryExpression" ∈ s.types) :
    Derives labels s (unary operator argument) := by
  refine derives_new hs (by repeat constructor) rfl (by decide) ?_
  simp only [List.forall_mem_cons]
  exact ⟨rfl, .inr rfl, hargument.fits, nofun⟩

theorem derives_voidZero (hs : "UnaryExpression" ∈ s.types) : Derives labels s voidZero :=
  derives_unary "void" (derives_literal rfl .null (by decide)) hs

theorem derives_thisExpression (place : Tree) (hs : "ThisExpression" ∈ s.types) :
    Derives labels s (thisExpression place) :=
  derives_located (derives_bare hs rfl (by decide)) place

theorem derives_member {object property : Tree} {computed : Bool} (hobject : Derives labels .callee object)
    (hproperty : Derives labels (if computed then .expression else .identifier) property)
    (hs : "MemberExpression" ∈ s.types) : Derives labels s (member object property computed) := by
  refine derives_new hs (by repeat constructor) rfl (by decide) ?_
  cases computed <;>
  · simp only [List.forall_mem_cons]
    exact ⟨.inr rfl, hobject.fits, hproperty.fits, nofun⟩

theorem derives_dot {object : Tree} (hobject : Derives labels .callee object) (name : String)
    (hs : "MemberExpression" ∈ s.types) : Derives labels s (dot object name) :=
  derives_member hobject (derives_identifier name .null (by decide)) hs

theorem derives_path {root : Tree} (hroot : Derives labels .callee root) (name : String)
    (hs : "MemberExpression" ∈ s.types) : Derives labels s (path root [name]) :=
  derives_dot hroot name hs

theorem derives_call {callee : Tree} {arguments : List Tree} (hcallee : Derives labels .callee callee)
    (harguments : ∀ a ∈ arguments, Derives labels .argument a) (place : Tree)
    (hs : "CallExpression" ∈ s.types) : Derives labels s (call callee arguments place) := by
  refine derives_located (derives_new hs (by repeat constructor) rfl (by decide) ?_) place
  simp only [List.forall_mem_cons]
  exact ⟨hcallee.fits, fits_many harguments, nofun⟩

theorem derives_assign {left right : Tree} (hleft : Derives labels .pattern left)
    (hright : Derives labels .expression right) (place : Tree)
    (hs : "AssignmentExpression" ∈ s.types) : Derives labels s (assign left right place) := by
  refine derives_located (derives_new hs (by repeat constructor) rfl (by decide) ?_) place
  simp only [List.forall_mem_cons]
  exact ⟨rfl, hleft.fits, hright.fits, nofun⟩

theorem derives_binary {operator : String} {left right : Tree}
    (hoperator : (Emit.binaryPrecedence? operator).isSome)
    (hleft : Derives labels .expression left) (hright : Derives labels .expression right)
    (place : Tree) (hs : "BinaryExpression" ∈ s.types) :
    Derives labels s (binary operator left right place) := by
  refine derives_located (derives_new hs (by repeat constructor) rfl (by decide) ?_) place
  simp only [List.forall_mem_cons]
  exact ⟨hoperator, hleft.fits, hright.fits, nofun⟩

theorem derives_objectExpression {properties : List Tree}
    (h : ∀ p ∈ properties, Derives labels .property p) (hs : "ObjectExpression" ∈ s.types) :
    Derives labels s (objectExpression properties) := by
  refine derives_new hs (by repeat constructor) rfl (by decide) ?_
  exact List.forall_mem_cons.mpr ⟨fits_many h, nofun⟩

theorem derives_property {key value : Tree} (hkey : Derives labels .propertyName key)
    (hvalue : Derives labels .expression value) (place : Tree) :
    Derives labels .property (property key value place) := by
  refine derives_located (derives_make (s := .property) (by decide) nofun (by decide)
    (rulesFor_of_mem (by repeat constructor)) rfl ?_) place
  simp only [List.forall_mem_cons]
  exact ⟨hkey.fits, .inr rfl, hvalue.fits, .inr rfl, .inr rfl, .inr rfl, nofun⟩

/-! ## Statements -/

theorem derives_expressionStatement {e : Tree} (he : Derives labels .expression e) (place : Tree)
    (hs : "ExpressionStatement" ∈ s.types) : Derives labels s (expressionStatement e place) := by
  refine derives_located (derives_new hs (by repeat constructor) rfl (by decide) ?_) place
  exact List.forall_mem_cons.mpr ⟨he.fits, nofun⟩

theorem derives_block {statements : List Tree}
    (h : ∀ t ∈ statements, Derives labels .statement t) (place : Tree)
    (hs : "BlockStatement" ∈ s.types) : Derives labels s (block statements place) := by
  refine derives_located (derives_new hs (by repeat constructor) rfl (by decide) ?_) place
  exact List.forall_mem_cons.mpr ⟨fits_many h, nofun⟩

theorem derives_returnStatement {argument : Option Tree}
    (h : ∀ e ∈ argument, Derives labels .expression e) (place : Tree)
    (hs : "ReturnStatement" ∈ s.types) : Derives labels s (returnStatement argument place) := by
  refine derives_located (derives_new hs (by repeat constructor) (by cases argument <;> rfl) (by decide) ?_) place
  cases argument with
  | none => exact nofun
  | some e => exact List.forall_mem_cons.mpr ⟨fits_optional_iff.mpr (.inr (h e rfl)), nofun⟩

theorem derives_ifStatement {test consequent : Tree} (htest : Derives labels .expression test)
    (hconsequent : Derives labels .statement consequent) (hs : "IfStatement" ∈ s.types) :
    Derives labels s (ifStatement test consequent) := by
  refine derives_new hs (by repeat constructor) rfl (by decide) ?_
  simp only [Node.optional, List.append_nil, List.forall_mem_cons]
  exact ⟨htest.fits, hconsequent.fits, List.forall_mem_nil _⟩

/-! ## Declarations and functions -/

theorem derives_declarator {target : Tree} {init : Option Tree}
    (htarget : Derives labels .pattern target) (hinit : ∀ e ∈ init, Derives labels .expression e) :
    Derives labels .declarator (declarator target init) := by
  refine derives_new (s := .declarator) (by decide) (by repeat constructor) (by cases init <;> rfl) (by decide) ?_
  refine List.forall_mem_cons.mpr ⟨htarget.fits, ?_⟩
  cases init with
  | none => exact nofun
  | some e => exact List.forall_mem_cons.mpr ⟨fits_optional_iff.mpr (.inr (hinit e rfl)), nofun⟩

theorem derives_declaration {kind : String} {declarators : List Tree}
    (hkind : kind ∈ ["var", "let", "const"]) (hne : declarators ≠ [])
    (h : ∀ d ∈ declarators, Derives labels .declarator d) (place : Tree)
    (hs : "VariableDeclaration" ∈ s.types) :
    Derives labels s (declaration kind declarators place) := by
  refine derives_located (derives_new hs (by repeat constructor) rfl (by decide) ?_) place
  simp only [List.forall_mem_cons]
  exact ⟨List.contains_iff_mem.mpr hkind, fits_several_iff.mpr ⟨_, rfl, hne, h⟩, nofun⟩

theorem derives_var (name : String) {init : Tree} (hinit : Derives labels .expression init)
    (place : Tree) (hs : "VariableDeclaration" ∈ s.types) :
    Derives labels s (var name (some init) place) := by
  refine derives_declaration (by decide) (List.cons_ne_nil _ _) ?_ place hs
  refine List.forall_mem_singleton.mpr (derives_declarator ?_ fun e he => ?_)
  · exact derives_identifier name .null (by decide)
  · cases he
    exact hinit

section

variable {params : List Tree} {body : Tree}

theorem derives_functionExpression (hparams : ∀ p ∈ params, Derives labels .pattern p)
    (hbody : Derives labels .block body) (form : FunctionForm) (place : Tree)
    (hs : "FunctionExpression" ∈ s.types) :
    Derives labels s (functionExpression params body form place) := by
  refine derives_located (derives_new hs (by repeat constructor) (by cases form.name <;> rfl) (by decide) ?_) place
  refine List.forall_mem_append.mpr ⟨?_, ?_⟩
  · simp only [List.forall_mem_cons]
    exact ⟨fits_many hparams, hbody.fits, .inr rfl, .inr rfl, .inr rfl, nofun⟩
  · cases form.name with
    | none => exact nofun
    | some n =>
      refine List.forall_mem_cons.mpr ⟨fits_optional_iff.mpr (.inr ?_), nofun⟩
      exact derives_identifier n .null (by decide)

/-- The type of a new node can be written after its place. -/
theorem set_type_located (type other : String) (fs : Fields) (place : Tree) :
    (located (make type fs) place).set "type" (.str other) = located (make other fs) place := by
  unfold located
  cases place.get? "range" <;> cases place.get? "loc" <;> rfl

theorem derives_functionDeclaration (name : String)
    (hparams : ∀ p ∈ params, Derives labels .pattern p) (hbody : Derives labels .block body)
    (place : Tree) (hs : "FunctionDeclaration" ∈ s.types) :
    Derives labels s (functionDeclaration name params body place) := by
  have hname : Derives labels .identifier (identifier name) := derives_identifier name .null (by decide)
  rw [functionDeclaration, functionExpression, set_type_located]
  refine derives_located (derives_new hs (by repeat constructor) rfl (by decide) ?_) place
  refine List.forall_mem_append.mpr ⟨?_, List.forall_mem_singleton.mpr ?_⟩
  · simp only [List.forall_mem_cons]
    exact ⟨fits_many hparams, hbody.fits, .inr rfl, .inr rfl, .inr rfl, nofun⟩
  · show fits labels (nameSlot.resolve s _) _ = true
    rw [nameSlot, Slot.resolve]
    split
    · exact fits_optional_iff.mpr (.inr hname)
    · exact hname.fits

end

end Downlevel.Grammar
