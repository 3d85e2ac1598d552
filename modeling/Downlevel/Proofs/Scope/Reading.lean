import Downlevel.Proofs.Grammar.Objects
import Downlevel.Proofs.Scope.Place
import Mathlib.Data.List.Sublists

/-!
# `Proofs.Scope.Reading`: what each construct does, against lexical scoping

The steps of a construct say in which role and in which scope each field is read; the tables of
`Proofs.Scope.Place` say which fields are inside of a scope and which fields declare. That the two agree can be
checked construct by construct, for each role that it can be read in, and for each way in which the
conditions in its steps can turn out.
-/

namespace Downlevel.Scope

open Tree Grammar

/-! ## Conditions -/

mutual

/-- The conditions of a step. -/
def Step.conditions : Step → List Condition
  | .scope _ steps => conditionsOf steps
  | .outside steps => conditionsOf steps
  | .choose condition yes no => condition :: (conditionsOf yes ++ conditionsOf no)
  | _ => []

def conditionsOf : List Step → List Condition
  | [] => []
  | step :: rest => step.conditions ++ conditionsOf rest

end

mutual

theorem acts_congr {p q : Condition → Bool} : ∀ (step : Step) (opened : List ScopeType),
    (∀ c ∈ step.conditions, p c = q c) → step.acts p opened = step.acts q opened
  | .scope type steps, opened, h => actsOf_congr steps (type :: opened) h
  | .outside steps, opened, h => actsOf_congr steps (opened.drop 1) h
  | .choose condition yes no, opened, h => by
    rw [Step.conditions, List.forall_mem_cons, List.forall_mem_append] at h
    rw [Step.acts, Step.acts, h.1, actsOf_congr yes opened h.2.1, actsOf_congr no opened h.2.2]
  | .declare _ _, _, _ | .refer _, _, _ | .issue _ _, _, _ | .read _ _ _, _, _ | .readAll, _, _ => rfl

/-- Only the conditions that are asked matter. -/
theorem actsOf_congr {p q : Condition → Bool} : ∀ (steps : List Step) (opened : List ScopeType),
    (∀ c ∈ conditionsOf steps, p c = q c) → actsOf p opened steps = actsOf q opened steps
  | [], _, _ => rfl
  | step :: rest, opened, h => by
    rw [conditionsOf, List.forall_mem_append] at h
    rw [actsOf, actsOf, acts_congr step opened h.1, actsOf_congr rest opened h.2]

end

/-! ## Roles -/

/-- Are the names in this role declared? -/
def Role.isBinding : Role → Bool
  | .bind | .bindProperties | .bindProperty | .bindEach | .declarators | .declarator | .imported
  | .importedEach => true
  | _ => false

/-- Is it the role of a body? -/
def Role.isBody : Role → Bool
  | .functionBody | .catchBody => true
  | _ => false

/-- Is it the role of a property in a pattern? -/
def Role.isProperty : Role → Bool
  | .bindProperty | .assignProperty => true
  | _ => false

/-- What can be read in a role. -/
def Role.symbols : Role → List Symbol
  | .visit =>
    [.moduleItem, .statement, .block, .declaration, .defaultExport, .switchCase, .forInit,
     .expression, .callee, .argument, .function, .classBody, .method, .property, .identifier,
     .literal, .template, .templateElement, .openingTag, .closingTag, .attribute, .attributeValue,
     .child, .contained]
  | .bind => [.pattern]
  | .bindProperty | .assignProperty => [.patternProperty]
  | .assign => [.pattern, .expression]
  | .declarator => [.declarator]
  | .loopHead => [.forTarget]
  | .functionBody => [.block, .arrowBody, .expression]
  | .catchBody => [.block]
  | .handler => [.catchClause]
  | .imported => [.importSpecifier]
  | .exported => [.exportSpecifier]
  | .elementName _ => [.tagName, .tagObject]
  | _ => []

/-- The types of what can be read in a role. -/
def Role.types : Role → List String
  | .visit => moduleTypes ++ statementTypes ++ expressionTypes ++
      ["Super", "SpreadElement", "JSXEmptyExpression", "SwitchCase", "ClassBody", "MethodDefinition",
       "Property", "TemplateElement", "JSXOpeningElement", "JSXClosingElement", "JSXAttribute",
       "JSXSpreadAttribute", "JSXExpressionContainer", "JSXText"]
  | .assign => "ObjectPattern" :: "ArrayPattern" :: "AssignmentPattern" :: "RestElement" :: expressionTypes
  | role => role.symbols.flatMap Symbol.types

/-- The roles in which nodes are read; the others are for lists. -/
def nodeRoles : List Role :=
  [.visit, .bind, .bindProperty, .assign, .assignProperty, .declarator, .loopHead, .functionBody,
   .catchBody, .handler, .imported, .exported, .elementName true, .elementName false]

theorem mem_nodeRoles {role : Role} {s : Symbol} (h : s ∈ role.symbols) : role ∈ nodeRoles := by
  cases role with
  | elementName dotted => cases dotted <;> decide
  | bindProperties | bindEach | assignProperties | assignEach | declarators | importedEach
  | exportedEach => cases h
  | _ => decide

theorem types_of_symbols {role : Role} {s : Symbol} (h : s ∈ role.symbols) :
    s.types ⊆ role.types ∧ (s == .patternProperty) = role.isProperty := by
  have hall : nodeRoles.all (fun role => role.symbols.all fun s =>
      s.types.all role.types.contains && (s == .patternProperty) == role.isProperty) := by
    decide +kernel
  have hs := List.all_eq_true.mp (List.all_eq_true.mp hall role (mem_nodeRoles h)) s h
  rw [Bool.and_eq_true, List.all_eq_true, beq_iff_eq] at hs
  exact ⟨fun type htype => List.contains_iff_mem.mp (hs.1 type htype), hs.2⟩

/-- Can the value of a slot be read in a role? -/
def Role.suits (role : Role) : Slot → Bool
  | .one s | .optional s => role.symbols.contains s
  | .many s | .several s | .sparse s => role.ofItems?.any fun r =>
    r.symbols.contains s && r.isBinding == role.isBinding && r.isBody == role.isBody
  | .choice _ _ _ => false
  | .segment => role == .visit
  | _ => true

/-- What a slot can come to, given whether the node is a property in a pattern, and whether its key is
computed. Properties in patterns are neither accessors nor methods. -/
def possibleSlots (inPattern computed : Bool) : Slot → List Slot
  | .choice trait yes no =>
    let yes := possibleSlots inPattern computed yes
    let no := possibleSlots inPattern computed no
    match trait with
    | .computed => if computed then yes else no
    | .inPattern => if inPattern then yes else no
    | .callable => if inPattern then no else yes ++ no
    | .exported | .concise => yes ++ no
  | slot => [slot]

theorem mem_ite {α : Type} {c : Bool} {x y : α} {xs ys : List α} (hx : x ∈ xs) (hy : y ∈ ys) :
    (if c then x else y) ∈ (if c then xs else ys) := by
  cases c with
  | true => exact hx
  | false => exact hy

/-- The slot that a choice comes to is possible. -/
theorem resolve_mem_possibleSlots {s : Symbol} {t : Tree} (h : s.admits t) : ∀ slot : Slot,
    slot.resolve s t ∈ possibleSlots (s == .patternProperty) (t.get "computed").isSet slot
  | .choice trait yes no => by
    have hyes := resolve_mem_possibleSlots h yes
    have hno := resolve_mem_possibleSlots h no
    rw [Slot.resolve]
    cases trait with
    | computed | inPattern => exact mem_ite hyes hno
    | callable =>
      show (if _ then _ else _) ∈
        (if _ then possibleSlots _ _ no else possibleSlots _ _ yes ++ possibleSlots _ _ no)
      rw [Symbol.admits, Bool.and_eq_true, Bool.or_eq_true, bne, Bool.not_eq_true'] at h
      cases hcallable : isCallable t with
      | true =>
        -- A property in a pattern is not callable.
        have hs : (s == .patternProperty) = false := h.2.resolve_right (by simp [hcallable])
        rw [hs] at hyes ⊢
        simp only [Trait.holds, hcallable]
        exact List.mem_append_left _ hyes
      | false =>
        simp only [Trait.holds, hcallable, Bool.false_eq_true, if_false]
        split
        · exact hno
        · exact List.mem_append_right _ hno
    | exported | concise =>
      show (if _ then _ else _) ∈ possibleSlots _ _ yes ++ possibleSlots _ _ no
      split
      · exact List.mem_append_left _ hyes
      · exact List.mem_append_right _ hno
  | .one _ | .optional _ | .many _ | .several _ | .sparse _ | .text | .optionalText | .operator
  | .keyword | .segment => List.mem_cons_self

/-! ## Readings -/

/-- A node of a type, read in a role, and the conditions that hold of it. -/
structure Reading where
  role : Role
  type : String
  holding : List Condition

namespace Reading

def steps (r : Reading) : List Step := stepsIn r.role (some r.type)

/-- The conditions that matter. -/
def conditions (r : Reading) : List Condition := conditionsOf r.steps ++ [.isSet "computed"]

def acts (r : Reading) : List Act := actsOf r.holding.contains [] r.steps

/-- What can stand in a field. -/
def slots (r : Reading) (key : String) : List Slot :=
  (((rulesFor r.type).lookup key).map
    (possibleSlots r.role.isProperty (r.holding.contains (.isSet "computed")))).getD []

/-- Is a field inside of the scope of the node? -/
def opens (r : Reading) (key : String) : Bool :=
  ((List.lookup r.type scopeFields).getD []).contains key &&
    !(r.type == "BlockStatement" && r.role.isBody) &&
    !(r.type == "ClassExpression" && !r.holding.contains (.isObject "id"))

/-- Are the opened scopes the right ones for a field? -/
def isInside (r : Reading) (opened : List ScopeType) (key : String) : Bool :=
  match opened with
  | [] => !r.opens key
  | [type] => r.opens key && type.isFunction == ("Program" :: functionTypes).contains r.type
  | _ => false

/-- Does a field declare as it should, if its names are declared in this manner? -/
def passes (r : Reading) (manner : Manner) (isBinding : Bool) (key : String) : Bool :=
  match passage? (some r.type) key with
  | some .through => manner == .inherited && isBinding == r.role.isBinding
  | some (.as kind) => manner == .own kind && isBinding && kind != .var
  | some .keyword => manner == .keyword && isBinding
  | none => !isBinding

/-- Is a field read as it should? -/
def reads (r : Reading) (opened : List ScopeType) (manner : Manner) (role : Role) (key : String) : Bool :=
  r.isInside opened key && r.passes manner role.isBinding key &&
    role.isBody == (key == "body" && ("CatchClause" :: functionTypes).contains r.type) &&
    (rulesFor r.type).any (·.1 == key) && (r.slots key).all role.suits

/-- Does a field hold an identifier, or nothing? -/
def isNameField (r : Reading) (key : String) : Bool :=
  (rulesFor r.type).any (·.1 == key) && (r.slots key).all fun slot => slot.symbol? == some .identifier

/-- Is a single step as it should be? -/
def accepts (r : Reading) : Act → Bool
  | (opened, .declare none manner) =>
    opened.isEmpty && r.type == "Identifier" && r.role.isBinding && manner == .inherited
  | (opened, .declare (some key) manner) =>
    r.isInside opened key && r.passes manner true key && r.isNameField key && !isPlaceKey key &&
      [Condition.isObject key, .isIdentifier key].any r.holding.contains
  | (opened, .read manner role key) => r.reads opened manner role key && !isPlaceKey key
  | (opened, .readAll) =>
    opened.isEmpty && (rulesFor r.type).all fun rule => r.reads [] .inherited .visit rule.1
  | (opened, .refer _) | (opened, .issue _ _) => opened.isEmpty
  | _ => false

/-- Does a single step look at a field? -/
def looksAt (key : String) : Act → Bool
  | (_, .declare (some k) _) | (_, .read _ _ k) => k == key
  | (_, .readAll) => true
  | _ => false

end Reading

/-- What declares nothing by itself. -/
def muteSymbols : List Symbol :=
  [.identifier, .literal, .propertyName, .exportSpecifier, .tagName, .tagObject, .tagIdentifier,
   .attributeName]

def isMuteSlot : Slot → Bool
  | .one s | .optional s | .many s | .several s | .sparse s => muteSymbols.contains s
  | .choice _ _ _ => false
  | _ => true

namespace Reading

/-- Is it right that no step looks at a field? Its value declares nothing, or is not there. -/
def skips (r : Reading) (key : String) : Bool :=
  r.isNameField key && ([Condition.isObject key, .isIdentifier key].any fun c =>
      r.conditions.contains c && !r.holding.contains c) ||
    (r.slots key).all isMuteSlot &&
      match passage? (some r.type) key with
      | some .through => !r.role.isBinding
      | some _ => false
      | none => true

/-- Does a construct treat its names as lexical scoping says? -/
def isLexical (r : Reading) : Bool :=
  r.acts.all r.accepts &&
    (rulesFor r.type).all (fun rule => r.acts.any (looksAt rule.1) || r.skips rule.1) &&
    (!(r.type == "Identifier" && r.role.isBinding) || r.acts.any fun act => act.2 matches .declare none _) &&
    (r.type != "ClassExpression" || r.conditions.contains (.isObject "id"))

/-- All ways in which a node can be read in a role. -/
def allOf (role : Role) (type : String) : List Reading :=
  (conditions ⟨role, type, []⟩).sublists.map (⟨role, type, ·⟩)

/-- The reading of a node. -/
def ofNode (role : Role) (type : String) (t : Tree) : Reading :=
  ⟨role, type, (conditions ⟨role, type, []⟩).filter (·.holds t)⟩

/-- **Every construct treats its names as lexical scoping says.** -/
theorem isLexical_of_mem {role : Role} {type : String} (hrole : role ∈ nodeRoles) (htype : type ∈ role.types)
    {r : Reading} (hr : r ∈ allOf role type) : r.isLexical := by
  have hall : nodeRoles.all (fun role => role.types.all fun type => (allOf role type).all isLexical) =
      true := by decide +kernel
  exact List.all_eq_true.mp (List.all_eq_true.mp (List.all_eq_true.mp hall role hrole) type htype) r hr

end Reading

end Downlevel.Scope
