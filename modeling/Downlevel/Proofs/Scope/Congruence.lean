import Downlevel.Proofs.Scope.Outline
import Mathlib.Data.List.Forall2

/-!
# `Proofs.Scope.Congruence`: outlines of changed trees

A change of a tree that gives identifiers new names, turns some declarations into `var` and marks nodes
leaves its outline alike: node by node, the changed tree takes the same steps. This is shown once, for
any relation between trees that looks the same from each node (`IsSimulation`), and for any relation
between outlines that is built up along the steps (`IsCongruence`).
-/

namespace Downlevel.Scope

open Tree

/-! ## What may change -/

/-- What a change does: the new name of an identifier, by its mark and its old name, and which
declarations may become `var`, by their marks. -/
structure Change where
  name : Option Nat → Option String → Option String
  moves : Option Nat → Prop

/-- A node keeps its mark. -/
def KeepsMark (t t' : Tree) : Prop := ∀ m, t.mark? = some m → t'.mark? = some m

/-- An identifier keeps its mark and its type, and is renamed as the change says. -/
structure IdentifierLike (x : Change) (t t' : Tree) : Prop where
  mark : KeepsMark t t'
  type : t'.type? = t.type?
  name : t'.name? = x.name t.mark? t.name?

/-- A declaration stays as it is, or becomes `var`. -/
structure BinderLike (x : Change) (b b' : Binder) : Prop where
  mark : KeepsMark b.declaration b'.declaration
  kind : b'.kind = b.kind ∧ b'.hoisted = b.hoisted ∨
    b.kind.isBlockScoped ∧ b.hoisted = false ∧ b'.kind = .var ∧ b'.hoisted ∧
      x.moves b.declaration.mark?

/-- What a node shows to the construct around it. -/
structure Face where
  isSet : Bool
  isNull : Bool
  isObject : Bool
  type : Option String

def faceOf (t : Tree) : Face := ⟨t.isSet, t.isNull, t.isObject, t.type?⟩

/-- The fields that constructs look at without reading them. -/
def watchedKeys : List String := ["computed", "source", "id", "local"]

/-- A node looks the same to the steps it takes. -/
structure HeadLike (x : Change) (t t' : Tree) : Prop where
  self : IdentifierLike x t t'
  faces : ∀ key ∈ watchedKeys, faceOf (t'.get key) = faceOf (t.get key)
  parts : ∀ key ∈ watchedKeys, (t.get key).isObject → IdentifierLike x (t.get key) (t'.get key)
  keyword : ∀ b b', BinderLike x (Manner.keyword.binder t b) (Manner.keyword.binder t' b')
  /-- A call of `eval` may become another call, not the other way round. -/
  eval : Condition.callsEval.holds t' → Condition.callsEval.holds t = true
  /-- The name of an element may stop to name a variable, not the other way round. -/
  element : ∀ dotted, (Condition.isVariable dotted).holds t' →
    (Condition.isVariable dotted).holds t = true

/-! ## Relations between outlines -/

/-- A relation between outlines that is built up along the steps of constructs. A reference may be lost
where the name of an element stops to name a variable, and so may calls of `eval`. -/
structure IsCongruence (x : Change) (R : List Item → List Item → Prop) : Prop where
  nil : R [] []
  append : ∀ {xs xs' ys ys'}, R xs xs' → R ys ys' → R (xs ++ ys) (xs' ++ ys')
  declare : ∀ {id id' b b'}, IdentifierLike x id id' → BinderLike x b b' →
    R [.declare id b.kind b.hoisted b.declaration] [.declare id' b'.kind b'.hoisted b'.declaration]
  refer : ∀ {id id' write}, IdentifierLike x id id' → R [.refer id write] [.refer id' write]
  unread : ∀ {id write}, id.type? = some "JSXIdentifier" → R [.refer id write] []
  issue : ∀ {code node node'}, R [.issue code node] [.issue code node']
  quiet : ∀ {code node}, R [.issue code node] []
  scope : ∀ {type node node' xs xs'}, R xs xs' → R [.scope type node xs] [.scope type node' xs']
  outside : ∀ {xs xs'}, R xs xs' → R [.outside xs] [.outside xs']

/-! ## Steps -/

/-- The field that a condition looks at, if it stays the same. -/
def Condition.watched? : Condition → Option String
  | .isSet key | .isNull key | .isObject key | .isIdentifier key => some key
  | .callsEval | .isVariable _ => none

/-- Under the condition that `eval` is called, there is an issue and nothing else. -/
def isOneIssue : List Step → Bool
  | [.issue _ _] => true
  | _ => false

/-- Can a field be read in a role? Places in the text are not read, and an initial value only as an
expression. -/
def isReadable (role : Role) (key : String) : Bool :=
  !isPlaceKey key && (key != "init" || role == .visit)

mutual

/-- Can a step be followed through a change? Keys that are looked at are watched, and what is declared is
an object. -/
def Step.isTame (objects : List String) : Step → Bool
  | .declare key _ => key.all fun key => watchedKeys.contains key && objects.contains key
  | .read _ role key => isReadable role key
  | .scope _ steps => stepsTame objects steps
  | .outside steps => stepsTame objects steps
  | .choose condition yes no =>
    if condition = .callsEval then isOneIssue yes && no.isEmpty
    else condition.watched?.any watchedKeys.contains &&
      stepsTame (condition.objects ++ objects) yes && stepsTame objects no
  | _ => true

def stepsTame (objects : List String) : List Step → Bool
  | [] => true
  | step :: rest => step.isTame objects && stepsTame objects rest

end

section

variable {x : Change} {R : List Item → List Item → Prop} {t t' : Tree} {b b' : Binder}
  {read read' : Reader} {all all' : Unit → List Item}

/-- How a changed node declares. -/
theorem binderLike_binder (hhead : HeadLike x t t') (hb : BinderLike x b b') :
    ∀ manner : Manner, BinderLike x (manner.binder t b) (manner.binder t' b')
  | .inherited => hb
  | .own _ => ⟨hhead.self.mark, .inl ⟨rfl, rfl⟩⟩
  | .keyword => hhead.keyword b b'

/-- Conditions on watched fields stay the same. -/
theorem holds_eq (hhead : HeadLike x t t') {c : Condition} {key : String}
    (hc : c.watched? = some key) (hkey : key ∈ watchedKeys) : c.holds t' = c.holds t := by
  have hface := hhead.faces key hkey
  cases c with
  | isSet _ => cases hc; exact congrArg Face.isSet hface
  | isNull _ => cases hc; exact congrArg Face.isNull hface
  | isObject _ => cases hc; exact congrArg Face.isObject hface
  | isIdentifier _ =>
    cases hc
    have htype : (t'.get key).type? = (t.get key).type? := congrArg Face.type hface
    rw [Condition.holds, Condition.holds, Bool.eq_iff_iff, isType_iff, isType_iff, htype]
  | callsEval | isVariable _ => cases hc

/-- The name of an element. -/
theorem related_elementSteps (hR : IsCongruence x R) (hhead : HeadLike x t t')
    (htype : t.type? = some "JSXIdentifier") (dotted : Bool) :
    R (itemsOf t b read all (elementSteps dotted))
      (itemsOf t' b' read' all' (elementSteps dotted)) := by
  simp only [elementSteps, Step.when, itemsOf, Step.items, List.append_nil]
  by_cases hnew : (Condition.isVariable dotted).holds t'
  · rw [if_pos hnew, if_pos (hhead.element dotted hnew)]
    exact hR.refer hhead.self
  · rw [if_neg hnew]
    split
    · exact hR.unread htype
    · exact hR.nil

section

variable (hR : IsCongruence x R) (hhead : HeadLike x t t') (hb : BinderLike x b b')
  (hread : ∀ role c c' key, isReadable role key → BinderLike x c c' → R (read role c key) (read' role c' key))
  (hall : R (all ()) (all' ()))

include hR hhead hb hread hall

set_option linter.unusedSectionVars false

mutual

theorem related_items :
    ∀ (step : Step) (objects : List String), step.isTame objects →
      (∀ key ∈ objects, (t.get key).isObject) →
      R (step.items t b read all) (step.items t' b' read' all')
  | .declare none manner, _, _, _ => hR.declare hhead.self (binderLike_binder hhead hb manner)
  | .declare (some key) manner, objects, h, hobj => by
    rw [Step.isTame, Option.all_some, Bool.and_eq_true, List.contains_iff_mem, List.contains_iff_mem] at h
    exact hR.declare (hhead.parts key h.1 (hobj key h.2)) (binderLike_binder hhead hb manner)
  | .refer write, _, _, _ => hR.refer hhead.self
  | .issue code key, _, _, _ => hR.issue
  | .read manner role key, _, h, _ => hread role _ _ key h (binderLike_binder hhead hb manner)
  | .readAll, _, _, _ => hall
  | .scope type steps, objects, h, hobj => hR.scope (related_itemsOf steps objects h hobj)
  | .outside steps, objects, h, hobj => hR.outside (related_itemsOf steps objects h hobj)
  | .choose condition yes no, objects, h, hobj => by
    rw [Step.isTame] at h
    rw [Step.items, Step.items]
    split at h
    · -- The issue is lost where the call is one of `eval` no longer.
      rename_i heval
      rw [Bool.and_eq_true, List.isEmpty_iff] at h
      obtain ⟨hone, rfl⟩ := h
      rw [heval]
      unfold isOneIssue at hone
      split at hone
      · by_cases hnew : Condition.callsEval.holds t'
        · rw [if_pos hnew, if_pos (hhead.eval hnew)]
          exact hR.append hR.issue hR.nil
        · rw [if_neg hnew]
          split
          · exact hR.append hR.quiet hR.nil
          · exact hR.nil
      · cases hone
    · rw [Bool.and_eq_true, Bool.and_eq_true] at h
      obtain ⟨key, hkey, hwatched⟩ := (Option.any_eq_true _ _).mp h.1.1
      rw [holds_eq hhead hkey (List.contains_iff_mem.mp hwatched)]
      split
      · rename_i hholds
        exact related_itemsOf yes _ h.1.2
          (List.forall_mem_append.mpr ⟨condition.isObject_of_holds hholds, hobj⟩)
      · exact related_itemsOf no objects h.2 hobj

theorem related_itemsOf :
    ∀ (steps : List Step) (objects : List String), stepsTame objects steps →
      (∀ key ∈ objects, (t.get key).isObject) →
      R (itemsOf t b read all steps) (itemsOf t' b' read' all' steps)
  | [], _, _, _ => hR.nil
  | step :: rest, objects, h, hobj => by
    rw [stepsTame, Bool.and_eq_true] at h
    exact hR.append (related_items step objects h.1 hobj) (related_itemsOf rest objects h.2 hobj)

end

/-- **A changed node takes the same steps.** -/
theorem related_stepsIn (role : Role) :
    R (itemsOf t b read all (stepsIn role t.type?))
      (itemsOf t' b' read' all' (stepsIn role t'.type?)) := by
  rw [hhead.self.type]
  rcases stepsIn_mem_plainSteps role t.type? with hmem | ⟨htype, dotted, heq⟩
  · exact related_itemsOf hR hhead hb hread hall _ [] (List.all_eq_true.mp (by decide : plainSteps.all (stepsTame [])) _ hmem) nofun
  · rw [heq]
    exact related_elementSteps hR hhead htype dotted

end

end

/-! ## Trees -/

/-- A value that refers to nothing and declares nothing where an expression is read. -/
def IsSilent (t : Tree) : Prop := ∀ b, outline .visit b t = []

/-- The fields of a changed node: the same keys, with related values, but for initial values that are
silent before and after. -/
inductive FieldsLike (T : Tree → Tree → Prop) : List (String × Tree) → List (String × Tree) → Prop where
  | nil : FieldsLike T [] []
  | cons {key : String} {v v' : Tree} {fs fs' : List (String × Tree)} :
      T v v' → FieldsLike T fs fs' → FieldsLike T ((key, v) :: fs) ((key, v') :: fs')
  | place {key : String} {v v' : Tree} {fs fs' : List (String × Tree)} :
      isPlaceKey key → FieldsLike T fs fs' → FieldsLike T ((key, v) :: fs) ((key, v') :: fs')
  | init {v v' : Tree} {fs fs' : List (String × Tree)} : IsSilent v → IsSilent v' →
      FieldsLike T fs fs' → FieldsLike T (("init", v) :: fs) (("init", v') :: fs')
  | added {v' : Tree} : IsSilent v' → FieldsLike T [] [("init", v')]

/-- A relation between trees that looks the same from every node. -/
structure IsSimulation (x : Change) (T : Tree → Tree → Prop) : Prop where
  scalar : ∀ {t t'}, T t t' → isScalar t → isScalar t' = true
  list : ∀ {xs t'}, T (.list xs) t' → ∃ xs', t' = .list xs' ∧ List.Forall₂ T xs xs'
  object : ∀ {m fs t'}, T (.obj m fs) t' → ∃ m' fs', t' = .obj m' fs' ∧
    HeadLike x (.obj m fs) (.obj m' fs') ∧ FieldsLike T fs fs'

section

variable {x : Change} {R : List Item → List Item → Prop} {T : Tree → Tree → Prop}

variable (hR : IsCongruence x R) (hT : IsSimulation x T)

include hR hT

set_option linter.unusedSectionVars false

mutual

/-- **The outlines of related trees are related.** -/
theorem related_outline : ∀ (t t' : Tree), T t t' → ∀ role b b', BinderLike x b b' →
      R (outline role b t) (outline role b' t')
  | .obj m fs, t', h, role, b, b', hb => by
    obtain ⟨m', fs', rfl, hhead, hfields⟩ := hT.object h
    exact related_stepsIn hR hhead hb
      (fun role c c' key => related_outlineField fs fs' hfields role key c c')
      (related_outlineFields fs fs' hfields b b' hb) role
  | .list xs, t', h, role, b, b', hb => by
    obtain ⟨xs', rfl, hitems⟩ := hT.list h
    rw [outline, outline]
    split
    · exact related_outlineItems xs xs' hitems _ b b' hb
    · exact hR.nil
  | .null, t', h, role, b, b', _ | .bool _, t', h, role, b, b', _ | .int _, t', h, role, b, b', _
  | .real _, t', h, role, b, b', _ | .str _, t', h, role, b, b', _ => by
    rw [outline_scalar (hT.scalar h rfl), outline_scalar rfl]
    exact hR.nil

theorem related_outlineField :
    ∀ (fs fs' : Fields), FieldsLike T fs fs' → ∀ role key b b',
      isReadable role key → BinderLike x b b' →
      R (outlineField role b key fs) (outlineField role b' key fs')
  | [], fs', h, role, key, b, b', hkey, hb => by
    cases h with
    | nil => exact hR.nil
    | added hv =>
      rw [outlineField, outlineField]
      split
      · rename_i heq
        rw [← heq] at hkey
        have hrole : role = .visit := by simpa [isReadable, isPlaceKey] using hkey
        rw [hrole, hv b']
        exact hR.nil
      · exact hR.nil
  | (k, v) :: fs, _, h, role, key, b, b', hkey, hb => by
    cases h with
    | cons hv hfs =>
      rw [outlineField, outlineField]
      split
      · exact related_outline v _ hv role b b' hb
      · exact related_outlineField fs _ hfs role key b b' hkey hb
    | place hplace hfs =>
      have hne : k ≠ key := fun heq => by simp [isReadable, ← heq, hplace] at hkey
      rw [outlineField, outlineField, if_neg hne, if_neg hne]
      exact related_outlineField fs _ hfs role key b b' hkey hb
    | init hv hv' hfs =>
      rw [outlineField, outlineField]
      split
      · rename_i heq
        rw [← heq] at hkey
        have hrole : role = .visit := by simpa [isReadable, isPlaceKey] using hkey
        rw [hrole, hv b, hv' b']
        exact hR.nil
      · exact related_outlineField fs _ hfs role key b b' hkey hb

theorem related_outlineFields :
    ∀ (fs fs' : Fields), FieldsLike T fs fs' → ∀ b b', BinderLike x b b' →
      R (outlineFields b fs) (outlineFields b' fs')
  | [], fs', h, b, b', hb => by
    cases h with
    | nil => exact hR.nil
    | added hv =>
      simp only [outlineFields, hv b', ite_self, List.append_nil]
      exact hR.nil
  | (k, v) :: fs, _, h, b, b', hb => by
    cases h with
    | cons hv hfs =>
      rw [outlineFields, outlineFields]
      refine hR.append ?_ (related_outlineFields fs _ hfs b b' hb)
      split
      · exact hR.nil
      · exact related_outline v _ hv .visit b b' hb
    | place hplace hfs =>
      rw [isPlaceKey] at hplace
      rw [outlineFields, outlineFields, if_pos hplace, if_pos hplace]
      exact related_outlineFields fs _ hfs b b' hb
    | init hv hv' hfs =>
      rw [outlineFields, outlineFields, hv b, hv' b', ite_self]
      exact related_outlineFields fs _ hfs b b' hb

theorem related_outlineItems :
    ∀ (xs xs' : List Tree), List.Forall₂ T xs xs' → ∀ role b b', BinderLike x b b' →
      R (outlineItems role b xs) (outlineItems role b' xs')
  | [], _, .nil, _, _, _, _ => hR.nil
  | t :: xs, t' :: xs', .cons h hxs, role, b, b', hb =>
    hR.append (related_outline t t' h role b b' hb) (related_outlineItems xs xs' hxs role b b' hb)

end

end

/-- Writing a field of a changed node. -/
theorem fieldsLike_insert {T : Tree → Tree → Prop} {key : String} {v v' : Tree} (hv : T v v')
    (hplace : isPlaceKey key = false) (hinit : key ≠ "init") : ∀ {fs fs' : Fields},
    FieldsLike T fs fs' → lookup key fs = some v → FieldsLike T fs (Tree.insert key v' fs')
  | [], _, _, h => nomatch h
  | (k, w) :: rest, _, hlike, h => by
    rw [lookup] at h
    cases hlike with
    | cons hw hrest =>
      rw [Tree.insert]
      split at h
      · rename_i heq
        cases h
        rw [if_pos heq]
        exact .cons hv hrest
      · rename_i hne
        rw [if_neg hne]
        exact .cons hw (fieldsLike_insert hv hplace hinit hrest h)
    | place hplace' hrest =>
      have hne : k ≠ key := fun heq => by rw [heq, hplace] at hplace'; cases hplace'
      rw [Tree.insert, if_neg hne]
      rw [if_neg hne] at h
      exact .place hplace' (fieldsLike_insert hv hplace hinit hrest h)
    | init hw hw' hrest =>
      rw [Tree.insert, if_neg (Ne.symm hinit)]
      rw [if_neg (Ne.symm hinit)] at h
      exact .init hw hw' (fieldsLike_insert hv hplace hinit hrest h)

/-! ## Changes that keep names -/

/-- A change that gives no new names. -/
def Change.keeping (moves : Option Nat → Prop) : Change := ⟨fun _ name => name, moves⟩

/-- A value looks the same from outside, but for marks that it gets. -/
structure Resembles (t t' : Tree) : Prop where
  face : faceOf t' = faceOf t
  text : t'.str? = t.str?
  mark : KeepsMark t t'
  name : t'.name? = t.name?

theorem Resembles.refl (t : Tree) : Resembles t t := ⟨rfl, rfl, fun _ h => h, rfl⟩

theorem isStr_iff {t : Tree} {s : String} : t.isStr s ↔ t.str? = some s := by
  cases t <;> simp [isStr, str?]

theorem Resembles.isStr {t t' : Tree} (h : Resembles t t') (s : String) : t'.isStr s = t.isStr s := by
  rw [Bool.eq_iff_iff, isStr_iff, isStr_iff, h.text]

/-- The fields that show how a node is taken, besides the watched ones. -/
def shownKeys : List String := ["type", "name", "callee"] ++ watchedKeys

/-- A node whose fields look the same, and that declares alike, takes the same steps. -/
theorem headLike_of_resembles {moves : Option Nat → Prop} {t t' : Tree} (hmark : KeepsMark t t')
    (hget : ∀ key ∈ shownKeys, Resembles (t.get key) (t'.get key))
    (hkeyword : ∀ b b', BinderLike (.keeping moves) (Manner.keyword.binder t b)
      (Manner.keyword.binder t' b')) :
    HeadLike (.keeping moves) t t' := by
  have hname : t'.name? = t.name? := (hget "name" (by decide)).text
  have hcallee := hget "callee" (by decide)
  exact
    { self := ⟨hmark, (hget "type" (by decide)).text, hname⟩
      faces := fun key hkey => (hget key (List.mem_append_right _ hkey)).face
      parts := fun key hkey _ =>
        have hpart := hget key (List.mem_append_right _ hkey)
        ⟨hpart.mark, congrArg Face.type hpart.face, hpart.name⟩
      keyword := hkeyword
      eval := by
        have htype : (t'.get "callee").type? = (t.get "callee").type? := congrArg Face.type hcallee.face
        have hcalled : (t'.get "callee").name? = (t.get "callee").name? := hcallee.name
        simp only [Condition.holds, Bool.and_eq_true, isType_iff, isStr_iff, htype]
        rw [name?, name?] at hcalled
        rw [hcalled]
        exact id
      element := by
        intro dotted
        rw [Condition.holds, Condition.holds, hname]
        exact id }

/-- A node whose keyword stays declares as before. -/
theorem binderLike_keyword {x : Change} {t t' : Tree} (hmark : KeepsMark t t')
    (hkind : ∀ s, (t'.get "kind").isStr s = (t.get "kind").isStr s) (b b' : Binder) :
    BinderLike x (Manner.keyword.binder t b) (Manner.keyword.binder t' b') := by
  simp only [Manner.binder, hkind]
  split
  · exact ⟨hmark, .inl ⟨rfl, rfl⟩⟩
  · split <;> exact ⟨hmark, .inl ⟨rfl, rfl⟩⟩

/-- A change of other fields does not matter. -/
theorem HeadLike.congr {x : Change} {t t' t'' : Tree} (h : HeadLike x t t')
    (hmark : t''.mark? = t'.mark?)
    (hget : ∀ key ∈ "kind" :: shownKeys, t''.get key = t'.get key) : HeadLike x t t'' := by
  have hwatched : ∀ key ∈ watchedKeys, t''.get key = t'.get key := fun key hkey =>
    hget key (List.mem_cons_of_mem _ (List.mem_append_right _ hkey))
  have hname : t''.name? = t'.name? := congrArg str? (hget "name" (by decide))
  have hkeeps : ∀ u, KeepsMark u t' → KeepsMark u t'' := fun u hu m hm => hmark.trans (hu m hm)
  have htype : t''.type? = t.type? := (congrArg str? (hget "type" (by decide))).trans h.self.type
  exact
    { self := ⟨hkeeps t h.self.mark, htype, hname.trans h.self.name⟩
      faces := fun key hkey => by rw [hwatched key hkey, h.faces key hkey]
      parts := fun key hkey hobj => by
        rw [hwatched key hkey]
        exact h.parts key hkey hobj
      keyword := fun b b' => by
        have hkind := hget "kind" (by decide)
        have hold := h.keyword b b'
        have hnew : (Manner.keyword.binder t'' b').kind = (Manner.keyword.binder t' b').kind ∧
            (Manner.keyword.binder t'' b').hoisted = (Manner.keyword.binder t' b').hoisted := by
          simp only [Manner.binder, hkind]
          split
          · exact ⟨rfl, rfl⟩
          · split <;> exact ⟨rfl, rfl⟩
        have hdeclaration : ∀ u c, (Manner.keyword.binder u c).declaration = u := by
          intro u c
          rw [Manner.binder]
          split
          · rfl
          · split <;> rfl
        have holdmark := hold.mark
        rw [hdeclaration, hdeclaration] at holdmark
        refine ⟨by rw [hdeclaration, hdeclaration]; exact hkeeps t holdmark, ?_⟩
        rw [hnew.1, hnew.2]
        exact hold.kind
      eval := by
        rw [Condition.holds, hget "callee" (by decide)]
        exact h.eval
      element := fun dotted => by
        rw [Condition.holds, hname]
        exact h.element dotted }

end Downlevel.Scope
