import Downlevel.Proofs.Grammar.Children
import Mathlib.Algebra.BigOperators.Group.List.Basic
import Mathlib.Data.ENat.Basic

/-!
# `Proofs.Settled.Tally`: what a lowering leaves alone

A lowering changes what it can, and reports what it leaves alone. A **survey** says what it does with a
single node: it leaves it alone without a word, it leaves it alone and reports it, or it changes it. The
**tally** of a tree adds this up over the nodes that a visit reaches: the number of reports, or infinity if
there is something to change.

Two laws of a lowering then say all that matters here. What it leaves has a tally, the number of its
reports; and it does not touch a tree with a finite tally. So a second run changes nothing, and reports as
much as the first.
-/

namespace Downlevel.Lower

open Tree Node Grammar

/-! ## Surveys -/

/-- What a lowering does with a node in a context: the number of diagnostics if it is left alone, `⊤` if it
is changed; and the contexts in which its fields are visited. It looks only at nodes of some types. -/
structure Survey (C : Type) where
  types : List String
  worth : C → Tree → ℕ∞
  context : C → Tree → String → Option C
  worth_other : ∀ c t, t.isTypeIn types = false → worth c t = 0
  context_other : ∀ c t, t.isTypeIn types = false → context c t = fun _ => some c

namespace Survey

variable {C : Type} (S : Survey C) {k type : String} {v : Tree} {fs : Fields} {w w' : Work}
  {o : Outcome} {handle : Handler C Work}

mutual

/-- The number of diagnostics about a tree, `⊤` if something in it is changed. -/
noncomputable def tally (c : C) : Tree → ℕ∞
  | .obj m fs => S.worth c (.obj m fs) + tallyFields (S.context c (.obj m fs)) fs
  | .list xs => tallyItems c xs
  | _ => 0

noncomputable def tallyFields (contexts : String → Option C) : Fields → ℕ∞
  | [] => 0
  | (k, v) :: rest =>
    (match contexts k with
      | some c => if isSyntaxKey k then tally c v else 0
      | none => 0) + tallyFields contexts rest

noncomputable def tallyItems (c : C) : List Tree → ℕ∞
  | [] => 0
  | t :: rest => tally c t + tallyItems c rest

end

/-- The tally of the value of one field. -/
noncomputable def entry (contexts : String → Option C) (k : String) (v : Tree) : ℕ∞ :=
  match contexts k with
  | some c => if isSyntaxKey k then S.tally c v else 0
  | none => 0

variable {S} {contexts : String → Option C} {c : C} {t : Tree} {labels : Labelling}

theorem tally_obj (m : Option Nat) (fs : Fields) :
    S.tally c (.obj m fs) =
      S.worth c (.obj m fs) + S.tallyFields (S.context c (.obj m fs)) fs := by rw [tally]

@[simp] theorem tally_list (xs : List Tree) : S.tally c (.list xs) = S.tallyItems c xs := by
  rw [tally]

theorem tally_of_isScalar (h : t.isScalar) : S.tally c t = 0 := by
  cases t with
  | obj m fs => cases h
  | list xs => cases h
  | _ => simp [tally]

@[simp] theorem tally_str (text : String) : S.tally c (.str text) = 0 := tally_of_isScalar rfl

@[simp] theorem tally_bool (b : Bool) : S.tally c (.bool b) = 0 := tally_of_isScalar rfl

@[simp] theorem tally_null : S.tally c .null = 0 := tally_of_isScalar rfl

@[simp] theorem tallyFields_nil : S.tallyFields contexts [] = 0 := by rw [tallyFields]

@[simp] theorem tallyFields_cons (k : String) (v : Tree) (rest : Fields) :
    S.tallyFields contexts ((k, v) :: rest) = S.entry contexts k v + S.tallyFields contexts rest := by
  rw [tallyFields, entry]

@[simp] theorem tallyFields_append (fs gs : Fields) :
    S.tallyFields contexts (fs ++ gs) = S.tallyFields contexts fs + S.tallyFields contexts gs := by
  induction fs with
  | nil => simp
  | cons f fs ih => rw [List.cons_append, tallyFields_cons, tallyFields_cons, ih, add_assoc]

@[simp] theorem tallyItems_nil : S.tallyItems c [] = 0 := by rw [tallyItems]

@[simp] theorem tallyItems_cons (t : Tree) (rest : List Tree) :
    S.tallyItems c (t :: rest) = S.tally c t + S.tallyItems c rest := by
  rw [tallyItems]

@[simp] theorem tallyItems_append (xs ys : List Tree) :
    S.tallyItems c (xs ++ ys) = S.tallyItems c xs + S.tallyItems c ys := by
  induction xs with
  | nil => simp
  | cons x xs ih => rw [List.cons_append, tallyItems_cons, tallyItems_cons, ih, add_assoc]

theorem tallyItems_insert (xs ys : List Tree) (n : Nat) :
    S.tallyItems c (xs.take n ++ ys ++ xs.drop n) = S.tallyItems c xs + S.tallyItems c ys := by
  have hsplit := tallyItems_append (S := S) (c := c) (xs.take n) (xs.drop n)
  rw [List.take_append_drop] at hsplit
  rw [tallyItems_append, tallyItems_append, hsplit, add_right_comm]

theorem entry_of_skipped (h : isSyntaxKey k = false) : S.entry contexts k v = 0 := by
  unfold entry
  split
  · simp [h]
  · rfl

theorem entry_of_tally (h : ∀ c, S.tally c v = 0) : S.entry contexts k v = 0 := by
  unfold entry
  split
  · simp [h]
  · rfl

theorem entry_of_context (hc : contexts k = some c) (hk : isSyntaxKey k) :
    S.entry contexts k v = S.tally c v := by
  simp [entry, hc, hk]

/-! ## Nodes that lowerings build -/

theorem tally_other (m : Option Nat) (fs : Fields)
    (h : (Tree.obj m fs).isTypeIn S.types = false) :
    S.tally c (.obj m fs) = S.tallyFields (fun _ => some c) fs := by
  rw [tally_obj, S.worth_other c _ h, S.context_other c _ h, zero_add]

/-- Writing a field that is not visited. -/
theorem tally_set_skipped {key : String} (hkey : isSyntaxKey key = false)
    (h : t.isTypeIn S.types = false) (v : Tree) (h' : (t.set key v).isTypeIn S.types = false) :
    S.tally c (t.set key v) = S.tally c t := by
  have hfields : ∀ fs : Fields, S.tallyFields (fun _ => some c) (Tree.insert key v fs) =
      S.tallyFields (fun _ => some c) fs := by
    intro fs
    induction fs with
    | nil => simp [Tree.insert, entry_of_skipped hkey]
    | cons f rest ih =>
      obtain ⟨k, w⟩ := f
      rw [Tree.insert]
      split
      · rename_i heq
        subst heq
        simp [entry_of_skipped hkey]
      · simp [ih]
  cases t with
  | obj m fs =>
    rw [tally_other m fs h, ← hfields fs]
    exact tally_other m _ h'
  | _ => rfl

/-- Where a node stands in the text does not matter. -/
theorem tally_located (h : t.isTypeIn S.types = false) (place : Tree) :
    S.tally c (located t place) = S.tally c t := by
  refine (located_of (P := fun u => S.tally c u = S.tally c t ∧ u.isTypeIn S.types = false) ⟨rfl, h⟩ ?_ place).1
  rintro u key v hkey ⟨htally, hu⟩
  have hu' := (isTypeIn_congr (type?_set (not_mem_traitKeys hkey) v) S.types).trans hu
  exact ⟨(tally_set_skipped (isSyntaxKey_of_isPlaceKey hkey) hu v hu').trans htally, hu'⟩

theorem type?_make (type : String) (fs : Fields) : (make type fs).type? = some type := rfl

theorem tally_make (h : type ∉ S.types) (fs : Fields) :
    S.tally c (make type fs) = S.tallyFields (fun _ => some c) fs := by
  show S.tally c (.obj none (("type", .str type) :: fs)) = _
  rw [tally_other _ _ (isTypeIn_false (type?_make type fs) h), tallyFields_cons,
    entry_of_skipped (by decide), zero_add]

theorem tally_located_make (h : type ∉ S.types) (fs : Fields) (place : Tree) :
    S.tally c (located (make type fs) place) = S.tallyFields (fun _ => some c) fs := by
  rw [tally_located (isTypeIn_false (type?_make type fs) h), tally_make h]

theorem entry_some (hk : isSyntaxKey k) (v : Tree) :
    S.entry (fun _ => some c) k v = S.tally c v := entry_of_context rfl hk

/-- Several statements in the place of one. -/
theorem tally_block (h : "BlockStatement" ∉ S.types) (ts : List Tree) (place : Tree) :
    S.tally c (block ts place) = S.tallyItems c ts := by
  rw [block, tally_located_make h, tallyFields_cons, entry_some rfl, tally_list, tallyFields_nil, add_zero]

/-- The types of the nodes that lowerings build, functions apart. -/
def builtTypes : List String :=
  ["Identifier", "Literal", "UnaryExpression", "ThisExpression", "MemberExpression",
   "CallExpression", "AssignmentExpression", "BinaryExpression", "ObjectExpression", "Property",
   "ExpressionStatement", "BlockStatement", "ReturnStatement", "IfStatement",
   "VariableDeclarator", "VariableDeclaration"]

/-- A survey that looks at no node which a lowering builds. -/
class SparesBuilt (S : Survey C) : Prop where
  not_mem : ∀ type ∈ builtTypes, type ∉ S.types

section

variable [S.SparesBuilt]

theorem spares (h : type ∈ builtTypes) : type ∉ S.types := SparesBuilt.not_mem type h

attribute [local simp] entry_some isSyntaxKey skippedKeys Node.optional spares tally_make
  tally_located_make

@[simp] theorem tally_identifier (name : String) (place : Tree) : S.tally c (identifier name place) = 0 := by
  simp +decide [identifier]

theorem tally_literal (value : Tree) (h : value.isScalar) (place : Tree) :
    S.tally c (literal value place) = 0 := by
  simp +decide [literal, tally_of_isScalar h]

@[simp] theorem tally_voidZero : S.tally c voidZero = 0 := by
  simp +decide [voidZero, unary, tally_literal (.int 0) rfl]

@[simp] theorem tally_assign (left right place : Tree) :
    S.tally c (assign left right place) = S.tally c left + S.tally c right := by
  simp +decide [assign]

@[simp] theorem tally_binary (operator : String) (left right place : Tree) :
    S.tally c (binary operator left right place) = S.tally c left + S.tally c right := by
  simp +decide [binary]

@[simp] theorem tally_expressionStatement (expression place : Tree) :
    S.tally c (expressionStatement expression place) = S.tally c expression := by
  simp +decide [expressionStatement]

@[simp] theorem tally_returnStatement (argument place : Tree) :
    S.tally c (returnStatement (some argument) place) = S.tally c argument := by
  simp +decide [returnStatement]

@[simp] theorem tally_thisExpression (place : Tree) : S.tally c (thisExpression place) = 0 := by
  simp +decide [thisExpression]

@[simp] theorem tally_member (object property : Tree) (computed : Bool) :
    S.tally c (member object property computed) = S.tally c object + S.tally c property := by
  simp +decide [member]

@[simp] theorem tally_path (root : Tree) (names : List String) : S.tally c (path root names) = S.tally c root := by
  unfold path
  induction names generalizing root with
  | nil => rfl
  | cons name names ih =>
    rw [List.foldl_cons, ih, dot, tally_member, tally_identifier, add_zero]

@[simp] theorem tally_call (callee : Tree) (arguments : List Tree) (place : Tree) :
    S.tally c (call callee arguments place) = S.tally c callee + S.tallyItems c arguments := by
  simp +decide [call]

@[simp] theorem tally_objectExpression (properties : List Tree) :
    S.tally c (objectExpression properties) = S.tallyItems c properties := by
  simp +decide [objectExpression]

@[simp] theorem tally_property (key value place : Tree) :
    S.tally c (property key value place) = S.tally c key + S.tally c value := by
  simp +decide [property]

/-- A declaration of one variable. -/
@[simp] theorem tally_declaration (kind name : String) (value idPlace place : Tree) :
    S.tally c (declaration kind [declarator (identifier name idPlace) (some value)] place) =
      S.tally c value := by
  simp +decide [declaration, declarator]

theorem tally_functionExpression (h : "FunctionExpression" ∉ S.types) (params : List Tree) (body : Tree)
    (form : FunctionForm) (place : Tree) : S.tally c (functionExpression params body form place) =
      S.tallyItems c params + S.tally c body := by
  cases hname : form.name <;> simp [functionExpression, h, hname]

theorem tally_functionDeclaration (h : "FunctionExpression" ∉ S.types)
    (h' : "FunctionDeclaration" ∉ S.types) (name : String) (params : List Tree) (body place : Tree) :
    S.tally c (functionDeclaration name params body place) = S.tallyItems c params + S.tally c body := by
  have htype : (functionExpression params body ⟨some name, false, false⟩ place).type? =
      some "FunctionExpression" := by
    rw [functionExpression, type?, get_located (by decide) (by decide)]
    rfl
  rw [functionDeclaration, tally_set_skipped (by decide) (isTypeIn_false htype h), tally_functionExpression h]
  obtain ⟨m, fs, hobj⟩ := isObject_of_type? htype
  rw [hobj]
  exact isTypeIn_false (congrArg str? (get_set_self rfl _ _)) h'

@[simp] theorem tally_ifStatement (test consequent : Tree) :
    S.tally c (ifStatement test consequent) = S.tally c test + S.tally c consequent := by
  simp +decide [ifStatement]

end

/-! ## Fields one by one -/

theorem tallyFields_eq_zero (h : ∀ f ∈ fs, S.entry contexts f.1 f.2 = 0) : S.tallyFields contexts fs = 0 := by
  induction fs with
  | nil => simp
  | cons f rest ih =>
    rw [List.forall_mem_cons] at h
    rw [tallyFields_cons, h.1, ih h.2, add_zero]

/-- One field, and the others. -/
theorem tallyFields_split (hdistinct : (fs.map (·.1)).Nodup) (key : String) : S.tallyFields contexts fs =
      S.entry contexts key ((lookup key fs).getD .null) +
        S.tallyFields contexts (fs.filter (·.1 ≠ key)) := by
  induction fs with
  | nil =>
    have hnull : S.entry contexts key .null = 0 := entry_of_tally fun _ => tally_null
    simp [hnull, lookup]
  | cons f rest ih =>
    obtain ⟨k, v⟩ := f
    rw [List.map_cons, List.nodup_cons] at hdistinct
    by_cases hk : k = key
    · subst hk
      -- The key stands nowhere else, so nothing else is left out.
      have hrest : rest.filter (·.1 ≠ k) = rest := by
        refine List.filter_eq_self.mpr fun f hf => ?_
        have hne : f.1 ≠ k := fun h => hdistinct.1 (List.mem_map.mpr ⟨f, hf, h⟩)
        simpa using hne
      rw [tallyFields_cons, lookup, if_pos rfl, List.filter_cons, if_neg (by simp), hrest]
      rfl
    · rw [tallyFields_cons, ih hdistinct.2, lookup, if_neg hk, List.filter_cons,
        if_pos (by simpa using hk), tallyFields_cons, add_left_comm]

/-- The fields with some keys, if nothing else counts. -/
theorem tallyFields_eq_sum (hdistinct : (fs.map (·.1)).Nodup) {keys : List String} (hkeys : keys.Nodup)
    (h : ∀ f ∈ fs, f.1 ∉ keys → S.entry contexts f.1 f.2 = 0) :
    S.tallyFields contexts fs =
      (keys.map fun key => S.entry contexts key ((lookup key fs).getD .null)).sum := by
  induction keys generalizing fs with
  | nil => exact tallyFields_eq_zero fun f hf => h f hf List.not_mem_nil
  | cons key keys ih =>
    rw [List.nodup_cons] at hkeys
    have hfilter : ((fs.filter (·.1 ≠ key)).map (·.1)).Nodup :=
      hdistinct.sublist (List.filter_sublist.map _)
    rw [tallyFields_split hdistinct key, List.map_cons, List.sum_cons, ih hfilter hkeys.2]
    · congr 2
      refine List.map_congr_left fun other hother => ?_
      have hne : other ≠ key := fun heq => hkeys.1 (heq ▸ hother)
      have hlookup : lookup other (fs.filter (·.1 ≠ key)) = lookup other fs :=
        get?_erase_of_ne hne (.obj none fs)
      rw [hlookup]
    · intro f hf hnot
      rw [List.mem_filter] at hf
      exact h f hf.1 (by simp [hnot, of_decide_eq_true hf.2])

/-! ## Derived nodes -/

section

variable {s : Symbol}

/-- Records of scalars count nothing. -/
theorem tally_of_isInert (h : isInert labels t) : S.tally c t = 0 := by
  cases t with
  | obj m fs =>
    rw [isInert, Bool.and_eq_true, List.all_eq_true] at h
    have htype : (Tree.obj m fs).isTypeIn S.types = false := by
      -- No record of scalars has a type.
      have hnone : lookup "type" fs = none := by
        cases hl : lookup "type" fs with
        | none => rfl
        | some v => simpa using h.2 _ (mem_of_lookup_eq_some hl)
      have hnull : (Tree.obj m fs).get "type" = .null := by
        rw [Tree.get, get?, fields, hnone]
        rfl
      rw [isTypeIn, List.any_eq_false]
      intro type _
      rw [isType, hnull]
      exact Bool.false_ne_true
    rw [tally_other m fs htype]
    refine tallyFields_eq_zero fun f hf => entry_of_tally fun c => tally_of_isScalar ?_
    have hscalar := h.2 f hf
    rw [Bool.and_eq_true] at hscalar
    exact hscalar.2
  | list xs => cases h
  | _ => exact tally_of_isScalar rfl

theorem nodup_rulesOf (t : Tree) : ((rulesOf t).map (·.1)).Nodup := by
  unfold rulesOf rulesFor
  cases t.type? with
  | none => exact List.nodup_nil
  | some type =>
    show (((rules.lookup type).getD []).map (·.1)).Nodup
    cases hrs : rules.lookup type with
    | none => exact List.nodup_nil
    | some rs => exact nodup_keys _ (mem_of_lookup hrs)

/-- **The tally of the fields of a node** is made up of the tallies of its parts. -/
theorem tallyFields_of_derives (h : Derives labels s t) :
    S.tallyFields contexts t.fields =
      (((rulesOf t).map (·.1)).map fun key => S.entry contexts key (t.get key)).sum := by
  have hrest : ∀ f ∈ t.fields, f.1 ∉ (rulesOf t).map (·.1) → S.entry contexts f.1 f.2 = 0 := by
    intro f hf hnot
    have hlookup : (rulesOf t).lookup f.1 = none := by
      rw [List.lookup_eq_none_iff]
      intro rule hrule
      have hne : f.1 ≠ rule.1 := fun heq => hnot (heq ▸ List.mem_map_of_mem hrule)
      simpa using hne
    rcases h.rest f hf hlookup with hplace | hinert
    · exact entry_of_skipped (isSyntaxKey_of_isPlaceKey hplace)
    · exact entry_of_tally fun _ => tally_of_isInert hinert
  exact tallyFields_eq_sum h.distinct (nodup_rulesOf _) hrest

/-- The same for the keys that the rules name. -/
theorem tallyFields_of_keys {keys : List String} (h : Derives labels s t) (htype : t.type? = some type)
    (hkeys : (rulesFor type).map (·.1) = keys) :
    S.tallyFields contexts t.fields = (keys.map fun key => S.entry contexts key (t.get key)).sum := by
  rw [tallyFields_of_derives h, rulesOf_of_type? htype, hkeys]

theorem tally_of_isObject (h : t.isObject) :
    S.tally c t = S.worth c t + S.tallyFields (S.context c t) t.fields := by
  cases t with
  | obj m fs => exact tally_obj m fs
  | _ => cases h

/-- The tally of a node that is none of those looked at. -/
theorem tally_of_type {rs : List (String × Slot)} (h : Derives labels s t) (htype : t.type? = some type)
    (hrules : (type, rs) ∈ rules) (hother : type ∉ S.types) :
    S.tally c t = ((rs.map (·.1)).map fun key => S.tally c (t.get key)).sum := by
  have hnot := isTypeIn_false htype hother
  rw [tally_of_isObject h.isObject, S.worth_other c t hnot, S.context_other c t hnot, zero_add,
    tallyFields_of_derives h, rulesOf_of_type? htype, rulesFor_of_mem hrules]
  have hreached : ∀ rule ∈ rules, ∀ key ∈ rule.2.map (·.1), isSyntaxKey key := by decide
  congr 1
  exact List.map_congr_left fun key hkey => entry_some (hreached _ hrules key hkey) _

/-- Writing a field that no rule mentions. -/
theorem tallyFields_set_other {key : String} (h : Derives labels s t) (h' : Derives labels s (t.set key v))
    (hkey : (rulesOf t).lookup key = none) (htype : key ≠ "type") :
    S.tallyFields contexts (t.set key v).fields = S.tallyFields contexts t.fields := by
  have hrules : rulesOf (t.set key v) = rulesOf t := by
    rw [rulesOf, rulesOf, type?, type?, get_set_of_ne htype.symm]
  rw [tallyFields_of_derives h, tallyFields_of_derives h', hrules]
  congr 1
  refine List.map_congr_left fun other hother => ?_
  have hne : other ≠ key := by
    rintro rfl
    obtain ⟨rule, hrule, rfl⟩ := List.mem_map.mp hother
    rw [List.lookup_eq_none_iff] at hkey
    simpa using hkey rule hrule
  rw [get_set_of_ne hne]

/-- Values in slots that are not visited count nothing. -/
theorem tally_of_fits {slot : Slot} (h : fits labels slot t) (hvisited : isVisited t = false) :
    S.tally c t = 0 := by
  cases t with
  | obj m fs =>
    rcases fits_object_cases h with ⟨x, -, hd⟩ | ⟨-, hinert⟩
    · rw [isVisited, hd.isNode] at hvisited
      cases hvisited
    · exact tally_of_isInert hinert
  | list xs => cases hvisited
  | _ => exact tally_of_isScalar rfl

/-- A node without parts counts nothing. -/
theorem tally_of_leaf {rs : List (String × Slot)} (h : Derives labels s t) (htype : t.type? = some type)
    (hrules : (type, rs) ∈ rules) (hother : type ∉ S.types) (hleaf : ∀ rule ∈ rs, rule.2.contents = []) :
    S.tally c t = 0 := by
  rw [tally_of_type h htype hrules hother, List.map_map]
  refine List.sum_eq_zero fun n hn => ?_
  obtain ⟨rule, hrule, rfl⟩ := List.mem_map.mp hn
  have hfits := h.part htype (rule_of_mem hrules hrule)
  refine tally_of_fits hfits ?_
  cases hvisited : isVisited (t.get rule.1) with
  | false => rfl
  | true =>
    obtain ⟨x, hx⟩ := Option.isSome_iff_exists.mp (isNode_of_isVisited hfits hvisited).1
    have hmem := mem_contents_of_resolve hx
    rw [hleaf rule hrule] at hmem
    cases hmem

end

/-! ## Values under visit -/

section

variable (S) (good : C → Tree → Prop)

/-- A node is good for a visit, and anything else counts nothing. -/
def IsSound (c : C) (t : Tree) : Prop := (t.isNode = true → good c t) ∧ (t.isNode = false → S.tally c t = 0)

/-- All that is visited in a value is good for it, and nothing else counts. -/
def IsFit (c : C) : Tree → Prop
  | .list xs => ∀ t ∈ xs, S.IsSound good c t
  | t => S.IsSound good c t

variable {S good}

theorem isFit_of_not_visited (h : isVisited t = false) (htally : S.tally c t = 0) : S.IsFit good c t := by
  rw [isVisited, Bool.or_eq_false_iff] at h
  have hsound : S.IsSound good c t := by
    refine ⟨fun hnode => ?_, fun _ => htally⟩
    rw [h.1] at hnode
    cases hnode
  cases t with
  | list xs => cases h.2
  | _ => exact hsound

theorem isSound_of_derives {x : Symbol} (h : Derives labels x t) (hgood : good c t) : S.IsSound good c t :=
  ⟨fun _ => hgood, fun hnot => absurd h.isNode (by simp [hnot])⟩

/-- A value in a slot. -/
theorem isFit_of_fits {slot : Slot} (hfits : fits labels slot v)
    (hgood : ∀ x y, slot.content? = some x → (y = v ∨ y ∈ v.items) → Derives labels x y → good c y) :
    S.IsFit good c v := by
  cases hvisited : isVisited v with
  | false => exact isFit_of_not_visited hvisited (tally_of_fits hfits hvisited)
  | true =>
    obtain ⟨x, hx⟩ := Option.isSome_iff_exists.mp (isNode_of_isVisited hfits hvisited).1
    have hnode : ∀ {y}, (y = v ∨ y ∈ v.items) → Derives labels x y → S.IsSound good c y :=
      fun hy hd => isSound_of_derives hd (hgood _ _ hx hy hd)
    rcases fits_content_cases hx hfits with rfl | hd | ⟨xs, rfl, hxs⟩
    · cases hvisited
    · have hsound := hnode (.inl rfl) hd
      cases v with
      | obj m fs => exact hsound
      | _ => cases hd.isObject
    · intro y hy
      rcases hxs y hy with rfl | hd
      · exact ⟨nofun, fun _ => tally_null⟩
      · exact hnode (.inr hy) hd

/-- The value of a field of a derived node. -/
theorem isFit_of_derives {s : Symbol} (ht : Derives labels s t) (hf : (k, v) ∈ t.fields)
    (hk : isSyntaxKey k) (hgood : ∀ slot x y, slot? s t k = some slot → slot.content? = some x →
      (y = v ∨ y ∈ v.items) → Derives labels x y → good c y) : S.IsFit good c v := by
  have hfits := ht.fields _ hf
  cases hslot : slot? s t k with
  | none =>
    rw [hslot] at hfits
    have hplace := isPlaceKey_of_isSyntaxKey hk
    have hinert := hfits.resolve_left (by simp [hplace])
    exact isFit_of_not_visited (isVisited_of_isPlain hplace (by simp) hfits) (tally_of_isInert hinert)
  | some slot =>
    rw [hslot] at hfits
    exact isFit_of_fits hfits fun x y => hgood slot x y hslot

end

/-! ## The two laws -/

section

variable (S) (good : C → Tree → Prop)

/-- A visit reports what it leaves alone, and leaves nothing that could be changed. -/
def Counted : Law C Work := fun c t w o w' =>
  good c t → (w'.diagnostics.length : ℕ∞) = w.diagnostics.length + S.tallyItems c o.inList

/-- A visit does not touch a node in which nothing is to be changed, and reports what is left alone. -/
def Unchanged : Law C Work := fun c t w o w' =>
  good c t → S.tally c t ≠ ⊤ →
    o = .keep t ∧ (w'.diagnostics.length : ℕ∞) = w.diagnostics.length + S.tally c t

variable {S good}

theorem counted_items {xs ys : List Tree} (h : ItemsFollow (S.Counted good) c xs w ys w')
    (hxs : ∀ t ∈ xs, S.IsSound good c t) :
    (w'.diagnostics.length : ℕ∞) = w.diagnostics.length + S.tallyItems c ys := by
  induction h with
  | nil w => simp
  | pass ht h ih =>
    rw [List.forall_mem_cons] at hxs
    rw [ih hxs.2, tallyItems_cons, hxs.1.2 ht, zero_add]
  | visit ht ho h ih =>
    rw [List.forall_mem_cons] at hxs
    rw [ih hxs.2, ho (hxs.1.1 ht), tallyItems_append, add_assoc]

/-- The tally of what a visit leaves in a field. -/
theorem tallyFields_inField (hblock : "BlockStatement" ∉ S.types) (hc : contexts k = some c)
    (hk : isSyntaxKey k) : S.tallyFields contexts (o.inField k v) = S.tallyItems c o.inList := by
  cases o with
  | remove => rw [Outcome.inField, Outcome.inList, tallyFields_nil, tallyItems_nil]
  | keep t => simp [Outcome.inField, Outcome.inList, entry_of_context hc hk]
  | splice ts =>
    simp [Outcome.inField, Outcome.inList, entry_of_context hc hk, tally_block hblock]

theorem not_isVisited_of_isScalar (h : v.isScalar) : ¬ isVisited v := by
  cases v with
  | obj m fs => cases h
  | list xs => cases h
  | _ => exact Bool.false_ne_true

theorem counted_value (h : ValueFollows (S.Counted good) c v w o w') (hv : S.IsFit good c v)
    (hvisited : isVisited v) :
    (w'.diagnostics.length : ℕ∞) = w.diagnostics.length + S.tallyItems c o.inList := by
  cases h with
  | scalar hscalar => exact absurd hvisited (not_isVisited_of_isScalar hscalar)
  | object h =>
    refine h (hv.1 ?_)
    simpa [isVisited, isList] using hvisited
  | list h =>
    rw [counted_items h hv]
    simp [Outcome.inList]

/-- A field that is not visited counts nothing. -/
theorem entry_of_not_visited (hk : ∀ c, contexts k = some c → (isSyntaxKey k && isVisited v) = false)
    (hfit : ∀ c, contexts k = some c → isSyntaxKey k → S.IsFit good c v) :
    S.entry contexts k v = 0 := by
  cases hreached : isSyntaxKey k with
  | false => exact entry_of_skipped hreached
  | true =>
    cases hc : contexts k with
    | none => simp [entry, hc]
    | some c =>
      have hnot := hk c hc
      rw [hreached, Bool.true_and, isVisited, Bool.or_eq_false_iff] at hnot
      have hv := hfit c hc hreached
      rw [entry_of_context hc hreached]
      cases v with
      | list xs => cases hnot.2
      | _ => exact hv.2 hnot.1

/-- **Visiting the fields of a node** reports what is left alone in them. -/
theorem counted_fields (hblock : "BlockStatement" ∉ S.types) {gs : Fields}
    (h : FieldsFollow (S.Counted good) contexts fs w gs w')
    (hfs : ∀ f ∈ fs, ∀ c, contexts f.1 = some c → isSyntaxKey f.1 → S.IsFit good c f.2) :
    (w'.diagnostics.length : ℕ∞) = w.diagnostics.length + S.tallyFields contexts gs := by
  induction h with
  | nil w => simp
  | @pass k v rest gs w w' hk h ih =>
    rw [List.forall_mem_cons] at hfs
    have hentry := entry_of_not_visited hk hfs.1
    rw [ih hfs.2, tallyFields_cons, hentry, zero_add]
  | visit hc hk ho h ih =>
    rw [List.forall_mem_cons] at hfs
    rw [Bool.and_eq_true] at hk
    rw [ih hfs.2, counted_value ho (hfs.1 _ hc hk.1) hk.2, tallyFields_append,
      tallyFields_inField hblock hc hk.1, add_assoc]

theorem unchanged_items {xs ys : List Tree} (h : ItemsFollow (S.Unchanged good) c xs w ys w')
    (hxs : ∀ t ∈ xs, S.IsSound good c t) (hfinite : S.tallyItems c xs ≠ ⊤) :
    ys = xs ∧ (w'.diagnostics.length : ℕ∞) = w.diagnostics.length + S.tallyItems c xs := by
  induction h with
  | nil w => simp
  | pass ht h ih =>
    rw [List.forall_mem_cons] at hxs
    rw [tallyItems_cons, hxs.1.2 ht, zero_add] at hfinite ⊢
    obtain ⟨rfl, hcount⟩ := ih hxs.2 hfinite
    exact ⟨rfl, hcount⟩
  | visit ht ho h ih =>
    rw [List.forall_mem_cons] at hxs
    rw [tallyItems_cons] at hfinite ⊢
    rw [Ne, ENat.add_eq_top, not_or] at hfinite
    obtain ⟨rfl, hfirst⟩ := ho (hxs.1.1 ht) hfinite.1
    obtain ⟨rfl, hcount⟩ := ih hxs.2 hfinite.2
    exact ⟨rfl, by rw [hcount, hfirst, add_assoc]⟩

theorem unchanged_value (h : ValueFollows (S.Unchanged good) c v w o w') (hv : S.IsFit good c v)
    (hvisited : isVisited v) (hfinite : S.tally c v ≠ ⊤) :
    o = .keep v ∧ (w'.diagnostics.length : ℕ∞) = w.diagnostics.length + S.tally c v := by
  cases h with
  | scalar hscalar => exact absurd hvisited (not_isVisited_of_isScalar hscalar)
  | object h =>
    refine h (hv.1 ?_) hfinite
    simpa [isVisited, isList] using hvisited
  | list h =>
    rw [tally_list] at hfinite ⊢
    obtain ⟨rfl, hcount⟩ := unchanged_items h hv hfinite
    exact ⟨rfl, hcount⟩

/-- **Visiting the fields of a node** in which nothing is to be changed leaves them as they are. -/
theorem unchanged_fields {gs : Fields} (h : FieldsFollow (S.Unchanged good) contexts fs w gs w')
    (hfs : ∀ f ∈ fs, ∀ c, contexts f.1 = some c → isSyntaxKey f.1 → S.IsFit good c f.2)
    (hfinite : S.tallyFields contexts fs ≠ ⊤) :
    gs = fs ∧ (w'.diagnostics.length : ℕ∞) = w.diagnostics.length + S.tallyFields contexts fs := by
  induction h with
  | nil w => simp
  | pass hk h ih =>
    rw [List.forall_mem_cons] at hfs
    have hentry := entry_of_not_visited hk hfs.1
    rw [tallyFields_cons, hentry, zero_add] at hfinite ⊢
    obtain ⟨rfl, hcount⟩ := ih hfs.2 hfinite
    exact ⟨rfl, hcount⟩
  | visit hc hk ho h ih =>
    rw [List.forall_mem_cons] at hfs
    rw [Bool.and_eq_true] at hk
    rw [tallyFields_cons, entry_of_context hc hk.1] at hfinite ⊢
    rw [Ne, ENat.add_eq_top, not_or] at hfinite
    obtain ⟨rfl, hfirst⟩ := unchanged_value ho (hfs.1 _ hc hk.1) hk.2 hfinite.1
    obtain ⟨rfl, hcount⟩ := ih hfs.2 hfinite.2
    exact ⟨rfl, by rw [hcount, hfirst, add_assoc]⟩

end

/-! ## Nodes that keep a contract -/

section

variable {K : Contract C Work} {handle : Handler C Work} {s : Symbol}
  {m : Option Nat} {fs : Fields} {w w₁ : Work} {t₁ : Tree}

/-- A derived node that the handler can be given in a context. -/
def Good (K : Contract C Work) (labels : Labelling) (c : C) (t : Tree) : Prop :=
  ∃ s, Derives labels s t ∧ K.admits c s t

/-- The parts of a node under visit keep the contract of the handler. -/
theorem partsKeep (hkeeps : HandlerKeeps K labels handle) (hd : Derives labels s (.obj m fs)) :
    PartsKeep K labels s (.obj m fs) (partsOf handle m fs) :=
  partsKeep_of_fields hd (visitField_keeps hkeeps fs) (visitFields_keep hkeeps fs)

/-- The parts of a good node are good, in contexts that admit them. -/
theorem isFit_of_good (hd : Derives labels s t) (hf : (k, v) ∈ t.fields) (hk : isSyntaxKey k)
    (hadmits : ∀ slot x y, slot? s t k = some slot → slot.content? = some x →
      (y = t.get k ∨ y ∈ t.children k) → Derives labels x y → K.admits c x y) :
    S.IsFit (Good K labels) c v := by
  refine isFit_of_derives hd hf hk fun slot x y hslot hx hy hderives => ?_
  rw [← hd.get_of_mem hf] at hy
  exact ⟨x, hderives, hadmits slot x y hslot hx hy hderives⟩

/-- The contexts of the parts admit them, and give regular outcomes. -/
def Admissible (K : Contract C Work) (labels : Labelling) (s : Symbol) (t : Tree)
    (contexts : String → Option C) : Prop :=
  ∀ key c, contexts key = some c → (∀ x o, K.yields c x o → Regular labels x o) ∧
    ∀ slot x y, slot? s t key = some slot → slot.content? = some x →
      (y = t.get key ∨ y ∈ t.children key) → Derives labels x y → K.admits c x y

/-- **Visiting the parts of a node** reports what is left alone in them. -/
theorem counted_descend (hkeeps : HandlerKeeps K labels handle) (hinv : ∀ w, K.invariant w)
    (hblock : "BlockStatement" ∉ S.types)
    (hparts : PartsFollow (S.Counted (Good K labels)) m fs (partsOf handle m fs))
    (hd : Derives labels s (.obj m fs))
    (hadmissible : Admissible K labels s (.obj m fs) contexts)
    (h : Yields ((partsOf handle m fs).descend contexts) w t₁ w₁) :
    ∃ gs, t₁ = .obj m gs ∧ Derives labels s (.obj m gs) ∧ (Tree.obj m gs).type? = (Tree.obj m fs).type? ∧
      (w₁.diagnostics.length : ℕ∞) = w.diagnostics.length + S.tallyFields contexts gs := by
  obtain ⟨gs, rfl, hfields⟩ := hparts.descend h
  obtain ⟨t', w', hyields, hd', htype', -, -⟩ := (partsKeep hkeeps hd).descend_regular hd contexts
    (fun key slot c x y hslot hc => (hadmissible key c hc).2 slot x y hslot)
    (fun key c hc => (hadmissible key c hc).1) (hinv w)
  obtain ⟨rfl, -⟩ := hyields.unique h
  refine ⟨gs, rfl, hd', htype', counted_fields hblock hfields fun f hf c hc hk => ?_⟩
  exact isFit_of_good hd hf hk (hadmissible f.1 c hc).2

/-- **Visiting the parts of a node** in which nothing is to be changed leaves the node as it is. -/
theorem unchanged_descend (hparts : PartsFollow (S.Unchanged (Good K labels)) m fs (partsOf handle m fs))
    (hd : Derives labels s (.obj m fs))
    (hadmissible : Admissible K labels s (.obj m fs) contexts)
    (hfinite : S.tallyFields contexts fs ≠ ⊤)
    (h : Yields ((partsOf handle m fs).descend contexts) w t₁ w₁) :
    t₁ = .obj m fs ∧ (w₁.diagnostics.length : ℕ∞) = w.diagnostics.length + S.tallyFields contexts fs := by
  obtain ⟨gs, rfl, hfields⟩ := hparts.descend h
  obtain ⟨rfl, hcount⟩ := unchanged_fields hfields (fun f hf c hc hk =>
    isFit_of_good hd hf hk (hadmissible f.1 c hc).2) hfinite
  exact ⟨rfl, hcount⟩

theorem derives_of_regular {t : Tree} (h : Regular labels s (.keep t)) : Derives labels s t := by
  rcases h with ⟨t', ht', hd⟩ | ⟨ts, hts, -⟩
  · cases ht'
    exact hd
  · cases hts

/-- The outcome of a handler is what its contract says. -/
theorem yields_of_keeps (hkeeps : HandlerKeeps K labels handle) (hinv : ∀ w, K.invariant w)
    (hd : Derives labels s (.obj m fs)) (hadmits : K.admits c s (.obj m fs))
    (h : Yields (handle c (.obj m fs) (partsOf handle m fs)) w o w₁) : K.yields c s o := by
  obtain ⟨o', w', hyields, ho', -⟩ :=
    hkeeps c s _ (partsOf handle m fs) w hadmits hd (partsKeep hkeeps hd) (hinv w)
  obtain ⟨rfl, -⟩ := hyields.unique h
  exact ho'

section

variable {key : String} {x : Symbol} {o : Outcome}

/-- The visit of a single part of a good node. -/
theorem follows_field {L : Law C Work} (hparts : PartsFollow L m fs (partsOf handle m fs))
    (hd : Derives labels s (.obj m fs))
    (hslot : slot? s (.obj m fs) key = some (.one x))
    (hadmits : K.admits c x ((Tree.obj m fs).get key))
    (h : Yields ((partsOf handle m fs).field key c) w o w₁) :
    L c ((Tree.obj m fs).get key) w o w₁ ∧ Good K labels c ((Tree.obj m fs).get key) := by
  obtain ⟨hget, hfits⟩ := hd.get?_of_slot? hslot rfl
  have hpart := fits_one_iff.mp hfits
  refine ⟨?_, x, hpart, hadmits⟩
  rcases hparts.field h with ⟨hnone, -⟩ | ⟨v, hv, hfollows⟩
  · exact absurd (hget.symm.trans hnone) nofun
  · cases hget.symm.trans hv
    exact hfollows.of_isObject hpart.isObject

end

end

/-! ## Two runs -/

section

variable {good : C → Tree → Prop}

theorem tally_value (o : Outcome) : S.tally c o.value = S.tallyItems c o.inList := by
  cases o <;> simp [Outcome.value, Outcome.inList]

/-- What a run of a handler comes from. -/
theorem run_inv {out : Lowered} (h : run handle c t = .ok out) :
    ∃ o w, Yields (visit handle c t) { names := .ofTree t } o w ∧ out.tree = o.value ∧
      out.diagnostics = w.diagnostics := by
  rw [run] at h
  cases hvisit : (visit handle c t).run { names := .ofTree t } with
  | error fault =>
    rw [hvisit] at h
    cases h
  | ok p =>
    rw [hvisit] at h
    cases h
    exact ⟨p.1, p.2, hvisit, rfl, rfl⟩

/-- A program that is lowered twice: the second run changes nothing, and reports as much as the first. -/
def Settles (lower : Tree → Except Fault Lowered) (t : Tree) : Prop :=
  ∃ out out', lower t = .ok out ∧ lower out.tree = .ok out' ∧ out'.tree = out.tree ∧
    out'.diagnostics.length = out.diagnostics.length

theorem isFit_of_program {g : C → Tree → Prop} (ht : Derives labels .program t) (hg : g c t) :
    S.IsFit g c t ∧ isVisited t := by
  refine ⟨?_, by rw [isVisited, ht.isNode, Bool.true_or]⟩
  cases t with
  | obj m fs => exact isSound_of_derives ht hg
  | _ => cases ht.isObject

/-- **A run reports what it leaves alone**, and leaves nothing that could be changed. -/
theorem length_of_counted {out : Lowered} (hcounted : HandlerFollows handle (S.Counted good))
    (ht : Derives labels .program t) (hgood : good c t) (hout : run handle c t = .ok out) :
    (out.diagnostics.length : ℕ∞) = S.tally c out.tree := by
  obtain ⟨o, w, hvisit, htree, hdiagnostics⟩ := run_inv hout
  obtain ⟨hsound, hvisited⟩ := isFit_of_program (S := S) ht hgood
  have hcount := counted_value (visit_follows hcounted _ _ _ _ _ hvisit) hsound hvisited
  rwa [← tally_value, ← htree, ← hdiagnostics, List.length_nil, Nat.cast_zero, zero_add] at hcount

/-- **A second run changes nothing**, and reports as much as the first. -/
theorem settles_of_laws {good' : C → Tree → Prop} (hcounted : HandlerFollows handle (S.Counted good))
    (hunchanged : HandlerFollows handle (S.Unchanged good')) (hrun : ∀ {u}, Derives labels .program u →
      ∃ out, run handle c u = .ok out ∧ Derives labels .program out.tree)
    (hgood' : ∀ {u}, Derives labels .program u → good' c u) (ht : Derives labels .program t)
    (hgood : good c t) : Settles (run handle c) t := by
  obtain ⟨out, hout, hd⟩ := hrun ht
  obtain ⟨out', hout', -⟩ := hrun hd
  -- The first run: the tally of its tree is the number of its diagnostics, so it is finite.
  have hcount := length_of_counted hcounted ht hgood hout
  -- The second run finds nothing to change.
  obtain ⟨o', w', hvisit', htree', hdiagnostics'⟩ := run_inv hout'
  obtain ⟨hsound', hvisited'⟩ := isFit_of_program (S := S) hd (hgood' hd)
  obtain ⟨rfl, hcount'⟩ := unchanged_value (visit_follows hunchanged _ _ _ _ _ hvisit') hsound'
    hvisited' (by rw [← hcount]; exact ENat.natCast_ne_top _)
  rw [← hdiagnostics', ← hcount, List.length_nil, Nat.cast_zero, zero_add] at hcount'
  exact ⟨out, out', hout, hout', htree', by exact_mod_cast hcount'⟩

end

end Survey
end Downlevel.Lower
