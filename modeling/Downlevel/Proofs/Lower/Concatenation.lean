import Downlevel.Proofs.Grammar.Mentions
import Downlevel.Proofs.Lower.Template

/-!
# `Proofs.Lower.Concatenation`: a template and its concatenation have the same value

Expressions made of templates, literals, names and `+` have primitive values. A sum is a text as soon as
one of its sides is one; a template always is. In the chain that takes the place of a template one of the
first two operands is a text, so from there on every sum is one, and the chain collects the texts of its
operands in order, just as the template does. The names are read in the same order as well.
-/

namespace Downlevel.Lower.Template

open Tree Node Grammar

/-! ## Values -/

/-- The primitive values that are no texts: what a literal stands for, how a value is written, and the sum
of two of them. -/
structure Primitives (α : Type) where
  ofLiteral : Tree → α
  text : α → String
  add : α → α → α

/-- A primitive value. -/
inductive Value (α : Type) where
  | text (s : String)
  | other (a : α)

namespace Value

variable {α : Type} (P : Primitives α)

/-- How a value is written. -/
def written : Value α → String
  | .text s => s
  | .other a => P.text a

/-- The sum of two values: texts are joined, and with a text all else is written. -/
def plus : Value α → Value α → Value α
  | .other a, .other b => .other (P.add a b)
  | a, b => .text (a.written P ++ b.written P)

theorem text_plus (s : String) (b : Value α) : plus P (.text s) b = .text (s ++ b.written P) := by
  cases b <;> rfl

theorem plus_text (a : Value α) (s : String) : a.plus P (.text s) = .text (a.written P ++ s) := by
  cases a <;> rfl

end Value

/-- A whole number or a decimal. -/
def isNumber : Tree → Bool
  | .int _ | .real _ => true
  | _ => false

/-- The text of a segment, as it is meant. -/
def cooked (quasi : Tree) : Tree := (quasi.get "value").get "cooked"

section

variable {α : Type} (P : Primitives α) (env : String → Value α) (templates : Bool)

mutual

/-- The value of an expression, and the names that are read for it, in order. Templates have one only in a
language with templates. -/
inductive Evaluates : Tree → Value α → List String → Prop
  | text {t : Tree} {s : String} (htype : t.type? = some "Literal") (h : t.get "value" = .str s) :
      Evaluates t (.text s) []
  | number {t : Tree} (htype : t.type? = some "Literal") (h : isNumber (t.get "value")) :
      Evaluates t (.other (P.ofLiteral (t.get "value"))) []
  | name {t : Tree} {x : String} (htype : t.type? = some "Identifier") (h : t.get "name" = .str x) :
      Evaluates t (env x) [x]
  | sum {t : Tree} {a b : Value α} {xs ys : List String} (htype : t.type? = some "BinaryExpression")
      (h : t.get "operator" = .str "+") (left : Evaluates (t.get "left") a xs)
      (right : Evaluates (t.get "right") b ys) : Evaluates t (a.plus P b) (xs ++ ys)
  | template {t : Tree} {s : String} {xs : List String} (h : templates)
      (htype : t.type? = some "TemplateLiteral")
      (parts : Interpolates (t.children "quasis") (t.children "expressions") s xs) :
      Evaluates t (.text s) xs

/-- The text of segments with expressions between them. -/
inductive Interpolates : List Tree → List Tree → String → List String → Prop
  | last {q : Tree} {s : String} (h : cooked q = .str s) : Interpolates [q] [] s []
  | next {q e : Tree} {qs es : List Tree} {s s' : String} {v : Value α} {xs ys : List String}
      (h : cooked q = .str s) (value : Evaluates e v xs) (rest : Interpolates qs es s' ys) :
      Interpolates (q :: qs) (e :: es) (s ++ (v.written P ++ s')) (xs ++ ys)

end

end

variable {α : Type} {P : Primitives α} {env : String → Value α} {templates : Bool} {s : Symbol}
  {t u : Tree} {v : Value α} {xs : List String}

/-- The value depends on the fields that hold no place only. -/
theorem Evaluates.congr (h : Evaluates P env templates t v xs)
    (hget : ∀ key, key ≠ "range" → key ≠ "loc" → u.get key = t.get key) :
    Evaluates P env templates u v xs := by
  have htype : ∀ {type}, t.type? = some type → u.type? = some type := by
    intro type ht
    rwa [type?, hget _ (by decide) (by decide)]
  cases h with
  | text ht hv => exact .text (htype ht) ((hget _ (by decide) (by decide)).trans hv)
  | number ht hv =>
    rw [← hget "value" (by decide) (by decide)] at hv ⊢
    exact .number (htype ht) hv
  | name ht hx => exact .name (htype ht) ((hget _ (by decide) (by decide)).trans hx)
  | sum ht hop left right =>
    rw [← hget _ (by decide) (by decide)] at hop left right
    exact .sum (htype ht) hop left right
  | template hyes ht parts =>
    rw [children, children, ← hget _ (by decide) (by decide),
      ← hget "expressions" (by decide) (by decide)] at parts
    exact .template hyes (htype ht) parts

theorem Evaluates.located (h : Evaluates P env templates t v xs) (place : Tree) :
    Evaluates P env templates (located t place) v xs :=
  h.congr fun _ hrange hloc => get_located hrange hloc t place

theorem evaluates_literal (s : String) (place : Tree) :
    Evaluates P env templates (literal (.str s) place) (.text s) [] :=
  Evaluates.located (.text rfl rfl) place

theorem Evaluates.binary {a b : Value α} {ys : List String} (left : Evaluates P env templates t a xs)
    (right : Evaluates P env templates u b ys) :
    Evaluates P env templates (binary "+" t u) (a.plus P b) (xs ++ ys) :=
  .sum rfl rfl left right

/-- The value of a string literal is a text. -/
theorem Evaluates.eq_text (h : Evaluates P env templates t v xs) (hliteral : isStringLiteral t) :
    ∃ s, v = .text s := by
  rw [isStringLiteral, Bool.and_eq_true, isType_iff] at hliteral
  cases h with
  | text => exact ⟨_, rfl⟩
  | template => exact ⟨_, rfl⟩
  | number ht hv =>
    cases hvalue : t.get "value" <;> rw [hvalue] at hv hliteral
    case str => cases hv
    all_goals cases hliteral.2
  | name ht hx =>
    rw [ht] at hliteral
    exact absurd hliteral.1 (by decide)
  | sum ht hop left right =>
    rw [ht] at hliteral
    exact absurd hliteral.1 (by decide)

/-! ## Chains -/

/-- The values of several expressions: the text that they are written as, one after another, and the names
that are read for them. -/
inductive EvaluatesAll (P : Primitives α) (env : String → Value α) (templates : Bool) :
    List Tree → String → List String → Prop
  | nil : EvaluatesAll P env templates [] "" []
  | cons {e : Tree} {es : List Tree} {v : Value α} {s : String} {xs ys : List String}
      (value : Evaluates P env templates e v xs) (rest : EvaluatesAll P env templates es s ys) :
      EvaluatesAll P env templates (e :: es) (v.written P ++ s) (xs ++ ys)

/-- A segment is written as its text, and not at all if it is empty. -/
theorem EvaluatesAll.segment {q : Tree} {es : List Tree} {s s' : String}
    (h : EvaluatesAll P env templates es s' xs) (hq : cooked q = .str s) :
    EvaluatesAll P env templates (segment q ++ es) (s ++ s') xs := by
  unfold Template.segment
  rw [← cooked, hq]
  by_cases hempty : s = ""
  · subst hempty
    rw [String.empty_append]
    exact h
  · rw [if_pos (by simpa [isSet] using hempty)]
    exact .cons (evaluates_literal s q) h

/-- The operands of a template are written as the template is. -/
theorem Interpolates.operands {qs es : List Tree} {s : String} {xs : List String}
    (h : Interpolates P env templates qs es s xs) : EvaluatesAll P env templates (operands qs es) s xs := by
  induction es generalizing qs s xs with
  | nil =>
    cases h with
    | last hq =>
      have h : EvaluatesAll P env templates (segment _ ++ []) (s ++ "") [] := .segment .nil hq
      rwa [String.append_empty] at h
  | cons e es ih =>
    cases h with
    | next hq value rest => exact (EvaluatesAll.cons value (ih rest)).segment hq

theorem EvaluatesAll.startWithString {es : List Tree} {s : String}
    (h : EvaluatesAll P env templates es s xs) :
    EvaluatesAll P env templates (startWithString es) s xs := by
  have hempty : EvaluatesAll P env templates (literal (.str "") :: es) s xs := by
    have hcons := EvaluatesAll.cons (evaluates_literal "" .null) h
    rwa [Value.written, String.empty_append] at hcons
  unfold Template.startWithString
  split
  · exact h
  · split
    · exact h
    · exact hempty
  · split
    · exact h
    · exact hempty

/-- **Once a chain is a text, it stays one**: each operand is written behind it. -/
theorem EvaluatesAll.foldl {es : List Tree} {s : String} {ys : List String}
    (h : EvaluatesAll P env templates es s ys) : ∀ {first : Tree} {s₀ : String} {xs : List String},
      Evaluates P env templates first (.text s₀) xs →
      Evaluates P env templates (es.foldl (fun sum t => Node.binary "+" sum t) first)
        (.text (s₀ ++ s)) (xs ++ ys) := by
  induction h with
  | nil =>
    intro first s₀ xs hfirst
    rwa [String.append_empty, List.append_nil]
  | cons value rest ih =>
    intro first s₀ xs hfirst
    have hsum := hfirst.binary value
    rw [Value.text_plus] at hsum
    rw [← String.append_assoc, ← List.append_assoc]
    exact ih hsum

/-- The chain of operands, one of the first two of which is a string literal. -/
theorem EvaluatesAll.chain {es rest : List Tree} {first : Tree} {s : String}
    (h : EvaluatesAll P env templates (first :: rest) s xs)
    (hstart : Template.startWithString es = first :: rest) :
    Evaluates P env templates (rest.foldl (fun sum t => Node.binary "+" sum t) first) (.text s) xs := by
  have hstring : isStringLiteral first ∨
      ∃ second more, rest = second :: more ∧ isStringLiteral second := by
    unfold Template.startWithString at hstart
    split at hstart
    · cases hstart
    · split at hstart
      · rename_i hliteral
        cases hstart
        exact .inl hliteral
      · cases hstart
        exact .inl rfl
    · split at hstart
      · rename_i hliteral
        cases hstart
        rcases Bool.or_eq_true_iff.mp hliteral with hfirst | hsecond
        · exact .inl hfirst
        · exact .inr ⟨_, _, rfl, hsecond⟩
      · cases hstart
        exact .inl rfl
  obtain _ | ⟨value, hrest⟩ := h
  rcases hstring with hfirst | ⟨second, more, rfl, hsecond⟩
  · obtain ⟨s₀, rfl⟩ := value.eq_text hfirst
    exact hrest.foldl value
  · -- The second operand makes the first sum a text.
    obtain _ | ⟨value', hmore⟩ := hrest
    obtain ⟨s₁, rfl⟩ := value'.eq_text hsecond
    have hsum := value.binary value'
    rw [Value.plus_text] at hsum
    rw [← String.append_assoc, ← List.append_assoc]
    exact hmore.foldl hsum

/-- **A concatenation has the value of its template.** -/
theorem Interpolates.concatenation {s : String}
    (h : Interpolates P env templates (t.children "quasis") (t.children "expressions") s xs) :
    Evaluates P env templates (concatenation t) (.text s) xs := by
  have hall := h.operands.startWithString
  rw [Template.concatenation]
  cases hes : Template.startWithString
      (Template.operands (t.children "quasis") (t.children "expressions")) with
  | nil =>
    rw [hes] at hall
    cases hall
    exact evaluates_literal "" t
  | cons first rest =>
    rw [hes] at hall
    exact (hall.chain hes).located t

/-! ## No template is left -/

/-- The parts of a sum are its two sides. -/
theorem child_of_sum (ht : Derives .any s t) (htype : t.type? = some "BinaryExpression")
    {p : String × Tree} (hp : p ∈ t.childNodes) : p.2 = t.get "left" ∨ p.2 = t.get "right" := by
  have hleft : Derives .any .expression (t.get "left") := ht.one htype rfl
  have hright : Derives .any .expression (t.get "right") := ht.one htype rfl
  obtain ⟨slot, x, hslot, hx, -⟩ := ht.child_rule htype hp
  have hkey : p.1 = "left" ∨ p.1 = "right" := by
    simp only [rulesFor_of_mem (show ("BinaryExpression", _) ∈ rules by repeat constructor),
      List.mem_cons, Prod.mk.injEq, List.not_mem_nil, or_false] at hslot
    rcases hslot with ⟨-, rfl⟩ | ⟨hkey, -⟩ | ⟨hkey, -⟩
    · cases hx
    · exact .inl hkey
    · exact .inr hkey
  rcases hkey with hkey | hkey
  · have heq := ht.child_eq_get hp (by rw [hkey]; exact hleft.isList)
    exact .inl (hkey ▸ heq)
  · have heq := ht.child_eq_get hp (by rw [hkey]; exact hright.isList)
    exact .inr (hkey ▸ heq)

/-- An expression that has a value without templates holds none. -/
theorem Evaluates.no_template (ht : Derives .any s t) (h : Evaluates P env false t v xs) :
    ∀ n ∈ t.nodes, n.isType "TemplateLiteral" = false := by
  have hlaw : ∀ n ∈ t.nodes, ∃ v xs, Evaluates P env false n v xs := by
    refine ht.forall_nodes (fun n => ∃ v xs, Evaluates P env false n v xs) ?_ ⟨v, xs, h⟩
    rintro s t ht ⟨v, xs, h⟩ p hp
    cases h with
    | template hno => cases hno
    | text htype | number htype | name htype =>
      rw [ht.childNodes_name htype (by decide)] at hp
      cases hp
    | sum htype hop left right =>
      rcases child_of_sum ht htype hp with heq | heq
      · exact ⟨_, _, heq ▸ left⟩
      · exact ⟨_, _, heq ▸ right⟩
  intro n hn
  obtain ⟨v, xs, h⟩ := hlaw n hn
  cases h with
  | template hno => cases hno
  | text htype | number htype | name htype | sum htype => exact isType_of_type? htype _

/-! ## The lowering -/

/-- A tree without templates. -/
def lowered : Tree → Tree :=
  remake (fun _ _ _ => some ()) (fun _ t u => if t.isType "TemplateLiteral" then concatenation u else u) ()

theorem lowered_eq (h : t.isObject) : lowered t =
    if t.isType "TemplateLiteral" then concatenation (mapChildren (fun _ => lowered) t)
    else mapChildren (fun _ => lowered) t :=
  remake_eq h

/-- A node without parts stays. -/
theorem lowered_of_leaf (ht : Derives .any s t) (htype : t.isType "TemplateLiteral" = false)
    (hleaf : t.childNodes = []) : lowered t = t := by
  rw [lowered_eq ht.isObject, htype, if_neg Bool.false_ne_true, mapChildren_eq_self_iff, hleaf]
  exact List.forall_mem_nil _

/-- The visit of a node lowers it, if the visits of its children do, and it is no tagged template. -/
theorem remakes_lowered (ht : Derives .any s t) (htagged : t.type? ≠ some "TaggedTemplateExpression")
    (h : ∀ p ∈ t.childNodes, Remakes handle .anywhere lowered p.2) :
    Remakes handle .anywhere lowered t := by
  intro w
  cases t with
  | obj m fs =>
    have hparts : Yields (Tree.obj m <$> visitFields handle (fun _ => some .anywhere) fs) w
        (mapChildren (fun _ => lowered) (.obj m fs)) w :=
      (visitFields_remake w fun f hf hk y hy =>
        h (f.1, y) (mem_childNodes.mpr ⟨f.2, hf, hk, hy⟩)).map _
    rw [visit, lowered_eq rfl]
    simp only [handle]
    split
    · rename_i htype
      exact absurd htype htagged
    · rename_i htype
      rw [if_pos (isType_iff.mpr htype)]
      exact hparts.map _
    · rename_i hother
      rw [if_neg (isType_iff.not.mpr hother)]
      exact hparts.map _
  | _ => cases ht.isObject

/-- Segments stay as they are. -/
theorem lowered_segment {q : Tree} (hq : Derives .any .templateElement q) :
    lowered q = q ∧ Remakes handle .anywhere lowered q := by
  have htype := hq.type_eq rfl
  have hleaf := hq.childNodes_eq_nil htype (List.forall_mem_singleton.mpr rfl)
  refine ⟨lowered_of_leaf hq (isType_of_type? htype _) hleaf, remakes_lowered hq ?_ ?_⟩
  · rw [htype]
    decide
  · rw [hleaf]
    exact List.forall_mem_nil _

theorem Interpolates.lowered {qs : List Tree} : ∀ {es : List Tree} {s : String} {xs : List String},
    Interpolates P env true qs es s xs →
    (∀ e ∈ es, ∀ v xs, Evaluates P env true e v xs →
      Remakes handle .anywhere lowered e ∧ Evaluates P env false (lowered e) v xs) →
    (∀ e ∈ es, Remakes handle .anywhere lowered e) ∧
      Interpolates P env false qs (es.map Template.lowered) s xs := by
  induction qs with
  | nil =>
    intro es s xs h
    cases h
  | cons q qs ih =>
    intro es s xs h hes
    cases h with
    | last hq => exact ⟨List.forall_mem_nil _, .last hq⟩
    | next hq value rest =>
      rw [List.forall_mem_cons] at hes ⊢
      obtain ⟨hremakes, hvalue⟩ := hes.1 _ _ value
      obtain ⟨hrest, hparts⟩ := ih rest hes.2
      exact ⟨⟨hremakes, hrest⟩, .next hq hvalue hparts⟩

/-- The parts of a template are its segments and its expressions. -/
theorem child_of_template (ht : Derives .any s t) (htype : t.type? = some "TemplateLiteral")
    {p : String × Tree} (hp : p ∈ t.childNodes) :
    p.2 ∈ t.children "quasis" ∨ p.2 ∈ t.children "expressions" := by
  have hquasis : t.get "quasis" = .list (t.children "quasis") := (ht.many htype rfl).1
  have hexpressions : t.get "expressions" = .list (t.children "expressions") := (ht.many htype rfl).1
  obtain ⟨slot, x, hslot, -, -⟩ := ht.child_rule htype hp
  simp only [rulesFor_of_mem (show ("TemplateLiteral", _) ∈ rules by repeat constructor),
    List.mem_cons, Prod.mk.injEq, List.not_mem_nil, or_false] at hslot
  rcases hslot with ⟨hkey, -⟩ | ⟨hkey, -⟩
  · have hmem := ht.child_mem_children hp (hkey ▸ hquasis)
    exact .inl (hkey ▸ hmem)
  · have hmem := ht.child_mem_children hp (hkey ▸ hexpressions)
    exact .inr (hkey ▸ hmem)

/-- **An expression is lowered to one of the same value, for which the same names are read.** -/
theorem Evaluates.lowered (ht : Derives .any s t) (h : Evaluates P env true t v xs) :
    Remakes handle .anywhere lowered t ∧ Evaluates P env false (lowered t) v xs := by
  refine ht.inductionOnChildren (motive := fun t => ∀ v xs, Evaluates P env true t v xs →
    Remakes handle .anywhere Template.lowered t ∧ Evaluates P env false (Template.lowered t) v xs)
    ?_ v xs h
  intro s t ht ih v xs h
  have hleaf : ∀ {type}, t.type? = some type → type ∈ ["Identifier", "Literal"] →
      Evaluates P env false t v xs →
      Remakes handle .anywhere Template.lowered t ∧ Evaluates P env false (Template.lowered t) v xs := by
    intro type htype hname h
    have hnil := ht.childNodes_name htype hname
    have hne : ∀ other, other ∉ ["Identifier", "Literal"] → t.isType other = false := by
      intro other hother
      rw [isType_of_type? htype, decide_eq_false_iff_not]
      rintro rfl
      exact hother hname
    rw [lowered_of_leaf ht (hne _ (by decide)) hnil]
    refine ⟨remakes_lowered ht (isType_iff.not.mp ?_) ?_, h⟩
    · rw [hne _ (by decide)]
      exact Bool.false_ne_true
    · rw [hnil]
      exact List.forall_mem_nil _
  cases h with
  | text htype hv => exact hleaf htype (by decide) (.text htype hv)
  | number htype hv => exact hleaf htype (by decide) (.number htype hv)
  | name htype hx => exact hleaf htype (by decide) (.name htype hx)
  | sum htype hop left right =>
    have hside : ∀ {key a xs}, Derives .any .expression (t.get key) → isSyntaxKey key →
        Evaluates P env true (t.get key) a xs → Remakes handle .anywhere Template.lowered (t.get key) ∧
          Evaluates P env false ((mapChildren (fun _ => Template.lowered) t).get key) a xs := by
      intro key a xs hd hkey h
      rw [get_mapChildren hkey, mapNodes_of_isNode hd.isNode]
      refine ih (key, t.get key) (mem_childNodes_get hkey ?_) a xs h
      rw [nodesIn_of_isNode hd.isNode]
      exact List.mem_singleton_self _
    obtain ⟨hleft, left⟩ := hside (ht.one htype rfl) rfl left
    obtain ⟨hright, right⟩ := hside (ht.one htype rfl) rfl right
    refine ⟨remakes_lowered ht (by rw [htype]; decide) fun p hp => ?_, ?_⟩
    · rcases child_of_sum ht htype hp with heq | heq
      · exact heq ▸ hleft
      · exact heq ▸ hright
    · rw [lowered_eq ht.isObject, isType_of_type? htype, if_neg (by decide)]
      refine .sum (by simpa using htype) ?_ left right
      rw [get_mapChildren rfl, hop]
      rfl
  | template _ htype parts =>
    obtain ⟨hqget, hquasis⟩ : t.get "quasis" = .list (t.children "quasis") ∧
      ∀ q ∈ t.children "quasis", Derives .any .templateElement q := ht.many htype rfl
    obtain ⟨heget, hexpressions⟩ : t.get "expressions" = .list (t.children "expressions") ∧
      ∀ e ∈ t.children "expressions", Derives .any .expression e := ht.many htype rfl
    obtain ⟨hremakes, hparts⟩ := parts.lowered fun e he => ih ("expressions", e)
      (mem_childNodes_get rfl (mem_nodesIn.mpr ⟨.inr he, (hexpressions e he).isNode⟩))
    refine ⟨remakes_lowered ht (by rw [htype]; decide) fun p hp => ?_, ?_⟩
    · rcases child_of_template ht htype hp with hq | he
      · exact (lowered_segment (hquasis _ hq)).2
      · exact hremakes _ he
    · rw [lowered_eq ht.isObject, if_pos (isType_iff.mpr htype)]
      apply Interpolates.concatenation
      -- The segments stay, and every expression is lowered.
      have hq : (mapChildren (fun _ => Template.lowered) t).children "quasis" = t.children "quasis" := by
        rw [children, get_mapChildren rfl, hqget]
        refine (List.map_congr_left fun q hq => ?_).trans (List.map_id _)
        rw [(lowered_segment (hquasis q hq)).1, ite_self]
        rfl
      have he : (mapChildren (fun _ => Template.lowered) t).children "expressions" =
          (t.children "expressions").map Template.lowered := by
        rw [children, get_mapChildren rfl, heget]
        exact List.map_congr_left fun e he => if_pos (hexpressions e he).isNode
      rw [hq, he]
      exact hparts

/-- An expression without templates has one value, for which one list of names is read. -/
theorem Evaluates.unique : ∀ {t : Tree} {v v' : Value α} {xs xs' : List String},
    Evaluates P env false t v xs → Evaluates P env false t v' xs' → v' = v ∧ xs' = xs
  | _, _, _, _, _, .text htype h, h' => by
    cases h' with
    | text _ hs => grind
    | number _ hnumber =>
      rw [h] at hnumber
      cases hnumber
    | name htype' | sum htype' => simp [htype] at htype'
    | template hno => cases hno
  | _, _, _, _, _, .number htype h, h' => by
    cases h' with
    | text _ hs =>
      rw [hs] at h
      cases h
    | number => exact ⟨rfl, rfl⟩
    | name htype' | sum htype' => simp [htype] at htype'
    | template hno => cases hno
  | _, _, _, _, _, .name htype h, h' => by
    cases h' with
    | name _ hx => grind
    | text htype' | number htype' | sum htype' => simp [htype] at htype'
    | template hno => cases hno
  | _, _, _, _, _, .sum htype h left right, h' => by
    cases h' with
    | sum _ _ left' right' =>
      obtain ⟨rfl, rfl⟩ := left.unique left'
      obtain ⟨rfl, rfl⟩ := right.unique right'
      exact ⟨rfl, rfl⟩
    | text htype' | number htype' | name htype' => simp [htype] at htype'
    | template hno => cases hno

/-- **Lowering a template keeps its value.** An expression of templates, literals, names and sums is lowered
to an expression without templates. For every choice of values for the names, it has the value of the first,
and the same names are read for it in the same order. -/
theorem lower_evaluates (ht : Derives .any .expression t) (h : Evaluates P env true t v xs) :
    ∃ out, lower t = .ok out ∧ (∀ n ∈ out.tree.nodes, n.isType "TemplateLiteral" = false) ∧
      ∀ v' xs', Evaluates P env false out.tree v' xs' ↔ v' = v ∧ xs' = xs := by
  obtain ⟨hremakes, hvalue⟩ := h.lowered ht
  have hd : Derives .any .expression (lowered t) := by
    have hkeeps : HandlerKeeps (contract .any) .any handle := handle_keeps
    obtain ⟨o, w, hyields, ho, -⟩ := visit_keeps hkeeps t .anywhere (.one .expression)
      { names := .ofTree t } rfl (fits_one_iff.mpr ht)
      (fun s hs x _ _ => Option.some.inj hs ▸ Grammar.Symbol.noConfusion) trivial
    obtain ⟨t', rfl, ht'⟩ := Regular.keep ho (by decide)
    rw [Yields, hremakes] at hyields
    cases hyields
    exact ht'
  refine ⟨⟨lowered t, []⟩, ?_, hvalue.no_template hd, fun v' xs' => ⟨hvalue.unique, ?_⟩⟩
  · rw [lower, run, hremakes]
    rfl
  · rintro ⟨rfl, rfl⟩
    exact hvalue

/-- A template of some segments and expressions. -/
def template (segments : List String) (expressions : List Tree) : Tree :=
  make "TemplateLiteral" [("quasis", .list (segments.map fun s =>
    make "TemplateElement" [("value", record [("raw", .str s), ("cooked", .str s)])])),
    ("expressions", .list expressions)]

/-- The template `` `a${`${x}`}${1 + y}` ``. -/
def nestedTemplate : Tree :=
  template ["a", "", ""] [template ["", ""] [identifier "x"],
    Node.binary "+" (literal (.int 1)) (identifier "y")]

/-- Whole numbers as the values that are no texts. -/
def integers : Primitives Int := ⟨fun t => t.int?.getD 0, Int.repr, (· + ·)⟩

/-- With the text `b` for `x` and the number 2 for `y`, the sum is a number and the rest are texts. -/
theorem lower_evaluates_nested :
    ∃ out, lower nestedTemplate = .ok out ∧ (∀ n ∈ out.tree.nodes, n.isType "TemplateLiteral" = false) ∧
      ∀ v xs, Evaluates integers (fun x => if x = "x" then .text "b" else .other 2) false out.tree v xs ↔
        v = .text "ab3" ∧ xs = ["x", "y"] := by
  have hone : ((Node.binary "+" (literal (.int 1)) (identifier "y")).get "left").get "value" = .int 1 := rfl
  have hsum : integers.text (integers.add (integers.ofLiteral (.int 1)) 2) = "3" := by decide
  have hvalue : Evaluates integers (fun x => if x = "x" then .text "b" else .other 2) true nestedTemplate
      _ _ :=
    .template rfl rfl (.next rfl (.template rfl rfl (.next rfl (.name rfl rfl) (.last rfl)))
      (.next rfl (.sum rfl rfl (.number rfl rfl) (.name rfl rfl)) (.last rfl)))
  apply lower_evaluates
  · exact fits_one_iff.mp (by decide)
  · simpa [Value.written, Value.plus, hone, hsum] using hvalue

end Downlevel.Lower.Template
