import Downlevel.Proofs.Emit.Written
import Downlevel.Proofs.Expression.Parser

/-!
# `Proofs.Expression.Spelling`: what is printed for an expression

`body` writes an expression as pieces, tokens and blanks. `generate_of_reads` says that this is what the
printer writes for a tree that stands for the expression, whatever the comments and the indentation are: such
a tree takes no comment and breaks no line.
-/

namespace Downlevel.Expression

open Tree Emit
open Grammar (ok_bind)

variable {l : Layout} {cs : List Char} {ps : List Piece} {t a b : Tree} {key s : String} {ts : List Tree}
  {e x : Expr} {op : BinaryOp} {es : List (Option Expr)}

/-! ## The pieces of an expression -/

def Piece.sign (s : String) : Piece := .token (.sign s)

/-- Pieces in parentheses. -/
def parens (ps : List Piece) : List Piece := .sign "(" :: (ps ++ [.sign ")"])

/-- Pieces that bind as tightly as `own`, in a place that asks for `p`. -/
def enclose (own p : Nat) (ps : List Piece) : List Piece := if own < p then parens ps else ps

/-- An operator between two blanks. -/
def spaced (a : Token) : List Piece := [.blank, .token a, .blank]

/-- Pieces with commas between them. -/
def commaList (parts : List (List Piece)) : List Piece := [.sign ",", .blank].intercalate parts

/-- Does the operator need a blank before the argument? Words do, and a sign before the same sign. -/
def UnaryOp.needsBlank (op : UnaryOp) (argument : List Piece) : Bool :=
  match op with
  | .typeof | .void | .delete => true
  | .plus => (charsOf argument).head? == some '+'
  | .minus => (charsOf argument).head? == some '-'
  | _ => false

/-- Is the last element missing? -/
def endsInHole (es : List (Option Expr)) : Bool := es.getLast?.any Option.isNone

/-- The left operand of a power; a unary expression stands in parentheses. -/
def powerBase (l : Expr) (ps : List Piece) : List Piece :=
  match l with
  | .unary .. => if (charsOf ps).head? == some '(' then ps else parens ps
  | _ => ps

mutual

/-- The pieces of an expression, without parentheses around it. -/
def body : Expr → List Piece
  | .ident name => [.token (.word name)]
  | .num _ spelling => [.token (.num spelling)]
  | .array es =>
    .sign "[" :: (commaList (elementParts es) ++ (if endsInHole es then [.sign ","] else []) ++ [.sign "]"])
  | .unary op e =>
    let argument := enclose e.level 14 (body e)
    .token op.token :: ((if op.needsBlank argument then [.blank] else []) ++ argument)
  | .update op isPrefix e =>
    if isPrefix then .token op.token :: enclose e.level 14 (body e)
    else enclose e.level 15 (body e) ++ [.token op.token]
  | .binary op l r =>
    if op = .pow then
      powerBase l (enclose l.level 14 (body l)) ++ spaced op.token ++ enclose r.level 13 (body r)
    else
      enclose l.level op.level (body l) ++ spaced op.token ++ enclose r.level (op.level + 1) (body r)
  | .cond c x y =>
    enclose c.level 3 (body c) ++ spaced (.sign "?") ++ enclose x.level 1 (body x) ++
      spaced (.sign ":") ++ enclose y.level 1 (body y)
  | .assign op x v => enclose x.level 16 (body x) ++ spaced op.token ++ enclose v.level 1 (body v)
  | .seq es => commaList (parts es)
  | .dot o name =>
    let object := enclose o.level 16 (body o)
    (if isDigits (charsOf object) then parens object else object) ++ [.sign ".", .token (.word name)]
  | .index o i =>
    enclose o.level 16 (body o) ++ .sign "[" :: (body i ++ [.sign "]"])
  | .call f es =>
    enclose f.level 16 (body f) ++ .sign "(" :: (commaList (parts es) ++ [.sign ")"])

/-- The pieces of several expressions, each as an assignment can stand. -/
def parts : List Expr → List (List Piece)
  | [] => []
  | e :: es => enclose e.level 1 (body e) :: parts es

/-- The pieces of the elements of an array, none for a hole. -/
def elementParts : List (Option Expr) → List (List Piece)
  | [] => []
  | none :: es => [] :: elementParts es
  | some e :: es => enclose e.level 1 (body e) :: elementParts es

end

/-- The pieces of an expression in a place that asks for a precedence. -/
def spell (p : Nat) (e : Expr) : List Piece := enclose e.level p (body e)

/-! ## Layouts that set nothing but text -/

/-- The layout is set as the same text everywhere and takes no comment. -/
def Sets (l : Layout) (cs : List Char) : Prop :=
  ∀ (unit : String) (level : Nat) (q : CommentQueue), (render unit level l).run q = (String.ofList cs, q)

theorem sets_text (s : String) : Sets (.text s) s.toList := by
  intro unit level q
  rw [String.ofList_toList]
  rfl

theorem sets_cat_nil : Sets (.cat []) [] := fun _ _ _ => rfl

theorem sets_cat_cons {ls : List Layout} {ds : List Char} (h : Sets l cs) (hs : Sets (.cat ls) ds) :
    Sets (.cat (l :: ls)) (cs ++ ds) := by
  intro unit level q
  have h1 := h unit level q
  have h2 : (renderAll unit level ls).run q = (String.ofList ds, q) := hs unit level q
  rw [String.ofList_append]
  show (match (render unit level l).run q with
    | (a, q) => match (renderAll unit level ls).run q with
      | (b, q) => (a ++ b, q)) = _
  rw [h1]
  simp only [h2]

theorem sets_wrapIf (test : TextTest) (o c : String) (h : Sets l cs) :
    Sets (.wrapIf test o c l)
      (if test.holds (String.ofList cs) then o.toList ++ cs ++ c.toList else cs) := by
  intro unit level q
  have h1 := h unit level q
  simp only [Emit.render, StateT.run_bind, h1]
  show ((if test.holds (String.ofList cs) then o ++ String.ofList cs ++ c else String.ofList cs), q) = _
  split <;> simp [String.append_assoc]

theorem sets_parenthesized (h : Sets l (charsOf ps)) : Sets l.parenthesized (charsOf (parens ps)) := by
  have hcat := sets_cat_cons (sets_text "(") (sets_cat_cons h (sets_cat_cons (sets_text ")") sets_cat_nil))
  simpa [Layout.parenthesized, parens, Piece.sign, Piece.chars, Token.chars, charsOf] using hcat

/-- Layouts with a separator between them. -/
theorem sets_join {sep : String} {ls : List Layout} {css : List (List Char)}
    (h : List.Forall₂ Sets ls css) : Sets (.join sep ls) (sep.toList.intercalate css) := by
  unfold Layout.join
  induction h with
  | nil => exact sets_cat_nil
  | @cons l cs ls css hl hs ih =>
    cases hs with
    | nil =>
      have := sets_cat_cons hl sets_cat_nil
      simpa [Layout.between, List.intercalate_singleton] using this
    | cons hl' hs' =>
      rw [List.intercalate_cons_cons, List.append_assoc]
      exact sets_cat_cons hl (sets_cat_cons (sets_text sep) ih)

theorem charsOf_commaList (pss : List (List Piece)) :
    charsOf (commaList pss) = ", ".toList.intercalate (pss.map charsOf) := by
  unfold commaList
  induction pss with
  | nil => rfl
  | cons ps pss ih =>
    cases pss with
    | nil => simp [List.intercalate_singleton]
    | cons qs pss =>
      show _ = ", ".toList.intercalate (charsOf ps :: charsOf qs :: pss.map charsOf)
      rw [List.intercalate_cons_cons, List.intercalate_cons_cons, charsOf_append, charsOf_append, ih]
      rfl

/-! ## Looking at a node -/

/-- How the parts of a tree are laid out. -/
def readerOf (t : Tree) : Reader where
  field r key := layoutField r key t.fields
  each r key := layoutEach r key t.fields

theorem field_readerOf {v : Tree} (h : t.get? key = some v) (role : Emit.Role) :
    (readerOf t).field role key = layout role v := by
  have h : lookup key t.fields = _ := h
  show layoutField role key t.fields = _
  rw [layoutField_eq, h]

/-- Layouts of a list, with commas between them. -/
theorem exists_join {role : Emit.Role} {pss : List (List Piece)} (hts : t.get? key = some (.list ts))
    (h : ∃ ls, (layoutItems role ts).mapM id = .ok ls ∧ List.Forall₂ Sets ls (pss.map charsOf)) :
    ∃ l, (readerOf t).join role key ", " = .ok l ∧ Sets l (charsOf (commaList pss)) := by
  obtain ⟨ls, hls, hs⟩ := h
  have heach : (readerOf t).each role key = layoutItems role ts := by
    have hts : lookup key t.fields = _ := hts
    show layoutEach role key t.fields = _
    rw [layoutEach_eq role key none, layoutItems_eq, children, Tree.get, get?, fields, hts]
    rfl
  refine ⟨.join ", " ls, ?_, ?_⟩
  · rw [Reader.join, heach, hls]
    rfl
  · rw [charsOf_commaList]
    exact sets_join hs

theorem textOf_str (h : t.get? key = some (.str s)) : textOf t key = .ok s := by
  unfold textOf need
  rw [h]
  rfl

/-- A tree is laid out as its expression is spelled, in every place. -/
def Prints (e : Expr) (t : Tree) : Prop :=
  ∀ p, ∃ l, layout (.expr p) t = .ok l ∧ Sets l (charsOf (enclose e.level p (body e)))

theorem Prints.field (h : Prints e a) (ha : t.get? key = some a) (p : Precedence) :
    ∃ l, (readerOf t).field (.expr p) key = .ok l ∧ Sets l (charsOf (enclose e.level p (body e))) := by
  obtain ⟨l, hl, hs⟩ := h p
  exact ⟨l, (field_readerOf ha _).trans hl, hs⟩

/-- The parentheses are put in one place for all expressions. -/
theorem prints_of_expression (ht : t.type? = some s) (hl : expression t (readerOf t) = .ok l)
    (hp : precedenceOf t = .ok e.level) (hs : Sets l (charsOf (body e))) : Prints e t := by
  intro p
  obtain ⟨m, fs, rfl⟩ := isObject_of_type? ht
  have hlayout : layout (.expr p) (.obj m fs) = .ok (if e.level < p then l.parenthesized else l) := by
    show expressionIn p (.obj m fs) (readerOf (.obj m fs)) = _
    unfold expressionIn
    rw [hl, ok_bind, hp, ok_bind]
    rfl
  refine ⟨_, hlayout, ?_⟩
  unfold enclose
  split
  · exact sets_parenthesized hs
  · exact hs

/-! ## One case for each kind of expression -/

theorem prints_ident {name : String} (ht : t.type? = some "Identifier")
    (hname : t.get? "name" = some (.str name)) : Prints (.ident name) t := by
  have hl : expression t (readerOf t) = .ok (.text name) := by
    unfold expression
    rw [ht]
    show Layout.text <$> textOf t "name" = _
    rw [textOf_str hname]
    rfl
  refine prints_of_expression ht hl (by unfold precedenceOf; rw [ht]; rfl) ?_
  simpa [body, charsOf, Piece.chars, Token.chars] using sets_text name

/-- A number is printed as it was written, or in decimal. -/
theorem literalText_number {value : Nat} {spelling : String} (h : ReadsNumber value spelling t) :
    literalText t = spelling := by
  obtain ⟨hvalue, ⟨hraw, hregex, hspelling⟩ | ⟨hraw, -⟩⟩ := h
  · simp only [literalText, hraw, hregex, hvalue, hspelling]
    rfl
  · simp only [literalText, hraw]
    rfl

theorem prints_num {value : Nat} {spelling : String} (ht : t.type? = some "Literal")
    (h : ReadsNumber value spelling t) : Prints (.num value spelling) t := by
  have hl : expression t (readerOf t) = .ok (.text spelling) := by
    unfold expression
    rw [ht, ← literalText_number h]
    rfl
  refine prints_of_expression ht hl (by unfold precedenceOf; rw [ht]; rfl) ?_
  simpa [body, charsOf, Piece.chars, Token.chars] using sets_text spelling

theorem chars_operatorToken (s : String) : (operatorToken s).chars = s.toList := by
  unfold operatorToken
  split <;> rfl

/-- A sign in front of a part, with a blank between them if the part starts with the sign. -/
theorem sets_sign {c : Char} (hc : s.toList = [c]) (h : Sets l cs) :
    Sets (.cat [.text s, .wrapIf (.startsWith s) " " "" l])
      (c :: ((if cs.head? == some c then [' '] else []) ++ cs)) := by
  have hcat := sets_cat_cons (sets_text s)
    (sets_cat_cons (sets_wrapIf (.startsWith s) " " "" h) sets_cat_nil)
  have htest : (TextTest.startsWith s).holds (String.ofList cs) = (cs.head? == some c) := by
    simp only [TextTest.holds, String.toList_ofList, hc]
    cases cs with
    | nil => rfl
    | cons d cs =>
      by_cases hd : c = d
      · simp [after?, hd]
      · simp [after?, hd, Ne.symm hd]
  rw [htest, hc] at hcat
  by_cases h : (cs.head? == some c)
  · simpa [h] using hcat
  · simpa [h] using hcat

theorem prints_unary {op : UnaryOp} (ht : t.type? = some "UnaryExpression")
    (hop : t.get? "operator" = some (.str op.text)) (ha : t.get? "argument" = some a) (he : Prints e a) :
    Prints (.unary op e) t := by
  obtain ⟨l, hl, hs⟩ := he.field ha 14
  have hl : (readerOf t).field (.expr Precedence.unary) "argument" = .ok l := hl
  have hprec : precedenceOf t = .ok (Expr.unary op e).level := by
    unfold precedenceOf
    rw [ht]
    rfl
  have hunary : expression t (readerOf t) = Emit.unary t (readerOf t) := by
    unfold expression
    rw [ht]
    rfl
  have hbare : ∀ s : String, Sets (.cat [.text s, l]) (s.toList ++ charsOf (enclose e.level 14 (body e))) := by
    intro s
    simpa using sets_cat_cons (sets_text s) (sets_cat_cons hs sets_cat_nil)
  simp only [Emit.unary, textOf_str hop, hl, ok_bind] at hunary
  have hbody : charsOf (body (.unary op e)) = op.text.toList ++
      ((if op.needsBlank (enclose e.level 14 (body e)) then [' '] else []) ++
        charsOf (enclose e.level 14 (body e))) := by
    simp only [body, charsOf_cons, charsOf_append, Piece.chars, UnaryOp.token, chars_operatorToken]
    split <;> rfl
  -- words, signs that can run into the argument, and the other signs
  cases op with
  | typeof => exact prints_of_expression ht hunary hprec (hbody ▸ hbare "typeof ")
  | void => exact prints_of_expression ht hunary hprec (hbody ▸ hbare "void ")
  | delete => exact prints_of_expression ht hunary hprec (hbody ▸ hbare "delete ")
  | plus => exact prints_of_expression ht hunary hprec (hbody ▸ sets_sign rfl hs)
  | minus => exact prints_of_expression ht hunary hprec (hbody ▸ sets_sign rfl hs)
  | not => exact prints_of_expression ht hunary hprec (hbody ▸ hbare "!")
  | complement => exact prints_of_expression ht hunary hprec (hbody ▸ hbare "~")

theorem prints_update {op : UpdateOp} {isPrefix : Bool} (ht : t.type? = some "UpdateExpression")
    (hop : t.get? "operator" = some (.str op.text)) (hpre : (t.get "prefix").isSet = isPrefix)
    (ha : t.get? "argument" = some a) (he : Prints e a) : Prints (.update op isPrefix e) t := by
  have hprec : precedenceOf t = .ok (Expr.update op isPrefix e).level := by
    unfold precedenceOf
    rw [ht]
    show pure (if (t.get "prefix").isSet then Precedence.unary else Precedence.update) = _
    rw [hpre]
    cases isPrefix <;> rfl
  have hupdate : expression t (readerOf t) = (if isPrefix then
      (readerOf t).field (.expr 14) "argument" >>= fun l => pure (.cat [.text op.text, l])
      else (readerOf t).field (.expr 15) "argument" >>= fun l => pure (.cat [l, .text op.text])) := by
    unfold expression
    rw [ht]
    show (textOf t "operator" >>= _) = _
    rw [textOf_str hop, ok_bind, hpre]
    rfl
  have htoken : op.token.chars = op.text.toList := chars_operatorToken _
  cases isPrefix with
  | true =>
    obtain ⟨l, hl, hs⟩ := he.field ha 14
    have hexpr : expression t (readerOf t) = .ok (.cat [.text op.text, l]) := by
      rw [hupdate, if_pos rfl, hl]
      rfl
    refine prints_of_expression ht hexpr hprec ?_
    simpa [body, Piece.chars, htoken] using
      sets_cat_cons (sets_text op.text) (sets_cat_cons hs sets_cat_nil)
  | false =>
    obtain ⟨l, hl, hs⟩ := he.field ha 15
    have hexpr : expression t (readerOf t) = .ok (.cat [l, .text op.text]) := by
      rw [hupdate, if_neg Bool.false_ne_true, hl]
      rfl
    refine prints_of_expression ht hexpr hprec ?_
    simpa [body, Piece.chars, htoken, charsOf] using
      sets_cat_cons hs (sets_cat_cons (sets_text op.text) sets_cat_nil)

/-- Two parts with an operator between them. -/
theorem sets_operator {r : Layout} {qs : List Piece} {a : Token} (ha : a.chars = s.toList)
    (hl : Sets l (charsOf ps)) (hr : Sets r (charsOf qs)) :
    Sets (.cat [l, .text (" " ++ s ++ " "), r]) (charsOf (ps ++ spaced a ++ qs)) := by
  have := sets_cat_cons hl (sets_cat_cons (sets_text (" " ++ s ++ " ")) (sets_cat_cons hr sets_cat_nil))
  simpa [spaced, Piece.chars, ha] using this

/-- The left operand of a power. -/
theorem sets_powerBase (ha : a.type? = some e.nodeType) (hl : Sets l (charsOf ps)) :
    Sets (if a.isTypeIn ["UnaryExpression", "AwaitExpression"] then .wrapIf .bare "(" ")" l else l)
      (charsOf (powerBase e ps)) := by
  cases e with
  | unary op x =>
    have hwrap := sets_wrapIf .bare "(" ")" hl
    simp only [TextTest.holds, String.toList_ofList] at hwrap
    rw [isTypeIn_of_type? ha, if_pos (by simp [Expr.nodeType])]
    simp only [powerBase]
    by_cases hhead : (charsOf ps).head? = some '('
    · simpa [hhead] using hwrap
    · rw [if_pos (by simpa using hhead)] at hwrap
      rw [if_neg (by simpa using hhead)]
      simpa [parens, Piece.sign, Piece.chars, Token.chars, charsOf] using hwrap
  | binary op x y =>
    rw [isTypeIn_of_type? ha, if_neg]
    · exact hl
    · rcases op.nodeType_cases with h | h <;> simp [Expr.nodeType, h]
  | _ =>
    rw [isTypeIn_of_type? ha, if_neg (by simp [Expr.nodeType])]
    exact hl

theorem operatorPrecedence_text (h : t.get? "operator" = some (.str op.text)) :
    operatorPrecedence t = .ok op.level := by
  unfold operatorPrecedence need
  rw [h]
  cases op <;> rfl

/-- Binary and logical nodes are printed alike. -/
theorem expression_binary (ht : t.type? = some op.nodeType) (hop : t.get? "operator" = some (.str op.text))
    (r : Reader) : expression t r = Emit.binary t r ∧ precedenceOf t = .ok op.level := by
  rw [← operatorPrecedence_text hop]
  rcases op.nodeType_cases with h | h
  · rw [h] at ht
    unfold expression precedenceOf
    rw [ht]
    exact ⟨rfl, rfl⟩
  · rw [h] at ht
    unfold expression precedenceOf
    rw [ht]
    exact ⟨rfl, rfl⟩

theorem prints_binary {y : Expr} (ht : t.type? = some op.nodeType)
    (hop : t.get? "operator" = some (.str op.text)) (ha : t.get? "left" = some a)
    (hb : t.get? "right" = some b) (hx : Prints x a) (hy : Prints y b) (hxa : a.type? = some x.nodeType) :
    Prints (.binary op x y) t := by
  obtain ⟨hexpr, hprec⟩ := expression_binary ht hop (readerOf t)
  have hleft : t.get "left" = a := by
    unfold Tree.get
    rw [ha]
    rfl
  have htoken : op.token.chars = op.text.toList := chars_operatorToken _
  simp only [Emit.binary, operatorPrecedence_text hop, textOf_str hop, ok_bind, field_readerOf ha,
    field_readerOf hb, hleft] at hexpr
  by_cases hpow : op = .pow
  · subst hpow
    obtain ⟨l, hl, hsl⟩ := hx 14
    obtain ⟨r, hr, hsr⟩ := hy 13
    have htext : (BinaryOp.pow.text = "**") = True := eq_true rfl
    simp only [htext, decide_true, if_true, Bool.true_and] at hexpr
    change _ = layout (.expr 14) a >>= fun l => layout (.expr 13) b >>= _ at hexpr
    simp only [hl, hr, ok_bind] at hexpr
    refine prints_of_expression ht hexpr hprec ?_
    rw [body, if_pos rfl]
    exact sets_operator htoken (sets_powerBase hxa hsl) hsr
  · have htext : (op.text = "**") = False := by
      cases op <;> simp_all [BinaryOp.text]
    obtain ⟨l, hl, hsl⟩ := hx op.level
    obtain ⟨r, hr, hsr⟩ := hy (op.level + 1)
    simp only [htext, decide_false, Bool.false_eq_true, if_false, hl, hr, ok_bind, Bool.false_and] at hexpr
    refine prints_of_expression ht hexpr hprec ?_
    rw [body, if_neg hpow]
    exact sets_operator htoken hsl hsr

theorem prints_assign {op : AssignOp} {v : Expr} (ht : t.type? = some "AssignmentExpression")
    (hop : t.get? "operator" = some (.str op.text)) (ha : t.get? "left" = some a)
    (hb : t.get? "right" = some b) (hx : Prints x a) (hv : Prints v b) : Prints (.assign op x v) t := by
  obtain ⟨l, hl, hsl⟩ := hx.field ha 16
  obtain ⟨r, hr, hsr⟩ := hv.field hb 1
  have hexpr : expression t (readerOf t) = .ok (.cat [l, .text (" " ++ op.text ++ " "), r]) := by
    unfold expression
    rw [ht]
    show ((readerOf t).field (.expr 16) "left" >>= fun l => (readerOf t).field (.expr 1) "right" >>= fun r =>
      textOf t "operator" >>= fun o => pure (Layout.cat [l, .text (" " ++ o ++ " "), r])) = _
    rw [hl, hr, textOf_str hop]
    rfl
  refine prints_of_expression ht hexpr (by unfold precedenceOf; rw [ht]; rfl) ?_
  rw [body]
  exact sets_operator (chars_operatorToken _) hsl hsr

theorem prints_cond {c y : Expr} {d : Tree} (ht : t.type? = some "ConditionalExpression")
    (ha : t.get? "test" = some a) (hb : t.get? "consequent" = some b) (hd : t.get? "alternate" = some d)
    (hc : Prints c a) (hx : Prints x b) (hy : Prints y d) : Prints (.cond c x y) t := by
  obtain ⟨l₁, h₁, hs₁⟩ := hc.field ha 3
  obtain ⟨l₂, h₂, hs₂⟩ := hx.field hb 1
  obtain ⟨l₃, h₃, hs₃⟩ := hy.field hd 1
  have hexpr : expression t (readerOf t) = .ok (.cat [l₁, .text " ? ", l₂, .text " : ", l₃]) := by
    unfold expression
    rw [ht]
    show ((readerOf t).field (.expr 3) "test" >>= fun c => (readerOf t).field (.expr 1) "consequent" >>=
      fun x => (readerOf t).field (.expr 1) "alternate" >>= fun y =>
        pure (Layout.cat [c, .text " ? ", x, .text " : ", y])) = _
    rw [h₁, h₂, h₃]
    rfl
  refine prints_of_expression ht hexpr (by unfold precedenceOf; rw [ht]; rfl) ?_
  have hcat := sets_cat_cons hs₁ (sets_cat_cons (sets_text " ? ") (sets_cat_cons hs₂
    (sets_cat_cons (sets_text " : ") (sets_cat_cons hs₃ sets_cat_nil))))
  simpa [body, spaced, Piece.chars, Token.chars, charsOf] using hcat

/-- Trees in a list are laid out as their expressions are spelled. -/
def PrintsAll (es : List Expr) (ts : List Tree) : Prop :=
  ∃ ls, (layoutItems (.expr 1) ts).mapM id = .ok ls ∧ List.Forall₂ Sets ls ((parts es).map charsOf)

theorem printsAll_cons {es : List Expr} (h : Prints e t) (hs : PrintsAll es ts) :
    PrintsAll (e :: es) (t :: ts) := by
  obtain ⟨l, hl, hsl⟩ := h 1
  obtain ⟨ls, hls, hsls⟩ := hs
  refine ⟨l :: ls, ?_, .cons hsl hsls⟩
  rw [layoutItems, List.mapM_cons, hls, id, hl]
  rfl

theorem prints_seq {es : List Expr} (ht : t.type? = some "SequenceExpression")
    (hts : t.get? "expressions" = some (.list ts)) (hes : PrintsAll es ts) : Prints (.seq es) t := by
  obtain ⟨l, hl, hs⟩ := exists_join hts hes
  have hexpr : expression t (readerOf t) = .ok l := by
    unfold expression
    rw [ht]
    exact hl
  refine prints_of_expression ht hexpr (by unfold precedenceOf; rw [ht]; rfl) ?_
  rwa [body]

theorem prints_call {f : Expr} {es : List Expr} (ht : t.type? = some "CallExpression")
    (ha : t.get? "callee" = some a) (hts : t.get? "arguments" = some (.list ts)) (hf : Prints f a)
    (hfa : a.type? = some f.nodeType) (hes : PrintsAll es ts) : Prints (.call f es) t := by
  obtain ⟨l, hl, hsl⟩ := hf.field ha 16
  obtain ⟨args, hargs, hsargs⟩ := exists_join hts hes
  have hcallee : t.get "callee" = a := by
    unfold Tree.get
    rw [ha]
    rfl
  have hplain : a.isTypeIn ["FunctionExpression", "ClassExpression"] = false := by
    have hnone : ∀ s ∈ Expr.nodeTypes, s ∉ ["FunctionExpression", "ClassExpression"] := by decide
    rw [isTypeIn_of_type? hfa, decide_eq_false_iff_not]
    exact hnone _ f.nodeType_mem
  have hexpr : expression t (readerOf t) = .ok (.cat [l, args.parenthesized]) := by
    unfold expression
    rw [ht]
    show callLayout t (readerOf t) = _
    simp only [callLayout, hcallee, hplain, Emit.arguments]
    change ((readerOf t).field (.expr 16) "callee" >>= fun l =>
      Layout.parenthesized <$> (readerOf t).join (.expr 1) "arguments" ", " >>= _) = _
    rw [hl, hargs]
    rfl
  refine prints_of_expression ht hexpr (by unfold precedenceOf; rw [ht]; rfl) ?_
  have hcat := sets_cat_cons hsl (sets_cat_cons (sets_parenthesized hsargs) sets_cat_nil)
  rw [List.append_nil] at hcat
  rw [body, charsOf_append]
  exact hcat

theorem prints_index {o i : Expr} (ht : t.type? = some "MemberExpression")
    (hcomputed : (t.get "computed").isSet) (ha : t.get? "object" = some a)
    (hb : t.get? "property" = some b) (ho : Prints o a) (hi : Prints i b) : Prints (.index o i) t := by
  obtain ⟨l, hl, hsl⟩ := ho.field ha 16
  obtain ⟨r, hr, hsr⟩ := hi.field hb 0
  have hexpr : expression t (readerOf t) = .ok (.cat [l, .text "[", r, .text "]"]) := by
    unfold expression
    rw [ht]
    show member t (readerOf t) = _
    simp only [member, hcomputed]
    change ((readerOf t).field (.expr 16) _ >>= fun l => (readerOf t).field (.expr 0) _ >>= _) = _
    rw [hl, hr]
    rfl
  refine prints_of_expression ht hexpr (by unfold precedenceOf; rw [ht]; rfl) ?_
  have hcat := sets_cat_cons hsl (sets_cat_cons (sets_text "[") (sets_cat_cons hsr
    (sets_cat_cons (sets_text "]") sets_cat_nil)))
  simpa [body, enclose, Piece.sign, Piece.chars, Token.chars, charsOf] using hcat

theorem prints_dot {o : Expr} {name : String} {p : Tree} (ht : t.type? = some "MemberExpression")
    (hcomputed : (t.get "computed").isSet = false) (ha : t.get? "object" = some a)
    (hp : t.get? "property" = some p) (hname : p.get? "name" = some (.str name)) (ho : Prints o a) :
    Prints (.dot o name) t := by
  obtain ⟨l, hl, hsl⟩ := ho.field ha 16
  have hneed : t.need "property" = .ok p := by
    unfold need
    rw [hp]
  have hexpr : expression t (readerOf t) = .ok (.cat [.wrapIf .digits "(" ")" l, .text ("." ++ name)]) := by
    unfold expression
    rw [ht]
    show member t (readerOf t) = _
    simp only [member, hcomputed, nameIn, hneed, ok_bind, textOf_str hname]
    change ((readerOf t).field (.expr 16) _ >>= _) = _
    rw [hl]
    rfl
  refine prints_of_expression ht hexpr (by unfold precedenceOf; rw [ht]; rfl) ?_
  have hcat := sets_cat_cons (sets_wrapIf .digits "(" ")" hsl)
    (sets_cat_cons (sets_text ("." ++ name)) sets_cat_nil)
  simp only [TextTest.holds, String.toList_ofList] at hcat
  rw [body]
  split
  · rename_i h
    rw [if_pos h] at hcat
    simpa [parens, Piece.sign, Piece.chars, Token.chars, charsOf] using hcat
  · rename_i h
    rw [if_neg h] at hcat
    simpa [Piece.sign, Piece.chars, Token.chars, charsOf] using hcat

/-- The elements of an array are laid out as they are spelled; a hole as nothing. -/
def PrintsElements (es : List (Option Expr)) (ts : List Tree) : Prop :=
  ∃ ls, (layoutItems .element ts).mapM id = .ok ls ∧ List.Forall₂ Sets ls ((elementParts es).map charsOf)

theorem printsElements_cons (ht : t.type? = some e.nodeType) (h : Prints e t) (hs : PrintsElements es ts) :
    PrintsElements (some e :: es) (t :: ts) := by
  obtain ⟨l, hl, hsl⟩ := h 1
  obtain ⟨ls, hls, hsls⟩ := hs
  refine ⟨l :: ls, ?_, .cons hsl hsls⟩
  have hrole : layout .element t = layout (.expr 1) t := by
    obtain ⟨m, fs, rfl⟩ := isObject_of_type? ht
    rfl
  rw [layoutItems, List.mapM_cons, hls, id, hrole, hl]
  rfl

theorem prints_array (ht : t.type? = some "ArrayExpression") (hts : t.get? "elements" = some (.list ts))
    (hlast : (ts.getLast?).any Tree.isNull = endsInHole es) (hes : PrintsElements es ts) :
    Prints (.array es) t := by
  obtain ⟨l, hl, hs⟩ := exists_join hts hes
  have hchildren : t.children "elements" = ts := by
    unfold children Tree.get
    rw [hts]
    rfl
  have hexpr : expression t (readerOf t) = .ok (.cat [.text "[", l,
      .text (if endsInHole es then ",]" else "]")]) := by
    simp only [expression, ht, Emit.array, hl, hchildren, hlast]
    rfl
  refine prints_of_expression ht hexpr (by unfold precedenceOf; rw [ht]; rfl) ?_
  have hcat := sets_cat_cons (sets_text "[") (sets_cat_cons hs (sets_cat_cons
    (sets_text (if endsInHole es then ",]" else "]")) sets_cat_nil))
  rw [body]
  split
  · rename_i h
    rw [if_pos h] at hcat
    simpa [Piece.sign, Piece.chars, Token.chars, charsOf] using hcat
  · rename_i h
    rw [if_neg h] at hcat
    simpa [Piece.sign, Piece.chars, Token.chars, charsOf] using hcat

/-! ## All expressions -/

/-- The last element is a hole in the tree when it is one in the array. -/
theorem getLast?_isNull_of_reads {names : NameChars} (h : ReadsElements names es ts) :
    (ts.getLast?).any Tree.isNull = endsInHole es := by
  unfold endsInHole
  induction es generalizing ts with
  | nil =>
    obtain rfl : ts = [] := h
    rfl
  | cons x es ih =>
    have hcons : ∃ t rest, ts = t :: rest ∧ ReadsElements names es rest ∧ t.isNull = x.isNone := by
      cases x with
      | none =>
        obtain ⟨rest, rfl, hrest⟩ := h
        exact ⟨_, _, rfl, hrest, rfl⟩
      | some e =>
        obtain ⟨t, rest, rfl, he, hrest⟩ := h
        obtain ⟨m, fs, rfl⟩ := isObject_of_type? he.type?
        exact ⟨_, _, rfl, hrest, rfl⟩
    obtain ⟨t, rest, rfl, hrest, ht⟩ := hcons
    cases es with
    | nil =>
      obtain rfl : rest = [] := hrest
      simpa using ht
    | cons y es =>
      cases rest with
      | nil => cases y <;> simp [ReadsElements] at hrest
      | cons u rest =>
        rw [List.getLast?_cons_cons, List.getLast?_cons_cons]
        exact ih hrest

mutual

/-- **A tree is printed as its expression is spelled.** -/
theorem prints_of_reads {names : NameChars} : ∀ {e : Expr} {t : Tree}, Reads names e t → Prints e t
  | .ident _, _, h => prints_ident h.1 h.2.1
  | .num .., _, h => prints_num h.1 h.2
  | .array _, _, h => by
    obtain ⟨ht, ts, hts, hes⟩ := h
    exact prints_array ht hts (getLast?_isNull_of_reads hes) (printsElements_of_reads hes)
  | .unary .., _, h => by
    obtain ⟨ht, hop, a, ha, he⟩ := h
    exact prints_unary ht hop ha (prints_of_reads he)
  | .update .., _, h => by
    obtain ⟨ht, hop, hpre, -, a, ha, he⟩ := h
    exact prints_update ht hop hpre ha (prints_of_reads he)
  | .binary .., _, h => by
    obtain ⟨ht, hop, a, b, ha, hb, hl, hr⟩ := h
    exact prints_binary ht hop ha hb (prints_of_reads hl) (prints_of_reads hr) hl.type?
  | .cond .., _, h => by
    obtain ⟨ht, a, b, d, ha, hb, hd, hc, hx, hy⟩ := h
    exact prints_cond ht ha hb hd (prints_of_reads hc) (prints_of_reads hx) (prints_of_reads hy)
  | .assign .., _, h => by
    obtain ⟨ht, hop, -, a, b, ha, hb, hx, hv⟩ := h
    exact prints_assign ht hop ha hb (prints_of_reads hx) (prints_of_reads hv)
  | .seq _, _, h => by
    obtain ⟨ht, -, ts, hts, hes⟩ := h
    exact prints_seq ht hts (printsAll_of_reads hes)
  | .dot .., _, h => by
    obtain ⟨ht, hcomputed, -, a, p, ha, hp, hname, ho⟩ := h
    exact prints_dot ht hcomputed ha hp hname (prints_of_reads ho)
  | .index .., _, h => by
    obtain ⟨ht, hcomputed, a, b, ha, hb, ho, hi⟩ := h
    exact prints_index ht hcomputed ha hb (prints_of_reads ho) (prints_of_reads hi)
  | .call .., _, h => by
    obtain ⟨ht, a, ts, ha, hts, hf, hes⟩ := h
    exact prints_call ht ha hts (prints_of_reads hf) hf.type? (printsAll_of_reads hes)

theorem printsAll_of_reads {names : NameChars} :
    ∀ {es : List Expr} {ts : List Tree}, ReadsAll names es ts → PrintsAll es ts
  | [], _, h => by
    obtain rfl := h
    exact ⟨[], rfl, .nil⟩
  | _ :: _, _, h => by
    obtain ⟨a, rest, rfl, he, hes⟩ := h
    exact printsAll_cons (prints_of_reads he) (printsAll_of_reads hes)

theorem printsElements_of_reads {names : NameChars} :
    ∀ {es : List (Option Expr)} {ts : List Tree}, ReadsElements names es ts → PrintsElements es ts
  | [], _, h => by
    obtain rfl := h
    exact ⟨[], rfl, .nil⟩
  | none :: _, _, h => by
    obtain ⟨rest, rfl, hes⟩ := h
    obtain ⟨ls, hls, hsls⟩ := printsElements_of_reads hes
    refine ⟨.text "" :: ls, ?_, .cons (sets_text "") hsls⟩
    rw [layoutItems, List.mapM_cons, hls]
    rfl
  | some _ :: _, _, h => by
    obtain ⟨a, rest, rfl, he, hes⟩ := h
    exact printsElements_cons he.type? (prints_of_reads he) (printsElements_of_reads hes)

end

/-- The text that is generated for an expression, whatever the comments and the indentation. -/
theorem generate_of_reads {names : NameChars} (h : Reads names e t) (queue : CommentQueue) (unit : String) :
    generate t queue unit = .ok (String.ofList (charsOf (body e))) := by
  obtain ⟨l, hl, hs⟩ := prints_of_reads h 0
  have hother : ∀ s ∈ Expr.nodeTypes, s ≠ "Program" ∧ s ∉ statementTypes := by decide
  obtain ⟨hprogram, hstatement⟩ := hother _ e.nodeType_mem
  have hlayout : programLayout t = .ok l := by
    unfold programLayout
    rw [isType_of_type? h.type?, isTypeIn_of_type? h.type?, decide_eq_false hprogram,
      decide_eq_false hstatement]
    exact hl
  unfold generate
  rw [hlayout, ok_bind, hs unit 0 queue]
  rfl

end Downlevel.Expression
