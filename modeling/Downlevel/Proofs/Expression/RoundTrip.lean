import Downlevel.Proofs.Expression.Descent

/-!
# `Proofs.Expression.RoundTrip`: printed expressions are read as themselves

The tokens of a printed expression are read as the expression in every place, because each kind of
expression is read on its own level and parentheses stand wherever the place asks for a tighter one.
-/

namespace Downlevel.Expression

open Emit

variable {e l r x o : Expr} {ts rest ts' : List Token} {n : Nat} {op : BinaryOp} {es : List Expr}

/-! ## Places -/

@[simp] theorem tokensOf_parens (ps : List Piece) :
    tokensOf (parens ps) = .sign "(" :: (tokensOf ps ++ [.sign ")"]) := by
  simp [parens, Piece.sign, tokensOf, Piece.token?]

@[simp] theorem tokensOf_sign (s : String) (ps : List Piece) :
    tokensOf (.sign s :: ps) = .sign s :: tokensOf ps := rfl

@[simp] theorem tokensOf_nil : tokensOf [] = [] := rfl

@[simp] theorem tokensOf_spaced (a : Token) : tokensOf (spaced a) = [a] := rfl

/-- An expression in parentheses is read on every level. -/
theorem readsMember_parens (h : ReadsAt 0 e ts) : ReadsMember e (.sign "(" :: (ts ++ [.sign ")"])) := by
  refine ⟨1, by simp, ?_⟩
  intro n rest hn
  simp only [fuelFor, List.length_cons, List.length_append, List.length_nil] at hn
  obtain ⟨n, rfl⟩ : ∃ k, n = k + 2 := ⟨n - 2, by omega⟩
  have hinner : parseSequence n (ts ++ .sign ")" :: rest) = some (e, .sign ")" :: rest) :=
    h n _ (stops_closing (by simp) 0 rest) (by unfold fuelFor; omega)
  simp [parseMember, parsePrimary, hinner, expect]

/-- The expression is read back in every place. -/
structure ReadsBack (e : Expr) : Prop where
  opens : ∃ a ts, tokensOf (spell 1 e) = a :: ts ∧ Opens a
  readsAt : ∀ p ≤ 16, ReadsAt p e (tokensOf (spell p e))
  member : ReadsMember e (tokensOf (spell 16 e))
  tail : ∀ q, 3 ≤ q → q ≤ 12 → ReadsTail q e (tokensOf (spell q e))
  base : ReadsAt 15 e (tokensOf (powerBase e (spell 14 e)))

theorem ReadsBack.length_pos (h : ReadsBack e) : 0 < (tokensOf (spell 1 e)).length := by
  obtain ⟨a, ts, hts, -⟩ := h.opens
  simp [hts]

/-- No expression starts with a token at which none can. -/
theorem ReadsBack.head?_ne (h : ReadsBack e) {a : Token} (ha : ¬ Opens a) (rest : List Token) :
    (tokensOf (spell 1 e) ++ rest).head? ≠ some a := by
  obtain ⟨b, ts, hts, hb⟩ := h.opens
  rw [hts]
  intro heq
  obtain rfl : b = a := by simpa using heq
  exact ha hb

/-- How an expression is read on its own level. An update is read one level tighter than `++` or `--` in
front of it binds. -/
inductive ReadsOwn : Expr → List Token → Prop where
  | member {e : Expr} {ts : List Token} (hlevel : 16 ≤ e.level) (h : ReadsMember e ts) : ReadsOwn e ts
  | update {op : UpdateOp} {isPrefix : Bool} {e : Expr} {ts : List Token}
      (h : ReadsAt 15 (.update op isPrefix e) ts) : ReadsOwn (.update op isPrefix e) ts
  | unary {op : UnaryOp} {e : Expr} {ts : List Token} (h : ReadsAt 14 (.unary op e) ts) :
      ReadsOwn (.unary op e) ts
  | tail {e : Expr} {ts : List Token} (hlo : 3 ≤ e.level) (hhi : e.level ≤ 12)
      (h : ReadsTail e.level e ts) : ReadsOwn e ts
  | plain {e : Expr} {ts : List Token} (hlevel : e.level < 3 ∨ e.level = 13)
      (h : ReadsAt e.level e ts) : ReadsOwn e ts

theorem Expr.level_update (op : UpdateOp) (isPrefix : Bool) (e : Expr) :
    14 ≤ (Expr.update op isPrefix e).level ∧ (Expr.update op isPrefix e).level ≤ 15 := by
  cases isPrefix <;> simp [Expr.level]

theorem ReadsOwn.readsAt (h : ReadsOwn e ts) {p : Nat} (hp : p ≤ e.level) (hp' : p ≤ 16) :
    ReadsAt p e ts := by
  cases h with
  | member hlevel h => exact h.readsAt.mono hp' le_rfl
  | update h => exact h.mono (hp.trans (Expr.level_update _ _ _).2) (by omega)
  | unary h => exact h.mono hp (by omega)
  | tail hlo hhi h => exact (h.readsAt hlo hhi).mono hp (by omega)
  | plain hlevel h => exact h.mono hp (by omega)

theorem ReadsOwn.readsMember (h : ReadsOwn e ts) (hlevel : 16 ≤ e.level) : ReadsMember e ts := by
  cases h with
  | member _ h => exact h
  | @update op isPrefix e _ h =>
    have := (Expr.level_update op isPrefix e).2
    omega
  | unary h => simp [Expr.level] at hlevel
  | tail _ hhi h => omega
  | plain h' h => omega

theorem ReadsOwn.readsTail (h : ReadsOwn e ts) (hlo : 3 ≤ e.level) (hhi : e.level ≤ 12) :
    ReadsTail e.level e ts := by
  cases h with
  | member h' h => omega
  | @update op isPrefix e _ h =>
    have := (Expr.level_update op isPrefix e).1
    omega
  | unary h => simp [Expr.level] at hhi
  | tail _ _ h => exact h
  | plain h' h => omega

/-- Only a unary expression binds more tightly than a power and is no base of one. -/
theorem ReadsOwn.readsBase (h : ReadsOwn e ts) (hlevel : 14 ≤ e.level) (he : ∀ op x, e ≠ .unary op x) :
    ReadsAt 15 e ts := by
  cases h with
  | member _ h => exact h.readsAt.mono (by omega) le_rfl
  | update h => exact h
  | unary h => exact absurd rfl (he _ _)
  | tail _ hhi h => omega
  | plain h' h => omega

/-- A unary expression in front of `**` always stands in parentheses. -/
theorem powerBase_unary (op : UnaryOp) (e : Expr) :
    powerBase (.unary op e) (spell 14 (.unary op e)) = parens (body (.unary op e)) := by
  have hspell : spell 14 (.unary op e) = body (.unary op e) := rfl
  have hhead : (charsOf (body (.unary op e))).head? ≠ some '(' := by
    rw [body, charsOf_cons, Piece.chars]
    cases op <;> simp [UnaryOp.token, chars_operatorToken, UnaryOp.text]
  rw [hspell, powerBase, if_neg (by simpa using hhead)]

theorem powerBase_of_ne_unary (he : ∀ op x, e ≠ .unary op x) (ps : List Piece) : powerBase e ps = ps := by
  cases e with
  | unary op x => exact absurd rfl (he op x)
  | _ => rfl

/-- **An expression that is read on its own level is read back in every place.** -/
theorem readsBack_of_own {names : NameChars} (hvalid : e.Valid names)
    (h : ReadsOwn e (tokensOf (body e))) : ReadsBack e := by
  have hsolid := solid_body hvalid
  have hopens : ∀ {ps}, Solid names ps → ∃ a ts, tokensOf ps = a :: ts ∧ Opens a := by
    intro ps hps
    obtain ⟨a, ha, hopens⟩ := hps.opens
    obtain ⟨rest, rfl⟩ := List.head?_eq_some_iff.mp ha
    exact ⟨a, tokensOf rest, rfl, hopens⟩
  have hpos : ∀ {ps}, Solid names ps → 0 < (tokensOf ps).length := by
    intro ps hps
    obtain ⟨a, ts, hts, -⟩ := hopens hps
    simp [hts]
  have hparens : ReadsMember e (tokensOf (parens (body e))) := by
    rw [tokensOf_parens]
    exact readsMember_parens (h.readsAt (Nat.zero_le _) (Nat.zero_le _))
  have hspell : ∀ p, spell p e = if e.level < p then parens (body e) else body e := fun _ => rfl
  refine ⟨hopens (hsolid.enclose _ _), ?_, ?_, ?_, ?_⟩
  · intro p hp
    rw [hspell]
    split
    · exact hparens.readsAt.mono hp le_rfl
    · exact h.readsAt (by omega) hp
  · rw [hspell]
    split
    · exact hparens
    · exact h.readsMember (by omega)
  · intro q hlo hhi
    rw [hspell]
    split
    · exact (hparens.readsAt.mono (by omega) le_rfl).readsTail hlo hhi (hpos hsolid.parens)
    · by_cases heq : e.level = q
      · subst heq
        exact h.readsTail hlo hhi
      · exact (h.readsAt (by omega) (by omega)).readsTail hlo hhi (hpos hsolid)
  · by_cases he : ∃ op x, e = .unary op x
    · obtain ⟨op, x, rfl⟩ := he
      rw [powerBase_unary]
      exact hparens.readsAt.mono (by omega) le_rfl
    · have he : ∀ op x, e ≠ .unary op x := fun op x heq => he ⟨op, x, heq⟩
      rw [powerBase_of_ne_unary he, hspell]
      split
      · exact hparens.readsAt.mono (by omega) le_rfl
      · exact h.readsBase (by omega) he

/-! ## Operators -/

theorem readsOwn_unary {op : UnaryOp} (h : ReadsBack e) :
    ReadsOwn (.unary op e) (tokensOf (body (.unary op e))) := by
  refine .unary ?_
  have htokens : tokensOf (body (.unary op e)) = op.token :: tokensOf (spell 14 e) := by
    simp only [body, spell]
    split <;> simp
  rw [htokens]
  intro n rest hrest hn
  simp only [fuelFor, List.length_cons] at hn
  obtain ⟨n, rfl⟩ : ∃ k, n = k + 1 := ⟨n - 1, by omega⟩
  have hinner : parseUnary n (tokensOf (spell 14 e) ++ rest) = some (e, rest) :=
    h.readsAt 14 (by omega) n rest hrest (by unfold fuelFor; omega)
  simp [parseAt, parseUnary, UnaryOp.ofToken?_token, hinner]

theorem level_of_isTarget (h : e.isTarget) : 19 ≤ e.level := by
  cases e <;> simp_all [Expr.isTarget, Expr.level]

theorem spell_of_le {p : Nat} (h : p ≤ e.level) : spell p e = body e := if_neg (by omega)

theorem readsOwn_update {op : UpdateOp} {isPrefix : Bool} (htarget : e.isTarget) (h : ReadsBack e) :
    ReadsOwn (.update op isPrefix e) (tokensOf (body (.update op isPrefix e))) := by
  refine .update ?_
  intro n rest hrest hn
  cases isPrefix with
  | true =>
    have htokens : tokensOf (body (.update op true e)) = op.token :: tokensOf (spell 14 e) := by
      simp [body, spell]
    rw [htokens] at hn ⊢
    simp only [fuelFor, List.length_cons] at hn
    obtain ⟨n, rfl⟩ : ∃ k, n = k + 1 := ⟨n - 1, by omega⟩
    have hinner : parseUnary n (tokensOf (spell 14 e) ++ rest) = some (e, rest) :=
      h.readsAt 14 (by omega) n rest hrest.unary (by unfold fuelFor; omega)
    simp [parseAt, parseUpdate, UpdateOp.ofToken?_token, hinner, htarget]
  | false =>
    have hlevel := level_of_isTarget htarget
    have htokens : tokensOf (body (.update op false e)) = tokensOf (spell 16 e) ++ [op.token] := by
      have : enclose e.level 15 (body e) = spell 16 e := by
        rw [spell_of_le (by omega), enclose, if_neg (by omega)]
      simp [body, this]
    rw [htokens] at hn ⊢
    simp only [fuelFor, List.length_append, List.length_singleton] at hn
    obtain ⟨n, rfl⟩ : ∃ k, n = k + 1 := ⟨n - 1, by omega⟩
    have hinner : parseMember n (tokensOf (spell 16 e) ++ op.token :: rest) = some (e, op.token :: rest) :=
      h.readsAt 16 le_rfl n _ (stops_update op rest) (by unfold fuelFor; omega)
    rw [List.append_assoc]
    show parseUpdate (n + 1) (tokensOf (spell 16 e) ++ op.token :: rest) = _
    rw [parseUpdate, (head?_of_member hinner).2, hinner]
    simp [UpdateOp.ofToken?_token, htarget]

/-- Powers group to the right. -/
theorem readsOwn_pow (hl : ReadsBack l) (hr : ReadsBack r) :
    ReadsOwn (.binary .pow l r) (tokensOf (body (.binary .pow l r))) := by
  refine .plain (.inr rfl) ?_
  have htokens : tokensOf (body (.binary .pow l r)) =
      tokensOf (powerBase l (spell 14 l)) ++ BinaryOp.pow.token :: tokensOf (spell 13 r) := by
    simp [body, spell]
  rw [htokens]
  intro n rest hrest hn
  simp only [fuelFor, List.length_append, List.length_cons] at hn
  obtain ⟨n, rfl⟩ : ∃ k, n = k + 2 := ⟨n - 2, by omega⟩
  have hbase := hl.base n (BinaryOp.pow.token :: (tokensOf (spell 13 r) ++ rest))
    ((stops_binary .pow _).mono (by decide)) (by unfold fuelFor; omega)
  have hexponent : parseBinary (n + 1) 13 (tokensOf (spell 13 r) ++ rest) = some (r, rest) :=
    hr.readsAt 13 (by omega) (n + 1) rest hrest (by unfold fuelFor; omega)
  have hexponent : parsePower n (tokensOf (spell 13 r) ++ rest) = some (r, rest) := by
    simpa [parseBinary] using hexponent
  show parseBinary (n + 2) 13 _ = _
  rw [List.append_assoc, List.cons_append]
  simp only [parseAt] at hbase
  rw [parseBinary, parsePower, head?_of_update hbase, hbase]
  simp [hexponent]

/-- The other operators group to the left: the left operand is read up to the operator, and both go on
as one operand. -/
theorem readsOwn_binary (hop : op ≠ .pow) (hl : ReadsBack l) (hr : ReadsBack r) :
    ReadsOwn (.binary op l r) (tokensOf (body (.binary op l r))) := by
  obtain ⟨hlo, hhi⟩ : 3 ≤ op.level ∧ op.level ≤ 12 := by cases op <;> simp_all [BinaryOp.level]
  refine .tail hlo hhi ?_
  have htokens : tokensOf (body (.binary op l r)) =
      tokensOf (spell op.level l) ++ op.token :: tokensOf (spell (op.level + 1) r) := by
    simp [body, hop, spell]
  obtain ⟨k, hk, hleft⟩ := hl.tail op.level hlo hhi
  rw [htokens]
  refine ⟨k + 1, by simp; omega, ?_⟩
  intro n rest hrest hn
  have hrest : Stops (op.level + 1) rest := hrest
  have hn : fuelFor op.level (tokensOf (spell op.level l) ++
    op.token :: tokensOf (spell (op.level + 1) r)).length ≤ n := hn
  simp only [fuelFor, List.length_append, List.length_cons] at hn
  have hright := hr.readsAt (op.level + 1) (by omega) (n - (k + 1)) rest hrest (by unfold fuelFor; omega)
  rw [parseAt_eq_binary (by omega) (by omega)] at hright
  have hfuel : n - k = n - (k + 1) + 1 := by omega
  show parseBinary n op.level _ = parseTail (n - (k + 1)) op.level _ rest
  rw [List.append_assoc, List.cons_append, hleft n _ (stops_binary op _) (by unfold fuelFor; omega),
    hfuel]
  simp [parseTail, BinaryOp.ofToken?_token, hright]

theorem readsOwn_cond {c y : Expr} (hc : ReadsBack c) (hx : ReadsBack x) (hy : ReadsBack y) :
    ReadsOwn (.cond c x y) (tokensOf (body (.cond c x y))) := by
  refine .plain (.inl (by simp [Expr.level])) ?_
  have htokens : tokensOf (body (.cond c x y)) =
      tokensOf (spell 3 c) ++ .sign "?" :: (tokensOf (spell 1 x) ++ .sign ":" :: tokensOf (spell 1 y)) := by
    simp [body, spell]
  rw [htokens]
  intro n rest hrest hn
  simp only [fuelFor, List.length_append, List.length_cons] at hn
  obtain ⟨n, rfl⟩ : ∃ k, n = k + 1 := ⟨n - 1, by omega⟩
  have hrest : Stops 2 rest := hrest
  -- an assignment behind the conditional would belong to its last branch
  have hlast : Stops 1 rest := by
    intro a ha q hq hle
    rcases Nat.eq_or_lt_of_le hle with rfl | hlt
    · have := hrest a ha 2 (by omega) le_rfl
      simp only [Continues, Bool.or_eq_false_iff] at this ⊢
      exact this.2
    · exact hrest a ha q hq hlt
  have htest := hc.readsAt 3 (by omega) n _ (stops_question (tokensOf (spell 1 x) ++
    .sign ":" :: (tokensOf (spell 1 y) ++ rest))) (by unfold fuelFor; omega)
  have hthen := hx.readsAt 1 (by omega) n (.sign ":" :: (tokensOf (spell 1 y) ++ rest))
    (stops_closing (by simp) 1 _) (by unfold fuelFor; omega)
  have helse := hy.readsAt 1 (by omega) n rest hlast (by unfold fuelFor; omega)
  show parseConditional (n + 1) _ = _
  simp only [parseAt] at htest hthen helse
  simp [parseConditional, htest, hthen, helse, expect]

theorem readsOwn_assign {op : AssignOp} {v : Expr} (htarget : x.isTarget) (hx : ReadsBack x)
    (hv : ReadsBack v) : ReadsOwn (.assign op x v) (tokensOf (body (.assign op x v))) := by
  refine .plain (.inl (by simp [Expr.level])) ?_
  have hlevel := level_of_isTarget htarget
  have htokens : tokensOf (body (.assign op x v)) =
      tokensOf (spell 3 x) ++ op.token :: tokensOf (spell 1 v) := by
    have : enclose x.level 16 (body x) = spell 3 x := by
      rw [spell_of_le (by omega), enclose, if_neg (by omega)]
    simp [body, this, spell]
  rw [htokens]
  intro n rest hrest hn
  simp only [fuelFor, List.length_append, List.length_cons] at hn
  obtain ⟨n, rfl⟩ : ∃ k, n = k + 2 := ⟨n - 2, by omega⟩
  have hquestion : op.token ≠ .sign "?" := by cases op <;> decide
  have hx' := hx.readsAt 3 (by omega) n _ (stops_assign op (tokensOf (spell 1 v) ++ rest))
    (by unfold fuelFor; omega)
  have hcond := parseConditional_of_binary hx' (by simpa using hquestion)
  have hv' := hv.readsAt 1 (by omega) (n + 1) rest hrest (by unfold fuelFor; omega)
  show parseAssignment (n + 2) _ = _
  rw [List.append_assoc]
  simp only [parseAt] at hv'
  rw [List.cons_append, parseAssignment, hcond]
  simp [AssignOp.ofToken?_token, htarget, hv']

/-! ## Lists -/

theorem parts_eq_map (es : List Expr) : parts es = es.map (spell 1) := by
  induction es with
  | nil => rfl
  | cons e es ih =>
    rw [parts, ih]
    rfl

/-- Expressions, each behind a comma. -/
def moreTokens (es : List Expr) : List Token := es.flatMap fun e => .sign "," :: tokensOf (spell 1 e)

theorem moreTokens_cons (e : Expr) (es : List Expr) :
    moreTokens (e :: es) = .sign "," :: (tokensOf (spell 1 e) ++ moreTokens es) := rfl

theorem tokensOf_commaList_parts (e : Expr) (es : List Expr) :
    tokensOf (commaList (parts (e :: es))) = tokensOf (spell 1 e) ++ moreTokens es := by
  rw [parts_eq_map]
  unfold commaList
  induction es generalizing e with
  | nil => simp [List.intercalate_singleton, moreTokens]
  | cons e' es ih =>
    rw [List.map_cons, List.map_cons, List.intercalate_cons_cons, tokensOf_append, tokensOf_append,
      ← List.map_cons, ih, moreTokens_cons]
    simp

/-- What follows an expression of a list ends it. -/
theorem stops_more (es : List Expr) (hrest : Stops 1 rest) : Stops 1 (moreTokens es ++ rest) := by
  cases es with
  | nil => exact hrest
  | cons e es => exact stops_comma _

theorem parseMore_moreTokens (h : ∀ e ∈ es, ReadsBack e) (hrest : Stops 0 rest) :
    ∀ n, fuelFor 0 (moreTokens es).length ≤ n →
    parseMore n (moreTokens es ++ rest) = some (es, rest) := by
  induction es with
  | nil =>
    intro n hn
    unfold fuelFor at hn
    obtain ⟨n, rfl⟩ : ∃ k, n = k + 1 := ⟨n - 1, by omega⟩
    have hcomma : rest.head? ≠ some (.sign ",") := hrest.head?_ne (q := 0) (by omega) le_rfl (by decide)
    simp [moreTokens, parseMore, hcomma]
  | cons e es ih =>
    intro n hn
    rw [moreTokens_cons] at hn ⊢
    simp only [fuelFor, List.length_cons, List.length_append] at hn
    obtain ⟨n, rfl⟩ : ∃ k, n = k + 1 := ⟨n - 1, by omega⟩
    have hfirst : parseAssignment n (tokensOf (spell 1 e) ++ (moreTokens es ++ rest)) =
        some (e, moreTokens es ++ rest) :=
      (h e (List.mem_cons_self ..)).readsAt 1 (by omega) n _
        (stops_more es (hrest.mono (by omega))) (by unfold fuelFor; omega)
    have hmore := ih (fun x hx => h x (List.mem_cons_of_mem _ hx)) n (by unfold fuelFor; omega)
    simp [parseMore, hfirst, hmore]

theorem readsOwn_seq (hlength : 2 ≤ es.length) (h : ∀ e ∈ es, ReadsBack e) :
    ReadsOwn (.seq es) (tokensOf (body (.seq es))) := by
  refine .plain (.inl (by simp [Expr.level])) ?_
  rcases es with _ | ⟨e, _ | ⟨e', es⟩⟩
  · cases hlength
  · simp at hlength
  · rw [body, tokensOf_commaList_parts]
    intro n rest hrest hn
    simp only [fuelFor, Expr.level, List.length_append] at hn
    obtain ⟨n, rfl⟩ : ∃ k, n = k + 1 := ⟨n - 1, by omega⟩
    have hpos := (h e (List.mem_cons_self ..)).length_pos
    have hfirst : parseAssignment n (tokensOf (spell 1 e) ++ (moreTokens (e' :: es) ++ rest)) =
        some (e, moreTokens (e' :: es) ++ rest) :=
      (h e (List.mem_cons_self ..)).readsAt 1 (by omega) n _ (stops_comma _) (by unfold fuelFor; omega)
    have hmore := parseMore_moreTokens (fun x hx => h x (List.mem_cons_of_mem _ hx)) hrest n
      (by unfold fuelFor; omega)
    show parseSequence (n + 1) _ = _
    simp [parseSequence, hfirst, hmore]

theorem parseArguments_parts (h : ∀ e ∈ es, ReadsBack e) (rest : List Token) :
    ∀ n, fuelFor 0 (tokensOf (commaList (parts es))).length ≤ n →
      parseArguments n (tokensOf (commaList (parts es)) ++ .sign ")" :: rest) = some (es, rest) := by
  induction es with
  | nil =>
    intro n hn
    unfold fuelFor at hn
    obtain ⟨n, rfl⟩ : ∃ k, n = k + 1 := ⟨n - 1, by omega⟩
    simp [parts, commaList, parseArguments]
  | cons e es ih =>
    intro n hn
    rw [tokensOf_commaList_parts] at hn ⊢
    simp only [fuelFor, List.length_append] at hn
    obtain ⟨n, rfl⟩ : ∃ k, n = k + 1 := ⟨n - 1, by omega⟩
    have he := h e (List.mem_cons_self ..)
    have hpos := he.length_pos
    have hhead := he.head?_ne (a := .sign ")") (by decide) (moreTokens es ++ .sign ")" :: rest)
    have hfirst := he.readsAt 1 (by omega) n (moreTokens es ++ .sign ")" :: rest)
      (stops_more es (stops_closing (by simp) 1 rest)) (by unfold fuelFor; omega)
    rw [List.append_assoc]
    cases es with
    | nil =>
      simp only [parseAt] at hfirst
      rw [parseArguments, if_neg hhead, hfirst]
      rfl
    | cons e' es =>
      have hes := ih (fun x hx => h x (List.mem_cons_of_mem _ hx)) n
        (by
          rw [tokensOf_commaList_parts]
          simp only [moreTokens_cons, List.length_cons, List.length_append] at hn
          simp only [fuelFor, List.length_append]
          omega)
      rw [tokensOf_commaList_parts, List.append_assoc] at hes
      rw [moreTokens_cons, List.cons_append, List.append_assoc] at hhead hfirst ⊢
      simp only [parseAt] at hfirst
      rw [parseArguments, if_neg hhead, hfirst]
      simp [expect, hes]

/-! ## Arrays -/

/-- The tokens between the brackets of an array. -/
def elementTokens (es : List (Option Expr)) : List Token :=
  tokensOf (commaList (elementParts es)) ++ (if endsInHole es then [.sign ","] else [])

theorem endsInHole_cons_cons (x y : Option Expr) (es : List (Option Expr)) :
    endsInHole (x :: y :: es) = endsInHole (y :: es) := by
  simp [endsInHole]

theorem commaList_cons_cons (ps qs : List Piece) (pss : List (List Piece)) :
    commaList (ps :: qs :: pss) = ps ++ [.sign ",", .blank] ++ commaList (qs :: pss) := by
  unfold commaList
  rw [List.intercalate_cons_cons]

theorem elementTokens_hole_cons (x : Option Expr) (es : List (Option Expr)) :
    elementTokens (none :: x :: es) = .sign "," :: elementTokens (x :: es) := by
  cases x <;> simp [elementTokens, endsInHole_cons_cons, elementParts, commaList_cons_cons]

theorem elementTokens_cons_cons (e : Expr) (x : Option Expr) (es : List (Option Expr)) :
    elementTokens (some e :: x :: es) = tokensOf (spell 1 e) ++ .sign "," :: elementTokens (x :: es) := by
  cases x <;> simp [elementTokens, endsInHole_cons_cons, elementParts, commaList_cons_cons, spell]

theorem elementTokens_singleton (e : Expr) : elementTokens [some e] = tokensOf (spell 1 e) := by
  simp [elementTokens, endsInHole, elementParts, commaList, List.intercalate_singleton, spell]

theorem parseElements_hole {es : List (Option Expr)} (h : parseElements n ts = some (es, rest)) :
    parseElements (n + 1) (.sign "," :: ts) = some (none :: es, rest) := by
  simp [parseElements, h]

/-- Holes are read as holes, also at the end: there one more comma is printed. -/
theorem parseElements_elementTokens (rest : List Token) : ∀ {es : List (Option Expr)},
    (∀ e, some e ∈ es → ReadsBack e) → ∀ n, fuelFor 0 (elementTokens es).length ≤ n →
      parseElements n (elementTokens es ++ .sign "]" :: rest) = some (es, rest)
  | [], _, n + 1, _ => by simp [elementTokens, elementParts, commaList, endsInHole, parseElements]
  | [none], _, n + 2, _ => by
    have hlast : parseElements (n + 1) (.sign "]" :: rest) = some ([], rest) := by
      simp [parseElements]
    exact parseElements_hole hlast
  | [some e], h, n + 1, hn => by
    have he := h e (by simp)
    rw [elementTokens_singleton] at hn ⊢
    have hfirst := he.readsAt 1 (by omega) n (.sign "]" :: rest) (stops_closing (by simp) 1 rest)
      (by unfold fuelFor at hn ⊢; omega)
    simp only [parseAt] at hfirst
    rw [parseElements, if_neg (he.head?_ne (by decide) _), if_neg (he.head?_ne (by decide) _), hfirst]
    rfl
  | none :: x :: es, h, n + 1, hn => by
    rw [elementTokens_hole_cons] at hn ⊢
    have hback : ∀ e, some e ∈ x :: es → ReadsBack e := fun e he => h e (List.mem_cons_of_mem _ he)
    have hrest := parseElements_elementTokens rest hback n
      (by simp only [fuelFor, List.length_cons] at hn ⊢; omega)
    exact parseElements_hole hrest
  | some e :: x :: es, h, n + 1, hn => by
    have he := h e (List.mem_cons_self ..)
    rw [elementTokens_cons_cons] at hn ⊢
    simp only [fuelFor, List.length_append, List.length_cons] at hn
    have hback : ∀ e, some e ∈ x :: es → ReadsBack e := fun e he => h e (List.mem_cons_of_mem _ he)
    have hrest := parseElements_elementTokens rest hback n (by unfold fuelFor; omega)
    have hfirst := he.readsAt 1 (by omega) n
      (.sign "," :: (elementTokens (x :: es) ++ .sign "]" :: rest)) (stops_comma _)
      (by unfold fuelFor; omega)
    rw [List.append_assoc, List.cons_append]
    simp only [parseAt] at hfirst
    rw [parseElements, if_neg (he.head?_ne (by decide) _), if_neg (he.head?_ne (by decide) _), hfirst]
    simp [expect, hrest]

/-! ## Primary expressions, members and calls -/

/-- A primary expression is read first; what follows is left to the parser of suffixes. -/
theorem readsMember_of_primary (hts : 0 < ts.length)
    (h : ∀ n rest, fuelFor 16 ts.length ≤ n + 1 → parsePrimary n (ts ++ rest) = some (e, rest)) :
    ReadsMember e ts := by
  refine ⟨1, hts, ?_⟩
  intro n rest hn
  obtain ⟨n, rfl⟩ : ∃ k, n = k + 1 := ⟨n - 1, by unfold fuelFor at hn; omega⟩
  simp [parseMember, h n rest hn]

theorem readsMember_of_token {token : Token}
    (h : ∀ n rest, parsePrimary (n + 1) (token :: rest) = some (e, rest)) : ReadsMember e [token] := by
  refine readsMember_of_primary (by simp) ?_
  intro n rest hn
  simp only [fuelFor, List.length_singleton] at hn
  obtain ⟨n, rfl⟩ : ∃ k, n = k + 1 := ⟨n - 1, by omega⟩
  exact h n rest

theorem readsMember_ident {name : String} (hname : name ∉ reserved) :
    ReadsMember (.ident name) [.word name] :=
  readsMember_of_token fun n rest => by simp [parsePrimary, hname]

theorem readsMember_num {value : Nat} {spelling : String}
    (h : numeral? spelling.toList = some value) : ReadsMember (.num value spelling) [.num spelling] :=
  readsMember_of_token fun n rest => by simp [parsePrimary, h]

theorem readsMember_array {es : List (Option Expr)} (h : ∀ e, some e ∈ es → ReadsBack e) :
    ReadsMember (.array es) (tokensOf (body (.array es))) := by
  have htokens : tokensOf (body (.array es)) = .sign "[" :: (elementTokens es ++ [.sign "]"]) := by
    rw [body, elementTokens]
    split <;> simp
  rw [htokens]
  refine readsMember_of_primary (by simp) ?_
  intro n rest hn
  simp only [fuelFor, List.length_cons, List.length_append, List.length_nil] at hn
  obtain ⟨n, rfl⟩ : ∃ k, n = k + 1 := ⟨n - 1, by omega⟩
  have hes := parseElements_elementTokens rest h n (by unfold fuelFor; omega)
  simp [parsePrimary, hes]

/-- A suffix behind an expression makes it a longer one, for which the next suffix is read. -/
theorem ReadsMember.append {us : List Token} (ho : ReadsMember o ts) (hus : 0 < us.length)
    (h : ∀ n rest, fuelFor 0 us.length ≤ n + 40 →
      parseSuffix (n + 1) o (us ++ rest) = parseSuffix n e rest) : ReadsMember e (ts ++ us) := by
  obtain ⟨k, hk, hread⟩ := ho
  refine ⟨k + 1, by rw [List.length_append]; omega, ?_⟩
  intro n rest hn
  simp only [fuelFor, List.length_append] at hn
  have hfuel : n - k = n - (k + 1) + 1 := by omega
  rw [List.append_assoc, hread n _ (by unfold fuelFor; omega), hfuel]
  exact h _ rest (by unfold fuelFor; omega)

theorem readsMember_dot {name : String} (h : ReadsBack o) :
    ReadsMember (.dot o name) (tokensOf (body (.dot o name))) := by
  have happend : ∀ ps, ReadsMember o (tokensOf ps) →
      ReadsMember (.dot o name) (tokensOf (ps ++ [.sign ".", .token (.word name)])) := by
    intro ps hps
    rw [tokensOf_append]
    refine hps.append (by simp) ?_
    intro n rest _
    simp [parseSuffix]
  rw [body]
  split
  · refine happend _ ?_
    rw [tokensOf_parens]
    exact readsMember_parens (h.member.readsAt.mono (by omega) le_rfl)
  · exact happend _ h.member

theorem readsMember_index {i : Expr} (ho : ReadsBack o) (hi : ReadsBack i) :
    ReadsMember (.index o i) (tokensOf (body (.index o i))) := by
  have htokens : tokensOf (body (.index o i)) =
      tokensOf (spell 16 o) ++ .sign "[" :: (tokensOf (spell 0 i) ++ [.sign "]"]) := by
    simp [body, spell, enclose]
  rw [htokens]
  refine ho.member.append (by simp) ?_
  intro n rest hn
  simp only [fuelFor, List.length_cons, List.length_append, List.length_nil] at hn
  have hinner : parseSequence n (tokensOf (spell 0 i) ++ .sign "]" :: rest) = some (i, .sign "]" :: rest) :=
    hi.readsAt 0 (by omega) n _ (stops_closing (by simp) 0 rest) (by unfold fuelFor; omega)
  simp [parseSuffix, hinner, expect]

theorem readsMember_call {f : Expr} (hf : ReadsBack f) (hes : ∀ e ∈ es, ReadsBack e) :
    ReadsMember (.call f es) (tokensOf (body (.call f es))) := by
  have htokens : tokensOf (body (.call f es)) = tokensOf (spell 16 f) ++
      .sign "(" :: (tokensOf (commaList (parts es)) ++ [.sign ")"]) := by
    simp [body, spell]
  rw [htokens]
  refine hf.member.append (by simp) ?_
  intro n rest hn
  simp only [fuelFor, List.length_cons, List.length_append, List.length_nil] at hn
  have hargs := parseArguments_parts hes rest n (by unfold fuelFor; omega)
  simp [parseSuffix, hargs]

/-! ## All expressions -/

variable {names : NameChars}

mutual

/-- **Every valid expression is read back.** -/
theorem readsBack : ∀ {e : Expr}, e.Valid names → ReadsBack e
  | .ident name, h => readsBack_of_own h (.member (by simp [Expr.level]) (readsMember_ident h.2))
  | .num value spelling, h => readsBack_of_own h (.member (by simp [Expr.level]) (readsMember_num h))
  | .array es, h =>
    readsBack_of_own h (.member (by simp [Expr.level]) (readsMember_array (readsBackElements h)))
  | .unary op e, h => by
    have he : e.Valid names := h
    exact readsBack_of_own h (readsOwn_unary (readsBack he))
  | .update op isPrefix e, h => readsBack_of_own h (readsOwn_update h.1 (readsBack h.2))
  | .binary op l r, h => by
    have hown : ReadsOwn (.binary op l r) (tokensOf (body (.binary op l r))) := by
      by_cases hop : op = .pow
      · subst hop
        exact readsOwn_pow (readsBack h.1) (readsBack h.2)
      · exact readsOwn_binary hop (readsBack h.1) (readsBack h.2)
    exact readsBack_of_own h hown
  | .cond c x y, h =>
    readsBack_of_own h (readsOwn_cond (readsBack h.1) (readsBack h.2.1) (readsBack h.2.2))
  | .assign op x v, h =>
    readsBack_of_own h (readsOwn_assign h.1 (readsBack h.2.1) (readsBack h.2.2))
  | .seq es, h => readsBack_of_own h (readsOwn_seq h.1 (readsBackAll h.2))
  | .dot o name, h =>
    readsBack_of_own h (.member (by simp [Expr.level]) (readsMember_dot (readsBack h.2)))
  | .index o i, h =>
    readsBack_of_own h
      (.member (by simp [Expr.level]) (readsMember_index (readsBack h.1) (readsBack h.2)))
  | .call f es, h =>
    readsBack_of_own h
      (.member (by simp [Expr.level]) (readsMember_call (readsBack h.1) (readsBackAll h.2)))

theorem readsBackAll : ∀ {es : List Expr}, ValidAll names es → ∀ e ∈ es, ReadsBack e
  | [], _, _, he => absurd he (by simp)
  | x :: xs, h, e, he => by
    rcases List.mem_cons.mp he with heq | he
    · rw [heq]
      exact readsBack h.1
    · exact readsBackAll h.2 e he

theorem readsBackElements : ∀ {es : List (Option Expr)}, ValidElements names es →
    ∀ e, some e ∈ es → ReadsBack e
  | [], _, _, he => absurd he (by simp)
  | none :: xs, h, e, he => by
    have h : ValidElements names xs := h
    exact readsBackElements h e (by simpa using he)
  | some x :: xs, h, e, he => by
    rcases List.mem_cons.mp he with heq | he
    · rw [Option.some.inj heq]
      exact readsBack h.1
    · exact readsBackElements h.2 e he

end

/-! ## Printing and reading -/

theorem parse_of_readsAt {ps : List Piece} (hapart : Apart names ps) (h : ReadsAt 0 e (tokensOf ps)) :
    parse names (String.ofList (charsOf ps)) = some e := by
  have hfuel : fuelFor 0 (tokensOf ps).length ≤ 60 * ((tokensOf ps).length + 1) := by
    unfold fuelFor
    omega
  have hall := h _ [] (by simp [Stops]) hfuel
  rw [List.append_nil] at hall
  have htokens : parseTokens (tokensOf ps) = some e := by
    unfold parseTokens
    simp only [parseAt] at hall
    rw [hall]
  rw [parse, lex_charsOf hapart, Option.bind_some, htokens]

/-- The text of a valid expression is read as the expression, with the parentheses of any place. -/
theorem parse_spell (h : e.Valid names) (p : Nat) :
    parse names (String.ofList (charsOf (spell p e))) = some e := by
  have hback := readsBack h
  have hbody : ReadsAt 0 e (tokensOf (body e)) := hback.readsAt 0 (by omega)
  refine parse_of_readsAt ((solid_body h).enclose e.level p).toApart ?_
  unfold spell enclose
  split
  · rw [tokensOf_parens]
    exact (readsMember_parens hbody).readsAt.mono (by omega) le_rfl
  · exact hbody

/-- **Printed expressions are read as themselves.** A tree that stands for an expression is printed, and
the text is read as that expression, in every place and under every indentation. So trees that are
printed alike stand for the same expression. -/
theorem parse_generate {e : Expr} {t : Tree} (h : Reads names e t) (queue : CommentQueue) (unit : String) :
    (∃ s, generate t queue unit = .ok s ∧ parse names s = some e) ∧
    (∀ p level, ∃ l, layout (.expr p) t = .ok l ∧
      parse names ((render unit level l).run queue).1 = some e) ∧
    ∀ e' t' queue' unit', Reads names e' t' →
      generate t' queue' unit' = generate t queue unit → e' = e := by
  have hvalid := valid_of_reads h
  have htext : ∀ {e : Expr}, e.Valid names → parse names (String.ofList (charsOf (body e))) = some e :=
    fun h => parse_spell h 0
  refine ⟨⟨_, generate_of_reads h queue unit, htext hvalid⟩, ?_, ?_⟩
  · intro p level
    obtain ⟨l, hl, hs⟩ := prints_of_reads h p
    refine ⟨l, hl, ?_⟩
    rw [hs unit level queue]
    exact parse_spell hvalid p
  · intro e' t' queue' unit' h' heq
    rw [generate_of_reads h, generate_of_reads h'] at heq
    have hsame := htext (valid_of_reads h')
    rw [Except.ok.inj heq, htext hvalid] at hsame
    exact (Option.some.inj hsame).symm

/-- The tree of `(- -a) ** (1).b - (c - [x, ,])`. -/
def sampleTree : Tree :=
  Node.binary "-"
    (Node.binary "**" (Node.unary "-" (Node.unary "-" (Node.identifier "a")))
      (Node.dot (Node.literal (.int 1)) "b"))
    (Node.binary "-" (Node.identifier "c")
      (Node.make "ArrayExpression" [("elements", .list [Node.identifier "x", .null])]))

def sampleExpr : Expr :=
  .binary .sub (.binary .pow (.unary .minus (.unary .minus (.ident "a"))) (.dot (.num 1 "1") "b"))
    (.binary .sub (.ident "c") (.array [some (.ident "x"), none]))

theorem reads_sampleTree : Reads .ascii sampleExpr sampleTree := by
  have hname : ∀ c : Char, c.isAlpha → IsName .ascii (String.ofList [c]) := by
    intro c hc
    exact ⟨c, [], by simp, by simp [NameChars.ascii, hc], by simp⟩
  have ha : Reads .ascii (.ident "a") (Node.identifier "a") := ⟨rfl, rfl, hname 'a' rfl, by decide⟩
  have hc : Reads .ascii (.ident "c") (Node.identifier "c") := ⟨rfl, rfl, hname 'c' rfl, by decide⟩
  have hx : Reads .ascii (.ident "x") (Node.identifier "x") := ⟨rfl, rfl, hname 'x' rfl, by decide⟩
  have hone : Reads .ascii (.num 1 "1") (Node.literal (.int 1)) := ⟨rfl, rfl, .inl ⟨rfl, rfl, by decide⟩⟩
  have hbase : Reads .ascii (.unary .minus (.unary .minus (.ident "a")))
      (Node.unary "-" (Node.unary "-" (Node.identifier "a"))) :=
    ⟨rfl, rfl, _, rfl, rfl, rfl, _, rfl, ha⟩
  have hpower : Reads .ascii (.dot (.num 1 "1") "b") (Node.dot (Node.literal (.int 1)) "b") :=
    ⟨rfl, rfl, hname 'b' rfl, _, _, rfl, rfl, rfl, hone⟩
  exact ⟨rfl, rfl, _, _, rfl, rfl, ⟨rfl, rfl, _, _, rfl, rfl, hbase, hpower⟩,
    ⟨rfl, rfl, _, _, rfl, rfl, hc, ⟨rfl, _, rfl, _, _, rfl, hx, _, rfl, rfl⟩⟩⟩

theorem parse_generate_sample :
    generate sampleTree (.ofTables [] [] "") "  " = .ok "(- -a) ** (1).b - (c - [x, ,])" ∧
      ∃ s, generate sampleTree (.ofTables [] [] "") "  " = .ok s ∧ parse .ascii s = some sampleExpr := by
  refine ⟨?_, (parse_generate reads_sampleTree _ "  ").1⟩
  rw [generate_of_reads reads_sampleTree]
  have htext : charsOf (body sampleExpr) = "(- -a) ** (1).b - (c - [x, ,])".toList := by
    decide +kernel
  rw [htext, String.ofList_toList]

end Downlevel.Expression
