import Downlevel.Proofs.Expression.Spelling
import Mathlib.Data.List.TakeWhile

/-!
# `Proofs.Expression.Spacing`: no token runs into the next

Blanks are printed only around operators between operands, behind words, behind commas, and between two
equal signs. That is enough: the tokens of a printed expression are those that were meant.
-/

namespace Downlevel.Expression

open Tree Emit

variable {c : Char} {s : String} {a : Token} {ps qs : List Piece} {o : Expr}

/-! ## Numbers in decimal -/

theorem digits?_ten {cs : List Char} (h : ∀ c ∈ cs, c.isDigit) (n : Nat) :
    digits? 10 n cs = some (Nat.ofDigitChars 10 cs n) := by
  induction cs generalizing n with
  | nil => rw [Nat.ofDigitChars_nil]; rfl
  | cons c cs ih =>
    have hc := h c (List.mem_cons_self ..)
    have hrange := isDigit_iff.mp hc
    have hdigit : digit? 10 c = some (c.toNat - 48) := by
      have hlt : c.toNat - 48 < 10 := by omega
      simp [digit?, hc, hlt]
    rw [Nat.ofDigitChars_cons, digits?, hdigit]
    exact ih (fun d hd => h d (List.mem_cons_of_mem _ hd)) _

/-- A positive number does not start with a zero. -/
theorem head?_toDigits {n : Nat} (hn : 0 < n) : (Nat.toDigits 10 n).head? ≠ some '0' := by
  induction n using Nat.strongRecOn with
  | _ n ih =>
    by_cases h : n < 10
    · rw [Nat.toDigits_of_lt_base h]
      intro hzero
      have : ∀ k < 10, 0 < k → Nat.digitChar k ≠ '0' := by decide
      exact this n h hn (by simpa using hzero)
    · rw [Nat.toDigits_of_base_le (by omega) (by omega), List.head?_append_of_ne_nil _ Nat.toDigits_ne_nil]
      exact ih (n / 10) (by omega) (by omega)

theorem numeral?_toString (n : Nat) : numeral? (toString n).toList = some n := by
  have hlist : (toString n).toList = Nat.toDigits 10 n := Nat.toList_repr
  have hdigits : ∀ c ∈ Nat.toDigits 10 n, c.isDigit := fun c hc =>
    Nat.isDigit_of_mem_toDigits (by omega) (by omega) hc
  rw [hlist]
  rcases Nat.eq_zero_or_pos n with rfl | hn
  · rfl
  · have hhead := head?_toDigits hn
    have hvalue := digits?_ten hdigits 0
    rw [Nat.ofDigitChars_ten_toDigits] at hvalue
    obtain ⟨c, cs, hcs⟩ := List.exists_cons_of_ne_nil (Nat.toDigits_ne_nil (n := n) (b := 10))
    rw [hcs] at hhead hvalue ⊢
    have hc : c ≠ '0' := by simpa using hhead
    unfold numeral?
    split <;> simp_all

/-! ## Side conditions -/

mutual

/-- Names, numbers, targets and sequences are such as the grammar allows. -/
def Expr.Valid (names : NameChars) : Expr → Prop
  | .ident name => IsName names name ∧ name ∉ reserved
  | .num value spelling => numeral? spelling.toList = some value
  | .array es => ValidElements names es
  | .unary _ e => e.Valid names
  | .update _ _ e => e.isTarget = true ∧ e.Valid names
  | .binary _ l r => l.Valid names ∧ r.Valid names
  | .cond c x y => c.Valid names ∧ x.Valid names ∧ y.Valid names
  | .assign _ x v => x.isTarget = true ∧ x.Valid names ∧ v.Valid names
  | .seq es => 2 ≤ es.length ∧ ValidAll names es
  | .dot o name => IsName names name ∧ o.Valid names
  | .index o i => o.Valid names ∧ i.Valid names
  | .call f es => f.Valid names ∧ ValidAll names es

def ValidAll (names : NameChars) : List Expr → Prop
  | [] => True
  | e :: es => e.Valid names ∧ ValidAll names es

def ValidElements (names : NameChars) : List (Option Expr) → Prop
  | [] => True
  | none :: es => ValidElements names es
  | some e :: es => e.Valid names ∧ ValidElements names es

end

variable {names : NameChars}

theorem numeral?_of_readsNumber {value : Nat} {spelling : String} {t : Tree}
    (h : ReadsNumber value spelling t) : numeral? spelling.toList = some value := by
  obtain ⟨-, ⟨-, -, rfl⟩ | ⟨-, h⟩⟩ := h
  · exact numeral?_toString value
  · exact h

mutual

theorem valid_of_reads : ∀ {e : Expr} {t : Tree}, Reads names e t → e.Valid names
  | .ident _, _, h => h.2.2
  | .num .., _, h => numeral?_of_readsNumber h.2
  | .array _, _, ⟨_, _, _, h⟩ => validElements_of_reads h
  | .unary .., _, ⟨_, _, _, _, h⟩ => (valid_of_reads h :)
  | .update .., _, ⟨_, _, _, htarget, _, _, h⟩ => ⟨htarget, valid_of_reads h⟩
  | .binary .., _, ⟨_, _, _, _, _, _, hl, hr⟩ => ⟨valid_of_reads hl, valid_of_reads hr⟩
  | .cond .., _, ⟨_, _, _, _, _, _, _, hc, hx, hy⟩ =>
    ⟨valid_of_reads hc, valid_of_reads hx, valid_of_reads hy⟩
  | .assign .., _, ⟨_, _, htarget, _, _, _, _, hx, hv⟩ =>
    ⟨htarget, valid_of_reads hx, valid_of_reads hv⟩
  | .seq _, _, ⟨_, hlength, _, _, h⟩ => ⟨hlength, validAll_of_reads h⟩
  | .dot .., _, ⟨_, _, hname, _, _, _, _, _, h⟩ => ⟨hname, valid_of_reads h⟩
  | .index .., _, ⟨_, _, _, _, _, _, ho, hi⟩ => ⟨valid_of_reads ho, valid_of_reads hi⟩
  | .call .., _, ⟨_, _, _, _, _, hf, hes⟩ => ⟨valid_of_reads hf, validAll_of_reads hes⟩

theorem validAll_of_reads : ∀ {es : List Expr} {ts : List Tree}, ReadsAll names es ts → ValidAll names es
  | [], _, _ => trivial
  | _ :: _, _, ⟨_, _, _, h, hs⟩ => ⟨valid_of_reads h, validAll_of_reads hs⟩

theorem validElements_of_reads : ∀ {es : List (Option Expr)} {ts : List Tree},
    ReadsElements names es ts → ValidElements names es
  | [], _, _ => trivial
  | none :: _, _, ⟨_, _, hs⟩ => (validElements_of_reads hs :)
  | some _ :: _, _, ⟨_, _, _, h, hs⟩ => ⟨valid_of_reads h, validElements_of_reads hs⟩

end

/-! ## Where tokens end -/

/-- The tokens at which an expression can start. -/
def Opens : Token → Prop
  | .sign s => s ∈ ["(", "[", "+", "-", "!", "~", "++", "--"]
  | _ => True

/-- The tokens at which an expression can end. -/
def Closes : Token → Prop
  | .sign s => s ∈ [")", "]", "++", "--"]
  | _ => True

instance : DecidablePred Opens
  | .sign s => inferInstanceAs (Decidable (s ∈ _))
  | .word _ | .num _ => isTrue trivial

instance : DecidablePred Closes
  | .sign s => inferInstanceAs (Decidable (s ∈ _))
  | .word _ | .num _ => isTrue trivial

/-- No sign holds a character of a name or a number. -/
theorem not_mem_openers (h : names.starts c ∨ c.isDigit) : ∀ o ∈ openers, c ∉ o.toList := by
  have hchars : ∀ o ∈ openers, ∀ d ∈ o.toList, d.toNat < 128 ∧ d.isDigit = false ∧
      (d.isAlpha || d == '$' || d == '_') = false := by decide +kernel
  intro o ho hc
  obtain ⟨hascii, hdigit, hname⟩ := hchars o ho c hc
  rcases h with h | h
  · rw [names.starts_ascii c hascii, hname] at h
    cases h
  · rw [hdigit] at h
    cases h

/-- Signs that no character makes longer. -/
theorem endsBefore_firm (hs : s ∈ ["(", ")", "[", "]", ",", "++", "--"]) (c : Char) :
    EndsBefore names (.sign s) c := by
  have hlength : ∀ s ∈ ["(", ")", "[", "]", ",", "++", "--"], ∀ o ∈ openers,
      s.toList <+: o.toList → o.toList.length ≤ s.toList.length := by decide +kernel
  intro o ho hpre
  have hle := hlength s hs o ho ((List.prefix_append _ _).trans hpre)
  have hlt := hpre.length_le
  rw [List.length_append, List.length_singleton] at hlt
  omega

/-- What an expression ends with is over before every sign but a point. -/
theorem endsBefore_of_closes (ha : Closes a) (hc : c ∈ [',', ')', ']', '(', '[', '+', '-']) :
    EndsBefore names a c := by
  have hgo : names.goesOn c = false := by
    have hno : ∀ c ∈ [',', ')', ']', '(', '[', '+', '-'], c.toNat < 128 ∧
        (c.isAlpha || c == '$' || c == '_' || c.isDigit) = false := by decide
    rw [names.goesOn_ascii c (hno c hc).1, (hno c hc).2]
  cases a with
  | word s => exact hgo
  | num s =>
    refine ⟨hgo, ?_⟩
    rintro rfl
    exact absurd hc (by decide)
  | sign s =>
    have hfirm : ∀ s ∈ [")", "]", "++", "--"], s ∈ ["(", ")", "[", "]", ",", "++", "--"] := by
      decide
    exact endsBefore_firm (hfirm s ha) c

/-- The first character of what an expression starts with. -/
theorem head_of_opens (hvalid : a.Valid names) (ha : Opens a) :
    ∃ c, a.chars.head? = some c ∧
      ((names.starts c ∨ c.isDigit) ∨ c ∈ ['(', '[', '+', '-', '!', '~']) := by
  cases a with
  | word s =>
    obtain ⟨c, cs, hcs, hc, -⟩ := hvalid
    exact ⟨c, by simp [Token.chars, hcs], .inl (.inl hc)⟩
  | num s =>
    obtain ⟨⟨c, cs, hcs, hc⟩, -⟩ := numeral?_chars names hvalid
    exact ⟨c, by simp [Token.chars, hcs], .inl (.inr hc)⟩
  | sign s =>
    have hhead : ∀ s ∈ ["(", "[", "+", "-", "!", "~", "++", "--"],
        ∃ c ∈ ['(', '[', '+', '-', '!', '~'], s.toList.head? = some c := by decide
    obtain ⟨c, hc, hs⟩ := hhead s ha
    exact ⟨c, hs, .inr hc⟩

/-- An operator in front of an expression runs into it only when both have the same sign. -/
theorem endsBefore_unary {op : UnaryOp} (hop : op ∈ [UnaryOp.minus, .plus, .not, .complement])
    (hc : (names.starts c ∨ c.isDigit) ∨ c ∈ ['(', '[', '+', '-', '!', '~'])
    (hne : op = .minus → c ≠ '-') (hne' : op = .plus → c ≠ '+') : EndsBefore names op.token c := by
  have htoken : ∀ op ∈ [UnaryOp.minus, .plus, .not, .complement], op.token = .sign op.text := by
    decide
  have htable : ∀ op ∈ [UnaryOp.minus, .plus, .not, .complement],
      ∀ c ∈ ['(', '[', '+', '-', '!', '~'], (op = .minus → c ≠ '-') → (op = .plus → c ≠ '+') →
      ∀ o ∈ openers, ¬ op.text.toList ++ [c] <+: o.toList := by decide +kernel
  rw [htoken op hop]
  rcases hc with hc | hc
  · intro o ho hpre
    exact not_mem_openers hc o ho (hpre.subset (by simp))
  · exact htable op hop c hc hne hne'

/-! ## Pieces between such tokens -/

section

variable (names)

/-- Pieces that can stand before a comma or a closing bracket. -/
structure Loose (ps : List Piece) : Prop extends Apart names ps where
  settles : ∀ a, .token a ∈ ps.getLast? → ∀ c ∈ [',', ')', ']'], EndsBefore names a c

/-- Pieces that start and end as an expression does. -/
structure Solid (ps : List Piece) : Prop extends Apart names ps where
  opens : ∃ a, ps.head? = some (.token a) ∧ Opens a
  closes : ∃ a, ps.getLast? = some (.token a) ∧ Closes a

end

theorem Apart.append (hps : Apart names ps) (hqs : Apart names qs)
    (h : ∀ x ∈ ps.getLast?, ∀ y ∈ qs.head?, Beside names x y) : Apart names (ps ++ qs) where
  valid a ha := (List.mem_append.mp ha).elim (hps.valid a) (hqs.valid a)
  chain := List.isChain_append.mpr ⟨hps.chain, hqs.chain, h⟩

theorem apart_token (ha : a.Valid names) : Apart names [.token a] where
  valid b hb := by
    obtain rfl : b = a := by simpa using hb
    exact ha
  chain := List.isChain_singleton _

theorem apart_blank : Apart names [.blank] where
  valid b hb := by simp at hb
  chain := List.isChain_singleton _

theorem beside_blank (x : Piece) : Beside names x .blank := by
  cases x <;> trivial

theorem blank_beside (y : Piece) : Beside names .blank y := trivial

theorem Solid.loose (h : Solid names ps) : Loose names ps where
  toApart := h.toApart
  settles a ha c hc := by
    obtain ⟨b, hb, hclose⟩ := h.closes
    obtain rfl : b = a := by simpa [hb] using ha
    have hmem : ∀ c ∈ [',', ')', ']'], c ∈ [',', ')', ']', '(', '[', '+', '-'] := by decide
    exact endsBefore_of_closes hclose (hmem c hc)

theorem loose_nil : Loose names [] where
  valid a ha := by simp at ha
  chain := List.isChain_nil
  settles a ha := by simp at ha

/-- A comma or a closing bracket behind pieces. -/
theorem Loose.close (h : Loose names ps) (hs : s ∈ [",", ")", "]"]) : Apart names (ps ++ [.sign s]) := by
  have hsign : ∀ s ∈ [",", ")", "]"], s ∈ signs ∧
      ∀ c ∈ s.toList.head?, c ∈ [',', ')', ']'] := by decide +kernel
  refine h.toApart.append (apart_token (hsign s hs).1) ?_
  rintro x hx y hy
  obtain rfl : Piece.sign s = y := by simpa using hy
  cases x with
  | blank => trivial
  | token a => exact fun c hc => h.settles a hx c ((hsign s hs).2 c hc)

/-- Pieces in brackets. -/
theorem solid_bracket (h : Loose names ps) {s' : String} (hs : (s, s') ∈ [("(", ")"), ("[", "]")]) :
    Solid names (.sign s :: (ps ++ [.sign s'])) := by
  have hsign : ∀ p ∈ [("(", ")"), ("[", "]")], p.1 ∈ signs ∧
      p.1 ∈ ["(", ")", "[", "]", ",", "++", "--"] ∧
      p.1 ∈ ["(", "[", "+", "-", "!", "~", "++", "--"] ∧
      p.2 ∈ [",", ")", "]"] ∧ p.2 ∈ [")", "]", "++", "--"] := by decide +kernel
  obtain ⟨hvalid, hfirm, hopens, hclose, hcloses⟩ := hsign _ hs
  refine ⟨?_, ⟨.sign s, rfl, hopens⟩, ⟨.sign s', ?_, hcloses⟩⟩
  · refine (apart_token (a := .sign s) hvalid).append (h.close hclose) ?_
    rintro x hx y -
    obtain rfl : Piece.token (.sign s) = x := by simpa using hx
    cases y with
    | blank => trivial
    | token b => exact fun c _ => endsBefore_firm hfirm c
  · rw [← List.cons_append, List.getLast?_concat]
    rfl

theorem Solid.parens (h : Solid names ps) : Solid names (parens ps) := solid_bracket h.loose (by simp)

theorem Solid.enclose (h : Solid names ps) (own p : Nat) : Solid names (enclose own p ps) := by
  unfold Expression.enclose
  split
  · exact h.parens
  · exact h

section

variable (hps : Solid names ps) (hqs : Solid names qs)

include hps hqs

/-- Two expressions side by side have the ends of both. -/
theorem Solid.append (h : ∀ x ∈ ps.getLast?, ∀ y ∈ qs.head?, Beside names x y) : Solid names (ps ++ qs) where
  toApart := hps.toApart.append hqs.toApart h
  opens := by
    obtain ⟨a, ha, hopens⟩ := hps.opens
    exact ⟨a, by rw [List.head?_append, ha]; rfl, hopens⟩
  closes := by
    obtain ⟨a, ha, hcloses⟩ := hqs.closes
    exact ⟨a, by rw [List.getLast?_append, ha]; rfl, hcloses⟩

/-- Two expressions with something between them that ends in a blank. -/
theorem Solid.around {mid : List Piece} (hmid : Apart names (ps ++ mid)) (hblank : mid.getLast? = some .blank) :
    Solid names (ps ++ mid ++ qs) where
  toApart := by
    refine hmid.append hqs.toApart ?_
    intro x hx y _
    obtain rfl : Piece.blank = x := by
      rw [List.getLast?_append, hblank] at hx
      simpa using hx
    exact blank_beside y
  opens := by
    obtain ⟨a, ha, hopens⟩ := hps.opens
    exact ⟨a, by rw [List.append_assoc, List.head?_append, ha]; rfl, hopens⟩
  closes := by
    obtain ⟨a, ha, hcloses⟩ := hqs.closes
    exact ⟨a, by rw [List.getLast?_append, ha]; rfl, hcloses⟩

theorem Solid.spaced (ha : a.Valid names) : Solid names (ps ++ spaced a ++ qs) := by
  have htail : Apart names [.token a, .blank] :=
    (apart_token ha).append apart_blank fun x _ y hy => by
      obtain rfl : Piece.blank = y := by simpa using hy
      exact beside_blank x
  have hspaced : Apart names (Expression.spaced a) :=
    apart_blank.append htail fun x hx y _ => by
      obtain rfl : Piece.blank = x := by simpa using hx
      exact blank_beside y
  refine hps.around hqs (hps.toApart.append hspaced ?_) rfl
  intro x _ y hy
  obtain rfl : Piece.blank = y := by simpa [Expression.spaced] using hy
  exact beside_blank x

end

theorem Loose.comma (h : Loose names ps) : Apart names (ps ++ [.sign ",", .blank]) := by
  have hcomma := (h.close (s := ",") (by simp)).append apart_blank fun x _ y hy => by
    obtain rfl : Piece.blank = y := by simpa using hy
    exact beside_blank x
  simpa using hcomma

/-- Expressions with commas between them. -/
theorem solid_commaList {pss : List (List Piece)} (hne : pss ≠ [])
    (h : ∀ ps ∈ pss, Solid names ps) : Solid names (commaList pss) := by
  unfold commaList
  induction pss with
  | nil => exact absurd rfl hne
  | cons ps pss ih =>
    have hps := h ps (List.mem_cons_self ..)
    cases pss with
    | nil => rwa [List.intercalate_singleton]
    | cons qs pss =>
      have hrest := ih (by simp) fun rs hrs => h rs (List.mem_cons_of_mem _ hrs)
      rw [List.intercalate_cons_cons]
      exact hps.around hrest hps.loose.comma rfl

/-- The same where some can be missing. -/
theorem loose_commaList {pss : List (List Piece)} (h : ∀ ps ∈ pss, Loose names ps) :
    Loose names (commaList pss) := by
  unfold commaList
  induction pss with
  | nil => exact loose_nil
  | cons ps pss ih =>
    have hps := h ps (List.mem_cons_self ..)
    cases pss with
    | nil => rwa [List.intercalate_singleton]
    | cons qs pss =>
      have hrest := ih fun rs hrs => h rs (List.mem_cons_of_mem _ hrs)
      rw [List.intercalate_cons_cons]
      refine ⟨hps.comma.append hrest.toApart ?_, ?_⟩
      · intro x hx y _
        obtain rfl : Piece.blank = x := by simpa using hx
        exact blank_beside y
      · intro a ha
        rw [List.getLast?_append] at ha
        cases hlast : ([.sign ",", .blank].intercalate (qs :: pss)).getLast? with
        | none => simp [hlast] at ha
        | some x =>
          rw [hlast] at ha
          exact hrest.settles a (by rw [hlast]; simpa using ha)

/-! ## Operators -/

theorem valid_operatorToken (h : s.toList ≠ [] ∧ (s.toList.all Char.isAlpha = false → s ∈ signs)) :
    (operatorToken s).Valid names := by
  unfold operatorToken
  split
  · rename_i halpha
    have hstart : ∀ c ∈ s.toList, names.starts c := by
      intro c hc
      have hc : c.isAlpha := List.all_eq_true.mp halpha c hc
      have hlt : c.toNat < 128 := by
        have := isAlpha_iff.mp hc
        omega
      rw [names.starts_ascii c hlt, hc]
      rfl
    obtain ⟨c, cs, hcs⟩ := List.exists_cons_of_ne_nil h.1
    rw [hcs] at hstart
    exact ⟨c, cs, hcs, hstart c (List.mem_cons_self ..),
      fun d hd => names.goesOn_of_starts d (hstart d (List.mem_cons_of_mem _ hd))⟩
  · rename_i halpha
    exact h.2 (by simpa using halpha)

theorem UnaryOp.valid_token (op : UnaryOp) : op.token.Valid names :=
  valid_operatorToken (by cases op <;> decide +kernel)

theorem UpdateOp.valid_token (op : UpdateOp) : op.token.Valid names :=
  valid_operatorToken (by cases op <;> decide +kernel)

theorem BinaryOp.valid_token (op : BinaryOp) : op.token.Valid names :=
  valid_operatorToken (by cases op <;> decide +kernel)

theorem AssignOp.valid_token (op : AssignOp) : op.token.Valid names :=
  valid_operatorToken (by cases op <;> decide +kernel)

theorem UpdateOp.token_eq (op : UpdateOp) : op.token = .sign op.text := by
  cases op <;> decide

theorem solid_updateToken (op : UpdateOp) : Solid names [.token op.token] := by
  refine ⟨apart_token op.valid_token, ⟨_, rfl, ?_⟩, ⟨_, rfl, ?_⟩⟩
  · cases op <;> decide
  · cases op <;> decide

/-- The first character of an expression is that of its first token. -/
theorem Solid.head_chars (h : Solid names ps) :
    ∃ a c, ps.head? = some (.token a) ∧ a.chars.head? = some c ∧ (charsOf ps).head? = some c ∧
      ((names.starts c ∨ c.isDigit) ∨ c ∈ ['(', '[', '+', '-', '!', '~']) := by
  obtain ⟨a, ha, hopens⟩ := h.opens
  obtain ⟨rest, rfl⟩ := List.head?_eq_some_iff.mp ha
  obtain ⟨c, hc, hkind⟩ := head_of_opens (h.valid a (List.mem_cons_self ..)) hopens
  refine ⟨a, c, ha, hc, ?_, hkind⟩
  rw [charsOf_cons, Piece.chars, List.head?_append, hc]
  rfl

theorem Solid.unary (h : Solid names ps) (op : UnaryOp) :
    Solid names (.token op.token :: ((if op.needsBlank ps then [.blank] else []) ++ ps)) := by
  have hopens : Opens op.token := by cases op <;> decide
  obtain ⟨b, hb, hcloses⟩ := h.closes
  refine ⟨?_, ⟨_, rfl, hopens⟩, ⟨b, ?_, hcloses⟩⟩
  · split
    · refine (apart_token op.valid_token).append (apart_blank.append h.toApart ?_) ?_
      · intro x hx y _
        obtain rfl : Piece.blank = x := by simpa using hx
        exact blank_beside y
      · intro x _ y hy
        obtain rfl : Piece.blank = y := by simpa using hy
        exact beside_blank x
    · rename_i hneeds
      obtain ⟨a, c, ha, hc, hchars, hkind⟩ := h.head_chars
      refine (apart_token op.valid_token).append h.toApart ?_
      intro x hx y hy
      obtain rfl : Piece.token op.token = x := by simpa using hx
      obtain rfl : Piece.token a = y := by simpa [ha] using hy
      intro d hd
      obtain rfl : c = d := by simpa [hc] using hd
      -- words always have a blank behind them, so only signs are left
      have hop : op ∈ [UnaryOp.minus, .plus, .not, .complement] := by
        cases op <;> simp_all [UnaryOp.needsBlank]
      refine endsBefore_unary hop hkind ?_ ?_
      · rintro rfl rfl
        simp [UnaryOp.needsBlank, hchars] at hneeds
      · rintro rfl rfl
        simp [UnaryOp.needsBlank, hchars] at hneeds
  · rw [← List.cons_append, List.getLast?_append, hb]
    rfl

/-! ## All expressions -/

/-- Only a number ends in one; other expressions in front of a point end in a word or a bracket. -/
theorem getLast?_ne_num (ho : ∀ value spelling, o ≠ .num value spelling) (s : String) :
    (enclose o.level 16 (body o)).getLast? ≠ some (.token (.num s)) := by
  have hparens : ∀ ps, (parens ps).getLast? ≠ some (.token (.num s)) := by
    intro ps
    rw [parens, ← List.cons_append, List.getLast?_concat]
    simp [Piece.sign]
  unfold enclose
  split
  · exact hparens _
  · rename_i hlevel
    cases o with
    | num value spelling => exact absurd rfl (ho value spelling)
    | binary op l r => cases op <;> simp [Expr.level, BinaryOp.level] at hlevel
    | update op isPrefix e => cases isPrefix <;> simp [Expr.level] at hlevel
    | array es => simp [body, List.getLast?_cons, Piece.sign]
    | index o i => simp [body, List.getLast?_append, List.getLast?_cons, Piece.sign]
    | call f es => simp [body, List.getLast?_append, List.getLast?_cons, Piece.sign]
    | _ => simp_all [body, Expr.level]

/-- Digits are digits in every writing system. -/
theorem isDigits_of_all {cs : List Char} (hne : cs ≠ []) (h : cs.all Char.isDigit) :
    isDigits cs := by
  have hdecimal : ∀ c ∈ cs, Text.isDecimalDigit c := by
    intro c hc
    have hrange := isDigit_iff.mp (List.all_eq_true.mp h c hc)
    rw [Text.isDecimalDigit, Text.inRuns, Text.digitRuns, Text.offset?, if_neg (by omega), if_pos (by omega)]
    rfl
  obtain ⟨c, cs, rfl⟩ := List.exists_cons_of_ne_nil hne
  have hdrop : (c :: cs).dropWhile Text.isDecimalDigit = [] := by
    rw [List.dropWhile_eq_nil_iff]
    exact hdecimal
  simp [isDigits, hdrop, hdecimal c (List.mem_cons_self ..)]

/-- The object of a member as it stands before the point: digits stand in parentheses. -/
theorem endsBefore_point (ho : Solid names (body o)) (hps : ps = enclose o.level 16 (body o))
    (hdigits : isDigits (charsOf ps) = false) (ha : ps.getLast? = some (.token a)) :
    EndsBefore names a '.' := by
  have hgo : names.goesOn '.' = false := by
    rw [names.goesOn_ascii _ (by decide)]
    decide
  have hsolid : Solid names ps := hps ▸ ho.enclose o.level 16
  cases a with
  | word s => exact hgo
  | sign s =>
    obtain ⟨b, hb, hcloses⟩ := hsolid.closes
    obtain rfl : b = .sign s := by simpa [hb] using ha
    have hfirm : ∀ s ∈ [")", "]", "++", "--"], s ∈ ["(", ")", "[", "]", ",", "++", "--"] := by
      decide
    exact endsBefore_firm (hfirm s hcloses) '.'
  | num s =>
    refine ⟨hgo, fun _ => ?_⟩
    by_cases ho : ∃ value spelling, o = .num value spelling
    · obtain ⟨value, spelling, rfl⟩ := ho
      obtain rfl : ps = [.token (.num spelling)] := hps
      obtain rfl : spelling = s := by simpa using ha
      rw [Bool.eq_false_iff]
      intro hall
      have hne : spelling.toList ≠ [] := (hsolid.valid _ (List.mem_singleton_self _)).chars_ne_nil
      have hchars : charsOf [.token (.num spelling)] = spelling.toList := by
        simp [charsOf, Piece.chars, Token.chars]
      rw [hchars, isDigits_of_all hne hall] at hdigits
      cases hdigits
    · simp only [not_exists] at ho
      exact absurd (hps ▸ ha) (getLast?_ne_num ho s)

theorem solid_dot {name : String} (ho : Solid names (body o)) (hname : IsName names name) :
    Solid names (body (.dot o name)) := by
  have hpoint : (Token.sign ".").Valid names := (by decide +kernel : "." ∈ signs)
  have hdot : Apart names [.sign ".", .token (.word name)] := by
    refine (apart_token hpoint).append (apart_token hname) ?_
    intro x hx y hy
    obtain rfl : Piece.token (.sign ".") = x := by simpa using hx
    obtain rfl : Piece.token (.word name) = y := by simpa using hy
    obtain ⟨c, cs, hcs, hc, -⟩ := hname
    intro d hd
    obtain rfl : c = d := by simpa [Token.chars, hcs] using hd
    intro p hp hpre
    exact not_mem_openers (.inl hc) p hp (hpre.subset (by simp))
  have happend : ∀ ps, Solid names ps → (∀ a, ps.getLast? = some (.token a) → EndsBefore names a '.') →
      Solid names (ps ++ [.sign ".", .token (.word name)]) := by
    intro ps hps hend
    obtain ⟨a, ha, hopens⟩ := hps.opens
    refine ⟨hps.toApart.append hdot ?_, ⟨a, by rw [List.head?_append, ha]; rfl, hopens⟩,
      ⟨.word name, by simp, trivial⟩⟩
    intro x hx y hy
    obtain rfl : Piece.token (.sign ".") = y := by simpa [Piece.sign] using hy
    cases x with
    | blank => trivial
    | token b =>
      intro c hc
      obtain rfl : '.' = c := by simpa [Token.chars] using hc
      exact hend b hx
  have hobject := ho.enclose o.level 16
  rw [body]
  split
  · refine happend _ hobject.parens ?_
    intro a ha
    obtain rfl : Token.sign ")" = a := by
      rw [parens, ← List.cons_append, List.getLast?_concat] at ha
      simpa [Piece.sign] using ha
    exact endsBefore_firm (by simp) '.'
  · rename_i hdigits
    exact happend _ hobject fun a ha => endsBefore_point ho rfl (by simpa using hdigits) ha

/-- An expression with an operand behind it in brackets, or an update. -/
theorem Solid.suffix (hps : Solid names ps) (hqs : Solid names qs) (hs : qs.head? = some (.sign s))
    (hmem : s ∈ ["(", "[", "++", "--"]) : Solid names (ps ++ qs) := by
  refine hps.append hqs ?_
  intro x hx y hy
  obtain rfl : Piece.token (.sign s) = y := by simpa [hs, Piece.sign] using hy
  obtain ⟨a, ha, hcloses⟩ := hps.closes
  obtain rfl : Piece.token a = x := by simpa [ha] using hx
  have hhead : ∀ s ∈ ["(", "[", "++", "--"], ∀ c ∈ s.toList.head?,
      c ∈ [',', ')', ']', '(', '[', '+', '-'] := by decide
  exact fun c hc => endsBefore_of_closes hcloses (hhead s hmem c hc)

theorem solid_updatePrefix (h : Solid names ps) (op : UpdateOp) : Solid names (.token op.token :: ps) := by
  refine (solid_updateToken op).append h ?_
  intro x hx y _
  obtain rfl : Piece.token op.token = x := by simpa using hx
  cases y with
  | blank => trivial
  | token b =>
    rw [op.token_eq]
    exact fun c _ => endsBefore_firm (by cases op <;> decide) c

theorem solid_powerBase (h : Solid names ps) (l : Expr) : Solid names (powerBase l ps) := by
  unfold powerBase
  split
  · split
    · exact h
    · exact h.parens
  · exact h

theorem solid_array {es : List (Option Expr)}
    (h : ∀ ps ∈ elementParts es, Loose names ps) : Solid names (body (.array es)) := by
  have hlist := loose_commaList h
  rw [body]
  refine solid_bracket ?_ (by simp)
  split
  · refine ⟨hlist.close (by simp), ?_⟩
    intro a ha c _
    obtain rfl : Token.sign "," = a := by simpa [Piece.sign] using ha
    exact endsBefore_firm (by simp) c
  · rwa [List.append_nil]

mutual

/-- **The pieces of an expression stand apart.** -/
theorem solid_body : ∀ {e : Expr}, e.Valid names → Solid names (body e)
  | .ident _, h => ⟨apart_token h.1, ⟨_, rfl, trivial⟩, ⟨_, rfl, trivial⟩⟩
  | .num _ _, h =>
    ⟨apart_token (Option.isSome_iff_exists.mpr ⟨_, h⟩), ⟨_, rfl, trivial⟩, ⟨_, rfl, trivial⟩⟩
  | .array _, h => solid_array (loose_elementParts h)
  | .unary op e, h => by
    rw [body]
    exact ((solid_body (e := e) h).enclose _ _).unary op
  | .update op isPrefix e, h => by
    have he := solid_body h.2
    rw [body]
    split
    · exact solid_updatePrefix (he.enclose _ _) op
    · refine (he.enclose _ _).suffix (s := op.text) (solid_updateToken op) ?_ ?_
      · rw [op.token_eq]
        rfl
      · cases op <;> decide
  | .binary op l r, h => by
    have hl := solid_body h.1
    have hr := solid_body h.2
    rw [body]
    split
    · exact (solid_powerBase (hl.enclose _ _) l).spaced (hr.enclose _ _) op.valid_token
    · exact (hl.enclose _ _).spaced (hr.enclose _ _) op.valid_token
  | .cond c x y, h => by
    have hsign : ∀ s ∈ ["?", ":"], (Token.sign s).Valid names :=
      (by decide +kernel : ∀ s ∈ ["?", ":"], s ∈ signs)
    have hcx := ((solid_body h.1).enclose c.level 3).spaced ((solid_body h.2.1).enclose x.level 1)
      (hsign "?" (by simp))
    rw [body]
    exact hcx.spaced ((solid_body h.2.2).enclose _ _) (hsign ":" (by simp))
  | .assign op x v, h => by
    rw [body]
    exact ((solid_body h.2.1).enclose _ _).spaced ((solid_body h.2.2).enclose _ _) op.valid_token
  | .seq es, h => by
    rw [body]
    refine solid_commaList ?_ (solid_parts h.2)
    match es, h.1 with
    | _ :: _, _ => simp [parts]
  | .dot _ _, h => solid_dot (solid_body h.2) h.1
  | .index o i, h => by
    rw [body]
    exact ((solid_body h.1).enclose _ _).suffix (solid_bracket (solid_body h.2).loose (by simp)) rfl
      (by simp)
  | .call f es, h => by
    rw [body]
    have hargs := loose_commaList fun ps hps => (solid_parts h.2 ps hps).loose
    exact ((solid_body h.1).enclose _ _).suffix (solid_bracket hargs (by simp)) rfl (by simp)

theorem solid_parts : ∀ {es : List Expr}, ValidAll names es → ∀ ps ∈ parts es, Solid names ps
  | [], _, _, hps => by simp [parts] at hps
  | e :: es, h, ps, hps => by
    rw [parts] at hps
    rcases List.mem_cons.mp hps with rfl | hps
    · exact (solid_body h.1).enclose _ _
    · exact solid_parts h.2 ps hps

theorem loose_elementParts : ∀ {es : List (Option Expr)}, ValidElements names es →
    ∀ ps ∈ elementParts es, Loose names ps
  | [], _, _, hps => by simp [elementParts] at hps
  | none :: es, h, ps, hps => by
    rw [elementParts] at hps
    rcases List.mem_cons.mp hps with rfl | hps
    · exact loose_nil
    · have h : ValidElements names es := h
      exact loose_elementParts h ps hps
  | some e :: es, h, ps, hps => by
    rw [elementParts] at hps
    rcases List.mem_cons.mp hps with rfl | hps
    · exact ((solid_body h.1).enclose _ _).loose
    · exact loose_elementParts h.2 ps hps

end

end Downlevel.Expression
