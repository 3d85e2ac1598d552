import Downlevel.Proofs.Expression.Syntax
import Mathlib.Data.List.Chain

/-!
# `Proofs.Expression.Lexer`: the tokens of an expression

A text of one line is cut into words, whole numbers and signs, each as long as possible. What the
expressions at hand never contain (comments, fractions, texts, templates, line breaks) is refused.

A printed expression is a list of **pieces**, tokens and blanks. `lex_charsOf` says that its text has
exactly its tokens, as long as no token runs into the one behind it.
-/

namespace Downlevel.Expression

variable {c : Char} {n fuel : Nat} {s : String} {rest : List Char} {a : Token} {ps : List Piece}

/-! ## Characters of a text

Statements about the characters of a text are decided by going through the text, whatever other ways there
are to decide them. -/

instance (priority := high) decidableForallChar (p : Char → Prop) [DecidablePred p] (cs : List Char) :
    Decidable (∀ c ∈ cs, p c) :=
  List.decidableBAll p cs

instance (priority := high) decidableExistsChar (p : Char → Prop) [DecidablePred p] (cs : List Char) :
    Decidable (∃ c ∈ cs, p c) :=
  List.decidableBEx p cs

instance (priority := high) decidableForallHead (p : Char → Prop) [DecidablePred p] (o : Option Char) :
    Decidable (∀ c ∈ o, p c) :=
  Option.decidableForallMem o

/-! ## Tokens -/

inductive Token where
  | word (s : String)
  | num (s : String)
  | sign (s : String)
  deriving DecidableEq

def Token.chars : Token → List Char
  | .word s | .num s | .sign s => s.toList

/-- What starts a comment. -/
def commentStarts : List String := ["<!--", "//", "/*"]

/-- Signs and starts of comments, longer ones first. -/
def openers : List String :=
  ["<!--", ">>>=",
   "...", "===", "!==", "**=", "<<=", ">>=", ">>>",
   "//", "/*", "=>", "==", "!=", "<=", ">=", "&&", "||", "++", "--", "+=", "-=", "*=", "/=", "%=",
   "&=", "|=", "^=", "<<", ">>", "**",
   "\x7b", "\x7d", "(", ")", "[", "]", ".", ";", ",", "<", ">", "+", "-", "*", "/", "%", "&", "|",
   "^", "!", "~", "?", ":", "="]

def signs : List String := openers.filter (!commentStarts.contains ·)

/-- The longest sign, or start of a comment, at the start of a text. -/
def opener? (cs : List Char) : Option String := openers.find? (·.toList.isPrefixOf cs)

variable (names : NameChars)

/-- The tokens of a text; `fuel` counts them and the blanks. -/
def lexFrom : Nat → List Char → Option (List Token)
  | _, [] => some []
  | 0, _ :: _ => none
  | fuel + 1, c :: cs =>
    if c = ' ' || c = '\t' then lexFrom fuel cs
    else
      let run := (c :: cs).takeWhile names.goesOn
      let rest := (c :: cs).dropWhile names.goesOn
      if names.starts c then (Token.word (String.ofList run) :: ·) <$> lexFrom fuel rest
      else if c.isDigit then
        if (numeral? run).isNone || (run.all Char.isDigit && rest.head? == some '.') then none
        else (Token.num (String.ofList run) :: ·) <$> lexFrom fuel rest
      else match opener? (c :: cs) with
        | none => none
        | some s =>
          if commentStarts.contains s then none
          else (Token.sign s :: ·) <$> lexFrom fuel ((c :: cs).drop s.length)

/-- The tokens of a text, if it has only such as stand in operator expressions. -/
def lex (s : String) : Option (List Token) := lexFrom names s.toList.length s.toList

/-! ## Single tokens -/

/-- A token that can be written. -/
def Token.Valid : Token → Prop
  | .word s => IsName names s
  | .num s => (numeral? s.toList).isSome
  | .sign s => s ∈ signs

/-- A token is over when the character follows. -/
def EndsBefore : Token → Char → Prop
  | .word _, c => names.goesOn c = false
  | .num s, c => names.goesOn c = false ∧ (c = '.' → s.toList.all Char.isDigit = false)
  | .sign s, c => ∀ o ∈ openers, ¬ s.toList ++ [c] <+: o.toList

variable {names}

/-! ### Letters and digits -/

theorem isDigit_iff : c.isDigit ↔ 48 ≤ c.toNat ∧ c.toNat ≤ 57 := by
  simp [Char.isDigit, UInt32.le_iff_toNat_le, ← Char.toNat_val]

theorem isAlpha_iff : c.isAlpha ↔ (65 ≤ c.toNat ∧ c.toNat ≤ 90) ∨ (97 ≤ c.toNat ∧ c.toNat ≤ 122) := by
  delta Char.isAlpha Char.isUpper Char.isLower
  simp [UInt32.le_iff_toNat_le, ← Char.toNat_val]

theorem goesOn_of_isDigit (h : c.isDigit) : names.goesOn c := by
  have hlt : c.toNat < 128 := by
    have := isDigit_iff.mp h
    omega
  rw [names.goesOn_ascii c hlt, h, Bool.or_true]

theorem goesOn_of_isAlpha (h : c.isAlpha) : names.goesOn c := by
  have hlt : c.toNat < 128 := by
    have := isAlpha_iff.mp h
    omega
  rw [names.goesOn_ascii c hlt, h]
  rfl

/-- No digit starts a name. -/
theorem starts_of_isDigit (h : c.isDigit) : names.starts c = false := by
  have hrange := isDigit_iff.mp h
  have halpha : c.isAlpha = false := by
    rw [Bool.eq_false_iff]
    intro hc
    have := isAlpha_iff.mp hc
    omega
  have hdollar : c ≠ '$' := by rintro rfl; exact absurd h (by decide)
  have hline : c ≠ '_' := by rintro rfl; exact absurd h (by decide)
  rw [names.starts_ascii c (by omega)]
  simp [halpha, hdollar, hline]

/-- The characters of a digit in any base are ASCII letters and digits. -/
theorem isDigit_or_isAlpha_of_digit? {base : Nat} (h : digit? base c = some n) :
    c.isDigit ∨ c.isAlpha := by
  unfold digit? at h
  by_cases hd : c.isDigit
  · exact .inl hd
  · right
    rw [isAlpha_iff]
    by_cases hl : 'a' ≤ c ∧ c ≤ 'f'
    · have hlo : 97 ≤ c.toNat := UInt32.le_iff_toNat_le.mp hl.1
      have hhi : c.toNat ≤ 102 := UInt32.le_iff_toNat_le.mp hl.2
      omega
    · by_cases hu : 'A' ≤ c ∧ c ≤ 'F'
      · have hlo : 65 ≤ c.toNat := UInt32.le_iff_toNat_le.mp hu.1
        have hhi : c.toNat ≤ 70 := UInt32.le_iff_toNat_le.mp hu.2
        omega
      · simp [hd, hl, hu] at h

theorem goesOn_of_digits? {base m : Nat} {cs : List Char} (h : digits? base n cs = some m) :
    ∀ c ∈ cs, names.goesOn c := by
  induction cs generalizing n with
  | nil => simp
  | cons c cs ih =>
    simp only [digits?, Option.bind_eq_bind, Option.bind_eq_some_iff] at h
    obtain ⟨d, hd, hrest⟩ := h
    intro x hx
    rcases List.mem_cons.mp hx with rfl | hx
    · rcases isDigit_or_isAlpha_of_digit? hd with h | h
      · exact goesOn_of_isDigit h
      · exact goesOn_of_isAlpha h
    · exact ih hrest x hx

/-- In base ten only the digits count. -/
theorem isDigit_of_digit?_ten (h : digit? 10 c = some n) : c.isDigit := by
  unfold digit? at h
  by_cases hd : c.isDigit
  · exact hd
  · -- A letter counts ten at least.
    have hletter : ∀ k, (some (k + 10)).filter (· < 10) = some n → c.isDigit := by
      intro k hk
      rw [Option.filter_eq_some_iff, decide_eq_true_eq] at hk
      obtain ⟨hn, hlt⟩ := hk
      cases hn
      omega
    rw [if_neg hd] at h
    split at h
    · exact hletter _ h
    · split at h
      · exact hletter _ h
      · cases h

/-- A whole number starts with a digit, and all its characters can stand in a name. -/
theorem numeral?_chars (names : NameChars) {cs : List Char} (h : (numeral? cs).isSome) :
    (∃ c rest, cs = c :: rest ∧ c.isDigit) ∧ ∀ c ∈ cs, names.goesOn c := by
  obtain ⟨n, hn⟩ := Option.isSome_iff_exists.mp h
  have hzero : names.goesOn '0' := goesOn_of_isDigit (by decide)
  have hmark : ∀ {base : Nat} {x c : Char} {rest : List Char}, x.isAlpha →
      digits? base 0 (c :: rest) = some n → ∀ d ∈ '0' :: x :: c :: rest, names.goesOn d := by
    intro base x c rest hx hd d hmem
    rcases List.mem_cons.mp hmem with rfl | hmem
    · exact hzero
    · rcases List.mem_cons.mp hmem with rfl | hmem
      · exact goesOn_of_isAlpha hx
      · exact goesOn_of_digits? hd d hmem
  unfold numeral? at hn
  split at hn
  · cases hn
  · exact ⟨⟨_, _, rfl, by decide⟩, by simpa using hzero⟩
  iterate 6
    · exact ⟨⟨_, _, rfl, by decide⟩, hmark (by decide) hn⟩
  · cases hn
  · rename_i c rest _ _
    refine ⟨⟨_, _, rfl, ?_⟩, goesOn_of_digits? hn⟩
    simp only [digits?, Option.bind_eq_bind, Option.bind_eq_some_iff] at hn
    obtain ⟨d, hd, -⟩ := hn
    exact isDigit_of_digit?_ten hd

/-! ### Signs -/

/-- A sign is found before every sign that it starts with. -/
theorem openers_pairwise : openers.Pairwise fun o s => ¬ o.toList <+: s.toList := by
  decide +kernel

/-- The character that a sign starts with is no blank, no digit and starts no name. -/
theorem openers_head : ∀ s ∈ openers, ∃ c cs, s.toList = c :: cs ∧ c.toNat < 128 ∧
    c ≠ ' ' ∧ c ≠ '\t' ∧ c.isDigit = false ∧ (c.isAlpha || c == '$' || c == '_') = false := by
  intro s hs
  have h : ∀ s ∈ openers, ∀ c ∈ s.toList.head?, c.toNat < 128 ∧
      c ≠ ' ' ∧ c ≠ '\t' ∧ c.isDigit = false ∧ (c.isAlpha || c == '$' || c == '_') = false := by
    decide +kernel
  have hne : ∀ s ∈ openers, s.toList ≠ [] := by decide +kernel
  obtain ⟨c, cs, hcs⟩ := List.exists_cons_of_ne_nil (hne s hs)
  exact ⟨c, cs, hcs, h s hs c (by rw [hcs]; rfl)⟩

/-- A sign that is over is found as a whole. -/
theorem opener?_append (hs : s ∈ openers) (hend : ∀ c ∈ rest.head?, EndsBefore names (.sign s) c) :
    opener? (s.toList ++ rest) = some s := by
  obtain ⟨as, bs, hsplit⟩ := List.append_of_mem hs
  refine List.find?_eq_some_iff_append.mpr
    ⟨List.isPrefixOf_iff_prefix.mpr (List.prefix_append _ _), as, bs, hsplit, ?_⟩
  intro o ho
  simp only [Bool.not_eq_eq_eq_not, Bool.not_true, Bool.eq_false_iff, ne_eq, List.isPrefixOf_iff_prefix]
  intro hpre
  have hbefore : ¬ o.toList <+: s.toList := by
    have hpair := openers_pairwise
    rw [hsplit, List.pairwise_append] at hpair
    exact hpair.2.2 o ho s (List.mem_cons_self ..)
  -- `o` does not fit into `s`, so it goes on with the first character behind it
  rcases List.prefix_or_prefix_of_prefix hpre (List.prefix_append s.toList rest) with h | ⟨t, ht⟩
  · exact hbefore h
  · cases t with
    | nil =>
      rw [← ht, List.append_nil] at hbefore
      exact hbefore List.prefix_rfl
    | cons c t =>
      rw [← ht, List.prefix_append_right_inj] at hpre
      obtain ⟨u, hu⟩ := hpre
      have hc : c ∈ rest.head? := by rw [← hu]; rfl
      refine hend c hc o (by rw [hsplit]; exact List.mem_append_left _ ho) ⟨t, ?_⟩
      rw [← ht, List.append_assoc, List.singleton_append]

/-! ### One token -/

theorem takeWhile_append_of_head {p : Char → Bool} {run : List Char} (hrun : ∀ c ∈ run, p c)
    (hrest : ∀ c ∈ rest.head?, p c = false) :
    (run ++ rest).takeWhile p = run ∧ (run ++ rest).dropWhile p = rest := by
  rw [List.takeWhile_append_of_pos hrun, List.dropWhile_append_of_pos hrun]
  cases rest with
  | nil => simp
  | cons c rest =>
    have hc := hrest c rfl
    simp [hc]

attribute [local simp] lexFrom

theorem lexFrom_word (hs : IsName names s) (hend : ∀ c ∈ rest.head?, names.goesOn c = false) :
    lexFrom names (fuel + 1) (s.toList ++ rest) = (Token.word s :: ·) <$> lexFrom names fuel rest := by
  obtain ⟨c, cs, hcs, hc, hall⟩ := hs
  have hblank : ∀ d : Char, d.toNat < 128 → (d.isAlpha || d == '$' || d == '_') = false → c ≠ d := by
    rintro d hd hno rfl
    rw [names.starts_ascii c hd, hno] at hc
    cases hc
  have hrun : ∀ d ∈ s.toList, names.goesOn d := by
    intro d hd
    rw [hcs] at hd
    rcases List.mem_cons.mp hd with rfl | hd
    · exact names.goesOn_of_starts d hc
    · exact hall d hd
  obtain ⟨htake, hdrop⟩ := takeWhile_append_of_head hrun hend
  rw [hcs, List.cons_append] at htake hdrop ⊢
  have h1 : c ≠ ' ' := hblank _ (by decide) (by decide)
  have h2 : c ≠ '\t' := hblank _ (by decide) (by decide)
  simp only [lexFrom, h1, h2, hc, htake, hdrop, decide_false, Bool.or_self, Bool.false_eq_true, if_false,
    if_true]
  rw [← hcs, String.ofList_toList]

theorem lexFrom_num (hs : (numeral? s.toList).isSome) (hend : ∀ c ∈ rest.head?, EndsBefore names (.num s) c) :
    lexFrom names (fuel + 1) (s.toList ++ rest) = (Token.num s :: ·) <$> lexFrom names fuel rest := by
  obtain ⟨⟨c, cs, hcs, hc⟩, hall⟩ := numeral?_chars names hs
  obtain ⟨htake, hdrop⟩ := takeWhile_append_of_head hall fun d hd => (hend d hd).1
  have h1 : c ≠ ' ' := by rintro rfl; exact absurd hc (by decide)
  have h2 : c ≠ '\t' := by rintro rfl; exact absurd hc (by decide)
  have hstart : names.starts c = false := starts_of_isDigit hc
  have hpoint : (s.toList.all Char.isDigit && rest.head? == some '.') = false := by
    rw [Bool.and_eq_false_iff]
    by_cases h : rest.head? = some '.'
    · exact .inl ((hend '.' h).2 rfl)
    · exact .inr (by simpa using h)
  rw [hcs, List.cons_append] at htake hdrop ⊢
  simp only [lexFrom, h1, h2, hstart, hc, htake, hdrop, decide_false, Bool.or_self, Bool.false_eq_true,
    if_false, if_true]
  rw [← hcs, hpoint, Option.isNone_eq_false_iff.mpr hs, String.ofList_toList]
  rfl

theorem lexFrom_sign (hs : s ∈ signs) (hend : ∀ c ∈ rest.head?, EndsBefore names (.sign s) c) :
    lexFrom names (fuel + 1) (s.toList ++ rest) = (Token.sign s :: ·) <$> lexFrom names fuel rest := by
  obtain ⟨hopen, hcomment⟩ := List.mem_filter.mp hs
  have hfind := opener?_append hopen hend
  have hdrop : (s.toList ++ rest).drop s.length = rest := by
    rw [← String.length_toList, List.drop_left]
  obtain ⟨c, cs, hcs, hascii, h1, h2, hdigit, hname⟩ := openers_head s hopen
  have hstart : names.starts c = false := by rw [names.starts_ascii c hascii, hname]
  have hcomment' : commentStarts.contains s = false := by simpa using hcomment
  rw [hcs, List.cons_append] at hfind hdrop ⊢
  simp only [lexFrom, h1, h2, hstart, hdigit, hfind, hdrop, hcomment', decide_false, Bool.or_self,
    Bool.false_eq_true, if_false]

/-- A token that is over is read as a whole. -/
theorem lexFrom_token (ha : a.Valid names) (hend : ∀ c ∈ rest.head?, EndsBefore names a c) :
    lexFrom names (fuel + 1) (a.chars ++ rest) = (a :: ·) <$> lexFrom names fuel rest := by
  cases a with
  | word s => exact lexFrom_word ha hend
  | num s => exact lexFrom_num ha hend
  | sign s => exact lexFrom_sign ha hend

/-! ## Pieces -/

/-- A part of a printed expression. -/
inductive Piece where
  | token (a : Token)
  | blank

namespace Piece

def chars : Piece → List Char
  | token a => a.chars
  | blank => [' ']

def token? : Piece → Option Token
  | token a => some a
  | blank => none

end Piece

/-- The text of pieces. -/
def charsOf (ps : List Piece) : List Char := ps.flatMap Piece.chars

/-- The tokens of pieces. -/
def tokensOf (ps : List Piece) : List Token := ps.filterMap Piece.token?

@[simp] theorem charsOf_cons (q : Piece) (ps : List Piece) :
    charsOf (q :: ps) = q.chars ++ charsOf ps := rfl

@[simp] theorem charsOf_append (ps qs : List Piece) :
    charsOf (ps ++ qs) = charsOf ps ++ charsOf qs := List.flatMap_append

@[simp] theorem tokensOf_token (a : Token) (ps : List Piece) :
    tokensOf (.token a :: ps) = a :: tokensOf ps := rfl

@[simp] theorem tokensOf_blank (ps : List Piece) : tokensOf (.blank :: ps) = tokensOf ps := rfl

@[simp] theorem tokensOf_append (ps qs : List Piece) :
    tokensOf (ps ++ qs) = tokensOf ps ++ tokensOf qs := List.filterMap_append

variable (names)

/-- Two pieces can stand side by side. -/
def Beside : Piece → Piece → Prop
  | .token a, .token b => ∀ c ∈ b.chars.head?, EndsBefore names a c
  | _, _ => True

/-- Pieces of which none runs into the next. -/
structure Apart (ps : List Piece) : Prop where
  valid : ∀ a, .token a ∈ ps → a.Valid names
  chain : ps.IsChain (Beside names)

variable {names}

theorem Token.Valid.chars_ne_nil (h : a.Valid names) : a.chars ≠ [] := by
  cases a with
  | word s =>
    obtain ⟨c, cs, hcs, -⟩ := h
    simp [Token.chars, hcs]
  | num s =>
    obtain ⟨⟨c, cs, hcs, -⟩, -⟩ := numeral?_chars names h
    simp [Token.chars, hcs]
  | sign s =>
    obtain ⟨c, cs, hcs, -⟩ := openers_head s (List.mem_filter.mp h).1
    simp [Token.chars, hcs]

/-- Every token is over before a blank. -/
theorem endsBefore_blank (h : a.Valid names) : EndsBefore names a ' ' := by
  have hgo : names.goesOn ' ' = false := by
    rw [names.goesOn_ascii _ (by decide)]
    decide
  cases a with
  | word s => exact hgo
  | num s => exact ⟨hgo, fun h => absurd h (by decide)⟩
  | sign s =>
    intro o ho hpre
    have hblank : ∀ o ∈ openers, ' ' ∉ o.toList := by decide +kernel
    exact hblank o ho (hpre.subset (by simp))

/-- What follows a piece starts in a way that ends it. -/
theorem endsBefore_head (h : Apart names (.token a :: ps)) :
    ∀ c ∈ (charsOf ps).head?, EndsBefore names a c := by
  have ha : a.Valid names := h.valid a (List.mem_cons_self ..)
  cases ps with
  | nil => simp [charsOf]
  | cons q ps =>
    have hbeside := (List.isChain_cons_cons.mp h.chain).1
    intro c hc
    cases q with
    | blank =>
      obtain rfl : ' ' = c := by simpa [Piece.chars] using hc
      exact endsBefore_blank ha
    | token b =>
      have hb : b.chars ≠ [] := (h.valid b (by simp)).chars_ne_nil
      rw [charsOf_cons, Piece.chars, List.head?_append_of_ne_nil _ hb] at hc
      exact hbeside c hc

/-- **The text of pieces that stand apart has exactly their tokens.** -/
theorem lexFrom_charsOf (h : Apart names ps) :
    ∀ fuel, (charsOf ps).length ≤ fuel → lexFrom names fuel (charsOf ps) = some (tokensOf ps) := by
  induction ps with
  | nil =>
    intro fuel _
    cases fuel <;> rfl
  | cons q ps ih =>
    intro fuel hfuel
    have hps : Apart names ps := ⟨fun a ha => h.valid a (List.mem_cons_of_mem _ ha), h.chain.tail⟩
    rw [charsOf_cons, List.length_append] at hfuel
    cases q with
    | blank =>
      cases fuel with
      | zero => simp [Piece.chars] at hfuel
      | succ fuel =>
        have := ih hps fuel (by simp [Piece.chars] at hfuel; omega)
        simpa [Piece.chars] using this
    | token a =>
      have ha : a.Valid names := h.valid a (List.mem_cons_self ..)
      have hpos : 0 < a.chars.length := List.length_pos_iff.mpr ha.chars_ne_nil
      cases fuel with
      | zero => simp only [Piece.chars] at hfuel; omega
      | succ fuel =>
        have hrest := ih hps fuel (by simp only [Piece.chars] at hfuel; omega)
        rw [charsOf_cons, Piece.chars, lexFrom_token ha (endsBefore_head h), hrest]
        rfl

theorem lex_charsOf (h : Apart names ps) : lex names (String.ofList (charsOf ps)) = some (tokensOf ps) := by
  rw [lex, String.toList_ofList]
  exact lexFrom_charsOf h _ le_rfl

end Downlevel.Expression
