import Downlevel.Proofs.Expression.Spacing

/-!
# `Proofs.Expression.Descent`: reading tokens level by level

What the parser of one level reads, that of every looser level reads too, as long as no token that goes
on with the expression follows. So each kind of expression is only read on its own level, and
parentheses make it readable on all.
-/

namespace Downlevel.Expression

variable {q p n : Nat} {rest ts : List Token} {e : Expr} {r : Expr × List Token}

/-! ## Operators and their tokens -/

theorem UnaryOp.ofToken?_token (op : UnaryOp) : UnaryOp.ofToken? op.token = some op := by
  cases op <;> decide

theorem UpdateOp.ofToken?_token (op : UpdateOp) : UpdateOp.ofToken? op.token = some op := by
  cases op <;> decide

theorem AssignOp.ofToken?_token (op : AssignOp) : AssignOp.ofToken? op.token = some op := by
  cases op <;> decide

theorem BinaryOp.ofToken?_token (op : BinaryOp) : BinaryOp.ofToken? op.level op.token = some op := by
  cases op <;> decide

/-! ## Where an expression is over -/

/-- The token goes on with an expression of the level. -/
def Continues (level : Nat) (a : Token) : Bool :=
  match level with
  | 0 => a = .sign ","
  | 1 => (AssignOp.ofToken? a).isSome
  | 2 => a = .sign "?" || (AssignOp.ofToken? a).isSome
  | 14 => false
  | 15 => (UpdateOp.ofToken? a).isSome
  | 16 => [Token.sign ".", .sign "[", .sign "("].contains a
  | q => (BinaryOp.ofToken? q a).isSome

/-- No token follows that goes on with an expression of the level or of a tighter one. -/
def Stops (level : Nat) (rest : List Token) : Prop :=
  ∀ a ∈ rest.head?, ∀ q ≤ 16, level ≤ q → Continues q a = false

theorem continues_eq_binary (hlo : 3 ≤ q) (hhi : q ≤ 13) (a : Token) :
    Continues q a = (BinaryOp.ofToken? q a).isSome := by
  unfold Continues
  split <;> first | omega | rfl

theorem Stops.mono (h : Stops p rest) (hpq : p ≤ q) : Stops q rest :=
  fun a ha r hr hqr => h a ha r hr (hpq.trans hqr)

/-- Closing brackets and colons end every expression. -/
theorem stops_closing {s : String} (hs : s ∈ [")", "]", ":"]) (level : Nat) (rest : List Token) :
    Stops level (.sign s :: rest) := by
  have htable : ∀ s ∈ [")", "]", ":"], ∀ q ≤ 16, Continues q (.sign s) = false := by decide +kernel
  intro a ha q hq _
  obtain rfl : Token.sign s = a := by simpa using ha
  exact htable s hs q hq

theorem stops_cons {p : Nat} {a : Token} (h : ∀ q ≤ 16, p ≤ q → Continues q a = false)
    (rest : List Token) : Stops p (a :: rest) := by
  intro b hb
  obtain rfl : a = b := by simpa using hb
  exact h

theorem stops_comma (rest : List Token) : Stops 1 (.sign "," :: rest) := stops_cons (by decide +kernel) rest

theorem stops_question (rest : List Token) : Stops 3 (.sign "?" :: rest) :=
  stops_cons (by decide +kernel) rest

theorem stops_assign (op : AssignOp) (rest : List Token) : Stops 3 (op.token :: rest) := by
  have htable : ∀ op ∈ AssignOp.all, ∀ q ≤ 16, 3 ≤ q → Continues q op.token = false := by
    decide +kernel
  exact stops_cons (htable op (by cases op <;> decide)) rest

theorem stops_binary (op : BinaryOp) (rest : List Token) : Stops (op.level + 1) (op.token :: rest) := by
  have htable : ∀ op ∈ BinaryOp.all, ∀ q ≤ 16, op.level + 1 ≤ q → Continues q op.token = false := by
    decide +kernel
  exact stops_cons (htable op (by cases op <;> decide)) rest

theorem stops_update (op : UpdateOp) (rest : List Token) : Stops 16 (op.token :: rest) := by
  have htable : ∀ op ∈ UpdateOp.all, ∀ q ≤ 16, 16 ≤ q → Continues q op.token = false := by
    decide +kernel
  exact stops_cons (htable op (by cases op <;> decide)) rest

/-- Nothing goes on with a unary expression, only with its operand. -/
theorem Stops.unary (h : Stops 15 rest) : Stops 14 rest := by
  intro a ha q hq hle
  rcases Nat.eq_or_lt_of_le hle with rfl | hlt
  · rfl
  · exact h a ha q hq hlt

section

variable {p : Nat} {rest : List Token}

theorem Stops.head?_bind {α : Type} (h : Stops p rest) (hq : q ≤ 16) (hp : p ≤ q) {f : Token → Option α}
    (hf : ∀ a, Continues q a = false → f a = none) : rest.head?.bind f = none := by
  cases hrest : rest.head? with
  | none => rfl
  | some a => exact hf a (h a hrest q hq hp)

theorem Stops.head?_ne (h : Stops p rest) (hq : q ≤ 16) (hp : p ≤ q) {a : Token} (ha : Continues q a) :
    rest.head? ≠ some a := by
  intro hrest
  rw [h a hrest q hq hp] at ha
  cases ha

end

/-! ## Reading on a level -/

/-- The parser of a level. -/
def parseAt : Nat → Nat → List Token → Option (Expr × List Token)
  | 0 => parseSequence
  | 1 => parseAssignment
  | 2 => parseConditional
  | 14 => parseUnary
  | 15 => parseUpdate
  | 16 => parseMember
  | q => fun n => parseBinary n q

theorem parseAt_eq_binary (hlo : 3 ≤ q) (hhi : q ≤ 13) (n : Nat) : parseAt q n = parseBinary n q := by
  unfold parseAt
  split <;> first | omega | rfl

/-- Fuel that is enough for so many tokens on a level. -/
def fuelFor (level length : Nat) : Nat := 40 * length + 2 * (20 - level)

/-- The parser of the level reads the tokens as the expression and leaves what follows. -/
def ReadsAt (level : Nat) (e : Expr) (ts : List Token) : Prop :=
  ∀ n rest, Stops level rest → fuelFor level ts.length ≤ n → parseAt level n (ts ++ rest) = some (e, rest)

section

attribute [local simp] parseAssignment parseConditional parseBinary parseTail parsePower parseUnary
  parseUpdate parseMember parseSuffix parsePrimary

theorem parseAssignment_of_conditional (h : parseConditional n ts = some (e, rest))
    (hrest : rest.head?.bind AssignOp.ofToken? = none) : parseAssignment (n + 1) ts = some (e, rest) := by
  simp [h, hrest]

theorem parseConditional_of_binary (h : parseBinary n 3 ts = some (e, rest))
    (hrest : rest.head? ≠ some (.sign "?")) : parseConditional (n + 1) ts = some (e, rest) := by
  simp [h, hrest]

theorem parseBinary_of_next (hq : q ≤ 12) (h : parseBinary n (q + 1) ts = some (e, rest)) :
    parseBinary (n + 1) q ts = parseTail n q e rest := by
  simp [hq, h]

theorem parseTail_of_stops (hrest : rest.head?.bind (BinaryOp.ofToken? q) = none) :
    parseTail (n + 1) q e rest = some (e, rest) := by
  simp [hrest]

/-- A power without an exponent is read as a unary expression or, one step deeper, as an update. -/
theorem parsePower_of_unary (h : parseUnary n ts = some (e, rest))
    (h' : parseUnary (n + 1) ts = some (e, rest)) (hrest : rest.head? ≠ some BinaryOp.pow.token) :
    parsePower (n + 1) ts = some (e, rest) := by
  cases hop : ts.head?.bind UnaryOp.ofToken? with
  | some op => simp [hop, h, hrest]
  | none =>
    have hupdate : parseUpdate n ts = some (e, rest) := by
      simpa [hop] using h'
    simp [hop, hupdate, hrest]

theorem parseUnary_of_update (h : parseUpdate n ts = some (e, rest))
    (hts : ts.head?.bind UnaryOp.ofToken? = none) : parseUnary (n + 1) ts = some (e, rest) := by
  simp [hts, h]

theorem parseUpdate_of_member (h : parseMember n ts = some (e, rest))
    (hts : ts.head?.bind UpdateOp.ofToken? = none) (hrest : rest.head?.bind UpdateOp.ofToken? = none) :
    parseUpdate (n + 1) ts = some (e, rest) := by
  simp [hts, h, hrest]

theorem parseSuffix_of_stops (h : Stops 16 rest) : parseSuffix (n + 1) e rest = some (e, rest) := by
  have hne : ∀ a ∈ [Token.sign ".", .sign "[", .sign "("], rest.head? ≠ some a := by
    intro a ha
    exact h.head?_ne le_rfl le_rfl (by simpa [Continues] using ha)
  have hdot := hne (.sign ".") (by simp)
  have hbracket := hne (.sign "[") (by simp)
  have hparen := hne (.sign "(") (by simp)
  simp [hdot, hbracket, hparen]

end

/-! ### What the text starts with -/

/-- No primary expression starts with an operator. -/
theorem head?_of_primary (h : parsePrimary n ts = some r) :
    ts.head?.bind UnaryOp.ofToken? = none ∧ ts.head?.bind UpdateOp.ofToken? = none := by
  cases ts with
  | nil => exact ⟨rfl, rfl⟩
  | cons a ts =>
    constructor
    all_goals
      by_contra hop
      obtain ⟨op, hop⟩ := Option.ne_none_iff_exists'.mp hop
      obtain rfl : op.token = a := by simpa using List.find?_some hop
      cases n <;> cases op <;> cases h

theorem head?_of_member (h : parseMember n ts = some r) :
    ts.head?.bind UnaryOp.ofToken? = none ∧ ts.head?.bind UpdateOp.ofToken? = none := by
  cases n with
  | zero => simp [parseMember] at h
  | succ n =>
    simp only [parseMember, Option.bind_eq_bind, Option.bind_eq_some_iff] at h
    obtain ⟨_, hprimary, -⟩ := h
    exact head?_of_primary hprimary

/-- No update starts with a unary operator. -/
theorem head?_of_update (h : parseUpdate n ts = some r) : ts.head?.bind UnaryOp.ofToken? = none := by
  cases n with
  | zero => simp [parseUpdate] at h
  | succ n =>
    cases hop : ts.head?.bind UpdateOp.ofToken? with
    | some op =>
      obtain ⟨a, ha, hop⟩ := Option.bind_eq_some_iff.mp hop
      obtain rfl : op.token = a := by simpa using List.find?_some hop
      rw [ha]
      cases op <;> rfl
    | none =>
      simp only [parseUpdate, hop, Option.bind_eq_bind, Option.bind_eq_some_iff] at h
      obtain ⟨_, hmember, -⟩ := h
      exact (head?_of_member hmember).1

/-! ### From a level to the looser ones -/

/-- **What a level reads, the next looser one reads.** -/
theorem ReadsAt.climb (h : ReadsAt (p + 1) e ts) (hp : p < 16) : ReadsAt p e ts := by
  intro n rest hrest hn
  have hnext := fun m hm => h m rest (hrest.mono (Nat.le_succ p)) hm
  unfold fuelFor at hn hnext
  obtain ⟨n, rfl⟩ : ∃ k, n = k + 2 := ⟨n - 2, by omega⟩
  rcases (by omega : p = 0 ∨ p = 1 ∨ p = 2 ∨ (3 ≤ p ∧ p ≤ 12) ∨ p = 13 ∨ p = 14 ∨ p = 15) with
    rfl | rfl | rfl | ⟨hlo, hhi⟩ | rfl | rfl | rfl
  · exact parseSequence_of_assignment (hnext (n + 1) (by omega))
      (hrest.head?_ne (q := 0) (by omega) le_rfl (by decide))
  · exact parseAssignment_of_conditional (hnext (n + 1) (by omega))
      (hrest.head?_bind (q := 1) (by omega) le_rfl fun a ha => by simpa [Continues] using ha)
  · exact parseConditional_of_binary (hnext (n + 1) (by omega))
      (hrest.head?_ne (q := 2) (by omega) le_rfl (by decide))
  · have hbinary := hnext (n + 1) (by omega)
    rw [parseAt_eq_binary (by omega) (by omega)] at hbinary ⊢
    rw [parseBinary_of_next hhi hbinary]
    exact parseTail_of_stops (hrest.head?_bind (q := p) (by omega) le_rfl fun a ha => by
      simpa [continues_eq_binary hlo (by omega)] using ha)
  · -- the powers are the last binary level, one step above their own parser
    have hpow : rest.head? ≠ some BinaryOp.pow.token :=
      hrest.head?_ne (q := 13) (by omega) le_rfl (by decide)
    have hpower : parsePower (n + 1) (ts ++ rest) = some (e, rest) :=
      parsePower_of_unary (hnext n (by omega)) (hnext (n + 1) (by omega)) hpow
    simpa [parseAt, parseBinary] using hpower
  · have hupdate := hnext (n + 1) (by omega)
    exact parseUnary_of_update hupdate (head?_of_update hupdate)
  · have hmember := hnext (n + 1) (by omega)
    exact parseUpdate_of_member hmember (head?_of_member hmember).2
      (hrest.head?_bind (q := 15) (by omega) le_rfl fun a ha => by simpa [Continues] using ha)

theorem ReadsAt.mono (h : ReadsAt q e ts) (hpq : p ≤ q) (hq : q ≤ 16) : ReadsAt p e ts := by
  induction hpq with
  | refl => exact h
  | step hle ih => exact ih (h.climb (by omega)) (by omega)

/-! ## What groups to the left -/

/-- A primary expression with members and calls, read up to what comes next; that is left to the
parser of suffixes. -/
def ReadsMember (e : Expr) (ts : List Token) : Prop :=
  ∃ k ≤ ts.length, ∀ n rest, fuelFor 16 ts.length ≤ n →
    parseMember n (ts ++ rest) = parseSuffix (n - k) e rest

/-- The same for the operands of one binary level. -/
def ReadsTail (q : Nat) (e : Expr) (ts : List Token) : Prop :=
  ∃ k ≤ ts.length, ∀ n rest, Stops (q + 1) rest → fuelFor q ts.length ≤ n →
    parseBinary n q (ts ++ rest) = parseTail (n - k) q e rest

theorem ReadsMember.readsAt (h : ReadsMember e ts) : ReadsAt 16 e ts := by
  obtain ⟨k, hk, hread⟩ := h
  intro n rest hrest hn
  have hleft : n - k = (n - k - 1) + 1 := by
    unfold fuelFor at hn
    omega
  show parseMember n (ts ++ rest) = some (e, rest)
  rw [hread n rest hn, hleft, parseSuffix_of_stops hrest]

theorem ReadsTail.readsAt (hlo : 3 ≤ q) (hhi : q ≤ 12) (h : ReadsTail q e ts) : ReadsAt q e ts := by
  obtain ⟨k, hk, hread⟩ := h
  intro n rest hrest hn
  have hleft : n - k = (n - k - 1) + 1 := by
    unfold fuelFor at hn
    omega
  rw [parseAt_eq_binary hlo (by omega), hread n rest (hrest.mono (Nat.le_succ q)) hn, hleft]
  exact parseTail_of_stops (hrest.head?_bind (q := q) (by omega) le_rfl fun a ha => by
    simpa [continues_eq_binary hlo (by omega)] using ha)

/-- An operand of the next level is the first of its level. -/
theorem ReadsAt.readsTail (hlo : 3 ≤ q) (hhi : q ≤ 12) (hts : 0 < ts.length) (h : ReadsAt (q + 1) e ts) :
    ReadsTail q e ts := by
  refine ⟨1, hts, ?_⟩
  intro n rest hrest hn
  unfold fuelFor at hn
  obtain ⟨n, rfl⟩ : ∃ k, n = k + 1 := ⟨n - 1, by omega⟩
  have hnext := h n rest hrest (by unfold fuelFor; omega)
  rw [parseAt_eq_binary (by omega) (by omega)] at hnext
  rw [parseBinary_of_next hhi hnext, Nat.add_sub_cancel]

end Downlevel.Expression
