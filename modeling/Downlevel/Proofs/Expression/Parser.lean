import Downlevel.Proofs.Expression.Lexer

/-!
# `Proofs.Expression.Parser`: the expression grammar

The grammar of expressions, one level after another from the loosest to the tightest: sequences (0),
assignments (1), conditionals (2), the binary operators (3 to 12, each grouping to the left), powers
(13, grouping to the right, with no unary expression on the left), unary expressions (14), updates (15),
and members and calls (16), which start with a primary expression.

Each level is read by descent: first the next level, then what goes on with it on this one.
-/

namespace Downlevel.Expression

/-! ## Operators as tokens -/

/-- Words such as `typeof` and signs such as `+` are tokens of different kinds. -/
def operatorToken (text : String) : Token :=
  if text.toList.all Char.isAlpha then .word text else .sign text

def UnaryOp.token (op : UnaryOp) : Token := operatorToken op.text

def UpdateOp.token (op : UpdateOp) : Token := operatorToken op.text

def BinaryOp.token (op : BinaryOp) : Token := operatorToken op.text

def AssignOp.token (op : AssignOp) : Token := operatorToken op.text

def UnaryOp.ofToken? (a : Token) : Option UnaryOp := all.find? (·.token = a)

def UpdateOp.ofToken? (a : Token) : Option UpdateOp := all.find? (·.token = a)

def AssignOp.ofToken? (a : Token) : Option AssignOp := all.find? (·.token = a)

/-- The operator of a level that a token stands for. -/
def BinaryOp.ofToken? (level : Nat) (a : Token) : Option BinaryOp :=
  all.find? fun op => op.token = a ∧ op.level = level

/-! ## Reading -/

/-- Reads a token that must be there. -/
def expect (a : Token) : List Token → Option (List Token)
  | [] => none
  | b :: ts => if b = a then some ts else none

-- Each function reads an expression of its level and returns it with the tokens behind it. The first
-- argument bounds the depth of the descent.
mutual

/-- Level 0: one expression, or several with commas between them. -/
def parseSequence : Nat → List Token → Option (Expr × List Token)
  | 0, _ => none
  | n + 1, ts => do
      let (e, ts) ← parseAssignment n ts
      let (es, ts) ← parseMore n ts
      return (if es.isEmpty then e else .seq (e :: es), ts)

/-- The further expressions of a sequence. -/
def parseMore : Nat → List Token → Option (List Expr × List Token)
  | 0, _ => none
  | n + 1, ts =>
    if ts.head? = some (.sign ",") then do
      let (e, ts) ← parseAssignment n ts.tail
      let (es, ts) ← parseMore n ts
      return (e :: es, ts)
    else some ([], ts)

/-- Level 1: an assignment to a name or a member. -/
def parseAssignment : Nat → List Token → Option (Expr × List Token)
  | 0, _ => none
  | n + 1, ts => do
      let (e, ts) ← parseConditional n ts
      match ts.head?.bind AssignOp.ofToken? with
      | none => return (e, ts)
      | some op =>
        if e.isTarget then
          let (v, ts) ← parseAssignment n ts.tail
          return (.assign op e v, ts)
        else none

/-- Level 2: a conditional, whose branches are assignments. -/
def parseConditional : Nat → List Token → Option (Expr × List Token)
  | 0, _ => none
  | n + 1, ts => do
      let (c, ts) ← parseBinary n 3 ts
      if ts.head? = some (.sign "?") then
        let (x, ts) ← parseAssignment n ts.tail
        let ts ← expect (.sign ":") ts
        let (y, ts) ← parseAssignment n ts
        return (.cond c x y, ts)
      else return (c, ts)

/-- Levels 3 to 12: operands of the next level with operators of this one between them. -/
def parseBinary : Nat → Nat → List Token → Option (Expr × List Token)
  | 0, _, _ => none
  | n + 1, level, ts =>
    if level ≤ 12 then do
      let (l, ts) ← parseBinary n (level + 1) ts
      parseTail n level l ts
    else parsePower n ts

/-- The further operands of a level, each taken together with all before it. -/
def parseTail : Nat → Nat → Expr → List Token → Option (Expr × List Token)
  | 0, _, _, _ => none
  | n + 1, level, l, ts =>
    match ts.head?.bind (BinaryOp.ofToken? level) with
    | none => some (l, ts)
    | some op => do
        let (r, ts) ← parseBinary n (level + 1) ts.tail
        parseTail n level (.binary op l r) ts

/-- Level 13: a unary expression, or a power whose base is an update. -/
def parsePower : Nat → List Token → Option (Expr × List Token)
  | 0, _ => none
  | n + 1, ts =>
    if (ts.head?.bind UnaryOp.ofToken?).isSome then do
      let (e, ts) ← parseUnary n ts
      if ts.head? = some BinaryOp.pow.token then none else return (e, ts)
    else do
      let (l, ts) ← parseUpdate n ts
      if ts.head? = some BinaryOp.pow.token then
        let (r, ts) ← parsePower n ts.tail
        return (.binary .pow l r, ts)
      else return (l, ts)

/-- Level 14: an operator before an expression of the same level, or an update. -/
def parseUnary : Nat → List Token → Option (Expr × List Token)
  | 0, _ => none
  | n + 1, ts =>
    match ts.head?.bind UnaryOp.ofToken? with
    | some op => do
        let (e, ts) ← parseUnary n ts.tail
        return (.unary op e, ts)
    | none => parseUpdate n ts

/-- Level 15: `++` or `--` before or behind a name or a member. -/
def parseUpdate : Nat → List Token → Option (Expr × List Token)
  | 0, _ => none
  | n + 1, ts =>
    match ts.head?.bind UpdateOp.ofToken? with
    | some op => do
        let (e, ts) ← parseUnary n ts.tail
        if e.isTarget then return (.update op true e, ts) else none
    | none => do
        let (e, ts) ← parseMember n ts
        match ts.head?.bind UpdateOp.ofToken? with
        | some op => if e.isTarget then return (.update op false e, ts.tail) else none
        | none => return (e, ts)

/-- Level 16: a primary expression with members and calls behind it. -/
def parseMember : Nat → List Token → Option (Expr × List Token)
  | 0, _ => none
  | n + 1, ts => do
      let (e, ts) ← parsePrimary n ts
      parseSuffix n e ts

/-- The members and calls behind an expression. -/
def parseSuffix : Nat → Expr → List Token → Option (Expr × List Token)
  | 0, _, _ => none
  | n + 1, e, ts =>
    if ts.head? = some (.sign ".") then
      match ts.tail with
      | .word name :: ts => parseSuffix n (.dot e name) ts
      | _ => none
    else if ts.head? = some (.sign "[") then do
      let (i, ts) ← parseSequence n ts.tail
      let ts ← expect (.sign "]") ts
      parseSuffix n (.index e i) ts
    else if ts.head? = some (.sign "(") then do
      let (es, ts) ← parseArguments n ts.tail
      parseSuffix n (.call e es) ts
    else some (e, ts)

/-- The arguments of a call up to the closing parenthesis. -/
def parseArguments : Nat → List Token → Option (List Expr × List Token)
  | 0, _ => none
  | n + 1, ts =>
    if ts.head? = some (.sign ")") then some ([], ts.tail)
    else do
      let (e, ts) ← parseAssignment n ts
      if ts.head? = some (.sign ")") then return ([e], ts.tail)
      else
        let ts ← expect (.sign ",") ts
        let (es, ts) ← parseArguments n ts
        return (e :: es, ts)

/-- The elements of an array up to the closing bracket. A comma where an element could start leaves
a hole; a comma right before the bracket does not. -/
def parseElements : Nat → List Token → Option (List (Option Expr) × List Token)
  | 0, _ => none
  | n + 1, ts =>
    if ts.head? = some (.sign "]") then some ([], ts.tail)
    else if ts.head? = some (.sign ",") then do
      let (es, ts) ← parseElements n ts.tail
      return (none :: es, ts)
    else do
      let (e, ts) ← parseAssignment n ts
      if ts.head? = some (.sign "]") then return ([some e], ts.tail)
      else
        let ts ← expect (.sign ",") ts
        let (es, ts) ← parseElements n ts
        return (some e :: es, ts)

/-- A name, a number, an array or an expression in parentheses. -/
def parsePrimary : Nat → List Token → Option (Expr × List Token)
  | 0, _ => none
  | _ + 1, [] => none
  | _ + 1, .word name :: ts => if reserved.contains name then none else some (.ident name, ts)
  | _ + 1, .num spelling :: ts => do
      let value ← numeral? spelling.toList
      return (.num value spelling, ts)
  | n + 1, .sign s :: ts =>
    if s = "[" then do
      let (es, ts) ← parseElements n ts
      return (.array es, ts)
    else if s = "(" then do
      let (e, ts) ← parseSequence n ts
      let ts ← expect (.sign ")") ts
      return (e, ts)
    else none

end

/-- A sequence of one expression. -/
theorem parseSequence_of_assignment {n : Nat} {ts rest : List Token} {e : Expr}
    (h : parseAssignment (n + 1) ts = some (e, rest)) (hrest : rest.head? ≠ some (.sign ",")) :
    parseSequence (n + 2) ts = some (e, rest) := by
  simp [parseSequence, parseMore, h, hrest]

/-- The expression that the tokens stand for, all of them. -/
def parseTokens (ts : List Token) : Option Expr :=
  match parseSequence (60 * (ts.length + 1)) ts with
  | some (e, []) => some e
  | _ => none

/-- The expression that a text stands for. -/
def parse (names : NameChars) (s : String) : Option Expr := (lex names s).bind parseTokens

end Downlevel.Expression
