import Downlevel.Emit.Program

/-!
# `Proofs.Expression.Syntax`: operator expressions

The expressions that are made of names, whole numbers, arrays, operators, members and calls. `Expr` is
what is left of such a tree when the places in the text are forgotten; `Reads` says which expression a
tree stands for. Printing and parsing are compared on `Expr`.
-/

namespace Downlevel.Expression

open Tree

/-! ## Names and numbers -/

/-- Which characters start a name and which go on with it. The language takes both classes from tables
of Unicode; only their ASCII part is fixed here, so what follows holds for every version of them. -/
structure NameChars where
  starts : Char → Bool
  goesOn : Char → Bool
  starts_ascii : ∀ c : Char, c.toNat < 128 → starts c = (c.isAlpha || c == '$' || c == '_')
  goesOn_ascii : ∀ c : Char, c.toNat < 128 → goesOn c = (c.isAlpha || c == '$' || c == '_' || c.isDigit)
  goesOn_of_starts : ∀ c : Char, starts c → goesOn c = true

/-- The names that can be written with ASCII characters only. -/
def NameChars.ascii : NameChars where
  starts c := c.isAlpha || c == '$' || c == '_'
  goesOn c := c.isAlpha || c == '$' || c == '_' || c.isDigit
  starts_ascii _ _ := rfl
  goesOn_ascii _ _ := rfl
  goesOn_of_starts c h := by rw [h, Bool.true_or]

/-- Is the text a name? -/
def IsName (names : NameChars) (s : String) : Prop :=
  ∃ c cs, s.toList = c :: cs ∧ names.starts c = true ∧ ∀ d ∈ cs, names.goesOn d = true

/-- The words that are no variables. -/
def reserved : List String :=
  ["break", "case", "catch", "class", "const", "continue", "debugger", "default", "delete", "do",
   "else", "export", "extends", "finally", "for", "function", "if", "import", "in", "instanceof",
   "new", "return", "super", "switch", "this", "throw", "try", "typeof", "var", "void", "while",
   "with", "yield", "enum", "await", "null", "true", "false"]

/-- The value of a digit in a base of at most sixteen. -/
def digit? (base : Nat) (c : Char) : Option Nat :=
  let n := if c.isDigit then some (c.toNat - '0'.toNat)
    else if 'a' ≤ c ∧ c ≤ 'f' then some (c.toNat - 'a'.toNat + 10)
    else if 'A' ≤ c ∧ c ≤ 'F' then some (c.toNat - 'A'.toNat + 10)
    else none
  n.filter (· < base)

/-- The value of digits, most significant first, after those read so far. -/
def digits? (base : Nat) : Nat → List Char → Option Nat
  | n, [] => some n
  | n, c :: cs => do digits? base (base * n + (← digit? base c)) cs

/-- The value of a whole number: decimal without leading zeros, or with the mark of another base. -/
def numeral? : List Char → Option Nat
  | [] => none
  | ['0'] => some 0
  | '0' :: 'x' :: c :: cs | '0' :: 'X' :: c :: cs => digits? 16 0 (c :: cs)
  | '0' :: 'o' :: c :: cs | '0' :: 'O' :: c :: cs => digits? 8 0 (c :: cs)
  | '0' :: 'b' :: c :: cs | '0' :: 'B' :: c :: cs => digits? 2 0 (c :: cs)
  | '0' :: _ => none
  | c :: cs => digits? 10 0 (c :: cs)

/-! ## Operators -/

inductive UnaryOp where
  | minus | plus | not | complement | typeof | void | delete
  deriving DecidableEq

def UnaryOp.text : UnaryOp → String
  | .minus => "-"
  | .plus => "+"
  | .not => "!"
  | .complement => "~"
  | .typeof => "typeof"
  | .void => "void"
  | .delete => "delete"

def UnaryOp.all : List UnaryOp := [.minus, .plus, .not, .complement, .typeof, .void, .delete]

inductive UpdateOp where
  | increment | decrement
  deriving DecidableEq

def UpdateOp.text : UpdateOp → String
  | .increment => "++"
  | .decrement => "--"

def UpdateOp.all : List UpdateOp := [.increment, .decrement]

inductive BinaryOp where
  | or | and
  | bitOr | bitXor | bitAnd
  | eq | ne | same | notSame
  | lt | gt | le | ge | isIn | instanceOf
  | shiftLeft | shiftRight | shiftRightZero
  | add | sub
  | mul | div | rem
  | pow
  deriving DecidableEq

namespace BinaryOp

def text : BinaryOp → String
  | or => "||"
  | and => "&&"
  | bitOr => "|"
  | bitXor => "^"
  | bitAnd => "&"
  | eq => "=="
  | ne => "!="
  | same => "==="
  | notSame => "!=="
  | lt => "<"
  | gt => ">"
  | le => "<="
  | ge => ">="
  | isIn => "in"
  | instanceOf => "instanceof"
  | shiftLeft => "<<"
  | shiftRight => ">>"
  | shiftRightZero => ">>>"
  | add => "+"
  | sub => "-"
  | mul => "*"
  | div => "/"
  | rem => "%"
  | pow => "**"

/-- The level of the grammar on which an operator stands; a higher one binds more tightly. -/
def level : BinaryOp → Nat
  | or => 3
  | and => 4
  | bitOr => 5
  | bitXor => 6
  | bitAnd => 7
  | eq | ne | same | notSame => 8
  | lt | gt | le | ge | isIn | instanceOf => 9
  | shiftLeft | shiftRight | shiftRightZero => 10
  | add | sub => 11
  | mul | div | rem => 12
  | pow => 13

/-- The node that holds an operator: only `||` and `&&` are logical. -/
def nodeType : BinaryOp → String
  | or | and => "LogicalExpression"
  | _ => "BinaryExpression"

theorem nodeType_cases (op : BinaryOp) :
    op.nodeType = "LogicalExpression" ∨ op.nodeType = "BinaryExpression" := by
  cases op <;> decide

def all : List BinaryOp :=
  [or, and, bitOr, bitXor, bitAnd, eq, ne, same, notSame, lt, gt, le, ge, isIn, instanceOf, shiftLeft,
   shiftRight, shiftRightZero, add, sub, mul, div, rem, pow]

end BinaryOp

inductive AssignOp where
  | set | add | sub | mul | div | rem | pow | shiftLeft | shiftRight | shiftRightZero
  | bitAnd | bitXor | bitOr
  deriving DecidableEq

namespace AssignOp

def text : AssignOp → String
  | set => "="
  | add => "+="
  | sub => "-="
  | mul => "*="
  | div => "/="
  | rem => "%="
  | pow => "**="
  | shiftLeft => "<<="
  | shiftRight => ">>="
  | shiftRightZero => ">>>="
  | bitAnd => "&="
  | bitXor => "^="
  | bitOr => "|="

def all : List AssignOp :=
  [set, add, sub, mul, div, rem, pow, shiftLeft, shiftRight, shiftRightZero, bitAnd, bitXor, bitOr]

end AssignOp

/-! ## Expressions -/

/-- An operator expression. A number keeps the way it is written; an element of an array can be
missing. -/
inductive Expr where
  | ident (name : String)
  | num (value : Nat) (spelling : String)
  | array (elements : List (Option Expr))
  | unary (op : UnaryOp) (argument : Expr)
  | update (op : UpdateOp) (isPrefix : Bool) (argument : Expr)
  | binary (op : BinaryOp) (left right : Expr)
  | cond (test consequent alternate : Expr)
  | assign (op : AssignOp) (target value : Expr)
  | seq (expressions : List Expr)
  | dot (object : Expr) (name : String)
  | index (object property : Expr)
  | call (callee : Expr) (arguments : List Expr)

namespace Expr

/-- How tightly an expression binds. -/
def level : Expr → Nat
  | seq _ => 0
  | assign .. => 1
  | cond .. => 2
  | binary op _ _ => op.level
  | unary .. => 14
  | update _ isPrefix _ => if isPrefix then 14 else 15
  | call .. => 16
  | dot .. | index .. => 19
  | ident _ | num .. | array _ => 20

/-- The type of the nodes that stand for an expression. -/
def nodeType : Expr → String
  | ident _ => "Identifier"
  | num .. => "Literal"
  | array _ => "ArrayExpression"
  | unary .. => "UnaryExpression"
  | update .. => "UpdateExpression"
  | binary op _ _ => op.nodeType
  | cond .. => "ConditionalExpression"
  | assign .. => "AssignmentExpression"
  | seq _ => "SequenceExpression"
  | dot .. | index .. => "MemberExpression"
  | call .. => "CallExpression"

/-- The types of all such nodes. -/
def nodeTypes : List String :=
  ["Identifier", "Literal", "ArrayExpression", "UnaryExpression", "UpdateExpression",
   "BinaryExpression", "LogicalExpression", "ConditionalExpression", "AssignmentExpression",
   "SequenceExpression", "MemberExpression", "CallExpression"]

theorem nodeType_mem (e : Expr) : e.nodeType ∈ nodeTypes := by
  cases e with
  | binary op l r => rcases op.nodeType_cases with h | h <;> simp [nodeType, nodeTypes, h]
  | _ => simp [nodeType, nodeTypes]

/-- Can the expression be assigned to? -/
def isTarget : Expr → Bool
  | ident _ | dot .. | index .. => true
  | _ => false

end Expr

/-! ## What a tree stands for -/

/-- A literal for a whole number: as it was written, or else in decimal. -/
def ReadsNumber (value : Nat) (spelling : String) (t : Tree) : Prop :=
  t.get "value" = .int value ∧
    ((t.get "raw" = .null ∧ (t.get "regex").isSet = false ∧ spelling = toString value) ∨
      (t.get "raw" = .str spelling ∧ numeral? spelling.toList = some value))

variable (names : NameChars)

mutual

/-- The tree stands for the expression. -/
def Reads : Expr → Tree → Prop
  | .ident name, t =>
    t.type? = some "Identifier" ∧ t.get? "name" = some (.str name) ∧ IsName names name ∧ name ∉ reserved
  | .num value spelling, t => t.type? = some "Literal" ∧ ReadsNumber value spelling t
  | .array es, t =>
    t.type? = some "ArrayExpression" ∧ ∃ ts, t.get? "elements" = some (.list ts) ∧ ReadsElements es ts
  | .unary op e, t =>
    t.type? = some "UnaryExpression" ∧ t.get? "operator" = some (.str op.text) ∧
      ∃ a, t.get? "argument" = some a ∧ Reads e a
  | .update op isPrefix e, t =>
    t.type? = some "UpdateExpression" ∧ t.get? "operator" = some (.str op.text) ∧
      (t.get "prefix").isSet = isPrefix ∧ e.isTarget = true ∧
      ∃ a, t.get? "argument" = some a ∧ Reads e a
  | .binary op l r, t =>
    t.type? = some op.nodeType ∧ t.get? "operator" = some (.str op.text) ∧
      ∃ a b, t.get? "left" = some a ∧ t.get? "right" = some b ∧ Reads l a ∧ Reads r b
  | .cond c x y, t =>
    t.type? = some "ConditionalExpression" ∧
      ∃ a b d, t.get? "test" = some a ∧ t.get? "consequent" = some b ∧
        t.get? "alternate" = some d ∧ Reads c a ∧ Reads x b ∧ Reads y d
  | .assign op x v, t =>
    t.type? = some "AssignmentExpression" ∧ t.get? "operator" = some (.str op.text) ∧ x.isTarget = true ∧
      ∃ a b, t.get? "left" = some a ∧ t.get? "right" = some b ∧ Reads x a ∧ Reads v b
  | .seq es, t =>
    t.type? = some "SequenceExpression" ∧ 2 ≤ es.length ∧
      ∃ ts, t.get? "expressions" = some (.list ts) ∧ ReadsAll es ts
  | .dot o name, t =>
    t.type? = some "MemberExpression" ∧ (t.get "computed").isSet = false ∧ IsName names name ∧
      ∃ a p, t.get? "object" = some a ∧ t.get? "property" = some p ∧
        p.get? "name" = some (.str name) ∧ Reads o a
  | .index o i, t =>
    t.type? = some "MemberExpression" ∧ (t.get "computed").isSet = true ∧
      ∃ a b, t.get? "object" = some a ∧ t.get? "property" = some b ∧ Reads o a ∧ Reads i b
  | .call f es, t =>
    t.type? = some "CallExpression" ∧
      ∃ a ts, t.get? "callee" = some a ∧ t.get? "arguments" = some (.list ts) ∧ Reads f a ∧ ReadsAll es ts

def ReadsAll : List Expr → List Tree → Prop
  | [], ts => ts = []
  | e :: es, ts => ∃ a rest, ts = a :: rest ∧ Reads e a ∧ ReadsAll es rest

/-- A missing element is null in the tree. -/
def ReadsElements : List (Option Expr) → List Tree → Prop
  | [], ts => ts = []
  | none :: es, ts => ∃ rest, ts = .null :: rest ∧ ReadsElements es rest
  | some e :: es, ts => ∃ a rest, ts = a :: rest ∧ Reads e a ∧ ReadsElements es rest

end

theorem Reads.type? {names : NameChars} {e : Expr} {t : Tree} (h : Reads names e t) :
    t.type? = some e.nodeType := by
  cases e <;> exact h.1

end Downlevel.Expression
