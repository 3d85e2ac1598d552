import Downlevel.Tree.Shown

/-!
# `Emit.Precedence`: how tightly expressions bind

Precedences are numbers: a higher one binds more tightly. An expression in a place that asks for more
than it has is written in parentheses.
-/

namespace Downlevel.Emit

open Tree

abbrev Precedence := Nat

namespace Precedence

def sequence : Precedence := 0
def assignment : Precedence := 1
def conditional : Precedence := 2
def logicalOr : Precedence := 3
def logicalAnd : Precedence := 4
def bitwiseOr : Precedence := 5
def bitwiseXor : Precedence := 6
def bitwiseAnd : Precedence := 7
def equality : Precedence := 8
def relational : Precedence := 9
def shift : Precedence := 10
def additive : Precedence := 11
def multiplicative : Precedence := 12
def exponentiation : Precedence := 13
def unary : Precedence := 14
def update : Precedence := 15
def call : Precedence := 16
def new : Precedence := 17
def taggedTemplate : Precedence := 18
def member : Precedence := 19
def primary : Precedence := 20

end Precedence

/-- The precedence of a binary operator. -/
def binaryPrecedence? : String → Option Precedence
  | "||" => some Precedence.logicalOr
  | "&&" => some Precedence.logicalAnd
  | "|" => some Precedence.bitwiseOr
  | "^" => some Precedence.bitwiseXor
  | "&" => some Precedence.bitwiseAnd
  | "==" | "!=" | "===" | "!==" => some Precedence.equality
  | "<" | ">" | "<=" | ">=" | "in" | "instanceof" => some Precedence.relational
  | "<<" | ">>" | ">>>" => some Precedence.shift
  | "+" | "-" => some Precedence.additive
  | "*" | "/" | "%" => some Precedence.multiplicative
  | "**" => some Precedence.exponentiation
  | _ => none

/-- The precedence of the operator of a binary expression. -/
def operatorPrecedence (t : Tree) : Except Fault Precedence := do
  let operator ← t.need "operator"
  match operator.str?.bind binaryPrecedence? with
  | some p => return p
  | none => throw (.unknownOperator operator.shown)

/-- The precedence of a node. -/
def precedenceOf (t : Tree) : Except Fault Precedence :=
  match t.type? with
  | some "SequenceExpression" => pure Precedence.sequence
  | some "AssignmentExpression" | some "YieldExpression" | some "ArrowFunctionExpression" =>
    pure Precedence.assignment
  | some "ConditionalExpression" => pure Precedence.conditional
  | some "BinaryExpression" | some "LogicalExpression" => operatorPrecedence t
  | some "UnaryExpression" | some "AwaitExpression" => pure Precedence.unary
  | some "UpdateExpression" =>
    pure (if (t.get "prefix").isSet then Precedence.unary else Precedence.update)
  | some "CallExpression" => pure Precedence.call
  | some "NewExpression" => pure Precedence.new
  | some "TaggedTemplateExpression" => pure Precedence.taggedTemplate
  | some "MemberExpression" => pure Precedence.member
  | _ => pure Precedence.primary

end Downlevel.Emit
