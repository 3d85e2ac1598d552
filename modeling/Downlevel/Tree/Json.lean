import Downlevel.Tree.Basic

/-!
# `Tree.Json`: trees as JSON text

Trees arrive and leave as JSON. Reading keeps the order of fields and tells integers (no point, no
exponent) from decimals; of a key written twice the last value counts, at the place of the first.
Writing is in one line or indented by two spaces.
-/

namespace Downlevel.Tree

open Text

/-! ## Writing -/

/-- The text of a value that holds no other. -/
def renderLeaf (style : QuoteStyle) : Tree → String
  | .null => "null"
  | .bool b => if b then "true" else "false"
  | .int n => toString n
  | .real d => d.render
  | .str s => quote style s
  | .list _ => "[]"
  | .obj _ _ => "\x7b\x7d"

mutual

/-- A tree on one line. -/
def render (style : QuoteStyle) : Tree → String
  | .list xs => "[" ++ renderItems style xs ++ "]"
  | .obj _ fs => "\x7b" ++ renderFields style fs ++ "\x7d"
  | .null => renderLeaf style .null
  | .bool b => renderLeaf style (.bool b)
  | .int n => renderLeaf style (.int n)
  | .real d => renderLeaf style (.real d)
  | .str s => renderLeaf style (.str s)

def renderItems (style : QuoteStyle) : List Tree → String
  | [] => ""
  | [t] => render style t
  | t :: rest => render style t ++ ", " ++ renderItems style rest

def renderFields (style : QuoteStyle) : List (String × Tree) → String
  | [] => ""
  | [(k, v)] => quote style k ++ ": " ++ render style v
  | (k, v) :: rest => quote style k ++ ": " ++ render style v ++ ", " ++ renderFields style rest

end

/-- A line break and two spaces per level. -/
def lineBreak (level : Nat) : String := String.ofList ('\n' :: List.replicate (2 * level) ' ')

mutual

/-- A tree with one item a line, each level two spaces further in. -/
def renderIndented (style : QuoteStyle) (level : Nat) : Tree → String
  | .list [] => "[]"
  | .list (t :: rest) =>
    "[" ++ indentedItems style (level + 1) (t :: rest) ++ lineBreak level ++ "]"
  | .obj _ [] => "\x7b\x7d"
  | .obj _ (f :: rest) =>
    "\x7b" ++ indentedFields style (level + 1) (f :: rest) ++ lineBreak level ++ "\x7d"
  | .null => renderLeaf style .null
  | .bool b => renderLeaf style (.bool b)
  | .int n => renderLeaf style (.int n)
  | .real d => renderLeaf style (.real d)
  | .str s => renderLeaf style (.str s)

def indentedItems (style : QuoteStyle) (level : Nat) : List Tree → String
  | [] => ""
  | [t] => lineBreak level ++ renderIndented style level t
  | t :: rest =>
    lineBreak level ++ renderIndented style level t ++ "," ++ indentedItems style level rest

def indentedFields (style : QuoteStyle) (level : Nat) : List (String × Tree) → String
  | [] => ""
  | [(k, v)] => lineBreak level ++ quote style k ++ ": " ++ renderIndented style level v
  | (k, v) :: rest =>
    lineBreak level ++ quote style k ++ ": " ++ renderIndented style level v ++ "," ++
      indentedFields style level rest

end

/-! ## Reading -/

/-- Drops the blanks that JSON allows between tokens. -/
def skipBlanks : List Char → List Char
  | c :: rest => if c = ' ' || c = '\n' || c = '\t' || c = '\r' then skipBlanks rest else c :: rest
  | [] => []

/-- The value of a hexadecimal digit. -/
def hexValue? (c : Char) : Option Nat :=
  if '0' ≤ c && c ≤ '9' then some (c.toNat - '0'.toNat)
  else if 'a' ≤ c && c ≤ 'f' then some (c.toNat - 'a'.toNat + 10)
  else if 'A' ≤ c && c ≤ 'F' then some (c.toNat - 'A'.toNat + 10)
  else none

/-- The number that four hexadecimal digits write. -/
def hexUnit? (a b c d : Char) : Option Nat := do
  return (((← hexValue? a) * 16 + (← hexValue? b)) * 16 + (← hexValue? c)) * 16 + (← hexValue? d)

/-- The character behind a one-letter escape. -/
def escaped? (c : Char) : Option Char :=
  match c with
  | '"' => some '"'
  | '\\' => some '\\'
  | '/' => some '/'
  | 'b' => some (Char.ofNat 8)
  | 'f' => some (Char.ofNat 12)
  | 'n' => some '\n'
  | 'r' => some '\r'
  | 't' => some '\t'
  | _ => none

/-- Reads a text up to its closing quote; `high` is the first half of a pair of UTF-16 units, `seen`
the characters so far, last first. -/
def readText (high : Option Nat) (seen : List Char) : List Char → Option (String × List Char)
  | '"' :: rest => some (String.ofList seen.reverse, rest)
  | '\\' :: 'u' :: a :: b :: c :: d :: rest =>
    match hexUnit? a b c d with
    | none => none
    | some n =>
      match high with
      | some h =>
        readText none (Char.ofNat (0x10000 + (h - 0xd800) * 0x400 + (n - 0xdc00)) :: seen) rest
      | none =>
        if 0xd800 ≤ n && n < 0xdc00 then readText (some n) seen rest
        else readText none (Char.ofNat n :: seen) rest
  | '\\' :: c :: rest =>
    match escaped? c with
    | some e => readText none (e :: seen) rest
    | none => none
  | c :: rest => readText none (c :: seen) rest
  | [] => none

/-- The decimal digits at the start of a text: how many, their value, and what follows. -/
def readDigits (count value : Nat) : List Char → Nat × Nat × List Char
  | c :: rest =>
    if '0' ≤ c && c ≤ '9' then readDigits (count + 1) (value * 10 + (c.toNat - '0'.toNat)) rest
    else (count, value, c :: rest)
  | [] => (count, value, [])

/-- Reads an optional exponent. -/
def readExponent : List Char → Option Int × List Char
  | c :: rest =>
    if c = 'e' || c = 'E' then
      match rest with
      | '-' :: ds => let (_, n, after) := readDigits 0 0 ds; (some (-(n : Int)), after)
      | '+' :: ds => let (_, n, after) := readDigits 0 0 ds; (some n, after)
      | ds => let (_, n, after) := readDigits 0 0 ds; (some n, after)
    else (none, c :: rest)
  | [] => (none, [])

/-- Reads a number after its sign. -/
def readNumber (negative : Bool) (cs : List Char) : Option (Tree × List Char) :=
  match readDigits 0 0 cs with
  | (0, _, _) => none
  | (_, whole, '.' :: rest) =>
    let (places, value, after) := readDigits 0 whole rest
    let (e, after) := readExponent after
    some (.real (Decimal.ofParts negative value (e.getD 0 - places)), after)
  | (_, whole, rest) =>
    match readExponent rest with
    | (some e, after) => some (.real (Decimal.ofParts negative whole e), after)
    | (none, after) => some (.int (if negative then -(whole : Int) else whole), after)

mutual

/-- Reads one value; `fuel` bounds the number of tokens. -/
def readValue : Nat → List Char → Option (Tree × List Char)
  | 0, _ => none
  | fuel + 1, cs =>
    match skipBlanks cs with
    | 'n' :: 'u' :: 'l' :: 'l' :: rest => some (.null, rest)
    | 't' :: 'r' :: 'u' :: 'e' :: rest => some (.bool true, rest)
    | 'f' :: 'a' :: 'l' :: 's' :: 'e' :: rest => some (.bool false, rest)
    | '"' :: rest => (readText none [] rest).map fun r => (.str r.1, r.2)
    | '[' :: rest =>
      match skipBlanks rest with
      | ']' :: rest => some (.list [], rest)
      | rest => readItems fuel [] rest
    | '\x7b' :: rest =>
      match skipBlanks rest with
      | '\x7d' :: rest => some (.obj none [], rest)
      | rest => readMembers fuel [] rest
    | '-' :: rest => readNumber true rest
    | rest => readNumber false rest

/-- Reads the items of a list after its bracket, with the items so far, last first. -/
def readItems : Nat → List Tree → List Char → Option (Tree × List Char)
  | 0, _, _ => none
  | fuel + 1, seen, cs =>
    match readValue fuel cs with
    | none => none
    | some (v, rest) =>
      match skipBlanks rest with
      | ',' :: rest => readItems fuel (v :: seen) rest
      | ']' :: rest => some (.list (v :: seen).reverse, rest)
      | _ => none

/-- Reads the fields of an object after its brace, with the fields so far. -/
def readMembers : Nat → List (String × Tree) → List Char → Option (Tree × List Char)
  | 0, _, _ => none
  | fuel + 1, seen, cs =>
    match skipBlanks cs with
    | '"' :: rest =>
      match readText none [] rest with
      | none => none
      | some (key, rest) =>
        match skipBlanks rest with
        | ':' :: rest =>
          match readValue fuel rest with
          | none => none
          | some (v, rest) =>
            match skipBlanks rest with
            | ',' :: rest => readMembers fuel (insert key v seen) rest
            | '\x7d' :: rest => some (.obj none (insert key v seen), rest)
            | _ => none
        | _ => none
    | _ => none

end

/-- The tree that a JSON text writes. -/
def ofJson? (text : String) : Option Tree :=
  let cs := text.toList
  match readValue (2 * cs.length + 2) cs with
  | some (t, rest) => if (skipBlanks rest).isEmpty then some t else none
  | none => none

end Downlevel.Tree
