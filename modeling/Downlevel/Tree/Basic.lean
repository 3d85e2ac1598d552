import Downlevel.Decimal
import Downlevel.Fault

/-!
# `Tree`: ordered documents

Programs are handled as ESTree documents: JSON values whose objects keep their fields in the order in
which they were written, and whose numbers keep apart integers and decimals. A **node** is an object
with a `type` field.

Two nodes that look alike are still two nodes. An object can therefore carry a *mark*, a number that
tells it from every other object of its tree; objects that are built along the way have none yet.
-/

namespace Downlevel

/-- An ordered document. -/
inductive Tree where
  | null
  | bool (b : Bool)
  | int (n : Int)
  | real (d : Decimal)
  | str (s : String)
  | list (items : List Tree)
  | obj (mark : Option Nat) (fields : List (String × Tree))
  deriving Inhabited

/-- Keys with their values, in order. -/
abbrev Fields := List (String × Tree)

namespace Tree

/-! ## Fields -/

/-- The fields of an object, in order; nothing for other values. -/
def fields : Tree → List (String × Tree)
  | .obj _ fs => fs
  | _ => []

/-- The mark of an object. -/
def mark? : Tree → Option Nat
  | .obj m _ => m
  | _ => none

/-- The value under a key. -/
def lookup (key : String) : List (String × Tree) → Option Tree
  | [] => none
  | (k, v) :: rest => if k = key then some v else lookup key rest

/-- The value of a field. -/
def get? (t : Tree) (key : String) : Option Tree := lookup key t.fields

/-- The value of a field, null when there is none. -/
def get (t : Tree) (key : String) : Tree := (t.get? key).getD .null

/-- Is there such a field, whatever its value? -/
def has (t : Tree) (key : String) : Bool := (t.get? key).isSome

/-- The value of a field that must be there. -/
def need (t : Tree) (key : String) : Except Fault Tree :=
  match t.get? key with
  | some v => .ok v
  | none => .error (.missingField key)

/-- Writes a field: in its place when it exists, else last. -/
def insert (key : String) (value : Tree) : List (String × Tree) → List (String × Tree)
  | [] => [(key, value)]
  | (k, v) :: rest => if k = key then (k, value) :: rest else (k, v) :: insert key value rest

/-- The object with a field written. -/
def set (t : Tree) (key : String) (value : Tree) : Tree :=
  match t with
  | .obj m fs => .obj m (insert key value fs)
  | t => t

/-- The object without a field. -/
def erase (t : Tree) (key : String) : Tree :=
  match t with
  | .obj m fs => .obj m (fs.filter (·.1 ≠ key))
  | t => t

/-- An object without a mark. -/
def record (fs : List (String × Tree)) : Tree := .obj none fs

/-! ## Values -/

/-- The items of a list; nothing for other values. -/
def items : Tree → List Tree
  | .list xs => xs
  | _ => []

def isNull : Tree → Bool
  | .null => true
  | _ => false

def isList : Tree → Bool
  | .list _ => true
  | _ => false

def isObject : Tree → Bool
  | .obj _ _ => true
  | _ => false

def str? : Tree → Option String
  | .str s => some s
  | _ => none

def int? : Tree → Option Int
  | .int n => some n
  | _ => none

/-- Null, false, zero and everything empty are not set; all else is. -/
def isSet : Tree → Bool
  | .null => false
  | .bool b => b
  | .int n => n ≠ 0
  | .real d => !d.isZero
  | .str s => !s.isEmpty
  | .list xs => !xs.isEmpty
  | .obj _ fs => !fs.isEmpty

/-- Is the value the text `s`? -/
def isStr (t : Tree) (s : String) : Bool :=
  match t with
  | .str u => u = s
  | _ => false

/-! ## Nodes -/

/-- A node is an object with a `type` field. -/
def isNode : Tree → Bool
  | .obj _ fs => (lookup "type" fs).isSome
  | _ => false

/-- The type of a node. -/
def type? (t : Tree) : Option String := (t.get "type").str?

/-- Is it a node of this type? -/
def isType (t : Tree) (name : String) : Bool := (t.get "type").isStr name

/-- Is it a node of one of these types? -/
def isTypeIn (t : Tree) (names : List String) : Bool := names.any t.isType

/-- The name of an identifier. -/
def name? (t : Tree) : Option String := (t.get "name").str?

/-- The items of a list field. -/
def children (t : Tree) (key : String) : List Tree := (t.get key).items

/-- The two offsets of a node in its text. -/
def range? (t : Tree) : Option (Int × Int) :=
  match t.get "range" with
  | .list (.int a :: .int b :: _) => some (a, b)
  | _ => none

/-- Where a node starts in its text. -/
def start? (t : Tree) : Option Int :=
  match t.get "range" with
  | .list (.int a :: _) => some a
  | _ => none

/-- Line and column of a node. -/
def position (t : Tree) : Option Int × Option Int :=
  let start := (t.get "loc").get "start"
  ((start.get "line").int?, (start.get "column").int?)

/-! ## Small laws -/

@[simp] theorem lookup_nil (key : String) : lookup key [] = none := rfl

theorem lookup_insert_self (key : String) (value : Tree) (fs : List (String × Tree)) :
    lookup key (insert key value fs) = some value := by
  induction fs with
  | nil => simp [insert, lookup]
  | cons f rest ih =>
    obtain ⟨k, v⟩ := f
    by_cases h : k = key <;> simp [insert, lookup, h, ih]

theorem lookup_insert_of_ne {key other : String} (h : other ≠ key) (value : Tree)
    (fs : List (String × Tree)) : lookup other (insert key value fs) = lookup other fs := by
  induction fs with
  | nil => simp [insert, lookup, Ne.symm h]
  | cons f rest ih =>
    obtain ⟨k, v⟩ := f
    by_cases hk : k = key
    · subst hk
      simp [insert, lookup, Ne.symm h]
    · simp [insert, lookup, hk, ih]

end Tree
end Downlevel
