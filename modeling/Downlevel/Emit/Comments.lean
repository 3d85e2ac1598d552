import Downlevel.Tree.Shown

/-!
# `Emit.Comments`: the comments of a text, handed out in order

The queue holds the comments that have not been written yet, in the order of the text; comments without
a place come last. Each is handed out once: those before an offset, the one that trails a piece of code
on its line, or all that are left.

Offsets count characters of the text; a negative one counts from its end.
-/

namespace Downlevel.Emit

open Tree

/-! ## Parts of a text -/

/-- An offset in a text of `n` characters: from the end if it is negative, and never outside. -/
def clamp (n : Nat) (offset : Int) : Nat :=
  if offset < 0 then (offset + n).toNat else min offset.toNat n

/-- The characters from one offset to another. -/
def slice (text : List Char) (first last : Int) : List Char :=
  let a := clamp text.length first
  let b := clamp text.length last
  (text.take b).drop a

/-- How many line breaks there are from one offset to another. -/
def countBreaks (text : List Char) (first last : Int) : Nat := (slice text first last).count '\n'

/-! ## Comments -/

namespace Comment

/-- Where a comment starts, if it has a place. -/
def start? (comment : Tree) : Option Int := comment.start?

/-- Where a comment ends, if it has a place. -/
def end? (comment : Tree) : Option Int := (comment.range?).map (·.2)

/-- A comment as it is written. -/
def text (comment : Tree) : String :=
  let value := ((comment.get? "value").map Tree.plain).getD ""
  if comment.isType "Line" then "//" ++ value else "/*" ++ value ++ "*/"

/-- Does one comment come no later than another? Without a place it comes last. -/
def startLe (a b : Tree) : Bool :=
  match start? a, start? b with
  | some x, some y => decide (x ≤ y)
  | none, some _ => false
  | _, none => true

/-- Does a comment start before an offset? -/
def isBefore (offset : Int) (comment : Tree) : Bool :=
  match start? comment with
  | some s => decide (s < offset)
  | none => false

end Comment

/-! ## The queue -/

/-- The comments still to be written, the starts of all tokens, and the text. -/
structure CommentQueue where
  pending : List Tree
  tokenStarts : List Int
  source : List Char

namespace CommentQueue

/-- The queue of a text with its comments and tokens. -/
def ofTables (comments tokens : List Tree) (source : String) : CommentQueue where
  pending := comments.mergeSort Comment.startLe
  tokenStarts := (tokens.filterMap Tree.start?).mergeSort fun a b => decide (a ≤ b)
  source := source.toList

def length (q : CommentQueue) : Nat := q.pending.length

/-- The next comment. -/
def peek? (q : CommentQueue) : Option Tree := q.pending.head?

/-- The comments that start before an offset. -/
def takeBefore (q : CommentQueue) (offset : Int) : List Tree × CommentQueue :=
  (q.pending.takeWhile (Comment.isBefore offset),
    { q with pending := q.pending.dropWhile (Comment.isBefore offset) })

/-- Is there a token from one offset to another? -/
def hasToken (q : CommentQueue) (first last : Int) : Bool :=
  match q.tokenStarts.dropWhile (· < first) with
  | s :: _ => decide (s < last)
  | [] => false

/-- Does a comment follow code that ends at an offset, with nothing but blanks between them? -/
def trails (q : CommentQueue) (offset : Int) (comment : Tree) : Bool :=
  match Comment.start? comment with
  | none => false
  | some s =>
    decide (offset ≤ s) && !(slice q.source offset s).contains '\n' && !q.hasToken offset s

/-- The next comment, if it trails code that ends at an offset. -/
def takeTrailing (q : CommentQueue) (offset : Int) : Option Tree × CommentQueue :=
  match q.pending with
  | [] => (none, q)
  | c :: rest => if q.trails offset c then (some c, { q with pending := rest }) else (none, q)

/-- All comments that are left. -/
def takeRest (q : CommentQueue) : List Tree × CommentQueue :=
  (q.pending, { q with pending := [] })

end CommentQueue
end Downlevel.Emit
