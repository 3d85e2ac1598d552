import Downlevel.Emit.Comments

/-!
# `Emit.Layout`: text with lines and comments

A layout is a program on its way to text: what is still open is the indentation, where comments go, and
a few parentheses that depend on how a part turns out. Comments are taken from a queue in the order in
which the parts are set, which is nearly always the order in which they stand.

A list of statements is set line by line. Before a statement come the comments that start before it;
comments inside it that no part of it took stand in front of it as well; a comment right behind it stays
on its line. Blank lines between statements are those of the source text.
-/

namespace Downlevel.Emit

open Text

/-! ## Conditions on a text -/

/-- What the text of a part can be asked. -/
inductive TextTest where
  /-- Would it be read as a declaration or a block at the start of a statement? -/
  | ambiguousStart
  | startsWith (s : String)
  /-- Does it start without a parenthesis? -/
  | bare
  /-- Is it a number without a point, so that a point after it would belong to it? -/
  | digits
  deriving DecidableEq

/-- What follows a text at the start of another. -/
def after? : List Char → List Char → Option (List Char)
  | [], cs => some cs
  | _ :: _, [] => none
  | p :: ps, c :: cs => if p = c then after? ps cs else none

/-- Does a word end here? -/
def atWordEnd : List Char → Bool
  | [] => true
  | c :: _ => !isWord c

/-- Does the text start with the word? -/
def startsWithWord (word : String) (cs : List Char) : Bool :=
  (after? word.toList cs).any atWordEnd

/-- `let` and a bracket. -/
def startsWithLet (cs : List Char) : Bool :=
  match after? "let".toList cs with
  | some rest =>
    match rest.dropWhile isBlank with
    | '[' :: _ => true
    | _ => false
  | none => false

/-- `async`, blanks and `function`. -/
def startsWithAsync (cs : List Char) : Bool :=
  match after? "async".toList cs with
  | some (c :: rest) => isBlank c && startsWithWord "function" (rest.dropWhile isBlank)
  | _ => false

/-- One or more digits, and at most a line break behind them. -/
def isDigits (cs : List Char) : Bool :=
  match cs, cs.dropWhile isDecimalDigit with
  | [], _ => false
  | c :: _, rest => isDecimalDigit c && (rest == [] || rest == ['\n'])

def TextTest.holds (test : TextTest) (s : String) : Bool :=
  let cs := s.toList
  match test with
  | .ambiguousStart =>
    startsWithWord "function" cs || startsWithWord "class" cs || cs.head? == some '\x7b' ||
      startsWithLet cs || startsWithAsync cs
  | .startsWith t => (after? t.toList cs).isSome
  | .bare => cs.head? != some '('
  | .digits => isDigits cs

/-! ## Layouts -/

/-- How a list of statements is set. -/
inductive Frame where
  /-- In braces, one level in. -/
  | braced
  /-- On lines of their own, one level in. -/
  | below
  /-- As they are. -/
  | plain
  deriving DecidableEq

/-- Which comments the end of a list takes. -/
inductive Close where
  | nothing
  | before (offset : Int)
  | rest
  deriving DecidableEq

/-- A program on its way to text. -/
inductive Layout where
  | text (s : String)
  | cat (parts : List Layout)
  /-- A line break and the indentation. -/
  | newline
  /-- One level in. -/
  | nest (part : Layout)
  /-- Texts around a part if it passes a test. -/
  | wrapIf (test : TextTest) (opening closing : String) (part : Layout)
  /-- Two parts, of which the second is set first. -/
  | behind (first second : Layout)
  /-- A part that takes its comments and is not written. -/
  | silent (part : Layout)
  /-- Statements, each with its place in the source text. -/
  | lines (frame : Frame) (items : List (Option (Int × Int) × Layout)) (close : Close)
  deriving Inhabited

namespace Layout

/-- A separator between each two layouts. -/
def between (separator : Layout) : List Layout → List Layout
  | [] => []
  | [l] => [l]
  | l :: rest => l :: separator :: between separator rest

/-- Layouts with a separator between them. -/
def join (separator : String) (parts : List Layout) : Layout :=
  .cat (between (.text separator) parts)

def parenthesized (part : Layout) : Layout := .cat [.text "(", part, .text ")"]

end Layout

/-! ## Setting -/

/-- Setting takes comments from the queue. -/
abbrev Setting := StateM CommentQueue

/-- `level` times the unit of indentation. -/
def indentation (unit : String) : Nat → String
  | 0 => ""
  | level + 1 => unit ++ indentation unit level

/-- The lines set so far, and where the last piece ended in the source text. -/
structure Lines where
  lines : List String := []
  lastEnd : Option Int := none

namespace Lines

/-- Repeats the blank lines between the last piece and an offset. -/
def blankLines (source : List Char) (l : Lines) (start : Option Int) : Lines :=
  match l.lastEnd, start with
  | some e, some s =>
    if l.lines.isEmpty then l
    else { l with lines := l.lines ++ List.replicate (countBreaks source e s - 1) "" }
  | _, _ => l

/-- Adds comments, one a line. -/
def addComments (source : List Char) (indent : String) (l : Lines) : List Tree → Lines
  | [] => l
  | c :: rest =>
    let l := l.blankLines source (Comment.start? c)
    addComments source indent
      { lines := l.lines ++ [indent ++ Comment.text c], lastEnd := Comment.end? c } rest

/-- Adds a line. -/
def add (l : Lines) (line : String) (lastEnd : Option Int) : Lines :=
  { lines := l.lines ++ [line], lastEnd := lastEnd }

end Lines

/-- Takes comments from the queue. -/
def takeBefore (offset : Int) : Setting (List Tree) :=
  modifyGet fun q => q.takeBefore offset

def takeTrailing (offset : Int) : Setting (Option Tree) :=
  modifyGet fun q => q.takeTrailing offset

def takeRest : Setting (List Tree) := modifyGet fun q => q.takeRest

/-- The lines with the comments that stand before a statement at `start`. -/
def leadIn (indent : String) (start : Int) (l : Lines) : Setting Lines := do
  let comments ← takeBefore start
  let q ← get
  return (l.addComments q.source indent comments).blankLines q.source (some start)

/-- The lines with a statement that ends at `stop`, and with the comments that it left. -/
def leadOut (indent text : String) (stop : Int) (l : Lines) : Setting Lines := do
  let inner ← takeBefore stop
  let q ← get
  let l := { l with lastEnd := none }.addComments q.source indent inner
  match ← takeTrailing stop with
  | some c => return l.add (indent ++ text ++ " " ++ Comment.text c) (Comment.end? c)
  | none => return l.add (indent ++ text) (some stop)

/-- The lines with the comments that the end of a list takes. -/
def closeList (indent : String) (close : Close) (l : Lines) : Setting (List String) := do
  let comments ← match close with
    | .nothing => pure []
    | .before offset => takeBefore offset
    | .rest => takeRest
  let q ← get
  return (l.addComments q.source indent comments).lines

/-- The level of the statements in a frame. -/
def Frame.inner (level : Nat) : Frame → Nat
  | .plain => level
  | _ => level + 1

/-- The lines of a list in its frame. -/
def Frame.put (frame : Frame) (indent : String) (lines : List String) : String :=
  match frame with
  | .plain => joinWith "\n" lines
  | .below => if lines.isEmpty then "" else "\n" ++ joinWith "\n" lines
  | .braced =>
    if lines.isEmpty then "\x7b\n" ++ indent ++ "\x7d"
    else "\x7b\n" ++ joinWith "\n" lines ++ "\n" ++ indent ++ "\x7d"

mutual

/-- The text of a layout at a level of indentation. -/
def render (unit : String) (level : Nat) : Layout → Setting String
  | .text s => pure s
  | .cat parts => renderAll unit level parts
  | .newline => pure ("\n" ++ indentation unit level)
  | .nest part => render unit (level + 1) part
  | .wrapIf test opening closing part => do
      let s ← render unit level part
      return if test.holds s then opening ++ s ++ closing else s
  | .behind first second => do
      let b ← render unit level second
      let a ← render unit level first
      return a ++ b
  | .silent part => do
      let _ ← render unit level part
      return ""
  | .lines frame items close => do
      let inner := frame.inner level
      let l ← renderItems unit inner {} items
      let lines ← closeList (indentation unit inner) close l
      return frame.put (indentation unit level) lines

/-- The texts of several layouts, one after another. -/
def renderAll (unit : String) (level : Nat) : List Layout → Setting String
  | [] => pure ""
  | part :: rest => do
      let s ← render unit level part
      let more ← renderAll unit level rest
      return s ++ more

/-- The lines of statements, after those so far. -/
def renderItems (unit : String) (level : Nat) (l : Lines) :
    List (Option (Int × Int) × Layout) → Setting Lines
  | [] => pure l
  | (some (start, stop), part) :: rest => do
      let l ← leadIn (indentation unit level) start l
      let s ← render unit level part
      let l ← leadOut (indentation unit level) s stop l
      renderItems unit level l rest
  | (none, part) :: rest => do
      let s ← render unit level part
      renderItems unit level (l.add (indentation unit level ++ s) none) rest

end

end Downlevel.Emit
