import Downlevel.Text.Quoted

/-!
# `Files.Path`: names of files

A path is a root (none, one slash, or exactly two) and the parts after it. Repeated slashes and single
dots carry no meaning and are dropped; double dots are kept, since what they mean depends on the files.
-/

namespace Downlevel.Files

open Text

/-- The name of a file or directory. -/
structure Path where
  root : String := ""
  parts : List String := []
  deriving DecidableEq

namespace Path

/-- The pieces of a text between slashes. -/
def pieces : List Char → List (List Char)
  | [] => [[]]
  | c :: cs =>
    if c = '/' then [] :: pieces cs
    else match pieces cs with
      | [] => [[c]]
      | p :: ps => (c :: p) :: ps

/-- The root of a path: two slashes at the start are kept, any other number of them is one. -/
def rootOf (cs : List Char) : String :=
  match (cs.takeWhile (· == '/')).length with
  | 0 => ""
  | 2 => "//"
  | _ => "/"

/-- The path that a text names. -/
def ofText (s : String) : Path where
  root := rootOf s.toList
  parts := ((pieces s.toList).map String.ofList).filter fun p => p != "" && p != "."

/-- The path as text. -/
def text (p : Path) : String :=
  if p.root.isEmpty && p.parts.isEmpty then "." else p.root ++ joinWith "/" p.parts

/-- The directory that holds the path; a root holds itself. -/
def parent (p : Path) : Path := { p with parts := p.parts.dropLast }

/-- The last part. -/
def name (p : Path) : String := (p.parts.getLast?).getD ""

/-- The last part from its last dot on, unless the dot is its first or last character. -/
def suffix (p : Path) : String :=
  let ending := (p.name.toList.reverse.takeWhile (· != '.')).reverse
  if ending.isEmpty || p.name.length ≤ ending.length + 1 then ""
  else String.ofList ('.' :: ending)

/-- The path of a file in a directory. -/
def child (p : Path) (name : String) : Path := { p with parts := p.parts ++ [name] }

end Path
end Downlevel.Files
