import Downlevel.Command.Convert

/-!
# `Main`: the program

Looks up the files that a command line names, runs the command on them, and writes what it leaves behind.
The syntax tree of a source file is read from a document beside it, whose name is that of the source with
`.json` after it.
-/

namespace Downlevel
namespace Main

open Source

/-- What stands at a path. -/
def probe (path : String) : IO (Option Files.Entry) := do
  try
    let bytes ← IO.FS.readBinFile path
    return some (.file bytes.toList)
  catch _ =>
    try
      let found ← IO.FS.realPath path
      return if ← found.isDir then some .directory else none
    catch _ => return none

/-- Adds a path and the directories on the way to it, from the first `count` parts on, to a table. -/
def survey (path : Files.Path) : Nat → Files.Table → IO Files.Table
  | 0, table => return table
  | count + 1, table => do
      let part : Files.Path := { path with parts := path.parts.take (path.parts.length - count) }
      match Files.place table part, ← probe part.text with
      | .ok place, some entry => survey path count (table.put place entry)
      | _, _ => survey path count table

/-- The grammar that answers with the document beside a source. -/
def documentGrammar (document : Option String) : Grammar := fun _ _ =>
  match document.bind Tree.ofJson? with
  | some program => .ok program
  | none => .error { text := "No syntax tree beside the source" }

/-- The beautifier that knows no options and changes nothing. -/
def plainBeautifier : Emit.Beautifier := ⟨[], fun text _ => .ok text⟩

/-- The text of a file, if there is one. -/
def textAt (path : String) : IO (Option String) := do
  match ← probe path with
  | some (.file bytes) => return (Text.decode bytes).toOption
  | _ => return none

/-- Writes the output of a conversion. -/
def writeOut (out : String) (files : Files.Table) : IO Unit := do
  let path := Files.Path.ofText out
  match Files.entry? files path with
  | some (.file bytes) =>
    IO.FS.createDirAll path.parent.text
    IO.FS.writeBinFile path.text (ByteArray.mk bytes.toArray)
  | _ => return ()

end Main
end Downlevel

open Downlevel in
/-- Runs the command line. -/
def main (words : List String) : IO UInt32 := do
  let (input, out) := match Command.read words with
    | .ok (some options) => (options.input, options.out)
    | _ => ("", "")
  let mut files : Files.Table := []
  for name in [input, out] do
    let path := Files.Path.ofText name
    files ← Main.survey path path.parts.length files
  let document ← Main.textAt (input ++ ".json")
  let tools : Source.Tools := ⟨Main.documentGrammar document, Main.plainBeautifier, Source.noCompiler⟩
  -- The command ends with the first failure, so nobody sees what is left of the tree.
  match Command.run tools (fun _ tree => tree) words files with
  | .ok report =>
    IO.print report.stdout
    IO.eprint report.stderr
    if !out.isEmpty then Main.writeOut out report.files
    return report.exit.toUInt32
  | .error fault =>
    IO.eprintln fault.message
    return 1
