import Downlevel.Emit.Format
import Downlevel.Scope.Analysis
import Downlevel.Source.Dialect
import Downlevel.Source.Parse

/-!
# `Source.FrontEnd`: from source text to program

A source is compiled if its dialect asks for it, parsed, and on demand analysed. The parsed program can be
kept in a directory, in a file named by the digest of its text.
-/

namespace Downlevel.Source

/-- What reading and writing a program need from outside. -/
structure Tools where
  grammar : Grammar
  beautifier : Emit.Beautifier
  compiler : Compiler := noCompiler

/-- A source and how to read it. Dialect and kind of program are given by name. -/
structure Request where
  text : String
  sourceName : String := "<input>"
  dialect : String := "es6"
  sourceType : String := "script"

/-- A program that has been read. -/
structure Program where
  parsed : Parsed
  dialect : Dialect

/-- Compiles and parses a source. -/
def readProgram (tools : Tools) (r : Request) : Except Fault Program := do
  let dialect ← Dialect.read r.dialect
  let text ← compile tools.compiler dialect r.text r.sourceName
  let type ← SourceType.read r.sourceType
  let parsed ← parse tools.grammar text r.sourceName type
  return ⟨parsed, dialect⟩

/-- What is noted while a source is read. -/
def readNotes (r : Request) : List LogRecord :=
  match Dialect.ofText? r.dialect with
  | some d => compileNotes d r.sourceName
  | none => []

/-- Keeps a parsed program in a directory. -/
def keep (directory : Files.Path) (p : Parsed) : Files.Action Unit := do
  Files.makeDirectories directory
  Files.writeBytes (directory.child (p.digest ++ ".json")) (Text.encode p.toJson)

/-- A program and, if asked for, its analysis. -/
structure FrontEndResult where
  program : Program
  analysis : Option Scope.Analysis

/-- Reads a source, analyses it on demand, and keeps it if a directory is given. -/
def frontEnd (tools : Tools) (r : Request) (analyze : Bool) (cache : Option Files.Path) :
    ExceptT Fault (StateM Files.Table) FrontEndResult := do
  let program ← liftM (readProgram tools r)
  let analysis := if analyze then some (Scope.analyze program.parsed.tree) else none
  match cache with
  | none => pure ()
  | some directory => ExceptT.adapt Fault.uncached (keep directory program.parsed)
  return ⟨program, analysis⟩

end Downlevel.Source
