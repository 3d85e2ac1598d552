import Downlevel.Config
import Downlevel.Emit.Output
import Downlevel.Source.FrontEnd

/-!
# `Session`: reading, lowering and writing one program

A session reads a program once, lowers it, and writes it out. Its phase says which operations are in order; one
that comes too early or too late fails and changes nothing. The program it works on and the text that was
written out stand beside the phase.

What happens along the way is noted. Files are part of the session's state, so that an operation is a
function of the session alone.
-/

namespace Downlevel

open Lower Source Emit

/-! ## Runs -/

/-- A program being worked on, the lowerings applied so far and what they left alone. -/
structure Run where
  text : String
  tree : Tree
  sourceName : String
  dialect : Dialect
  comments : List Tree
  tokens : List Tree
  applied : List Pass := []
  diagnostics : List Diagnostic := []

namespace Run

/-- The run of a program that has just been read. -/
def ofProgram (p : Program) : Run where
  text := p.parsed.text
  tree := p.parsed.tree
  sourceName := p.parsed.sourceName
  dialect := p.dialect
  comments := p.parsed.comments
  tokens := p.parsed.tokens

/-- The run after a lowering with a result. -/
def add (r : Run) (p : Pass) (l : Lowered) : Run :=
  { r with tree := l.tree, applied := r.applied ++ [p], diagnostics := r.diagnostics ++ l.diagnostics }

end Run

/-! ## Progress -/

/-- How far a session has come. -/
inductive Phase where
  | configured
  | parsed
  | lowered
  | emitted
  deriving DecidableEq

namespace Phase

def text : Phase → String
  | .configured => "configured"
  | .parsed => "parsed"
  | .lowered => "lowered"
  | .emitted => "emitted"

/-- The place of a phase in the order in which a session goes through them. -/
def rank : Phase → Nat
  | .configured => 0
  | .parsed => 1
  | .lowered => 2
  | .emitted => 3

end Phase

/-- How far a session has come: its phase, the program it works on, and the text once it was written out. The
three are kept apart, and only the order of operations makes them agree. -/
structure Progress where
  phase : Phase := .configured
  run : Option Run := none
  output : Option String := none

/-! ## Sessions -/

/-- What a lowering that fails leaves of a tree. It works on the tree in place, and how far it came is not part
of this library: it may leave anything. -/
abbrev Remains := Pass → Tree → Tree

/-- What stays the same during a session. -/
structure Setup where
  config : Config := {}
  tools : Tools
  remains : Remains

/-- What changes during a session. -/
structure Session where
  progress : Progress := {}
  files : Files.Table := []
  logs : List LogRecord := []

/-- The program written out. -/
def Run.emit (r : Run) (setup : Setup) : Except Fault (Output × List LogRecord) :=
  Emit.emit setup.tools.beautifier r.tree r.text r.comments r.tokens { formatter := setup.config.formatter }

namespace Session

/-- An operation of a session. What it did before a failure stays done. -/
abbrev Action := ExceptT Fault (StateM Session)

/-- A session at its start. -/
def start (c : Config) (files : Files.Table) : Session :=
  let names := Text.joinWith ", " (c.passes.map Pass.name)
  let names := if names.isEmpty then "(none)" else names
  { files := files, logs := [.debug .session s!"Pipeline configured with passes: {names}"] }

/-- Notes records. -/
def note (records : List LogRecord) : Action Unit :=
  modify fun s => { s with logs := s.logs ++ records }

/-- Changes how far the session has come. -/
def advance (f : Progress → Progress) : Action Unit :=
  modify fun s => { s with progress := f s.progress }

/-- Fails unless the session is in one of some phases. -/
def require (operation : String) (phases : List Phase) : Action Unit := do
  let phase := (← get).progress.phase
  if phase ∈ phases then pure ()
  else throw (.outOfOrder operation (phases.map Phase.text) phase.text)

/-- The program to work on. -/
def program : Action Run := do
  match (← get).progress.run with
  | some run => return run
  | none => throw .noProgram

/-- The diagnostics so far. -/
def diagnostics (s : Session) : List Diagnostic := (s.progress.run.map (·.diagnostics)).getD []

/-! ## Reading -/

/-- A name that is given and not empty, or else another one. -/
def orElse (name : Option String) (other : String) : String :=
  match name with
  | some n => if n.isEmpty then other else n
  | none => other

/-- Reads a program from a text. -/
def read (setup : Setup) (text : String) (dialect : Option String) (sourceName : String) :
    Action Run := do
  require "read" [.configured]
  let request : Request :=
    { text := text, sourceName := sourceName, dialect := orElse dialect Dialect.es6.text,
      sourceType := setup.config.sourceType.text }
  note (readNotes request)
  let run := Run.ofProgram (← liftM (readProgram setup.tools request))
  advance fun p => { p with phase := .parsed, run := some run }
  note [.debug .session
    s!"Parsed {sourceName} ({run.comments.length} comments, {run.tokens.length} tokens)"]
  return run

/-- Reads a program from a file; the operation is known under a name. -/
def load (setup : Setup) (path : String) (dialect : Option String)
    (operation : String := "read_file") : Action Run := do
  require operation [.configured]
  match Files.readText (← get).files (.ofText path) with
  | .ok text => read setup text (orElse dialect (Dialect.ofPath (.ofText path)).text) path
  | .error cause => throw (.unreadable path cause)

/-! ## Lowering -/

/-- Applies a lowering to a run. `context` is the name under which it notes what it leaves alone. -/
def lowerRun (setup : Setup) (p : Pass) (context : String) (run : Run) : Action (List Diagnostic) := do
  note [.debug .session s!"Applying {p.name} to {run.sourceName}"]
  match p.lower run.tree with
  | .ok lowered => do
    note (lowered.diagnostics.map fun d => .debug .lowering s!"{context}: {d.text}")
    note (lowered.diagnostics.map fun d => .warning .session s!"{run.sourceName}: {d.text}")
    advance fun q => { q with phase := .lowered, run := some (run.add p lowered) }
    return lowered.diagnostics
  | .error fault => do
    advance fun q => { q with run := some { run with tree := setup.remains p run.tree } }
    throw fault

/-- Applies a lowering, and gives what it left alone. Without a context it has the run's name. -/
def applyPass (setup : Setup) (p : Pass) (context : Option String := none) :
    Action (List Diagnostic) := do
  require "apply_transformation" [.parsed, .lowered]
  let run ← program
  lowerRun setup p (context.getD run.sourceName) run

/-- Applies a lowering by name. -/
def apply (setup : Setup) (name : String) : Action (List Diagnostic) := do
  require "apply_transformation" [.parsed, .lowered]
  match Pass.ofName? name with
  | some p => applyPass setup p
  | none => throw (.unknownPass name)

/-- Applies lowerings one after the other. -/
def applyEach (setup : Setup) : List Pass → Action Unit
  | [] => pure ()
  | p :: rest => do
      let _ ← applyPass setup p
      applyEach setup rest

/-- Applies every lowering of the configuration, and gives what all of them left alone. -/
def applyAll (setup : Setup) : Action (List Diagnostic) := do
  require "apply_transformations" [.parsed]
  applyEach setup setup.config.passes
  advance fun p => { p with phase := .lowered }
  return (← get).diagnostics

/-! ## Writing -/

/-- The text of the lowered program. It is made once. -/
def output (setup : Setup) : Action String := do
  require "out" [.lowered, .emitted]
  match (← get).progress.output with
  | some text => do
    advance fun p => { p with phase := .emitted }
    return text
  | none => do
    let run ← program
    let (out, notes) ← liftM (run.emit setup)
    note notes
    advance fun p => { p with phase := .emitted, output := some out.text }
    return out.text

/-- Writes a text to a file. -/
def write (path text : String) : Action Unit := do
  let s ← get
  let target := Files.Path.ofText path
  let (result, files) := (Files.writeText target text).run s.files
  set { s with files := files }
  match result with
  | .ok _ => note [.debug .files s!"Wrote {text.length} characters to {target.text}"]
  | .error cause => throw (.unwritable path cause)

/-- Writes the lowered program to a file. -/
def save (setup : Setup) (path : String) : Action Unit := do
  write path (← output setup)

/-- Writes the lowered program to a file, and reports how writing went instead of failing. -/
def saveReporting (setup : Setup) (path : String) : Action (Option Fault) := do
  let text ← output setup
  tryCatch (do write path text; return none) fun fault => return some fault

end Session

/-! ## In one call -/

/-- Reads, lowers and writes out a program. -/
def transform (setup : Setup) (text : String) (dialect : Option String) (sourceName : String) :
    Except Fault (String × List Diagnostic) :=
  let work : Session.Action (String × List Diagnostic) := do
    let _ ← Session.read setup text dialect sourceName
    let diagnostics ← Session.applyAll setup
    return (← Session.output setup, diagnostics)
  (work.run (Session.start setup.config [])).1

end Downlevel
