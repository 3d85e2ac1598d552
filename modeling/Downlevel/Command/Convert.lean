import Downlevel.Command.Options
import Downlevel.Session

/-!
# `Command.Convert`: the command

Converts one file. Problems that the analysis finds and constructs that are left alone are reported on
standard error after the text is written; asked to be strict, the command then fails.
-/

namespace Downlevel.Command

open Source Session

/-- What a command leaves behind. -/
structure Report where
  exit : Nat
  stdout : String := ""
  stderr : String := ""
  files : Files.Table := []

/-- A place in a source, as much of it as is known. -/
def placeText (line column : Option Int) : String :=
  match line, column with
  | none, _ => ""
  | some l, none => s!":{l}"
  | some l, some c => s!":{l}:{c}"

/-- Lines of text, each ended. -/
def lines (xs : List String) : String := String.join (xs.map (· ++ "\n"))

/-- The configuration that options ask for. -/
def configOf (o : Options) : Config where
  enabled := fun p => !o.disabled.contains p
  formatter := if o.format then some [("indent_size", .int o.indentSize)] else none
  sourceType := if o.moduleSource then .module else .script

/-- The line that reports a failure, if it is one that the command reports itself. -/
def failureLine? (sourceName : String) : Fault → Option String
  | .unparsable f =>
    let place := placeText f.line f.column
    some s!"ERROR {sourceName}{place}: {f.description}"
  | .unreadable path cause => some s!"ERROR: {(Fault.unreadable path cause).message}"
  | .unwritable path cause => some s!"ERROR: {(Fault.unwritable path cause).message}"
  | _ => none

/-- The lines about problems that the analysis finds. -/
def issueLines (sourceName : String) (tree : Tree) : List String :=
  (Scope.analyze tree).issues.map fun i =>
    let place := placeText i.node.position.1 i.node.position.2
    s!"WARNING {sourceName}{place}: {i.code.message}"

/-- The line about a construct that is left alone. -/
def diagnosticLine (sourceName : String) (d : Lower.Diagnostic) : String :=
  let place := placeText d.line d.column
  s!"INFO {sourceName}{place}: [{d.pass}] {d.message}"

/-- Converts a file in a session, and gives what is to be written to standard output and the lines to
report. -/
def work (setup : Setup) (o : Options) (sourceName : String) :
    Session.Action (String × List String) := do
  let run ← Session.load setup sourceName (if o.coffee then some Dialect.coffee.text else none)
    "read_file"
  let issues := issueLines sourceName run.tree
  let diagnostics ← Session.applyAll setup
  let reports := issues ++ diagnostics.map (diagnosticLine sourceName)
  if o.out.isEmpty then return (← Session.output setup, reports)
  Session.save setup o.out
  return ("", reports)

/-- Converts a file. -/
def convert (tools : Tools) (remains : Remains) (o : Options) (files : Files.Table) : Except Fault Report :=
  let path := Files.Path.ofText o.input
  let sourceName := path.text
  match Files.entry? files path with
  | none =>
    .ok { exit := 1, stderr := s!"ERROR: Input file not found: {sourceName}\n", files := files }
  | some _ =>
    let setup : Setup := ⟨configOf o, tools, remains⟩
    let (result, s) := (work setup o sourceName).run (Session.start setup.config files)
    let logs := if o.verbose then s.logs.map LogRecord.text else []
    match result with
    | .ok (text, reports) =>
      .ok { exit := if o.strict && !reports.isEmpty then 1 else 0
            stdout := text
            stderr := lines (logs ++ reports)
            files := s.files }
    | .error fault =>
      match failureLine? sourceName fault with
      | some line => .ok { exit := 1, stderr := lines (logs ++ [line]), files := s.files }
      | none => .error fault

/-- Runs a command line. -/
def run (tools : Tools) (remains : Remains) (words : List String) (files : Files.Table) :
    Except Fault Report :=
  match read words with
  | .error .help => .ok { exit := 0, files := files }
  | .error (.mistake program m) =>
    .ok { exit := 2, stderr := s!"{program}: error: {m.text}", files := files }
  | .ok none => .ok { exit := 1, stdout := usage, files := files }
  | .ok (some options) => convert tools remains options files

end Downlevel.Command
