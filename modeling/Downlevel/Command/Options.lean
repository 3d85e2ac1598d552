import Downlevel.Lower.Pass
import Downlevel.Text.Integer

/-!
# `Command.Options`: reading the command line

The command line is a list of words. A word that starts with a dash is an option, unless it is a number, a
dash alone, or holds a blank; any start of a long option's name stands for it if no other option starts
so. A value may be attached to an option by an equals sign. After two dashes every word is plain.

Words are sorted out first and then taken from left to right; the first mistake ends the reading.
-/

namespace Downlevel.Command

open Lower Text

/-! ## Options -/

/-- The options. -/
inductive Switch where
  | help
  | out
  | moduleSource
  | coffee
  | disable
  | format
  | indentSize
  | strict
  | verbose
  deriving DecidableEq

/-- How many values an option takes. -/
inductive Arity where
  | flag
  | one
  | oneOrMore
  deriving DecidableEq

def Switch.arity : Switch → Arity
  | .out | .indentSize => .one
  | .disable => .oneOrMore
  | _ => .flag

/-- The spellings of an option. -/
def Switch.spellings : Switch → List String
  | .help => ["-h", "--help"]
  | .out => ["--out"]
  | .moduleSource => ["--module"]
  | .coffee => ["--coffee"]
  | .disable => ["--disable"]
  | .format => ["--format"]
  | .indentSize => ["--indent-size"]
  | .strict => ["--strict"]
  | .verbose => ["--verbose"]

/-- The options of a conversion. -/
def conversionSwitches : List Switch :=
  [.help, .out, .moduleSource, .coffee, .disable, .format, .indentSize, .strict, .verbose]

/-! ## Mistakes -/

/-- What can be wrong with a command line. -/
inductive Mistake where
  | ambiguous (word : String) (candidates : List String)
  | ignoredValue (s : Switch) (value : String)
  | noValue (s : Switch)
  | badChoice (argument value : String) (choices : List String)
  | badInteger (s : Switch) (value : String)
  | noInput
  | unrecognized (words : List String)

/-- The name of an option in messages. -/
def Switch.title (s : Switch) : String := joinWith "/" s.spellings

def Mistake.text : Mistake → String
  | .ambiguous word candidates =>
    let names := joinWith ", " candidates
    s!"ambiguous option: {word} could match {names}"
  | .ignoredValue s value =>
    let value := shown value
    s!"argument {s.title}: ignored explicit argument {value}"
  | .noValue s =>
    let count := if s.arity = .one then "one argument" else "at least one argument"
    s!"argument {s.title}: expected {count}"
  | .badChoice argument value choices =>
    let value := shown value
    let names := joinWith ", " (choices.map shown)
    s!"argument {argument}: invalid choice: {value} (choose from {names})"
  | .badInteger s value =>
    let value := shown value
    s!"argument {s.title}: invalid int value: {value}"
  | .noInput => "the following arguments are required: input"
  | .unrecognized words =>
    let names := joinWith " " words
    s!"unrecognized arguments: {names}"

/-- Why reading a command line ends early: help is asked for, or there is a mistake in what a program name
stands for. -/
inductive Stop where
  | help
  | mistake (program : String) (m : Mistake)

/-! ## Words -/

/-- What a word of a command line is. -/
inductive Word where
  | plain (text : String)
  /-- An option, perhaps with a value after an equals sign. -/
  | option (s : Switch) (attached : Option String)
  /-- A short option with more letters behind it. -/
  | cluster (s : Switch) (letters : List Char)
  | unknown (text : String)
  | separator

/-- Is the word a negative number? It may end in a line feed. -/
def isNegativeNumber (word : String) : Bool :=
  let digits (cs : List Char) : Bool := !cs.isEmpty && cs.all isDecimalDigit
  let cs := word.toList
  let cs := if cs.getLast? = some '\n' then cs.dropLast else cs
  match cs with
  | '-' :: rest =>
    digits rest ||
      match rest.dropWhile isDecimalDigit with
      | '.' :: fraction => digits fraction
      | _ => false
  | _ => false

/-- The text before the first equals sign, and the text after it. -/
def splitValue (cs : List Char) : List Char × Option String :=
  match cs.dropWhile (· != '=') with
  | [] => (cs, none)
  | _ :: value => (cs.takeWhile (· != '='), some (String.ofList value))

/-- What a word may stand for, by the spelling of the option meant. A word with one dash is the short
option of its first letter, with the other letters behind it. -/
def candidates (switches : List Switch) (word : String) : List (String × Word) :=
  let spelled := switches.flatMap fun s => s.spellings.map fun name => (s, name)
  let cs := word.toList
  if cs.take 2 = ['-', '-'] then
    let (start, value) := splitValue cs
    (spelled.filter fun x => start.isPrefixOf x.2.toList).map fun x => (x.2, .option x.1 value)
  else
    spelled.filterMap fun x =>
      if x.2.toList = cs.take 2 then some (x.2, .cluster x.1 (cs.drop 2))
      else if cs.isPrefixOf x.2.toList then some (x.2, .option x.1 none)
      else none

/-- What a word is, for some options. -/
def classify (switches : List Switch) (word : String) : Except Mistake Word :=
  let find (name : String) : Option Switch := switches.find? (·.spellings.contains name)
  match word.toList with
  | [] | ['-'] => .ok (.plain word)
  | '-' :: _ =>
    match find word with
    | some s => .ok (.option s none)
    | none =>
      let (start, value) := splitValue word.toList
      match find (String.ofList start), value with
      | some s, some v => .ok (.option s (some v))
      | _, _ =>
        match candidates switches word with
        | [(_, w)] => .ok w
        | [] =>
          if isNegativeNumber word || word.toList.contains ' ' then .ok (.plain word)
          else .ok (.unknown word)
        | several => .error (.ambiguous word (several.map (·.1)))
  | _ => .ok (.plain word)

/-- What the words are. After two dashes all are plain. -/
def classifyAll (switches : List Switch) : List String → Except Mistake (List Word)
  | [] => .ok []
  | "--" :: rest => .ok (.separator :: rest.map .plain)
  | word :: rest => do
      let w ← classify switches word
      return w :: (← classifyAll switches rest)

/-! ## Conversions -/

/-- What a conversion is asked to do. Without an output path the text goes to standard output. -/
structure Options where
  input : String := ""
  out : String := ""
  moduleSource : Bool := false
  coffee : Bool := false
  disabled : List Pass := []
  format : Bool := false
  indentSize : Int := 2
  strict : Bool := false
  verbose : Bool := false

/-- What the next word may be. -/
inductive Expecting where
  | anything
  /-- The input has just been read, and a separator after it is dropped. -/
  | separatorOrAnything
  | value (s : Switch)
  /-- Another value of an option that has one. -/
  | moreValues (s : Switch)

/-- How far reading has come. -/
structure Reading where
  options : Options := {}
  input : Option String := none
  extras : List String := []
  expecting : Expecting := .anything

namespace Reading

/-- Puts a flag. -/
def flag (r : Reading) (s : Switch) : Reading :=
  let o := r.options
  { r with
    expecting := .anything
    options := match s with
      | .moduleSource => { o with moduleSource := true }
      | .coffee => { o with coffee := true }
      | .format => { o with format := true }
      | .strict => { o with strict := true }
      | .verbose => { o with verbose := true }
      | _ => o }

/-- Puts a value of an option, after the values it has. -/
def put (r : Reading) (s : Switch) (more : Bool) (value : String) : Except Mistake Reading :=
  let o := r.options
  match s with
  | .out => .ok { r with expecting := .anything, options := { o with out := value } }
  | .indentSize =>
    match integer? value with
    | some n => .ok { r with expecting := .anything, options := { o with indentSize := n } }
    | none => .error (.badInteger s value)
  | .disable =>
    match Pass.ofName? value with
    | some p =>
      let before := if more then o.disabled else []
      .ok { r with expecting := .moreValues s
                   options := { o with disabled := before ++ [p] } }
    | none => .error (.badChoice s.title value (Pass.all.map Pass.name))
  | s => .ok (r.flag s)

end Reading

/-- The mistake in the letters behind a short flag, if there is one. Help is the only short flag; it may be
repeated, takes no value, and ends the reading before letters that mean nothing. -/
def clusterMistake? (s : Switch) : List Char → Option Mistake
  | '-' :: rest => some (.ignoredValue s (String.ofList ('-' :: rest)))
  | 'h' :: '=' :: rest => some (.ignoredValue s (String.ofList rest))
  | 'h' :: rest => clusterMistake? s rest
  | _ => none

/-- What a cluster of short flags leads to. -/
def stopAtCluster (program : String) (s : Switch) (letters : List Char) : Stop :=
  match clusterMistake? s letters with
  | some m => .mistake program m
  | none => .help

/-- Takes a word that is no value of an option. -/
def stepFree (program : String) (r : Reading) (w : Word) : Except Stop Reading :=
  let fail (m : Mistake) : Except Stop Reading := .error (.mistake program m)
  match w with
  | .plain text =>
    match r.input with
    | none => .ok { r with input := some text, expecting := .separatorOrAnything }
    | some _ => .ok { r with extras := r.extras ++ [text], expecting := .anything }
  | .unknown text => .ok { r with extras := r.extras ++ [text], expecting := .anything }
  | .separator =>
    match r.input, r.expecting with
    | some _, .separatorOrAnything | none, _ => .ok { r with expecting := .anything }
    | some _, _ => .ok { r with extras := r.extras ++ ["--"], expecting := .anything }
  | .cluster s letters => .error (stopAtCluster program s letters)
  | .option s none =>
    match s.arity with
    | .flag => if s = .help then .error .help else .ok (r.flag s)
    | _ => .ok { r with expecting := .value s }
  | .option s (some value) =>
    match s.arity with
    | .flag => fail (.ignoredValue s value)
    | _ =>
      match r.put s false value with
      | .ok r => .ok { r with expecting := .anything }
      | .error m => fail m

/-- Takes a word. -/
def step (program : String) (r : Reading) (w : Word) : Except Stop Reading :=
  let lift (x : Except Mistake Reading) : Except Stop Reading :=
    match x with
    | .ok r => .ok r
    | .error m => .error (.mistake program m)
  match r.expecting, w with
  | .value s, .plain text => lift (r.put s false text)
  | .value s, _ => lift (.error (.noValue s))
  | .moreValues s, .plain text => lift (r.put s true text)
  | _, w => stepFree program r w

/-- The result once all words are taken: the options, and the words that nobody asked for. -/
def finish (program : String) (r : Reading) : Except Stop (Options × List String) :=
  match r.expecting, r.input with
  | .value s, _ => .error (.mistake program (.noValue s))
  | _, none => .error (.mistake program .noInput)
  | _, some input => .ok ({ r.options with input := input }, r.extras)

/-- Reads the words after the name of the command. -/
def readConversion (program : String) (words : List String) : Except Stop (Options × List String) :=
  match classifyAll conversionSwitches words with
  | .error m => .error (.mistake program m)
  | .ok words => do finish program (← words.foldlM (step program) {})

/-! ## The whole command line -/

/-- The name of the program. -/
def programName : String := "es6to5"

/-- The name of the command. -/
def conversionName : String := "convert"

/-- The first line of the help. -/
def usage : String := s!"usage: {programName} [-h] \x7b{conversionName}\x7d ..."

/-- Fails if there are words that nobody asked for. -/
def refuseExtras (extras : List String) : Except Stop Unit :=
  if extras.isEmpty then .ok () else .error (.mistake programName (.unrecognized extras))

/-- Reads a command line, with the options before the command that are not known. The result is the
conversion asked for, or nothing if no command is given. -/
def readFrom (unknown : List String) : List String → Except Stop (Option Options)
  | [] => do
      refuseExtras unknown
      return none
  | word :: rest => do
      let badCommand : Stop := .mistake programName (.badChoice "command" word [conversionName])
      if word = "--" then
        if rest.isEmpty then refuseExtras (unknown ++ [word]) else throw badCommand
        return none
      match classify [.help] word with
      | .error m => throw (.mistake programName m)
      | .ok (.option _ none) => throw .help
      | .ok (.option s (some value)) => throw (.mistake programName (.ignoredValue s value))
      | .ok (.cluster s letters) => throw (stopAtCluster programName s letters)
      | .ok (.unknown text) => readFrom (unknown ++ [text]) rest
      | .ok _ =>
        if word = conversionName then
          let (options, extras) ← readConversion s!"{programName} {conversionName}" rest
          refuseExtras (unknown ++ extras)
          return some options
        else throw badCommand

/-- Reads a command line. -/
def read (words : List String) : Except Stop (Option Options) := readFrom [] words

end Downlevel.Command
