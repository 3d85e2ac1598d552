import Downlevel.Text.CharClass

/-!
# `Text.Quoted`: text between quotes

Two ways to write a text between quotes. `quote` is the double-quoted form of JSON and of ES5 string
literals: what must be escaped is escaped, the rest stands as it is, and a `QuoteStyle` says what else
is escaped. `shown` is the form in which messages show a text: single quotes where possible.
-/
namespace Downlevel.Text

/-- The lowercase hexadecimal digits of `n`, at least `width` of them. -/
def hexDigits (width n : Nat) : String :=
  let ds := Nat.toDigits 16 n
  String.ofList (List.replicate (width - ds.length) '0' ++ ds)

/-- The texts of a list with a separator between each two. -/
def joinWith (separator : String) : List String → String
  | [] => ""
  | [s] => s
  | s :: rest => s ++ separator ++ joinWith separator rest

/-! ## Double quotes -/

/-- What a double-quoted text escapes beyond quotes, backslashes and controls. -/
inductive QuoteStyle where
  /-- Nothing more. -/
  | plain
  /-- The line separators U+2028 and U+2029, which end a line inside a string literal. -/
  | lineSafe
  /-- Everything after the tilde, as UTF-16 units. -/
  | ascii
  deriving DecidableEq

/-- `\u` and four digits for each UTF-16 unit of a character. -/
def unitEscape (c : Char) : String :=
  let n := c.toNat
  if n < 0x10000 then
    "\\u" ++ hexDigits 4 n
  else
    "\\u" ++ hexDigits 4 (0xd800 + (n - 0x10000) / 0x400) ++
      "\\u" ++ hexDigits 4 (0xdc00 + (n - 0x10000) % 0x400)

/-- Does the style escape a character that every style could leave as it is? -/
def QuoteStyle.escapes (style : QuoteStyle) (c : Char) : Bool :=
  match style with
  | .plain => false
  | .lineSafe => c.toNat == 0x2028 || c.toNat == 0x2029
  | .ascii => 0x7e < c.toNat

/-- One character of a double-quoted text. -/
def quoteChar (style : QuoteStyle) (c : Char) : String :=
  if c = '"' then "\\\""
  else if c = '\\' then "\\\\"
  else if c = '\n' then "\\n"
  else if c = '\r' then "\\r"
  else if c = '\t' then "\\t"
  else if c.toNat = 8 then "\\b"
  else if c.toNat = 12 then "\\f"
  else if c.toNat < 0x20 then unitEscape c
  else if style.escapes c then unitEscape c
  else c.toString

/-- The characters of a text, each as the style writes it. -/
def quoteChars (style : QuoteStyle) : List Char → String
  | [] => ""
  | c :: rest => quoteChar style c ++ quoteChars style rest

/-- A text between double quotes. -/
def quote (style : QuoteStyle) (s : String) : String :=
  "\"" ++ quoteChars style s.toList ++ "\""

/-- The string literal that denotes a text in an emitted program. -/
def quoteString (s : String) : String := quote .lineSafe s

/-! ## Messages -/

/-- One character of a text shown in a message between quotes `q`. -/
def shownChar (q c : Char) : String :=
  if c = q || c = '\\' then "\\" ++ c.toString
  else if c = '\n' then "\\n"
  else if c = '\r' then "\\r"
  else if c = '\t' then "\\t"
  else if isPrintable c then c.toString
  else if c.toNat < 0x100 then "\\x" ++ hexDigits 2 c.toNat
  else if c.toNat < 0x10000 then "\\u" ++ hexDigits 4 c.toNat
  else "\\U" ++ hexDigits 8 c.toNat

/-- A text as messages show it: in single quotes, or in double quotes when it holds a single quote and
no double one. -/
def shown (s : String) : String :=
  let cs := s.toList
  let q := if cs.contains '\'' && !cs.contains '"' then '"' else '\''
  q.toString ++ String.join (cs.map (shownChar q)) ++ q.toString

end Downlevel.Text
