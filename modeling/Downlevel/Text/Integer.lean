import Downlevel.Text.CharClass

/-!
# `Text.Integer`: integers in free text

An integer may stand between blanks, carry a sign, and have single underscores between its digits. Digits
of every script count. Control characters that separate records are no blanks here.
-/

namespace Downlevel.Text

/-- The value of a decimal digit. Each script has its ten digits in a row. -/
def digitValue? (c : Char) : Option Nat :=
  (offset? digitRuns c.toNat).map (· % 10)

/-- The blanks around an integer: all but the four separators U+001C to U+001F. -/
def aroundInteger (c : Char) : Bool := isBlank c && !(0x1c ≤ c.toNat && c.toNat ≤ 0x1f)

/-- The number that digits stand for, after a value read so far. An underscore stands between two
digits. -/
def readNatural (value : Nat) : List Char → Option Nat
  | [] => some value
  | ['_'] => none
  | '_' :: c :: rest => (digitValue? c).bind fun d => readNatural (10 * value + d) rest
  | c :: rest => (digitValue? c).bind fun d => readNatural (10 * value + d) rest

/-- A number that starts with a digit. -/
def natural? : List Char → Option Nat
  | [] => none
  | c :: rest => (digitValue? c).bind fun d => readNatural d rest

/-- The integer that a text holds. -/
def integer? (s : String) : Option Int :=
  let cs := s.toList.dropWhile aroundInteger
  let cs := (cs.reverse.dropWhile aroundInteger).reverse
  match cs with
  | '-' :: rest => (natural? rest).map fun n => -Int.ofNat n
  | '+' :: rest => (natural? rest).map Int.ofNat
  | cs => (natural? cs).map Int.ofNat

end Downlevel.Text
