/-!
# `Decimal`: decimal numbers and their text

A number with a fraction or an exponent is kept as the decimal it was written as: a sign, an integer
of digits and a power of ten. The digits given for a double are always the fewest that identify it, so
this is enough to write it back; the one thing the digits do not show is the exact value of a large
integral double, which `integer?` recovers by rounding to 53 binary digits.
-/

namespace Downlevel

/-- The number `± digits · 10 ^ exponent`. -/
structure Decimal where
  negative : Bool
  digits : Nat
  exponent : Int
  deriving DecidableEq, Inhabited

namespace Decimal

/-- Moves trailing zeros of the digits into the exponent, `fuel` of them at most. -/
def dropZeros : Nat → Nat → Int → Nat × Int
  | 0, digits, exponent => (digits, exponent)
  | fuel + 1, digits, exponent =>
    if digits % 10 = 0 then dropZeros fuel (digits / 10) (exponent + 1) else (digits, exponent)

/-- The decimal with these parts, its digits without trailing zeros. -/
def ofParts (negative : Bool) (digits : Nat) (exponent : Int) : Decimal :=
  if digits = 0 then ⟨negative, 0, 0⟩
  else
    let (d, e) := dropZeros (Nat.toDigits 10 digits).length digits exponent
    ⟨negative, d, e⟩

def isZero (d : Decimal) : Bool := d.digits == 0

/-- The nearest number with at most 53 binary digits, ties to the even one. -/
def toBinary53 (n : Nat) : Nat :=
  if n < Nat.pow 2 53 then n
  else
    let unit := Nat.pow 2 (n.log2 - 52)
    let q := n / unit
    let r := n % unit
    if 2 * r < unit then q * unit
    else if 2 * r = unit then (q + q % 2) * unit
    else (q + 1) * unit

/-- The integer that a double written as this decimal denotes, if it denotes one. -/
def integer? (d : Decimal) : Option Int :=
  match d.exponent with
  | .ofNat e =>
    let n := toBinary53 (d.digits * Nat.pow 10 e)
    some (if d.negative then -(n : Int) else n)
  | .negSucc _ => none

/-! ## Text -/

/-- How many zeros stand between the point and the first digit before an exponent is used. -/
def maxLeadingZeros : Nat := 3

/-- How many digits stand before the point before an exponent is used. -/
def maxWholeDigits : Nat := 16

/-- The text of an exponent: a sign and at least two digits. -/
def exponentText (e : Int) : String :=
  let ds := Nat.toDigits 10 e.natAbs
  "e" ++ (if e < 0 then "-" else "+") ++
    String.ofList (List.replicate (2 - ds.length) '0' ++ ds)

/-- The text of a decimal, with a point or an exponent, so that it does not read as an integer. -/
def render (d : Decimal) : String :=
  let ds := Nat.toDigits 10 d.digits
  let sign := if d.negative then "-" else ""
  let point : Int := ds.length + d.exponent
  let body : List Char :=
    if point ≤ 0 then
      if point.natAbs ≤ maxLeadingZeros then
        ['0', '.'] ++ List.replicate point.natAbs '0' ++ ds
      else
        ds.take 1 ++ (if ds.length = 1 then [] else '.' :: ds.drop 1) ++
          (exponentText (point - 1)).toList
    else if point ≤ maxWholeDigits then
      let whole := point.toNat
      if ds.length ≤ whole then
        ds ++ List.replicate (whole - ds.length) '0' ++ ['.', '0']
      else
        ds.take whole ++ ['.'] ++ ds.drop whole
    else
      ds.take 1 ++ (if ds.length = 1 then [] else '.' :: ds.drop 1) ++
        (exponentText (point - 1)).toList
  sign ++ String.ofList body

end Decimal
end Downlevel
