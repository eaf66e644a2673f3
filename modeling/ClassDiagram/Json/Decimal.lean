import ClassDiagram.Text.Basic

/-!
# Decimal numbers

A number that is kept is a 64-bit binary floating-point number. Its digits are read
into a significand of 64 bits, those that do not fit only count as places, and the
number is the product of the significand and a power of ten. Both factors and the
product are rounded to the 53 binary digits of such a number, so a spelling close
to the largest number may come out infinite although it is below the limit.
-/

namespace ClassDiagram.Json

/-- The value of a decimal digit. -/
def digitValue (digit : Char) : Nat := digit.toNat - 48

/-- The number that decimal digits spell. -/
def ofDigits (digits : Text) : Nat := digits.foldl (fun n d => 10 * n + digitValue d) 0

/-- A number as a significand and a power of ten, without its sign. -/
structure Decimal where
  significand : Nat
  exponent : Int
  deriving DecidableEq, Repr

namespace Decimal

/-- The bound of significands, which have 64 binary digits. -/
def significandLimit : Nat := 1 <<< 64

/-- Put digits behind a significand as long as it stays below the bound. The digits
that are left follow it. -/
def appendDigits (n : Nat) : Text → Nat × Text
  | [] => (n, [])
  | d :: digits =>
    let longer := 10 * n + digitValue d
    if longer < significandLimit then appendDigits longer digits else (n, d :: digits)

/-- The number with the given digits before and behind the point, times the given
power of ten. -/
def ofParts (whole decimals : Text) (exponent : Int) : Decimal :=
  let (n, wholeLeft) := appendDigits 0 whole
  let (n, decimalsLeft) := appendDigits n decimals
  ⟨n, exponent + wholeLeft.length + decimalsLeft.length - decimals.length⟩

/-- True of the two characters that an exponent begins with. -/
def marksExponent (c : Char) : Bool := c == 'e' || c == 'E'

/-- The exponent that is stated behind the digits of a number. -/
def statedExponent (t : Text) : Int :=
  match t with
  | _ :: '-' :: digits => -(ofDigits digits : Int)
  | _ :: '+' :: digits => ofDigits digits
  | _ :: digits => ofDigits digits
  | [] => 0

/-- The number of a spelling. -/
def ofLiteral (literal : Text) : Decimal :=
  let digits := literal.takeWhile (!marksExponent ·)
  ofParts ((digits.takeWhile (· != '.')).filter Char.isDigit)
    ((digits.dropWhile (· != '.')).drop 1)
    (statedExponent (literal.dropWhile (!marksExponent ·)))

/-- The nearest of the numbers with 53 binary digits and zeros behind them; of two
that are equally near, the one whose last digit is even. -/
def nearestBinary (n : Nat) : Nat :=
  let unit := 1 <<< (n.log2 + 1 - 53)
  let low := n / unit
  let rest := n % unit
  if unit < 2 * rest || (2 * rest == unit && low % 2 == 1) then (low + 1) * unit else low * unit

/-- The least magnitude that rounds to infinity: half a unit above the largest
number. -/
def magnitudeLimit : Nat := 1 <<< 1024 - 1 <<< 970

/-- The largest power of ten that is finite. -/
def maxExponent : Nat := 308

/-- True if the number is finite. A power of ten that is too large by itself is
not computed. -/
def isFinite (d : Decimal) : Bool :=
  d.significand == 0 || d.exponent < 0 ||
    (d.exponent ≤ maxExponent &&
      nearestBinary d.significand * nearestBinary (Nat.pow 10 d.exponent.toNat) < magnitudeLimit)

end Decimal

end ClassDiagram.Json
