import ClassDiagram.Text.Basic

/-!
# Identifiers

Catalogue entries and the nodes and edges made of them are addressed by 128-bit
identifiers. An identifier is written as thirty-two lower-case hexadecimal
digits in groups of 8, 4, 4, 4 and 12. It is also read in capitals, without the
hyphens, in braces, and behind the label `urn:uuid:` in letters of either case.

Identifiers are drawn from a supply. A random supply marks them as drawn at random.
-/

namespace ClassDiagram

/-- A 128-bit identifier. -/
structure Identifier where
  bits : BitVec 128
  deriving DecidableEq

namespace Identifier

/-- The identifier with this number. -/
def ofNat (n : Nat) : Identifier := ⟨BitVec.ofNat 128 n⟩

/-- The number of an identifier. -/
def toNat (i : Identifier) : Nat := i.bits.toNat

@[simp] theorem ofNat_toNat (i : Identifier) : ofNat i.toNat = i := by
  simp [ofNat, toNat]

/-- The lower-case hexadecimal digit of a number below sixteen. -/
def hexDigit (d : Nat) : Char := Char.ofNat (if d < 10 then 48 + d else 87 + d)

/-- The value of a hexadecimal digit of either case. -/
def hexValue? (c : Char) : Option Nat :=
  let n := c.toNat
  if 48 ≤ n ∧ n ≤ 57 then some (n - 48)
  else if 65 ≤ n ∧ n ≤ 70 then some (n - 55)
  else if 97 ≤ n ∧ n ≤ 102 then some (n - 87)
  else none

/-- The last `count` hexadecimal digits of a number, the highest first. -/
def hexDigits : Nat → Nat → Text
  | 0, _ => []
  | count + 1, n => hexDigits count (n / 16) ++ [hexDigit (n % 16)]

/-- The number that hexadecimal digits spell after a higher part. -/
def ofHexFrom? (high : Nat) : Text → Option Nat
  | [] => some high
  | c :: t =>
    match hexValue? c with
    | some d => ofHexFrom? (16 * high + d) t
    | none => none

/-- The canonical spelling. -/
def text (i : Identifier) : Text :=
  let n := i.toNat
  hexDigits 8 (n >>> 96) ++ '-' :: hexDigits 4 (n >>> 80) ++ '-' :: hexDigits 4 (n >>> 64) ++
    '-' :: hexDigits 4 (n >>> 48) ++ '-' :: hexDigits 12 n

/-- The label of the name space that identifiers belong to. -/
def label : Text := "urn:uuid:".toList

/-- The spelling between braces or behind the label of the name space, whose letters
may be of either case. -/
def unwrap (t : Text) : Text :=
  if (t.take label.length).map Char.toLower == label then t.drop label.length
  else
    match t with
    | '{' :: inner => if inner.getLast? == some '}' then inner.dropLast else t
    | _ => t

/-- The digits of a spelling in groups of 8, 4, 4, 4 and 12. -/
def ungroup? (t : Text) : Option Text :=
  let groups := Text.splitWhere (· == '-') t
  if groups.map List.length = [8, 4, 4, 4, 12] then some groups.flatten else none

/-- The identifier that a text spells. -/
def ofText? (t : Text) : Option Identifier := do
  let digits ← if t.length = 32 then some t else ungroup? (unwrap t)
  let n ← ofHexFrom? 0 digits
  return ofNat n

/-- The identifiers that are drawn, one for each place in an order. -/
abbrev Supply := Nat → Identifier

/-- The bits that tell how an identifier was made: its version and its variant. -/
def markedBits : BitVec 128 := 0xF#128 <<< 76 ||| 0x3#128 <<< 62

/-- The mark of identifiers that are drawn at random: version 4, variant 2. -/
def randomMark : BitVec 128 := 0x4#128 <<< 76 ||| 0x2#128 <<< 62

/-- Identifiers drawn at random, given the random number to start from. -/
def Supply.random (start : Nat) : Supply := fun place =>
  ⟨BitVec.ofNat 128 (start + place) &&& ~~~markedBits ||| randomMark⟩

end Identifier

end ClassDiagram
