/-!
# Texts

A text is the list of its characters. This module holds what every scan needs:
the blanks (the Unicode property White_Space), trimming, the words between
blanks, the size in UTF-8 bytes that offsets are counted in, and the first
occurrence of a needle.
-/

namespace ClassDiagram

/-- A text is the list of its characters. -/
abbrev Text := List Char

namespace Text

/-- The twenty-five characters with the Unicode property White_Space. -/
def isBlank (c : Char) : Bool :=
  let n := c.toNat
  (9 ≤ n && n ≤ 13) || n == 0x20 || n == 0x85 || n == 0xA0 || n == 0x1680 ||
    (0x2000 ≤ n && n ≤ 0x200A) || n == 0x2028 || n == 0x2029 || n == 0x202F ||
    n == 0x205F || n == 0x3000

/-- The text from its first character that is no blank. -/
def trimStart (t : Text) : Text := t.dropWhile isBlank

/-- The text up to its last character that is no blank. -/
def trimEnd (t : Text) : Text := (t.reverse.dropWhile isBlank).reverse

/-- The text without the blanks at its two ends. -/
def trim (t : Text) : Text := trimEnd (trimStart t)

/-- True of the texts that hold nothing but blanks. -/
def isBlankText (t : Text) : Bool := t.all isBlank

/-- Put a character in front of the first word, or open a first word with it. -/
def consWord (c : Char) : List Text → List Text
  | [] => [[c]]
  | word :: words => (c :: word) :: words

@[simp] theorem consWord_nil (c : Char) : consWord c [] = [[c]] := rfl

@[simp] theorem consWord_cons (c : Char) (word : Text) (words : List Text) :
    consWord c (word :: words) = (c :: word) :: words := rfl

/-- The maximal stretches of characters that are no blanks, in order. -/
def words : Text → List Text
  | [] => []
  | c :: rest =>
    if isBlank c then words rest
    else if rest.head?.all isBlank then [c] :: words rest
    else consWord c (words rest)

@[simp] theorem words_nil : words [] = [] := rfl

theorem words_blank {c : Char} (h : isBlank c = true) (t : Text) :
    words (c :: t) = words t := by
  simp [words, h]

/-- The number of bytes of the text in UTF-8, the unit of all offsets. -/
def size : Text → Nat
  | [] => 0
  | c :: t => c.utf8Size + size t

@[simp] theorem size_nil : size [] = 0 := rfl

@[simp] theorem size_cons (c : Char) (t : Text) : size (c :: t) = c.utf8Size + size t := rfl

@[simp] theorem size_append (s t : Text) : size (s ++ t) = size s + size t := by
  induction s with
  | nil => simp
  | cons c s ih => simp [ih, Nat.add_assoc]

/-- Cut a text at a byte offset. There is no cut inside a character or past
the end. -/
def splitAtByte? : Nat → Text → Option (Text × Text)
  | 0, t => some ([], t)
  | _ + 1, [] => none
  | n + 1, c :: t =>
    if c.utf8Size ≤ n + 1 then
      (splitAtByte? (n + 1 - c.utf8Size) t).map fun (before, after) => (c :: before, after)
    else none

/-- What follows `needle` in a text that begins with it. -/
def dropPrefix? : Text → Text → Option Text
  | [], t => some t
  | _ :: _, [] => none
  | n :: needle, c :: t => if n = c then dropPrefix? needle t else none

theorem dropPrefix?_eq_some_iff {needle t rest : Text} :
    dropPrefix? needle t = some rest ↔ t = needle ++ rest := by
  induction needle generalizing t with
  | nil => simp [dropPrefix?]
  | cons n needle ih =>
    cases t with
    | nil => simp [dropPrefix?]
    | cons c t =>
      rw [dropPrefix?]
      split
      · rename_i hc
        simp [ih, hc]
      · rename_i hc
        simp [Ne.symm hc]

/-- The order by code points, in which a text comes after the texts that it
continues. -/
def atMost : Text → Text → Bool
  | [], _ => true
  | _ :: _, [] => false
  | c :: s, d :: t => c.toNat < d.toNat || (c == d && atMost s t)

/-- The texts before and after the first occurrence of `needle`. -/
def cut? (needle : Text) : Text → Option (Text × Text)
  | [] => if needle.isEmpty then some ([], []) else none
  | c :: t =>
    match dropPrefix? needle (c :: t) with
    | some after => some ([], after)
    | none => (cut? needle t).map fun (before, after) => (c :: before, after)

/-- True if `needle` occurs in the text. -/
def includes (t needle : Text) : Bool := (cut? needle t).isSome

/-- The pieces of a text between the characters that satisfy `isCut`; there is
one piece more than there are such characters. -/
def splitWhere (isCut : Char → Bool) : Text → List Text
  | [] => [[]]
  | c :: t => if isCut c then [] :: splitWhere isCut t else consWord c (splitWhere isCut t)

end Text

end ClassDiagram
