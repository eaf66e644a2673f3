import ClassDiagram.Text.Width.Classes

/-!
# Signs

Characters that are drawn together are one sign: an emoji with the modifier of its
skin, emoji that joiners tie to one, the two halves of a flag, and the ligatures of
several scripts. A text is read from its end, so a sign is known by its last
character and grows by the characters before it: `alone` is the sign that a
character opens, and `Sign.join?` the sign that a character in front grows it to.

Columns are settled as they are read. Where a piece further on can take a column
back, the column is pending until the sign is closed (`Sign.pending`).
-/

namespace ClassDiagram.Text

/-- The character that ties emoji to one, and letters to a ligature. -/
def joiner : Char := Char.ofNat 0x200D

/-- What stands behind the character that is next to join an emoji. -/
inductive Tied where
  /-- A joiner and an emoji. -/
  | emoji
  /-- The frame of a keycap, and the same. -/
  | keycap
  /-- One half of a flag, and the same. -/
  | half
  /-- Two or more halves of flags, in pairs or with one left over, and the same. -/
  | halves (paired : Bool)
  /-- The letters and digits that spell the region of a flag, to the end of which an
  emoji is tied. -/
  | tags (letters digits : Nat)
  deriving DecidableEq, Repr

/-- What a ligature of letters ends with. -/
inductive Tail where
  /-- The Hebrew letter of the ligature of alef and lamed. -/
  | lamed
  /-- The letter of the Buginese ligature of two vowel signs and ya. -/
  | bugineseYa
  /-- The same with the second of the vowel signs. -/
  | bugineseIYa
  /-- A consonant of Tifinagh, which a joiner of its own or the common one ties to
  the consonant before. -/
  | tifinagh
  /-- A consonant of Tifinagh behind the joiner of its own. -/
  | tifinaghJoined
  /-- The second of two tone letters of Lisu. -/
  | lisuTone
  /-- The last letter of a ligature of Old Turkic. -/
  | orkhonI
  /-- A letter of Khmer that a coeng puts below the letter before. -/
  | khmerLetter
  deriving DecidableEq, Repr

/-- What a text begins with, as far as the character before it is concerned. -/
inductive Sign where
  /-- Nothing that a character before it joins. -/
  | plain
  | lineFeed
  | emoji
  | modifier
  /-- One half of a flag. -/
  | half
  /-- Halves of flags, two or more. -/
  | flags
  | tied (piece : Tied)
  /-- An Arabic alef, possibly behind marks. -/
  | alef
  /-- The end of a ligature, and whether a joiner stands before it. -/
  | ligature (tail : Tail) (joined : Bool)
  deriving DecidableEq, Repr

/-- The columns of a sign that are not settled: the next piece takes them back. -/
def Sign.pending : Sign → Nat
  | .tied .half => 1
  | .tied (.halves paired) => if paired then 0 else 1
  | .ligature .tifinaghJoined _ => 1
  | .ligature .khmerLetter _ => 1
  | _ => 0

/-- True of the signs that wait for the emoji to which they are tied. -/
def Sign.awaitsEmoji : Sign → Bool
  | .tied .emoji => true
  | .tied .keycap => true
  | _ => false

/-- True of the ends of ligatures, which ignorable marks do not break. -/
def Sign.isLigature : Sign → Bool
  | .alef => true
  | .ligature _ _ => true
  | _ => false

/-- The columns that a character settles by itself, and the sign that it opens. -/
def alone (c : Char) : Nat × Sign :=
  let n := c.toNat
  if c == '\n' then (0, .lineFeed)
  else if n ≤ 0xA0 then (1, .plain)
  else if zeroWidthRanges.holds c then (0, .plain)
  else if isModifier c then (2, .modifier)
  else if isRegionalHalf c then (1, .half)
  else if emojiRanges.holds c then (2, .emoji)
  else if wideRanges.holds c then (2, .plain)
  else if n == 0x17D8 then (3, .plain)
  else if alefRanges.holds c then (1, .alef)
  else if n == 0x5DC then (1, .ligature .lamed false)
  else if n == 0x1A10 then (1, .ligature .bugineseYa false)
  else if tifinaghConsonantRanges.holds c then (1, .ligature .tifinagh false)
  else if 0xA4FC ≤ n && n ≤ 0xA4FD then (1, .ligature .lisuTone false)
  else if n == 0x10C03 then (1, .ligature .orkhonI false)
  else if khmerStackedRanges.holds c then (0, .ligature .khmerLetter false)
  else (1, .plain)

/-- A step of the flag of a region, which is a black flag, the region and an end in
tags. The region is three letters or more, or three digits and up to four letters. -/
def joinTags? (letters digits : Nat) (c : Char) : Option Sign :=
  if isTagLetter c && digits == 0 && letters < 6 then some (.tied (.tags (letters + 1) 0))
  else if isTagDigit c && digits < 3 && letters ≤ 4 then some (.tied (.tags letters (digits + 1)))
  else if c.toNat == 0x1F3F4 && (digits == 3 || (digits == 0 && 3 ≤ letters)) then some .emoji
  else none

/-- The columns that a character settles as it joins what is tied to an emoji, and
what the two are. A flag takes part in the sign only if no half is left over. -/
def Tied.join? (piece : Tied) (c : Char) : Option (Nat × Sign) :=
  match piece with
  | .emoji =>
    if c.toNat == 0x20E3 then some (0, .tied .keycap)
    else if isRegionalHalf c then some (0, .tied .half)
    else if isModifier c then some (0, .modifier)
    else if c.toNat == 0xE007F then some (0, .tied (.tags 0 0))
    else if emojiRanges.holds c then some (0, .emoji)
    else none
  | .keycap => none
  | .half => if isRegionalHalf c then some (0, .tied (.halves true)) else none
  | .halves paired =>
    if isRegionalHalf c then some (if paired then 2 else 0, .tied (.halves (!paired)))
    else if c == joiner then some (if paired then 0 else 1, .tied .emoji)
    else none
  | .tags letters digits => (joinTags? letters digits c).map fun sign => (0, sign)

/-- What a ligature becomes when a character joins it. None of these settles a column. -/
def Tail.join? (tail : Tail) (joined : Bool) (c : Char) : Option Sign :=
  let n := c.toNat
  match tail with
  | .lamed => if joined && n == 0x5D0 then some .plain else none
  | .bugineseYa => if joined && n == 0x1A17 then some (.ligature .bugineseIYa true) else none
  | .bugineseIYa => if n == 0x1A15 then some .plain else none
  | .tifinagh =>
    if n == 0x2D7F then some (.ligature .tifinaghJoined true)
    else if joined && tifinaghConsonantRanges.holds c then some .plain
    else none
  | .tifinaghJoined => if tifinaghConsonantRanges.holds c then some .plain else none
  | .lisuTone => if 0xA4F8 ≤ n && n ≤ 0xA4FB then some .plain else none
  | .orkhonI => if joined && n == 0x10C32 then some .plain else none
  | .khmerLetter => if n == 0x17D2 then some .plain else none

/-- The columns that a character settles as it joins a sign, and what the two are. -/
def Sign.join? (sign : Sign) (c : Char) : Option (Nat × Sign) :=
  match sign with
  | .plain => none
  | .lineFeed => if c == '\r' then some (0, .plain) else none
  | .emoji => if c == joiner then some (0, .tied .emoji) else none
  | .modifier =>
    if modifiableRanges.holds c then some (0, .emoji)
    else if c == joiner then some (0, .tied .emoji)
    else none
  | .half => if isRegionalHalf c then some (1, .flags) else none
  | .flags =>
    if isRegionalHalf c then some (1, .flags)
    else if c == joiner then some (0, .tied .emoji)
    else none
  | .tied piece => piece.join? c
  | .alef =>
    if lamRanges.holds c then some (0, .plain)
    else if joinsAcross c then some (0, .alef)
    else none
  | .ligature tail joined =>
    if c == joiner then some (0, .ligature tail true)
    else if ignorableMarkRanges.holds c then some (0, .ligature tail joined)
    else (tail.join? joined c).map fun sign => (0, sign)

/-- Nothing ties a space to the character behind it. -/
theorem Sign.join?_space (sign : Sign) : sign.join? ' ' = none := by
  match sign with
  | .plain | .lineFeed | .emoji | .modifier | .half | .flags | .alef => decide +kernel
  | .tied .emoji | .tied .keycap | .tied .half => decide +kernel
  | .tied (.halves paired) => cases paired <;> decide +kernel
  | .tied (.tags _ _) => rfl
  | .ligature tail joined => cases tail <;> cases joined <;> decide +kernel

theorem alone_space : alone ' ' = (1, .plain) := by decide +kernel

end ClassDiagram.Text
