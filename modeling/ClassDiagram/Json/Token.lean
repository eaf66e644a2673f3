import ClassDiagram.Identifier

/-!
# The tokens of JSON

A JSON text is a sequence of tokens with blanks between them: six marks, three
words, numbers and strings. A string may hold any character but controls, and
escapes. An escape by number gives one unit of UTF-16. Two units that are the
halves of a surrogate pair give one character, and any other half gives no text.
-/

namespace ClassDiagram.Json

/-- A token. -/
inductive Token where
  | openArray
  | closeArray
  | openObject
  | closeObject
  | colon
  | comma
  | null
  | bool (value : Bool)
  | number (literal : Text)
  | string (content : Option Text)
  deriving DecidableEq, Repr

/-! ## Strings -/

/-- What a string is made of: a character, or a unit of UTF-16 given by number. -/
inductive Unit16 where
  | char (c : Char)
  | code (n : Nat)
  deriving DecidableEq, Repr

/-- The number of four hexadecimal digits. -/
def hex4? (a b c d : Char) : Option Nat := Identifier.ofHexFrom? 0 [a, b, c, d]

/-- The character of an escape by letter. -/
def unescape? : Char → Option Char
  | '"' => some '"'
  | '\\' => some '\\'
  | '/' => some '/'
  | 'b' => some '\x08'
  | 'f' => some '\x0c'
  | 'n' => some '\n'
  | 'r' => some '\r'
  | 't' => some '\t'
  | _ => none

/-- The units of a string whose opening quote has been read, and the text behind
its closing quote. -/
def units? : Text → Option (List Unit16 × Text)
  | [] => none
  | '"' :: t => some ([], t)
  | '\\' :: 'u' :: a :: b :: c :: d :: t => do
    let n ← hex4? a b c d
    let (units, rest) ← units? t
    return (.code n :: units, rest)
  | '\\' :: letter :: t => do
    let c ← unescape? letter
    let (units, rest) ← units? t
    return (.char c :: units, rest)
  | c :: t =>
    if c.toNat < 0x20 then none
    else do
      let (units, rest) ← units? t
      return (.char c :: units, rest)

/-- The first half of a surrogate pair. -/
def isHighSurrogate (n : Nat) : Bool := 0xD800 ≤ n && n < 0xDC00

/-- The second half of a surrogate pair. -/
def isLowSurrogate (n : Nat) : Bool := 0xDC00 ≤ n && n < 0xE000

/-- The character of a surrogate pair. -/
def ofSurrogates (high low : Nat) : Char :=
  Char.ofNat (0x10000 + (high - 0xD800) * 0x400 + (low - 0xDC00))

/-- The text that units denote. -/
def denote? : List Unit16 → Option Text
  | [] => some []
  | .char c :: units => (denote? units).map (c :: ·)
  | .code high :: .code low :: units =>
    if isHighSurrogate high then
      if isLowSurrogate low then (denote? units).map (ofSurrogates high low :: ·) else none
    else if isLowSurrogate high then none
    else (denote? (.code low :: units)).map (Char.ofNat high :: ·)
  | .code n :: units =>
    if isHighSurrogate n || isLowSurrogate n then none
    else (denote? units).map (Char.ofNat n :: ·)

/-! ## Numbers -/

/-- One digit or more, and what follows them. -/
def digits? (t : Text) : Option (Text × Text) :=
  if (t.takeWhile Char.isDigit).isEmpty then none
  else some (t.takeWhile Char.isDigit, t.dropWhile Char.isDigit)

/-- The digits before the point. Only zero itself begins with a zero. -/
def whole? (t : Text) : Option (Text × Text) :=
  match digits? t with
  | some (['0'], rest) => some (['0'], rest)
  | some ('0' :: _, _) => none
  | found => found

/-- The point and the digits behind it, if there is a point. -/
def fraction? : Text → Option (Text × Text)
  | '.' :: t => (digits? t).map fun (digits, rest) => ('.' :: digits, rest)
  | t => some ([], t)

/-- A sign from a choice of signs, if there is one. -/
def sign (signs : Text) : Text → Text × Text
  | [] => ([], [])
  | c :: t => if signs.contains c then ([c], t) else ([], c :: t)

/-- The exponent, if there is one. -/
def exponent? : Text → Option (Text × Text)
  | [] => some ([], [])
  | c :: t =>
    if c == 'e' || c == 'E' then
      (digits? (sign ['+', '-'] t).2).map fun (digits, rest) =>
        (c :: (sign ['+', '-'] t).1 ++ digits, rest)
    else some ([], c :: t)

/-- The number at the front of a text, and what follows it. -/
def number? (t : Text) : Option (Text × Text) := do
  let (minus, t) := sign ['-'] t
  let (whole, t) ← whole? t
  let (fraction, t) ← fraction? t
  let (exponent, t) ← exponent? t
  return (minus ++ whole ++ fraction ++ exponent, t)

/-! ## All tokens -/

/-- The blanks between tokens. -/
def isSpace (c : Char) : Bool := c == ' ' || c == '\t' || c == '\n' || c == '\r'

/-- The mark that a character is. -/
def mark? : Char → Option Token
  | '[' => some .openArray
  | ']' => some .closeArray
  | '{' => some .openObject
  | '}' => some .closeObject
  | ':' => some .colon
  | ',' => some .comma
  | _ => none

/-- The word at the front of a text, and what follows it. -/
def word? (t : Text) : Option (Token × Text) :=
  [("null", Token.null), ("true", .bool true), ("false", .bool false)].findSome?
    fun (word, token) => (Text.dropPrefix? word.toList t).map fun rest => (token, rest)

/-- The token at the front of a text that does not begin with a blank, and what
follows it. -/
def next? : Text → Option (Token × Text)
  | [] => none
  | c :: t =>
    match mark? c with
    | some token => some (token, t)
    | none =>
      if c == '"' then (units? t).map fun (units, rest) => (.string (denote? units), rest)
      else
        match word? (c :: t) with
        | some found => some found
        | none => (number? (c :: t)).map fun (literal, rest) => (.number literal, rest)

/-! Every token takes at least one character. -/

private theorem length_units? {t rest : Text} {units : List Unit16}
    (h : units? t = some (units, rest)) : rest.length < t.length := by
  fun_induction units? t generalizing units with
  | case1 => simp at h
  | case2 t =>
    simp only [Option.some.injEq, Prod.mk.injEq] at h
    simp [h.2]
  | case3 a b c d t ih =>
    simp only [Option.bind_eq_bind, Option.bind_eq_some_iff, Prod.exists, pure, Option.some.injEq,
      Prod.mk.injEq] at h
    obtain ⟨_, _, _, _, hr, _, rfl⟩ := h
    have := ih hr
    simp only [List.length_cons]
    omega
  | case4 letter t _ ih =>
    simp only [Option.bind_eq_bind, Option.bind_eq_some_iff, Prod.exists, pure, Option.some.injEq,
      Prod.mk.injEq] at h
    obtain ⟨_, _, _, _, hr, _, rfl⟩ := h
    have := ih hr
    simp only [List.length_cons]
    omega
  | case5 c t _ _ _ hc => simp at h
  | case6 c t _ _ _ hc ih =>
    simp only [Option.bind_eq_bind, Option.bind_eq_some_iff, Prod.exists, pure, Option.some.injEq,
      Prod.mk.injEq] at h
    obtain ⟨_, _, hr, _, rfl⟩ := h
    have := ih hr
    simp only [List.length_cons]
    omega

private theorem length_word? {t rest : Text} {token : Token} (h : word? t = some (token, rest)) :
    rest.length < t.length := by
  obtain ⟨⟨word, token'⟩, hm, h⟩ := List.exists_of_findSome?_eq_some h
  simp only [Option.map_eq_some_iff, Prod.mk.injEq] at h
  obtain ⟨_, hp, _, rfl⟩ := h
  rw [Text.dropPrefix?_eq_some_iff.1 hp, List.length_append]
  have : word.toList.length ≠ 0 := by
    simp only [List.mem_cons, List.not_mem_nil, or_false, Prod.mk.injEq] at hm
    rcases hm with ⟨rfl, _⟩ | ⟨rfl, _⟩ | ⟨rfl, _⟩ <;> decide
  omega

/-- Digits and what follows them make up the text. -/
theorem append_of_digits? {t digits rest : Text} (h : digits? t = some (digits, rest)) :
    t = digits ++ rest ∧ digits ≠ [] := by
  rw [digits?] at h
  split at h
  · simp at h
  · rename_i hd
    simp only [Option.some.injEq, Prod.mk.injEq] at h
    obtain ⟨rfl, rfl⟩ := h
    exact ⟨(List.takeWhile_append_dropWhile ..).symm, by simpa using hd⟩

theorem append_of_whole? {t whole rest : Text} (h : whole? t = some (whole, rest)) :
    t = whole ++ rest ∧ whole ≠ [] := by
  rw [whole?] at h
  split at h
  · rename_i hd
    simp only [Option.some.injEq, Prod.mk.injEq] at h
    obtain ⟨rfl, rfl⟩ := h
    exact append_of_digits? hd
  · simp at h
  · exact append_of_digits? h

theorem append_of_fraction? {t fraction rest : Text} (h : fraction? t = some (fraction, rest)) :
    t = fraction ++ rest := by
  unfold fraction? at h
  split at h
  · simp only [Option.map_eq_some_iff, Prod.exists, Prod.mk.injEq] at h
    obtain ⟨_, _, hd, rfl, rfl⟩ := h
    simp [(append_of_digits? hd).1]
  · simp only [Option.some.injEq, Prod.mk.injEq] at h
    obtain ⟨rfl, rfl⟩ := h
    rfl

theorem append_of_sign (signs t : Text) : (sign signs t).1 ++ (sign signs t).2 = t := by
  unfold sign
  split
  · rfl
  · split <;> rfl

theorem append_of_exponent? {t exponent rest : Text} (h : exponent? t = some (exponent, rest)) :
    t = exponent ++ rest := by
  unfold exponent? at h
  split at h
  · simp only [Option.some.injEq, Prod.mk.injEq] at h
    obtain ⟨rfl, rfl⟩ := h
    rfl
  · rename_i c t
    split at h
    · simp only [Option.map_eq_some_iff, Prod.exists, Prod.mk.injEq] at h
      obtain ⟨_, _, hd, rfl, rfl⟩ := h
      have ht := append_of_sign ['+', '-'] t
      rw [(append_of_digits? hd).1] at ht
      simpa only [List.cons_append, List.append_assoc, List.cons.injEq, true_and] using ht.symm
    · simp only [Option.some.injEq, Prod.mk.injEq] at h
      obtain ⟨rfl, rfl⟩ := h
      rfl

/-- A number and what follows it make up the text, and a number is never empty. -/
theorem append_of_number? {t literal rest : Text} (h : number? t = some (literal, rest)) :
    t = literal ++ rest ∧ literal ≠ [] := by
  simp only [number?, Option.bind_eq_bind, Option.bind_eq_some_iff, Prod.exists, pure,
    Option.some.injEq, Prod.mk.injEq] at h
  obtain ⟨whole, _, hw, fraction, _, hf, exponent, _, he, rfl, rfl⟩ := h
  have hs := append_of_sign ['-'] t
  rw [(append_of_whole? hw).1, append_of_fraction? hf, append_of_exponent? he] at hs
  refine ⟨by simpa only [List.append_assoc] using hs.symm, ?_⟩
  simp [(append_of_whole? hw).2]

/-- A token leaves less text than there was. -/
theorem length_next? {t rest : Text} {token : Token} (h : next? t = some (token, rest)) :
    rest.length < t.length := by
  unfold next? at h
  split at h
  · simp at h
  · rename_i c t
    split at h
    · simp only [Option.some.injEq, Prod.mk.injEq] at h
      simp [h.2]
    · split at h
      · simp only [Option.map_eq_some_iff, Prod.exists, Prod.mk.injEq] at h
        obtain ⟨_, _, hu, _, rfl⟩ := h
        have := length_units? hu
        simp only [List.length_cons]
        omega
      · split at h
        · rename_i found hw
          simp only [Option.some.injEq] at h
          subst h
          exact length_word? hw
        · simp only [Option.map_eq_some_iff, Prod.exists, Prod.mk.injEq] at h
          obtain ⟨literal, _, hn, _, rfl⟩ := h
          obtain ⟨ht, hne⟩ := append_of_number? hn
          rw [ht, List.length_append]
          have := List.length_pos_iff.mpr hne
          omega

/-- The tokens of a text. -/
def tokens? : Text → Option (List Token)
  | [] => some []
  | c :: t =>
    if isSpace c then tokens? t
    else
      match _h : next? (c :: t) with
      | none => none
      | some (token, rest) => (tokens? rest).map (token :: ·)
termination_by t => t.length
decreasing_by
  · simp
  · exact length_next? _h

end ClassDiagram.Json
