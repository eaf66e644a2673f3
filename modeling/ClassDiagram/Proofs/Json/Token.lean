import ClassDiagram.Json.Token
import ClassDiagram.Json.Writer
import ClassDiagram.Proofs.Identifier.Spelling
import Mathlib.Data.List.Forall2

/-!
# Reading tokens back

A piece of a text is read on its own if its tokens do not depend on what follows it (`Reads`).
Marks, words, blanks and strings are, and so is whatever is put together from such pieces.
Characters of a string are written as they are, by letter or by number. Each of them is read as
one unit that denotes the character again.
-/

namespace ClassDiagram.Json

/-! ## Strings -/

/-- The unit denotes the character, and no half of another one. -/
def Denotes (unit : Unit16) (c : Char) : Prop :=
  unit = .char c ∨ c.toNat < 0x20 ∧ unit = .code c.toNat

section Strings

variable {units : List Unit16} {content t : Text}

theorem units?_letter {letter c : Char} (hne : letter ≠ 'u') (h : unescape? letter = some c) :
    units? ('\\' :: letter :: t) =
      (units? t).map fun (units, rest) => (.char c :: units, rest) := by
  rw [units?, h]
  · cases units? t with
    | none => rfl
    | some found => rfl
  · intro a b c d rest hletter
    exact absurd hletter hne

theorem units?_number {a b c d : Char} {n : Nat} (h : hex4? a b c d = some n) :
    units? ('\\' :: 'u' :: a :: b :: c :: d :: t) =
      (units? t).map fun (units, rest) => (.code n :: units, rest) := by
  rw [units?, h]
  cases units? t with
  | none => rfl
  | some found => rfl

theorem units?_plain {c : Char} (hquote : c ≠ '"') (hescape : c ≠ '\\')
    (hcontrol : ¬c.toNat < 0x20) :
    units? (c :: t) = (units? t).map fun (units, rest) => (.char c :: units, rest) := by
  rw [units?, if_neg hcontrol]
  · cases units? t with
    | none => rfl
    | some found => rfl
  · exact hquote
  · intro a b d e rest heq
    exact absurd heq hescape
  · intro letter rest heq
    exact absurd heq hescape

/-- What a character is written as is read as one unit. -/
theorem units?_escape (c : Char) : ∃ unit, Denotes unit c ∧ ∀ t,
    units? (escape c ++ t) = (units? t).map fun (units, rest) => (unit :: units, rest) := by
  fun_cases escape c with
  | case1 => exact ⟨_, .inl rfl, fun t => units?_letter (by decide) rfl⟩
  | case2 => exact ⟨_, .inl rfl, fun t => units?_letter (by decide) rfl⟩
  | case3 => exact ⟨_, .inl rfl, fun t => units?_letter (by decide) rfl⟩
  | case4 => exact ⟨_, .inl rfl, fun t => units?_letter (by decide) rfl⟩
  | case5 => exact ⟨_, .inl rfl, fun t => units?_letter (by decide) rfl⟩
  | case6 => exact ⟨_, .inl rfl, fun t => units?_letter (by decide) rfl⟩
  | case7 => exact ⟨_, .inl rfl, fun t => units?_letter (by decide) rfl⟩
  | case8 =>
      rename_i hcontrol
      have hlimit : c.toNat < 16 ^ 4 := Nat.lt_trans hcontrol (by decide)
      have hdigits : Identifier.ofHexFrom? 0 (Identifier.hexDigits 4 c.toNat) = some c.toNat := by
        rw [Identifier.ofHexFrom?_hexDigits, Nat.zero_mul, Nat.zero_add, Nat.mod_eq_of_lt hlimit]
      exact ⟨.code c.toNat, .inr ⟨hcontrol, rfl⟩, fun t => units?_number hdigits⟩
  | case9 =>
      rename_i hquote hescape _ _ _ _ _ hcontrol
      exact ⟨.char c, .inl rfl, fun t => units?_plain hquote hescape hcontrol⟩

theorem units?_flatMap_escape (content : Text) : ∃ units, List.Forall₂ Denotes units content ∧
    ∀ t, units? (content.flatMap escape ++ '"' :: t) = some (units, t) := by
  induction content with
  | nil => exact ⟨[], .nil, fun t => rfl⟩
  | cons c content ih =>
      obtain ⟨unit, hunit, hfirst⟩ := units?_escape c
      obtain ⟨units, hunits, hrest⟩ := ih
      refine ⟨unit :: units, .cons hunit hunits, fun t => ?_⟩
      rw [List.flatMap_cons, List.append_assoc, hfirst, hrest]
      rfl

/-- A unit that is no half of a surrogate pair denotes a character, whatever follows it. -/
theorem denote?_code {n : Nat} (hhigh : isHighSurrogate n = false)
    (hlow : isLowSurrogate n = false) (units : List Unit16) :
    denote? (.code n :: units) = (denote? units).map (Char.ofNat n :: ·) := by
  cases units with
  | nil => simp [denote?, hhigh, hlow]
  | cons next units =>
      cases next with
      | char c => simp [denote?, hhigh, hlow]
      | code low => rw [denote?, if_neg (by simp [hhigh]), if_neg (by simp [hlow])]

/-- Units that denote characters one by one denote their text. -/
theorem denote?_of_forall₂ (h : List.Forall₂ Denotes units content) :
    denote? units = some content := by
  induction h with
  | nil => rfl
  | @cons unit c units content hunit _ ih =>
      rcases hunit with rfl | ⟨hcontrol, rfl⟩
      · rw [denote?, ih]
        rfl
      · have hhigh : isHighSurrogate c.toNat = false := by
          rw [isHighSurrogate, Bool.and_eq_false_iff, decide_eq_false_iff_not]
          omega
        have hlow : isLowSurrogate c.toNat = false := by
          rw [isLowSurrogate, Bool.and_eq_false_iff, decide_eq_false_iff_not]
          omega
        rw [denote?_code hhigh hlow, ih, Char.ofNat_toNat]
        rfl

end Strings

/-! ## Tokens -/

/-- The text is read as these tokens, whatever follows it. -/
def Reads (s : Text) (tokens : List Token) : Prop :=
  ∀ rest, tokens? (s ++ rest) = (tokens? rest).map (tokens ++ ·)

section Reads

variable {s t : Text} {tokens more : List Token} {token : Token} {c : Char}

theorem Reads.append (hs : Reads s tokens) (ht : Reads t more) :
    Reads (s ++ t) (tokens ++ more) := by
  intro rest
  rw [List.append_assoc, hs, ht, Option.map_map]
  congr 1
  funext found
  exact (List.append_assoc _ _ _).symm

theorem reads_nil : Reads [] [] := by
  intro rest
  exact Option.map_id'.symm

/-- Blanks make up no token. -/
theorem reads_spaces (h : ∀ c ∈ s, isSpace c = true) : Reads s [] := by
  induction s with
  | nil => exact reads_nil
  | cons c s ih =>
      obtain ⟨hc, hs⟩ := List.forall_mem_cons.mp h
      intro rest
      rw [List.cons_append, tokens?, if_pos hc]
      exact ih hs rest

/-- A piece with a token in front of everything is read as this token. -/
theorem reads_of_next? (hc : isSpace c = false)
    (h : ∀ rest, next? (c :: t ++ rest) = some (token, rest)) : Reads (c :: t) [token] := by
  intro rest
  rw [List.cons_append, tokens?, if_neg (Bool.eq_false_iff.mp hc)]
  split
  · rename_i hnone
    rw [← List.cons_append, h] at hnone
    cases hnone
  · rename_i found behind hfound
    rw [← List.cons_append, h] at hfound
    cases hfound
    rfl

theorem reads_mark (h : mark? c = some token) : Reads [c] [token] := by
  have hc : isSpace c = false := by
    unfold mark? at h
    split at h
    · decide
    · decide
    · decide
    · decide
    · decide
    · decide
    · cases h
  apply reads_of_next? hc
  intro rest
  simp only [List.cons_append, List.nil_append, next?, h]

theorem reads_null : Reads "null".toList [.null] := reads_of_next? rfl fun _ => rfl

theorem reads_bool (b : Bool) : Reads (if b then "true" else "false").toList [.bool b] := by
  cases b with
  | true => exact reads_of_next? rfl fun _ => rfl
  | false => exact reads_of_next? rfl fun _ => rfl

theorem writeString_some (content : Text) :
    writeString (some content) = '"' :: (content.flatMap escape ++ ['"']) := rfl

/-- A string is read as the text that it was written for. -/
theorem reads_writeString (content : Text) :
    Reads (writeString (some content)) [.string (some content)] := by
  obtain ⟨units, hunits, hread⟩ := units?_flatMap_escape content
  rw [writeString_some]
  apply reads_of_next? rfl
  intro rest
  have hmark : mark? '"' = none := rfl
  rw [List.cons_append, List.append_assoc, List.singleton_append, next?]
  simp only [hmark, BEq.rfl, if_true, hread, Option.map_some, denote?_of_forall₂ hunits]

end Reads

end ClassDiagram.Json
