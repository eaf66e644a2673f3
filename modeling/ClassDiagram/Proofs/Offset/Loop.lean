import ClassDiagram.Proofs.Literal.Byte
import ClassDiagram.Proofs.Text.Slice

/-!
# Loops over bytes

The scans for braces and semicolons count the bytes of a text and cut it at the offsets that they
find. A cut at an offset inside a character does not exist, and a loop in which it is made fails.
The marks that a loop looks for are single bytes, and all bytes of a longer character are plain
(`roleAt_char`). So a loop that passes over plain bytes goes from character to character
(`overBytes_char`), and the offsets that it remembers are ends of what it has read (`Behind`). What
each of its rounds computes, the whole loop does (`Loop.Computes.overBytes_bind`).
-/

namespace ClassDiagram

/-! ## The roles of bytes -/

/-- The role of a byte outside literals. -/
def Role.ofByte (b : UInt8) : Role := ofChar (Char.ofNat b.toNat)

theorem Role.ofChar_of_large {c : Char} (h : 128 ≤ c.toNat) : ofChar c = .plain := by
  have hne (d : Char) (hd : d.toNat < 128) : (c == d) = false := by
    refine beq_eq_false_iff_ne.mpr ?_
    rintro rfl
    omega
  simp only [ofChar, hne '{' (by decide), hne '}' (by decide), hne ';' (by decide),
    hne '(' (by decide), hne ')' (by decide)]
  rfl

/-- A byte that is no ASCII character has no role. -/
theorem Role.ofByte_of_large {b : UInt8} (h : 128 ≤ b.toNat) : ofByte b = .plain := by
  have hvalid : b.toNat.isValidChar := .inl (Nat.lt_trans b.toNat_lt (by decide))
  refine ofChar_of_large ?_
  rw [Char.ofNat, dif_pos hvalid]
  exact h

/-- Every byte of a character has the role of the character. -/
theorem Role.ofByte_of_mem {c : Char} {b : UInt8} (hb : b ∈ String.utf8EncodeChar c) :
    ofByte b = ofChar c := by
  by_cases hbyte : b.toNat < 128
  · rw [ofByte, ← Text.toNat_eq_of_mem hb hbyte, Char.ofNat_toNat]
  · have hchar : 128 ≤ c.toNat := by
      refine Nat.le_of_not_lt fun hascii => ?_
      have hval : c.val.toNat = c.toNat := rfl
      have hsingle : String.utf8EncodeChar c = [UInt8.ofNat c.val.toNat] := by
        rw [String.utf8EncodeChar, if_pos (by omega)]
      rw [hsingle, List.mem_singleton] at hb
      rw [hb, UInt8.toNat_ofNat'] at hbyte
      omega
    rw [ofByte_of_large (Nat.le_of_not_lt hbyte), ofChar_of_large hchar]

namespace Offset

/-- The character behind a part of a text, marked by what is open there. -/
def glyphAt (front : Text) (c : Char) : Glyph := ⟨c, Quote.encloses (Quote.after none front) c⟩

theorem glyphsFrom_cons (front : Text) (c : Char) (rest : Text) :
    Text.glyphsFrom (Quote.after none front) (c :: rest) =
      glyphAt front c :: Text.glyphsFrom (Quote.after none (front ++ [c])) rest := by
  rw [Text.glyphsFrom_cons, Quote.after_append]
  rfl

/-- The role of the byte at an offset. A byte inside a literal is plain. -/
def roleAt (t : Text) (offset : Nat) : Role :=
  if Span.anyHolds t.spans offset then .plain else (t.bytes[offset]?.map Role.ofByte).getD .plain

/-- A byte has the role that its character has among the glyphs of the text. -/
theorem roleAt_char (s : Text) {c : Char} {k : Nat} (hk : k < c.utf8Size) (u : Text) :
    roleAt (s ++ c :: u) (s.size + k) = (glyphAt s c).role := by
  rw [roleAt, Text.anyHolds_spans_byte s hk, glyphAt, Glyph.role]
  cases Quote.encloses (Quote.after none s) c with
  | true => rfl
  | false =>
      have hlength : k < (String.utf8EncodeChar c).length := by rwa [String.length_utf8EncodeChar]
      rw [if_neg Bool.false_ne_true, if_neg Bool.false_ne_true, Text.getElem?_bytes hk,
        List.getElem?_eq_getElem hlength]
      exact Role.ofByte_of_mem (List.getElem_mem hlength)

/-- A character with a role of its own is a single byte. -/
theorem utf8Size_of_role {g : Glyph} (h : g.role ≠ .plain) : g.char.utf8Size = 1 := by
  refine Text.utf8Size_eq_one (Nat.lt_of_not_le fun hlarge => ?_)
  obtain ⟨c, quoted⟩ := g
  cases quoted with
  | true => exact h rfl
  | false => exact h (Role.ofChar_of_large hlarge)

/-! ## Loops -/

/-- What a round of a loop leads to. -/
inductive Round (σ α : Type) where
  /-- The loop goes on. -/
  | next (s : σ)
  /-- The loop ends before the text does. -/
  | done (a : α)

/-- Go over the bytes of a text from an offset on. A round fails where it needs a slice that does
not exist. -/
def overBytes {σ α : Type} (t : Text) (round : σ → Nat → Role → Option (Round σ α)) (s : σ)
    (offset : Nat) : Option (Round σ α) :=
  if offset < t.size then
    match round s offset (roleAt t offset) with
    | some (.next s) => overBytes t round s (offset + 1)
    | ended => ended
  else some (.next s)
termination_by t.size - offset

section Loop

variable {σ α : Type} {round : σ → Nat → Role → Option (Round σ α)} {t front rest : Text} {c : Char}
  {s next : σ} {a : α}

theorem overBytes_end (s : σ) : overBytes t round s t.size = some (.next s) := by
  rw [overBytes, if_neg (Nat.lt_irrefl _)]

theorem overBytes_byte {offset : Nat} (hoffset : offset < t.size)
    (hround : round s offset (roleAt t offset) = some (.next next)) :
    overBytes t round s offset = overBytes t round next (offset + 1) := by
  rw [overBytes, if_pos hoffset, hround]

/-- Plain bytes of a character are passed over. -/
theorem overBytes_plain (hplain : ∀ s i, round s i .plain = some (.next s))
    (hrole : (glyphAt front c).role = .plain) {k : Nat} (hk : k ≤ c.utf8Size) :
    overBytes (front ++ c :: rest) round s front.size =
      overBytes (front ++ c :: rest) round s (front.size + k) := by
  induction k with
  | zero => rfl
  | succ k ih =>
      have hlt : front.size + k < Text.size (front ++ c :: rest) := by
        rw [Text.size_append, Text.size_cons]
        omega
      have hround : round s (front.size + k) (roleAt (front ++ c :: rest) (front.size + k)) =
          some (.next s) := by
        rw [roleAt_char front hk, hrole, hplain]
      rw [ih (Nat.le_of_succ_le hk), overBytes_byte hlt hround, Nat.add_assoc]

/-- A round that goes on at a character takes the loop to the end of the character. -/
theorem overBytes_char (hplain : ∀ s i, round s i .plain = some (.next s))
    (ht : t = front ++ c :: rest)
    (hround : round s front.size (glyphAt front c).role = some (.next next)) :
    overBytes t round s front.size = overBytes t round next (front ++ [c]).size := by
  subst ht
  rw [Text.size_append, Text.size_cons, Text.size_nil, Nat.add_zero]
  by_cases hrole : (glyphAt front c).role = .plain
  · rw [hrole, hplain] at hround
    cases hround
    exact overBytes_plain hplain hrole (Nat.le_refl _)
  · have hsize : c.utf8Size = 1 := utf8Size_of_role hrole
    have hlt : front.size < Text.size (front ++ c :: rest) := by
      rw [Text.size_append, Text.size_cons]
      omega
    have hat := roleAt_char front c.utf8Size_pos rest
    rw [Nat.add_zero] at hat
    rw [overBytes_byte hlt (hat ▸ hround), hsize]

/-- A round that ends the loop. -/
theorem overBytes_done (ht : t = front ++ c :: rest)
    (hround : round s front.size (glyphAt front c).role = some (.done a)) :
    overBytes t round s front.size = some (.done a) := by
  subst ht
  have hlt : front.size < Text.size (front ++ c :: rest) := by
    have hpos := c.utf8Size_pos
    rw [Text.size_append, Text.size_cons]
    omega
  have hat := roleAt_char front c.utf8Size_pos rest
  rw [Nat.add_zero] at hat
  rw [overBytes, if_pos hlt, hat, hround]

end Loop

/-! ## What a loop computes -/

/-- A loop over the bytes of a text, and what it computes from the glyphs of the text. The function
takes the state of the loop and what `keeps` says about the state and the text read. -/
structure Loop (σ α μ β : Type) where
  round : σ → Nat → Role → Option (Round σ α)
  result : Round σ α → Option β
  keeps : Text → σ → μ → Prop
  spec : σ → μ → List Glyph → β

namespace Loop

variable {σ α μ β : Type} {t front rest : Text} {s : σ} {m : μ} {l : Loop σ α μ β}

/-- The round at a character leaves the glyphs behind it to compute, or it ends the loop with all
that there is to compute. -/
def StepsAt (l : Loop σ α μ β) (front : Text) (c : Char) (rest : Text) (s : σ) (m : μ) : Prop :=
  (∃ s' m', l.round s front.size (glyphAt front c).role = some (.next s') ∧
    l.keeps (front ++ [c]) s' m' ∧ ∀ gs, l.spec s m (glyphAt front c :: gs) = l.spec s' m' gs) ∨
  ∃ a, l.round s front.size (glyphAt front c).role = some (.done a) ∧
    l.result (.done a) = some (l.spec s m
      (glyphAt front c :: Text.glyphsFrom (Quote.after none (front ++ [c])) rest))

/-- A loop over a text computes what it is said to compute. -/
structure Computes (l : Loop σ α μ β) (t : Text) : Prop where
  plain : ∀ s i, l.round s i .plain = some (.next s)
  finish : ∀ {s m}, l.keeps t s m → l.result (.next s) = some (l.spec s m [])
  step : ∀ {front c rest s m}, t = front ++ c :: rest → l.keeps front s m →
    l.StepsAt front c rest s m

/-- No round of such a loop fails. -/
theorem Computes.overBytes_bind (h : l.Computes t) (ht : t = front ++ rest)
    (hkeeps : l.keeps front s m) :
    (overBytes t l.round s front.size).bind l.result =
      some (l.spec s m (Text.glyphsFrom (Quote.after none front) rest)) := by
  induction rest generalizing front s m with
  | nil =>
      rw [List.append_nil] at ht
      subst ht
      rw [overBytes_end, Option.bind_some]
      exact h.finish hkeeps
  | cons c rest ih =>
      rw [glyphsFrom_cons]
      rcases h.step ht hkeeps with ⟨s', m', hround, hkeeps', hspec⟩ | ⟨a, hround, hdone⟩
      · rw [overBytes_char h.plain ht hround, hspec]
        exact ih (by rw [ht, List.append_assoc, List.singleton_append]) hkeeps'
      · rwa [overBytes_done ht hround, Option.bind_some]

end Loop

/-! ## What a loop remembers -/

/-- What has been read from an offset on, the latest character first. -/
structure Behind (front : Text) (start : Nat) (seen : Text) : Prop where
  split : ∃ before, front = before ++ seen.reverse ∧ before.size = start

namespace Behind

variable {front seen : Text} {start : Nat} {c : Char}

theorem nil (front : Text) : Behind front front.size [] := ⟨front, by simp, rfl⟩

/-- Nothing has been read since a mark. -/
theorem anew (hc : c.utf8Size = 1) : Behind (front ++ [c]) (front.size + 1) [] :=
  ⟨front ++ [c], by simp, by simp [hc]⟩

theorem cons (h : Behind front start seen) (c : Char) :
    Behind (front ++ [c]) start (c :: seen) := by
  obtain ⟨before, rfl, hstart⟩ := h
  exact ⟨before, by simp, hstart⟩

theorem le_size (h : Behind front start seen) : start ≤ front.size := by
  obtain ⟨before, rfl, hstart⟩ := h
  rw [Text.size_append, hstart]
  exact Nat.le_add_right _ _

/-- The slice from the offset remembered to the place reached. -/
theorem slice? (h : Behind front start seen) (rest : Text) :
    Text.slice? (front ++ rest) start front.size = some seen.reverse := by
  obtain ⟨before, rfl, hstart⟩ := h
  rw [List.append_assoc]
  exact Text.slice?_part before seen.reverse rest hstart (Text.size_append _ _).symm

/-- The slice from the offset remembered on, at the end of the text. -/
theorem sliceFrom? (h : Behind front start seen) :
    Text.sliceFrom? front start = some seen.reverse := by
  have hslice := h.slice? []
  rwa [List.append_nil] at hslice

/-- The slice through a mark at the place reached. -/
theorem slice?_through (h : Behind front start seen) (hc : c.utf8Size = 1) (rest : Text) :
    Text.slice? (front ++ c :: rest) start (front.size + 1) = some (c :: seen).reverse := by
  have hsize : (front ++ [c]).size = front.size + 1 := by
    rw [Text.size_append, Text.size_cons, Text.size_nil, hc]
  have hslice := (h.cons c).slice? rest
  rwa [List.append_assoc, List.singleton_append, hsize] at hslice

end Behind

end Offset

end ClassDiagram
