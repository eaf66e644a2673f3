import ClassDiagram.Diagram.Preview

/-!
# Columns

Nothing ties a space or a character of a box to its neighbours (`Lone`). Such a character
closes every sign and takes one column itself, wherever it stands in a text
(`Lone.width_append`). So padding and centring fill exactly the columns that they are given,
whatever wide, combined or invisible characters the text has, as long as it is not too wide.
-/

namespace ClassDiagram.Text

/-- A character that closes every sign and takes one column itself. -/
def Lone (c : Char) : Prop :=
  ∀ front : Front, front.extend c = (1 + front.sign.pending, ⟨.plain, none⟩)

theorem lone_space : Lone ' ' := Front.extend_space

section Lone

variable {c : Char}

theorem Lone.measure_append (hc : Lone c) (s t : Text) :
    measure (s ++ c :: t) = ((measure s).1 + 1 + width t, (measure s).2) := by
  induction s with
  | nil =>
      simp only [List.nil_append, measure, hc _, width]
      congr 1
      omega
  | cons d s ih => simp only [List.cons_append, measure, ih, Nat.add_assoc]

/-- A lone character takes one column more, whatever stands around it. -/
theorem Lone.width_append (hc : Lone c) (s t : Text) :
    width (s ++ c :: t) = width s + 1 + width t := by
  simp only [width, hc.measure_append]
  omega

theorem Lone.width_cons (hc : Lone c) (t : Text) : width (c :: t) = width t + 1 := by
  have happend := hc.width_append [] t
  rw [List.nil_append, width_nil] at happend
  omega

theorem Lone.width_concat (hc : Lone c) (t : Text) : width (t ++ [c]) = width t + 1 :=
  hc.width_append t []

theorem Lone.width_append_replicate (hc : Lone c) (t : Text) (columns : Nat) :
    width (t ++ List.replicate columns c) = width t + columns := by
  induction columns with
  | zero =>
      rw [List.replicate_zero, List.append_nil]
      rfl
  | succ columns ih =>
      rw [List.replicate_succ', ← List.append_assoc, hc.width_concat, ih]
      rfl

theorem Lone.width_replicate_append (hc : Lone c) (t : Text) (columns : Nat) :
    width (List.replicate columns c ++ t) = width t + columns := by
  induction columns with
  | zero => rfl
  | succ columns ih =>
      rw [List.replicate_succ, List.cons_append, hc.width_cons, ih]
      rfl

/-- A character that no sign takes up, and that no selector is about. -/
theorem lone_of_alone (hselector : ∀ form : Form, c ≠ form.selector)
    (hnarrow : hasNarrowForm c = false) (hwide : hasEmojiForm c = false)
    (halone : alone c = (1, .plain)) (hjoin : ∀ sign : Sign, sign.join? c = none) : Lone c := by
  have hextend (sign : Sign) : sign.extend c = (1 + sign.pending, ⟨.plain, none⟩) := by
    simp [Sign.extend, hselector, hjoin, halone]
  have hpast (sign : Sign) : sign.extendPastSelector c = (1 + sign.pending, ⟨.plain, none⟩) := by
    rw [Sign.extendPastSelector, Sign.closeUnless]
    split
    · simp [hextend]
    · simp [hextend, Sign.pending]
  intro front
  rw [Front.extend]
  split
  · exact hextend front.sign
  · simp [hnarrow, hpast]
  · simp [hwide, hpast]

end Lone

/-! ## The characters of boxes -/

/-- The characters that boxes of either style are drawn with. -/
def boxCharacters : List Char := ['+', '-', '|', '┌', '┐', '└', '┘', '├', '┤', '─', '│']

/-- No sign takes up a character of a box. -/
theorem join?_boxCharacter (sign : Sign) :
    (boxCharacters.all fun c => (sign.join? c).isNone) = true := by
  match sign with
  | .plain | .lineFeed | .emoji | .modifier | .half | .flags | .alef => decide +kernel
  | .tied .emoji | .tied .keycap | .tied .half => decide +kernel
  | .tied (.halves paired) => cases paired <;> decide +kernel
  | .tied (.tags letters digits) =>
      have hapart : (boxCharacters.all fun c =>
          !isTagLetter c && !isTagDigit c && c.toNat != 0x1F3F4) = true := by
        decide +kernel
      rw [List.all_eq_true] at hapart ⊢
      intro c hc
      obtain ⟨⟨hletter, hdigit⟩, hflag⟩ : (isTagLetter c = false ∧ isTagDigit c = false) ∧
          c.toNat ≠ 0x1F3F4 := by
        simpa using hapart c hc
      simp [Sign.join?, Tied.join?, joinTags?, hletter, hdigit, hflag]
  | .ligature tail joined => cases tail <;> cases joined <;> decide +kernel

/-- A box character adds one column to what stands before it or behind it. -/
theorem lone_boxCharacter {c : Char} (hc : c ∈ boxCharacters) : Lone c := by
  have hclosed : (boxCharacters.all fun c => c != Form.text.selector && c != Form.emoji.selector &&
      !hasNarrowForm c && !hasEmojiForm c && alone c == (1, .plain)) = true := by
    decide +kernel
  have hjoin (sign : Sign) : sign.join? c = none :=
    Option.isNone_iff_eq_none.mp (List.all_eq_true.mp (join?_boxCharacter sign) c hc)
  obtain ⟨⟨⟨⟨htext, hemoji⟩, hnarrow⟩, hwide⟩, halone⟩ :
      (((c ≠ Form.text.selector ∧ c ≠ Form.emoji.selector) ∧ hasNarrowForm c = false) ∧
        hasEmojiForm c = false) ∧ alone c = (1, .plain) := by
    simpa using List.all_eq_true.mp hclosed c hc
  apply lone_of_alone _ hnarrow hwide halone hjoin
  intro form
  cases form with
  | text => exact htext
  | emoji => exact hemoji

/-! ## Padding and centring -/

section Padding

variable {t : Text} {columns : Nat}

theorem width_padRight (h : width t ≤ columns) : width (padRight t columns) = columns := by
  rw [padRight, lone_space.width_append_replicate]
  omega

/-- The blanks on the left take at most half of what is left over. -/
theorem width_center (h : width t ≤ columns) : width (center t columns) = columns := by
  rw [center]
  apply width_padRight
  rw [lone_space.width_replicate_append]
  omega

theorem mem_padRight {c : Char} (h : c ∈ padRight t columns) : c ∈ t ∨ c = ' ' := by
  rcases List.mem_append.mp h with ht | hblank
  · exact .inl ht
  · exact .inr (List.eq_of_mem_replicate hblank)

theorem mem_center {c : Char} (h : c ∈ center t columns) : c ∈ t ∨ c = ' ' := by
  rcases mem_padRight h with hshifted | hblank
  · rcases List.mem_append.mp hshifted with hblank | ht
    · exact .inr (List.eq_of_mem_replicate hblank)
    · exact .inl ht
  · exact .inr hblank

end Padding

/-! ## The widest line -/

section Widest

variable {lines : List Text}

theorem max?_width (h : lines ≠ []) : (lines.map width).max? = some (maxWidth lines) := by
  have hfold : maxWidth lines = max 0 ((lines.map width).max?.getD 0) := by
    rw [← List.foldl_max, List.foldl_map]
    rfl
  obtain ⟨widest, hwidest⟩ : ∃ widest, (lines.map width).max? = some widest := by
    rw [← Option.isSome_iff_exists, List.isSome_max?_iff]
    simpa using h
  rw [hfold, hwidest, Option.getD_some, Nat.zero_max]

theorem exists_width_eq_maxWidth (h : lines ≠ []) :
    ∃ line ∈ lines, width line = maxWidth lines := by
  obtain ⟨hmem, -⟩ := List.max?_eq_some_iff.mp (max?_width h)
  exact List.mem_map.mp hmem

theorem width_le_maxWidth {line : Text} (h : line ∈ lines) : width line ≤ maxWidth lines := by
  obtain ⟨-, hle⟩ := List.max?_eq_some_iff.mp (max?_width (List.ne_nil_of_mem h))
  exact hle (width line) (List.mem_map_of_mem h)

end Widest

end ClassDiagram.Text
