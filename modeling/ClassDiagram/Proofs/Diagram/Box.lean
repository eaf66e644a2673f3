import ClassDiagram.Proofs.Text.Column

/-!
# The lines of a box

A box is made of rules and rows (`Node.mem_boxLines`). A row holds a name in the middle or a
member on the left. All lines of a box are four columns wider than the widest of its texts,
whatever its texts are, and no line is broken unless a text is.
-/

namespace ClassDiagram

namespace BoxStyle

variable {style : BoxStyle} {ends : Ends} {columns : Nat} {content : Text}

/-- Both ends of a rule are characters of boxes. -/
def Ends.Drawn (ends : Ends) : Prop :=
  ends.left ∈ Text.boxCharacters ∧ ends.right ∈ Text.boxCharacters

instance (ends : Ends) : Decidable ends.Drawn := inferInstanceAs (Decidable (_ ∧ _))

theorem drawn_top (style : BoxStyle) : style.top.Drawn := by
  cases style with
  | ascii => decide
  | unicode => decide

theorem drawn_between (style : BoxStyle) : style.between.Drawn := by
  cases style with
  | ascii => decide
  | unicode => decide

theorem drawn_bottom (style : BoxStyle) : style.bottom.Drawn := by
  cases style with
  | ascii => decide
  | unicode => decide

theorem drawn_sides (style : BoxStyle) :
    style.horizontal ∈ Text.boxCharacters ∧ style.vertical ∈ Text.boxCharacters := by
  cases style with
  | ascii => decide
  | unicode => decide

theorem width_rule (h : ends.Drawn) (columns : Nat) :
    Text.width (style.rule ends columns) = columns + 4 := by
  have hleft := Text.lone_boxCharacter h.1
  have hright := Text.lone_boxCharacter h.2
  have hline := Text.lone_boxCharacter (drawn_sides style).1
  rw [rule, hright.width_concat, hleft.width_cons, ← List.append_nil (List.replicate _ _),
    hline.width_replicate_append, Text.width_nil]
  omega

theorem width_row (style : BoxStyle) (content : Text) :
    Text.width (style.row content) = Text.width content + 4 := by
  have hside := Text.lone_boxCharacter (drawn_sides style).2
  have hsplit : style.row content =
      style.vertical :: ' ' :: (content ++ [' '] ++ [style.vertical]) := by
    simp [row]
  rw [hsplit, hside.width_cons, Text.lone_space.width_cons, hside.width_concat,
    Text.lone_space.width_concat]

theorem lineFeed_not_mem_rule (h : ends.Drawn) : '\n' ∉ style.rule ends columns := by
  have hnone : '\n' ∉ Text.boxCharacters := by decide
  intro hmem
  obtain hleft | ⟨-, hline⟩ | hright :
      '\n' = ends.left ∨ (¬columns + 2 = 0 ∧ '\n' = style.horizontal) ∨ '\n' = ends.right := by
    simpa [rule] using hmem
  · exact hnone (hleft ▸ h.1)
  · exact hnone (hline ▸ (drawn_sides style).1)
  · exact hnone (hright ▸ h.2)

theorem lineFeed_not_mem_row (h : '\n' ∉ content) : '\n' ∉ style.row content := by
  have hside : '\n' ≠ style.vertical := by
    cases style with
    | ascii => decide
    | unicode => decide
  simp [row, h, hside]

end BoxStyle

namespace Node

/-- All texts that a box shows: the names and the members of both compartments. -/
def texts (node : Node) : List Text := node.nameTexts ++ node.compartments.flatten

section Lines

variable {style : BoxStyle} {node : Node} {line : Text}

/-- Every line of a box is a rule or a row. -/
theorem mem_boxLines (h : line ∈ node.boxLines style) :
    (∃ ends : BoxStyle.Ends, ends.Drawn ∧ line = style.rule ends node.columns) ∨
    ∃ t ∈ node.texts, line = style.row (Text.center t node.columns) ∨
      line = style.row (Text.padRight t node.columns) := by
  simp only [boxLines, List.mem_append, List.mem_map, List.mem_flatMap, List.mem_cons,
    List.not_mem_nil, or_false] at h
  obtain ((rfl | ⟨name, hname, rfl⟩) | ⟨members, hmembers, rfl | ⟨member, hmember, rfl⟩⟩) | rfl := h
  · exact .inl ⟨style.top, style.drawn_top, rfl⟩
  · exact .inr ⟨name, List.mem_append_left _ hname, .inl rfl⟩
  · exact .inl ⟨style.between, style.drawn_between, rfl⟩
  · refine .inr ⟨member, List.mem_append_right _ ?_, .inr rfl⟩
    exact List.mem_flatten_of_mem hmembers hmember
  · exact .inl ⟨style.bottom, style.drawn_bottom, rfl⟩

theorem width_le_columns {t : Text} (h : t ∈ node.texts) : Text.width t ≤ node.columns :=
  Text.width_le_maxWidth h

/-- All lines of a box are equally wide. -/
theorem width_of_mem_boxLines (h : line ∈ node.boxLines style) :
    Text.width line = node.columns + 4 := by
  obtain ⟨ends, hends, rfl⟩ | ⟨t, ht, rfl | rfl⟩ := mem_boxLines h
  · exact BoxStyle.width_rule hends _
  · rw [BoxStyle.width_row, Text.width_center (width_le_columns ht)]
  · rw [BoxStyle.width_row, Text.width_padRight (width_le_columns ht)]

theorem lineFeed_not_mem_of_mem_boxLines (htexts : ∀ t ∈ node.texts, '\n' ∉ t)
    (h : line ∈ node.boxLines style) : '\n' ∉ line := by
  obtain ⟨ends, hends, rfl⟩ | ⟨t, ht, rfl | rfl⟩ := mem_boxLines h
  · exact BoxStyle.lineFeed_not_mem_rule hends
  · apply BoxStyle.lineFeed_not_mem_row
    intro hmem
    rcases Text.mem_center hmem with hbreak | hblank
    · exact htexts t ht hbreak
    · cases hblank
  · apply BoxStyle.lineFeed_not_mem_row
    intro hmem
    rcases Text.mem_padRight hmem with hbreak | hblank
    · exact htexts t ht hbreak
    · cases hblank

/-- A box has a rule above and below, a row for each name, a rule for each compartment and a
row for each member. -/
theorem length_boxLines (style : BoxStyle) (node : Node) :
    (node.boxLines style).length = 2 + node.name.length + node.compartments.length +
      node.compartments.flatten.length := by
  have hcompartments : ∀ compartments : List (List Text),
      (compartments.flatMap fun members => style.rule style.between node.columns ::
        members.map fun line => style.row (Text.padRight line node.columns)).length =
      compartments.length + compartments.flatten.length := by
    intro compartments
    induction compartments with
    | nil => rfl
    | cons members compartments ih =>
        rw [List.flatMap_cons, List.length_append, ih, List.length_cons, List.length_map,
          List.length_cons, List.flatten_cons, List.length_append]
        omega
  simp only [boxLines, nameTexts, List.length_append, List.length_map, hcompartments,
    List.length_cons, List.length_nil]
  omega

end Lines

end Node

end ClassDiagram
