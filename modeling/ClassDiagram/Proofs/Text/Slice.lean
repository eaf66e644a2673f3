import ClassDiagram.Proofs.Text.Byte

/-!
# Slices

A slice of a text is the part between two byte offsets. It exists exactly if the text may be cut at
both of them and the first is not behind the second (`exists_slice?_iff`), so an offset inside a
character or past the end of the text gives none.
-/

namespace ClassDiagram.Text

/-- The text may be cut at an offset, which stands between two characters or at an end. -/
def IsCut (t : Text) (offset : Nat) : Prop := ∃ s u, t = s ++ u ∧ size s = offset

theorem isCut_iff {t : Text} {offset : Nat} :
    IsCut t offset ↔ (splitAtByte? offset t).isSome = true := by
  rw [Option.isSome_iff_exists]
  constructor
  · rintro ⟨s, u, rfl, rfl⟩
    exact ⟨_, splitAtByte?_size s u⟩
  · rintro ⟨⟨s, u⟩, hcut⟩
    exact ⟨s, u, splitAtByte?_eq_some_iff.mp hcut⟩

instance (t : Text) (offset : Nat) : Decidable (IsCut t offset) :=
  decidable_of_iff _ isCut_iff.symm

/-- The part of a text between two offsets. -/
def slice? (t : Text) (start stop : Nat) : Option Text :=
  match splitAtByte? stop t with
  | some (front, _) => (splitAtByte? start front).map Prod.snd
  | none => none

/-- The part of a text from an offset on. -/
def sliceFrom? (t : Text) (start : Nat) : Option Text := slice? t start (size t)

variable {t u : Text} {start stop : Nat}

theorem slice?_eq_some_iff :
    slice? t start stop = some u ↔
      ∃ before behind, t = before ++ (u ++ behind) ∧ size before = start ∧
        size before + size u = stop := by
  constructor
  · intro h
    cases hstop : splitAtByte? stop t with
    | none =>
        simp only [slice?, hstop] at h
        cases h
    | some parts =>
        obtain ⟨front, behind⟩ := parts
        simp only [slice?, hstop] at h
        obtain ⟨⟨before, piece⟩, hstart, rfl⟩ := Option.map_eq_some_iff.mp h
        obtain ⟨rfl, rfl⟩ := splitAtByte?_eq_some_iff.mp hstop
        obtain ⟨rfl, rfl⟩ := splitAtByte?_eq_some_iff.mp hstart
        exact ⟨before, behind, List.append_assoc _ _ _, rfl, (size_append _ _).symm⟩
  · rintro ⟨before, behind, rfl, rfl, rfl⟩
    rw [← List.append_assoc, ← size_append]
    simp only [slice?, splitAtByte?_size, Option.map_some]

/-- The slice between the ends of a part. -/
theorem slice?_part (before u behind : Text) (hstart : size before = start)
    (hstop : size before + size u = stop) : slice? (before ++ (u ++ behind)) start stop = some u :=
  slice?_eq_some_iff.mpr ⟨before, behind, rfl, hstart, hstop⟩

theorem sliceFrom?_part (before u : Text) (hstart : size before = start) :
    sliceFrom? (before ++ u) start = some u := by
  have hslice := slice?_part before u [] hstart rfl
  rwa [List.append_nil, ← size_append] at hslice

theorem isCut_size (t : Text) : IsCut t (size t) := ⟨t, [], (List.append_nil t).symm, rfl⟩

theorem isCut_append (s u : Text) : IsCut (s ++ u) (size s) := ⟨s, u, rfl, rfl⟩

theorem IsCut.le_size {offset : Nat} (h : IsCut t offset) : offset ≤ size t := by
  obtain ⟨s, u, rfl, rfl⟩ := h
  rw [size_append]
  exact Nat.le_add_right _ _

/-- Two offsets give a slice exactly if they are cuts of the text in this order. -/
theorem exists_slice?_iff :
    (∃ u, slice? t start stop = some u) ↔ IsCut t start ∧ IsCut t stop ∧ start ≤ stop := by
  constructor
  · rintro ⟨u, h⟩
    obtain ⟨before, behind, rfl, rfl, rfl⟩ := slice?_eq_some_iff.mp h
    refine ⟨isCut_append _ _, ⟨before ++ u, behind, ?_, size_append _ _⟩, Nat.le_add_right _ _⟩
    rw [List.append_assoc]
  · rintro ⟨⟨s, v, htext, rfl⟩, ⟨u, behind, rfl, rfl⟩, hle⟩
    obtain ⟨between, rfl, -⟩ := exists_of_size_le htext.symm hle
    refine ⟨between, ?_⟩
    rw [List.append_assoc]
    exact slice?_part s between behind rfl (size_append _ _).symm

end ClassDiagram.Text
