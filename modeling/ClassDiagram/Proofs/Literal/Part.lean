import ClassDiagram.Proofs.Literal.Byte
import ClassDiagram.Proofs.Text.Slice
import Mathlib.Data.Set.Image

/-!
# The literals of a part

Members, blocks and records are parts of a text, and each is scanned for literals by itself. Where
a part begins, no literal of the whole is open, so its own scan finds the literals of the whole
again (`Text.literalOffsets_slice`). A literal that the part cuts off reaches to the end of the part
instead of its quote. Its span is another one, but the offsets inside are the same.
-/

namespace ClassDiagram.Text

/-- The offsets of a text that lie inside its literals. -/
def literalOffsets (t : Text) : Set Nat := {offset | Span.anyHolds t.spans offset = true}

variable {s t : Text} {offset : Nat}

/-- Behind a text that leaves no literal open all literals are those of what follows. -/
theorem anyHolds_spans_part (hs : Quote.after none s = none) (h : offset < size t) (u : Text) :
    Span.anyHolds (spans (s ++ (t ++ u))) (size s + offset) = Span.anyHolds t.spans offset := by
  obtain ⟨front, c, rest, k, rfl, rfl, hk⟩ := exists_char_at h
  have hwhole : s ++ (front ++ c :: rest ++ u) = (s ++ front) ++ c :: (rest ++ u) := by simp
  rw [hwhole, ← Nat.add_assoc, ← size_append, anyHolds_spans_byte _ hk, anyHolds_spans_byte _ hk,
    Quote.after_append, hs]

/-- What follows a text does not change its literals. -/
theorem anyHolds_spans_front (h : offset < size t) (u : Text) :
    Span.anyHolds (spans (t ++ u)) offset = Span.anyHolds t.spans offset := by
  have hpart := anyHolds_spans_part (s := []) rfl h u
  rwa [size_nil, Nat.zero_add] at hpart

theorem lt_size_of_mem_literalOffsets (h : offset ∈ literalOffsets t) : offset < size t := by
  by_contra hle
  have hend := anyHolds_spans_behind (Nat.le_of_not_lt hle)
  exact Bool.false_ne_true (hend.symm.trans h)

theorem literalOffsets_append (hs : Quote.after none s = none) (t : Text) :
    literalOffsets (s ++ t) = literalOffsets s ∪ (size s + ·) '' literalOffsets t := by
  have hbehind {i : Nat} (hi : i < size t) :
      size s + i ∈ literalOffsets (s ++ t) ↔ i ∈ literalOffsets t := by
    have hpart := anyHolds_spans_part hs hi []
    rw [List.append_nil] at hpart
    exact Bool.eq_iff_iff.mp hpart
  ext i
  constructor
  · intro h
    by_cases hi : i < size s
    · exact .inl ((anyHolds_spans_front hi t).symm.trans h)
    · have hlt := lt_size_of_mem_literalOffsets h
      rw [size_append] at hlt
      obtain ⟨k, rfl⟩ := Nat.exists_eq_add_of_le (Nat.le_of_not_lt hi)
      exact .inr ⟨k, (hbehind (by omega)).mp h, rfl⟩
  · rintro (h | ⟨k, hk, rfl⟩)
    · exact (anyHolds_spans_front (lt_size_of_mem_literalOffsets h) t).trans h
    · exact (hbehind (lt_size_of_mem_literalOffsets hk)).mpr hk

/-- Between two cuts of a text, of which the first is outside of literals, the literals found in the
slice alone are those of the text. So behind a text that ends outside of literals there are its own
literals and, moved by its size, those of what follows. -/
theorem literalOffsets_slice (t : Text) :
    (∀ start stop, IsCut t start → IsCut t stop → start ≤ stop →
        Quote.readAll none (t.bytes.take start) = none →
        ∃ u, t.slice? start stop = some u ∧ ∀ offset, start ≤ offset → offset < stop →
          (offset - start ∈ literalOffsets u ↔ offset ∈ literalOffsets t)) ∧
      (Quote.readAll none t.bytes = none → ∀ u,
        literalOffsets (t ++ u) = literalOffsets t ∪ (t.size + ·) '' literalOffsets u) := by
  constructor
  · intro start stop hstart hstop hle hopen
    obtain ⟨u, hslice⟩ := exists_slice?_iff.mpr ⟨hstart, hstop, hle⟩
    obtain ⟨before, behind, rfl, rfl, rfl⟩ := slice?_eq_some_iff.mp hslice
    refine ⟨u, hslice, fun offset hfrom hto => ?_⟩
    have hbefore : Quote.after none before = none := by
      rw [bytes_append, ← length_bytes, List.take_left, Quote.readAll_bytes] at hopen
      exact hopen
    have hinside : offset - before.size < u.size := by omega
    have hpart := anyHolds_spans_part hbefore hinside behind
    rw [Nat.add_sub_cancel' hfrom] at hpart
    exact (Bool.eq_iff_iff.mp hpart).symm
  · intro hopen u
    rw [Quote.readAll_bytes] at hopen
    exact literalOffsets_append hopen u

/-- The slice cuts off a literal behind its opening brace, which stays literal. Two texts, of which
the second one does not close its literal, follow on each other. -/
theorem literalOffsets_slice_unclosed :
    (∃ u, Text.slice? "é \"y\x7b\"z".toList 3 6 = some u ∧
        ∀ offset, 3 ≤ offset → offset < 6 →
          (offset - 3 ∈ literalOffsets u ↔ offset ∈ literalOffsets "é \"y\x7b\"z".toList)) ∧
      literalOffsets ("'é'".toList ++ "\"b".toList) =
        literalOffsets "'é'".toList ∪ (4 + ·) '' literalOffsets "\"b".toList :=
  ⟨(literalOffsets_slice _).1 3 6 ⟨"é ".toList, "\"y\x7b\"z".toList, rfl, rfl⟩
      ⟨"é \"y\x7b".toList, "\"z".toList, rfl, rfl⟩ (by decide) (by decide),
    (literalOffsets_slice "'é'".toList).2 (by decide) _⟩

end ClassDiagram.Text
