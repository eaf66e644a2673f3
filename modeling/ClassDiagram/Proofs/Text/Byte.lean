import ClassDiagram.Text.Basic

/-!
# Texts as bytes

Offsets count the bytes of a text in UTF-8. A cut at an offset is a part of the text of that size
(`splitAtByte?_eq_some_iff`), and there is only one (`eq_of_size`). An offset at which there is no
cut lies inside a character (`exists_char_at`), of which no byte is an ASCII character
(`toNat_eq_of_mem`).
-/

namespace ClassDiagram.Text

/-- The bytes of a text in UTF-8. -/
def bytes (t : Text) : List UInt8 := t.flatMap String.utf8EncodeChar

variable {s t u v : Text} {c : Char}

@[simp] theorem bytes_nil : bytes [] = [] := rfl

@[simp] theorem bytes_cons (c : Char) (t : Text) :
    bytes (c :: t) = String.utf8EncodeChar c ++ bytes t := rfl

@[simp] theorem bytes_append (s t : Text) : bytes (s ++ t) = bytes s ++ bytes t :=
  List.flatMap_append

@[simp] theorem length_bytes (t : Text) : (bytes t).length = size t := by
  induction t with
  | nil => rfl
  | cons c t ih => simp [ih]

/-! ## Cuts -/

theorem size_eq_zero (h : size t = 0) : t = [] := by
  cases t with
  | nil => rfl
  | cons c t =>
      have hsize := c.utf8Size_pos
      rw [size_cons] at h
      omega

/-- A cut behind a part of a text is a cut at its size. -/
theorem splitAtByte?_size (s t : Text) : splitAtByte? (size s) (s ++ t) = some (s, t) := by
  induction s with
  | nil => cases t <;> rfl
  | cons c s ih =>
      have hsize := c.utf8Size_pos
      have hpos : size (c :: s) = (c.utf8Size + size s - 1) + 1 := by
        rw [size_cons]
        omega
      have hrest : c.utf8Size + size s - 1 + 1 - c.utf8Size = size s := by omega
      rw [hpos, List.cons_append, splitAtByte?, if_pos (by omega), hrest, ih]
      rfl

theorem splitAtByte?_eq_some_iff {n : Nat} :
    splitAtByte? n t = some (s, u) ↔ t = s ++ u ∧ size s = n := by
  constructor
  · intro h
    fun_induction splitAtByte? n t generalizing s with
    | case1 t =>
        cases h
        exact ⟨rfl, rfl⟩
    | case2 => cases h
    | case3 n c t hfits ih =>
        obtain ⟨⟨front, rest⟩, hcut, hpair⟩ := Option.map_eq_some_iff.mp h
        cases hpair
        obtain ⟨rfl, hsize⟩ := ih hcut
        exact ⟨rfl, by rw [size_cons]; omega⟩
    | case4 => cases h
  · rintro ⟨rfl, rfl⟩
    exact splitAtByte?_size s u

/-- Parts of a text of the same size are the same. -/
theorem eq_of_size (h : s ++ t = u ++ v) (hsize : size s = size u) : s = u ∧ t = v := by
  have hcut := splitAtByte?_size s t
  rw [h, hsize, splitAtByte?_size] at hcut
  cases hcut
  exact ⟨rfl, rfl⟩

/-- The smaller one of two parts of a text is the front of the other. -/
theorem exists_of_size_le (h : s ++ t = u ++ v) (hsize : size s ≤ size u) :
    ∃ between, u = s ++ between ∧ t = between ++ v := by
  rcases List.append_eq_append_iff.mp h with ⟨between, hu, ht⟩ | ⟨between, hs, hv⟩
  · exact ⟨between, hu, ht⟩
  · have hnone : between = [] := by
      apply size_eq_zero
      rw [hs, size_append] at hsize
      omega
    subst hnone
    exact ⟨[], by simpa using hs.symm, by simpa using hv.symm⟩

/-! ## Bytes of characters -/

/-- Every byte belongs to a character. -/
theorem exists_char_at {i : Nat} (h : i < size t) :
    ∃ s c u k, t = s ++ c :: u ∧ i = size s + k ∧ k < c.utf8Size := by
  induction t generalizing i with
  | nil => exact absurd h (Nat.not_lt_zero i)
  | cons c t ih =>
      by_cases hfirst : i < c.utf8Size
      · exact ⟨[], c, t, i, rfl, by simp, hfirst⟩
      · rw [size_cons] at h
        obtain ⟨s, d, u, k, rfl, hi, hk⟩ := ih (i := i - c.utf8Size) (by omega)
        exact ⟨c :: s, d, u, k, rfl, by rw [size_cons]; omega, hk⟩

section Char

variable {k : Nat} (hk : k < c.utf8Size)

include hk

theorem getElem?_bytes (s u : Text) :
    (bytes (s ++ c :: u))[size s + k]? = (String.utf8EncodeChar c)[k]? := by
  rw [bytes_append, ← length_bytes s, List.getElem?_append_right (Nat.le_add_right _ _),
    Nat.add_sub_cancel_left, bytes_cons, List.getElem?_append_left]
  rwa [String.length_utf8EncodeChar]

theorem take_bytes (s u : Text) :
    (bytes (s ++ c :: u)).take (size s + k) = bytes s ++ (String.utf8EncodeChar c).take k := by
  have hlength : k ≤ (String.utf8EncodeChar c).length := by
    rw [String.length_utf8EncodeChar]
    omega
  rw [bytes_append, ← length_bytes s, List.take_length_add_append, bytes_cons,
    List.take_append_of_le_length hlength]

end Char

theorem utf8Size_eq_one (hascii : c.toNat < 128) : c.utf8Size = 1 := by
  have hval : c.val.toNat = c.toNat := rfl
  rw [Char.utf8Size_eq_one_iff, UInt32.le_iff_toNat_le, hval]
  exact Nat.le_of_lt_succ hascii

/-- An ASCII byte is a character by itself. -/
theorem toNat_eq_of_mem {b : UInt8} (hb : b ∈ String.utf8EncodeChar c) (hascii : b.toNat < 128) :
    c.toNat = b.toNat := by
  have hval : c.val.toNat = c.toNat := rfl
  rw [String.utf8EncodeChar] at hb
  -- All bytes of the longer encodings begin with a one.
  split at hb
  · rw [List.mem_singleton.mp hb, UInt8.toNat_ofNat']
    omega
  split at hb
  · simp only [List.mem_cons, List.not_mem_nil, or_false] at hb
    rcases hb with rfl | rfl <;> rw [UInt8.toNat_ofNat'] at hascii <;> omega
  split at hb
  · simp only [List.mem_cons, List.not_mem_nil, or_false] at hb
    rcases hb with rfl | rfl | rfl <;> rw [UInt8.toNat_ofNat'] at hascii <;> omega
  · simp only [List.mem_cons, List.not_mem_nil, or_false] at hb
    rcases hb with rfl | rfl | rfl | rfl <;> rw [UInt8.toNat_ofNat'] at hascii <;> omega

end ClassDiagram.Text
