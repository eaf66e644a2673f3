import ClassDiagram.Identifier
import ClassDiagram.Proofs.Text.Line
import Mathlib.Algebra.Group.Nat.Defs

/-!
# Reading identifiers back

The digits that a number is written with spell the number again, as far as there are enough
of them. The groups of the canonical spelling are the thirty-two digits of one number, so
every identifier is read back from its spelling (`ofText?_text`).
-/

namespace ClassDiagram.Identifier

/-! ## Digits -/

section Digits

variable {d : Nat}

theorem hexValue?_hexDigit (h : d < 16) : hexValue? (hexDigit d) = some d := by
  have hall : ∀ d < 16, hexValue? (hexDigit d) = some d := by decide
  exact hall d h

theorem length_hexDigits (count n : Nat) : (hexDigits count n).length = count := by
  induction count generalizing n with
  | zero => rfl
  | succ count ih => rw [hexDigits, List.length_append, ih, List.length_singleton]

/-- What holds of the sixteen digits holds of all digits of a number. -/
theorem forall_mem_hexDigits {P : Char → Prop} (h : ∀ d < 16, P (hexDigit d)) (count n : Nat) :
    ∀ c ∈ hexDigits count n, P c := by
  induction count generalizing n with
  | zero =>
      intro c hc
      cases hc
  | succ count ih =>
      intro c hc
      rcases List.mem_append.mp hc with hhigh | hlast
      · exact ih _ c hhigh
      · cases List.mem_singleton.mp hlast
        exact h _ (Nat.mod_lt n (by decide))

/-- The digits of a number fall into those of its high part and those of its low part. -/
theorem hexDigits_append (high low n : Nat) :
    hexDigits high (n / 16 ^ low) ++ hexDigits low n = hexDigits (high + low) n := by
  induction low generalizing n with
  | zero => simp [hexDigits]
  | succ low ih =>
      rw [hexDigits, ← List.append_assoc, Nat.pow_succ', ← Nat.div_div_eq_div_mul, ih]
      rfl

theorem ofHexFrom?_append (high : Nat) (s t : Text) :
    ofHexFrom? high (s ++ t) = (ofHexFrom? high s).bind fun n => ofHexFrom? n t := by
  induction s generalizing high with
  | nil => rfl
  | cons c s ih =>
      rw [List.cons_append, ofHexFrom?, ofHexFrom?]
      cases hexValue? c with
      | none => rfl
      | some d => exact ih _

/-- Digits spell the number that they were written for, up to their count. -/
theorem ofHexFrom?_hexDigits (high count n : Nat) :
    ofHexFrom? high (hexDigits count n) = some (high * 16 ^ count + n % 16 ^ count) := by
  induction count generalizing n with
  | zero => simp [hexDigits, ofHexFrom?, Nat.mod_one]
  | succ count ih =>
      have hdigit : n % 16 < 16 := Nat.mod_lt n (by decide)
      have hmod : n % 16 ^ (count + 1) = 16 * (n / 16 % 16 ^ count) + n % 16 := by
        rw [Nat.pow_succ', Nat.mod_mul]
        omega
      rw [hexDigits, ofHexFrom?_append, ih, Option.bind_some, ofHexFrom?, hexValue?_hexDigit hdigit,
        hmod, Nat.pow_succ', Nat.mul_left_comm high 16]
      change some _ = some _
      congr 1
      omega

end Digits

/-! ## Groups -/

/-- The five groups of the canonical spelling. -/
def groups (i : Identifier) : List Text :=
  [hexDigits 8 (i.toNat >>> 96), hexDigits 4 (i.toNat >>> 80), hexDigits 4 (i.toNat >>> 64),
    hexDigits 4 (i.toNat >>> 48), hexDigits 12 i.toNat]

section Groups

variable (i : Identifier)

/-- The groups are thirty-two digits of one number. -/
theorem flatten_groups : i.groups.flatten = hexDigits 32 i.toNat := by
  have hshift (bits digits : Nat) (h : 2 ^ bits = 16 ^ digits) :
      i.toNat >>> bits = i.toNat / 16 ^ digits := by
    rw [Nat.shiftRight_eq_div_pow, h]
  rw [groups, hshift 96 24 rfl, hshift 80 20 rfl, hshift 64 16 rfl, hshift 48 12 rfl]
  simp only [List.flatten_cons, List.flatten_nil, List.append_nil, hexDigits_append]

theorem splitWhere_text : Text.splitWhere (· == '-') i.text = i.groups := by
  have hgroup (count n : Nat) :
      Text.splitWhere (· == '-') (hexDigits count n) = [hexDigits count n] := by
    apply Text.splitWhere_of_forall
    apply forall_mem_hexDigits
    decide
  simp only [text, List.append_assoc, List.cons_append]
  rw [Text.splitWhere_append_cut rfl, Text.splitWhere_append_cut rfl,
    Text.splitWhere_append_cut rfl, Text.splitWhere_append_cut rfl, hgroup, hgroup, hgroup, hgroup,
    hgroup]
  rfl

/-- The canonical spelling is neither in braces nor behind the label. -/
theorem unwrap_text : unwrap i.text = i.text := by
  obtain ⟨c, digits, hgroup⟩ : ∃ c digits, hexDigits 8 (i.toNat >>> 96) = c :: digits := by
    apply List.exists_cons_of_length_pos
    rw [length_hexDigits]
    decide
  have hdigit : ∀ c ∈ hexDigits 8 (i.toNat >>> 96), c.toLower ≠ 'u' ∧ c ≠ '{' := by
    apply forall_mem_hexDigits
    decide
  obtain ⟨hlabel, hbrace⟩ := hdigit c (by simp [hgroup])
  obtain ⟨rest, htext⟩ : ∃ rest, i.text = c :: rest := by
    simp [text, hgroup]
  rw [htext]
  unfold unwrap
  rw [if_neg]
  · split
    · rename_i heq
      exact absurd (List.cons.inj heq).1 hbrace
    · rfl
  · intro h
    have hfirst := congrArg List.head? (eq_of_beq h)
    exact hlabel (Option.some.inj hfirst)

/-- Every identifier is read back from its canonical spelling. -/
theorem ofText?_text : ofText? i.text = some i := by
  have hlength : i.text.length ≠ 32 := by
    simp [text, length_hexDigits]
  have hgroups : i.groups.map List.length = [8, 4, 4, 4, 12] := by
    simp [groups, length_hexDigits]
  have hungroup : ungroup? (unwrap i.text) = some (hexDigits 32 i.toNat) := by
    simp only [unwrap_text, ungroup?, splitWhere_text, if_pos hgroups, flatten_groups]
  have hbits : i.toNat < 16 ^ 32 := i.bits.isLt
  simp only [ofText?, if_neg hlength, hungroup, Option.bind_eq_bind, Option.bind_some,
    ofHexFrom?_hexDigits, Nat.zero_mul, Nat.zero_add, Nat.mod_eq_of_lt hbits, ofNat_toNat]
  rfl

end Groups

end ClassDiagram.Identifier
