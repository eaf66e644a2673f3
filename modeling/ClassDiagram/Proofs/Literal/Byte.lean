import ClassDiagram.Proofs.Literal.Span
import ClassDiagram.Proofs.Text.Byte

/-!
# Literals byte by byte

Offsets count bytes, and a quote is one byte, which is no part of any other character. So the
literals of a text may be read off its bytes. An offset lies in a span of the text exactly if a
literal is open in front of the byte there and this byte does not close it, and the spans lie one
behind the other, each of them between two quotes of its kind (`Text.spans_of_bytes`). Spans in
ascending order may also be searched by halving (`Span.searchHolds_eq`).
-/

namespace ClassDiagram

namespace Quote

/-- The byte of a quote. -/
def byte : Quote → UInt8
  | apostrophe => 39
  | quotation => 34

/-- The quote that a byte is. -/
def ofByte? (b : UInt8) : Option Quote :=
  if b = apostrophe.byte then some apostrophe
  else if b = quotation.byte then some quotation
  else none

/-- The literal that is open after one more byte. A quote opens a literal, and the next quote of
the same kind closes it. -/
def read (pending : Option Quote) (b : UInt8) : Option Quote :=
  match pending with
  | none => ofByte? b
  | some quote => if b = quote.byte then none else some quote

/-- The literal that is open after all of the bytes. -/
def readAll (pending : Option Quote) (bytes : List UInt8) : Option Quote := bytes.foldl read pending

/-- A literal is open in front of the byte at an offset, and the byte does not close it. -/
def EnclosesAt (bytes : List UInt8) (offset : Nat) : Prop :=
  ∃ quote b, readAll none (bytes.take offset) = some quote ∧ bytes[offset]? = some b ∧
    b ≠ quote.byte

/-! ## The bytes of one character -/

section Char

variable {c : Char} {quote : Quote} {pending : Option Quote} {bytes : List UInt8}

theorem utf8EncodeChar_of_ofChar? (h : ofChar? c = some quote) :
    String.utf8EncodeChar c = [quote.byte] := by
  rw [ofChar?_eq_some_iff.mp h]
  cases quote <;> rfl

/-- The byte of a quote occurs in no other character. -/
theorem byte_mem_iff : quote.byte ∈ String.utf8EncodeChar c ↔ ofChar? c = some quote := by
  constructor
  · intro h
    have hc : c.toNat = quote.char.toNat := by
      cases quote with
      | apostrophe => exact Text.toNat_eq_of_mem h (by decide)
      | quotation => exact Text.toNat_eq_of_mem h (by decide)
    exact ofChar?_eq_some_iff.mpr (Char.toNat_inj.mp hc)
  · intro h
    rw [utf8EncodeChar_of_ofChar? h]
    exact List.mem_singleton_self _

theorem read_of_forall_ne {b : UInt8} (h : ∀ quote : Quote, quote.byte ≠ b) :
    read pending b = pending := by
  cases pending with
  | none => rw [read, ofByte?, if_neg (h _).symm, if_neg (h _).symm]
  | some quote => rw [read, if_neg (h quote).symm]

/-- Bytes without quotes open nothing and close nothing. -/
theorem readAll_of_not_mem (h : ∀ quote : Quote, quote.byte ∉ bytes) :
    readAll pending bytes = pending := by
  induction bytes with
  | nil => rfl
  | cons b bytes ih =>
      have hb (quote : Quote) : quote.byte ≠ b := List.ne_of_not_mem_cons (h quote)
      rw [readAll, List.foldl_cons, read_of_forall_ne hb]
      exact ih fun quote => List.not_mem_of_not_mem_cons (h quote)

/-- The bytes of a character are read as the character. -/
theorem readAll_utf8EncodeChar (pending : Option Quote) (c : Char) :
    readAll pending (String.utf8EncodeChar c) = next pending c := by
  cases hc : ofChar? c with
  | none =>
      rw [next_of_ofChar? hc pending]
      refine readAll_of_not_mem fun quote hquote => ?_
      rw [byte_mem_iff.mp hquote] at hc
      cases hc
  | some quote =>
      rw [utf8EncodeChar_of_ofChar? hc]
      cases pending with
      | none =>
          simp only [next, hc]
          cases quote <;> rfl
      | some outer =>
          simp only [next, hc]
          cases outer <;> cases quote <;> rfl

theorem readAll_bytes (pending : Option Quote) (t : Text) :
    readAll pending t.bytes = after pending t := by
  induction t generalizing pending with
  | nil => rfl
  | cons c t ih =>
      have hc := readAll_utf8EncodeChar pending c
      rw [readAll] at hc
      rw [Text.bytes_cons, readAll, List.foldl_append, hc, after_cons, ← ih, readAll]

/-- In front of its last byte a character has not been read. -/
theorem readAll_take {k : Nat} (hk : k < c.utf8Size) :
    readAll pending ((String.utf8EncodeChar c).take k) = pending := by
  cases hc : ofChar? c with
  | none =>
      refine readAll_of_not_mem fun quote hquote => ?_
      rw [byte_mem_iff.mp (List.mem_of_mem_take hquote)] at hc
      cases hc
  | some quote =>
      have hfirst : k = 0 := by
        have := Span.utf8Size_of_ofChar? hc
        omega
      rw [hfirst]
      rfl

/-- All bytes of a character are enclosed if the character is. -/
theorem enclosesAt_iff {k : Nat} (hk : k < c.utf8Size) (s t : Text) :
    EnclosesAt (s ++ c :: t).bytes (s.size + k) ↔ encloses (after none s) c = true := by
  have hopen : readAll none ((s ++ c :: t).bytes.take (s.size + k)) = after none s := by
    rw [Text.take_bytes hk, readAll, List.foldl_append, ← readAll, ← readAll, readAll_bytes,
      readAll_take hk]
  obtain ⟨b, hb⟩ : ∃ b, (String.utf8EncodeChar c)[k]? = some b := by
    rw [← String.length_utf8EncodeChar] at hk
    exact ⟨_, List.getElem?_eq_getElem hk⟩
  have hclose (quote : Quote) : b = quote.byte ↔ ofChar? c = some quote := by
    constructor
    · rintro rfl
      exact byte_mem_iff.mp (List.mem_of_getElem? hb)
    · intro hc
      rw [utf8EncodeChar_of_ofChar? hc] at hb
      exact List.mem_singleton.mp (List.mem_of_getElem? hb)
  rw [EnclosesAt, hopen, Text.getElem?_bytes hk, hb, encloses]
  cases after none s with
  | none => simp
  | some quote => simp [hclose]

end Char

end Quote

namespace Span

/-! ## Spans between quotes -/

/-- A span that starts at a quote, holds no other quote of the kind, and ends at the next one or at
the end of the bytes. -/
structure IsLiteral (bytes : List UInt8) (span : Span) : Prop where
  start_lt_stop : span.start < span.stop
  starts : bytes[span.start]? = some span.quote.byte
  inner : ∀ i, span.start < i → i < span.stop → bytes[i]? ≠ some span.quote.byte
  stops : bytes[span.stop]? = some span.quote.byte ∨ span.stop = bytes.length

/-- The last quote of the kind is at `start`. -/
structure LastAt (quote : Quote) (start : Nat) (bytes : List UInt8) : Prop where
  starts : bytes[start]? = some quote.byte
  behind : ∀ i, start < i → i < bytes.length → bytes[i]? ≠ some quote.byte

section Steps

variable {quote : Quote} {start : Nat} {front : Text} {c : Char}

theorem LastAt.start_lt {bytes : List UInt8} (h : LastAt quote start bytes) :
    start < bytes.length :=
  (List.getElem?_eq_some_iff.mp h.starts).1

theorem lastAt_quote (hc : Quote.ofChar? c = some quote) (front : Text) :
    LastAt quote front.size (front ++ [c]).bytes := by
  have hbytes : (front ++ [c]).bytes = front.bytes ++ [quote.byte] := by
    rw [Text.bytes_append, Text.bytes_cons, Quote.utf8EncodeChar_of_ofChar? hc]
    rfl
  rw [hbytes, ← Text.length_bytes]
  refine ⟨List.getElem?_concat_length, fun i hi hlength => ?_⟩
  rw [List.length_append, List.length_singleton] at hlength
  omega

/-- Another character leaves the literal open. -/
theorem LastAt.concat (h : LastAt quote start front.bytes) (hc : Quote.ofChar? c ≠ some quote) :
    LastAt quote start (front ++ [c]).bytes := by
  have hstart := h.start_lt
  have hbytes : (front ++ [c]).bytes = front.bytes ++ String.utf8EncodeChar c := by
    rw [Text.bytes_append, Text.bytes_cons, Text.bytes_nil, List.append_nil]
  rw [hbytes]
  refine ⟨(List.getElem?_append_left hstart).trans h.starts, fun i hi _ hquote => ?_⟩
  by_cases hfront : i < front.bytes.length
  · rw [List.getElem?_append_left hfront] at hquote
    exact h.behind i hi hfront hquote
  · rw [List.getElem?_append_right (by omega)] at hquote
    exact hc (Quote.byte_mem_iff.mp (List.mem_of_getElem? hquote))

theorem LastAt.isLiteral_end (h : LastAt quote start front.bytes) :
    IsLiteral front.bytes ⟨quote, start, front.size⟩ := by
  have hstart := h.start_lt
  rw [← Text.length_bytes]
  exact ⟨hstart, h.starts, h.behind, .inr rfl⟩

theorem LastAt.isLiteral_close (h : LastAt quote start front.bytes)
    (hc : Quote.ofChar? c = some quote) (t : Text) :
    IsLiteral (front ++ c :: t).bytes ⟨quote, start, front.size⟩ := by
  have hstart := h.start_lt
  have hbytes : (front ++ c :: t).bytes = front.bytes ++ quote.byte :: t.bytes := by
    rw [Text.bytes_append, Text.bytes_cons, Quote.utf8EncodeChar_of_ofChar? hc]
    rfl
  rw [hbytes, ← Text.length_bytes]
  refine ⟨hstart, (List.getElem?_append_left hstart).trans h.starts, fun i hi hstop => ?_, .inl ?_⟩
  · rw [List.getElem?_append_left hstop]
    exact h.behind i hi hstop
  · dsimp only
    rw [List.getElem?_append_right (Nat.le_refl _), Nat.sub_self]
    rfl

end Steps

/-- The spans behind a part of a text are literals of the whole text. -/
theorem isLiteral_of_mem_listFrom {front t : Text} {pending : Option (Quote × Nat)} {span : Span}
    (hpending : ∀ found ∈ pending, LastAt found.1 found.2 front.bytes)
    (h : span ∈ listFrom front.size pending t) : IsLiteral (front ++ t).bytes span := by
  induction t generalizing front pending with
  | nil =>
      cases pending with
      | none => cases h
      | some found =>
          cases List.mem_singleton.mp h
          rw [List.append_nil]
          exact (hpending found rfl).isLiteral_end
  | cons c t ih =>
      have hfront : front ++ c :: t = (front ++ [c]) ++ t := by simp
      have hsize : front.size + c.utf8Size = (front ++ [c]).size := by simp
      cases pending with
      | none =>
          cases hquote : Quote.ofChar? c with
          | none =>
              rw [listFrom_plain hquote, hsize] at h
              rw [hfront]
              exact ih (by simp) h
          | some quote =>
              rw [listFrom_open hquote, hsize] at h
              rw [hfront]
              exact ih (by simpa using lastAt_quote hquote front) h
      | some found =>
          obtain ⟨quote, start⟩ := found
          have hlast : LastAt quote start front.bytes := hpending _ rfl
          by_cases hclose : Quote.ofChar? c = some quote
          · rw [listFrom_close hclose, hsize] at h
            rcases List.mem_cons.mp h with rfl | h
            · exact hlast.isLiteral_close hclose t
            · rw [hfront]
              exact ih (by simp) h
          · rw [listFrom_inside hclose, hsize] at h
            rw [hfront]
            exact ih (by simpa using hlast.concat hclose) h

/-- Each span ends in front of the next one. -/
theorem pairwise_listFrom (offset : Nat) (pending : Option (Quote × Nat)) (t : Text) :
    (listFrom offset pending t).Pairwise fun a b => a.stop < b.start := by
  induction t generalizing offset pending with
  | nil =>
      cases pending with
      | none => exact .nil
      | some found => exact List.pairwise_singleton _ _
  | cons c t ih =>
      cases pending with
      | none =>
          cases hquote : Quote.ofChar? c with
          | none =>
              rw [listFrom_plain hquote]
              exact ih _ _
          | some quote =>
              rw [listFrom_open hquote]
              exact ih _ _
      | some found =>
          obtain ⟨quote, start⟩ := found
          by_cases hclose : Quote.ofChar? c = some quote
          · rw [listFrom_close hclose]
            refine List.pairwise_cons.mpr ⟨fun span hspan => ?_, ih _ _⟩
            have hstart := (listFrom_starts t _).1 span hspan
            have hpos := c.utf8Size_pos
            dsimp only
            omega
          · rw [listFrom_inside hclose]
            exact ih _ _

/-! ## Search by halving -/

/-- Where a property that holds up to some number between `low` and `high` ends. Each step keeps the
half in which that number is. -/
def partitionPoint (p : Nat → Bool) (low high : Nat) : Nat :=
  if low < high then
    let middle := low + (high - low) / 2
    if p middle then partitionPoint p (middle + 1) high else partitionPoint p low middle
  else low
termination_by high - low

/-- True if the last one of the spans that start before an offset holds it. -/
def searchHolds (spans : List Span) (offset : Nat) : Bool :=
  match partitionPoint (fun k => spans[k]?.any fun span => span.start < offset) 0 spans.length with
  | 0 => false
  | pos + 1 => spans[pos]?.any fun span => span.holds offset

/-- The halves close in on the point up to which the property holds. -/
theorem partitionPoint_eq {p : Nat → Bool} {low point high : Nat} (hlow : low ≤ point)
    (hhigh : point ≤ high) (h : ∀ k, low ≤ k → k < high → (p k = true ↔ k < point)) :
    partitionPoint p low high = point := by
  fun_induction partitionPoint p low high with
  | case1 low high hlt middle hmiddle ih =>
      have hbefore : middle < point := (h middle (by omega) (by omega)).mp hmiddle
      exact ih hbefore hhigh fun k hk => h k (by omega)
  | case2 low high hlt middle hmiddle ih =>
      have hbehind : ¬middle < point := fun hbefore =>
        hmiddle ((h middle (by omega) (by omega)).mpr hbefore)
      exact ih hlow (by omega) fun k hk hlt => h k hk (by omega)
  | case3 low high hge => omega

section Search

variable {spans : List Span}

theorem any_getElem?_iff (h : spans.Pairwise fun a b => a.start < b.start) (offset : Nat) {k : Nat}
    (hk : k < spans.length) :
    (spans[k]?.any fun span => span.start < offset) = true ↔
      k < (spans.takeWhile fun span => span.start < offset).length := by
  induction spans generalizing k with
  | nil => exact absurd hk (Nat.not_lt_zero k)
  | cons span spans ih =>
      obtain ⟨hlater, hspans⟩ := List.pairwise_cons.mp h
      by_cases hspan : span.start < offset
      · rw [List.takeWhile_cons_of_pos (by simpa using hspan), List.length_cons]
        cases k with
        | zero => simpa using hspan
        | succ k =>
            rw [List.getElem?_cons_succ, ih hspans (Nat.lt_of_succ_lt_succ hk),
              Nat.add_lt_add_iff_right]
      · rw [List.takeWhile_cons_of_neg (by simpa using hspan)]
        have hstart : ¬(span :: spans)[k].start < offset := by
          rcases List.mem_cons.mp (List.getElem_mem hk) with heq | hmem
          · rwa [heq]
          · have := hlater _ hmem
            omega
        rw [List.getElem?_eq_getElem hk]
        simpa using hstart

/-- Among spans in ascending order the search by halving finds the last one that starts before an
offset. -/
theorem searchHolds_eq (h : spans.Pairwise fun a b => a.start < b.start) (offset : Nat) :
    searchHolds spans offset = anyHolds spans offset := by
  have hprefix := List.takeWhile_append_dropWhile (p := fun span : Span => span.start < offset)
    (l := spans)
  have hlength : (spans.takeWhile fun span => span.start < offset).length ≤ spans.length :=
    (List.takeWhile_sublist _).length_le
  have hpoint :=
    partitionPoint_eq (Nat.zero_le _) hlength fun k _ hk => any_getElem?_iff h offset hk
  rw [searchHolds, hpoint, anyHolds, List.getLast?_eq_getElem?]
  generalize spans.takeWhile (fun span => span.start < offset) = front at *
  cases hpos : front.length with
  | zero =>
      rw [List.length_eq_zero_iff.mp hpos]
      rfl
  | succ pos =>
      dsimp only
      rw [← hprefix, List.getElem?_append_left (by omega), Nat.add_sub_cancel]

end Search

end Span

/-! ## The spans of a text -/

namespace Text

variable {t : Text} {span : Span}

theorem anyHolds_spans_iff (t : Text) (offset : Nat) :
    Span.anyHolds t.spans offset = true ↔ Quote.EnclosesAt t.bytes offset := by
  by_cases hoffset : offset < t.size
  · obtain ⟨s, c, u, k, rfl, rfl, hk⟩ := exists_char_at hoffset
    rw [anyHolds_spans_byte s hk, Quote.enclosesAt_iff hk]
  · have hnone : t.bytes[offset]? = none := by
      rw [List.getElem?_eq_none_iff, length_bytes]
      omega
    rw [anyHolds_spans_behind (by omega), Quote.EnclosesAt, hnone]
    simp

theorem pairwise_spans (t : Text) : t.spans.Pairwise fun a b => a.stop < b.start :=
  Span.pairwise_listFrom 0 none t

theorem isLiteral_of_mem_spans (h : span ∈ t.spans) : span.IsLiteral t.bytes := by
  have hmem : span ∈ Span.listFrom (size []) none t := h
  exact Span.isLiteral_of_mem_listFrom (by simp) hmem

/-- Behind the end of the text no other span starts. -/
theorem getLast?_spans (h : span ∈ t.spans) (hstop : span.stop = t.size) :
    t.spans.getLast? = some span := by
  obtain ⟨before, behind, hspans⟩ := List.append_of_mem h
  have hascending := pairwise_spans t
  rw [hspans] at hascending
  cases behind with
  | nil => rw [hspans, List.getLast?_concat]
  | cons next behind =>
      have hnext : next ∈ t.spans := by simp [hspans]
      have hinside := (List.getElem?_eq_some_iff.mp (isLiteral_of_mem_spans hnext).starts).1
      have hbehind := (List.pairwise_cons.mp (List.pairwise_append.mp hascending).2.1).1 next
        List.mem_cons_self
      rw [length_bytes] at hinside
      omega

/-- An offset lies in a span of a text exactly if the byte there is enclosed by a literal, and the
search by halving finds that span. The spans are the literals of the text in ascending order, of
which only the last one may reach to the end of the text without being closed. -/
theorem spans_of_bytes (t : Text) :
    (∀ offset, Span.anyHolds t.spans offset = true ↔ Quote.EnclosesAt t.bytes offset) ∧
      (∀ offset, Span.searchHolds t.spans offset = Span.anyHolds t.spans offset) ∧
      (t.spans.Pairwise fun a b => a.stop < b.start) ∧
      ∀ span ∈ t.spans, span.IsLiteral t.bytes ∧
        (t.bytes[span.stop]? = some span.quote.byte ∨
          span.stop = t.bytes.length ∧ t.spans.getLast? = some span) := by
  have hascending := pairwise_spans t
  have hstarts : t.spans.Pairwise fun a b => a.start < b.start := by
    refine hascending.imp_of_mem fun {a b} ha _ hstop => ?_
    exact Nat.lt_trans (isLiteral_of_mem_spans ha).start_lt_stop hstop
  refine ⟨anyHolds_spans_iff t, Span.searchHolds_eq hstarts, hascending, fun span hspan => ?_⟩
  have hliteral := isLiteral_of_mem_spans hspan
  refine ⟨hliteral, hliteral.stops.imp_right fun hstop => ⟨hstop, ?_⟩⟩
  exact getLast?_spans hspan (hstop.trans (length_bytes t))

end Text

end ClassDiagram
