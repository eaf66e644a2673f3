import ClassDiagram.Proofs.Member.Current

/-!
# How member text is cut

The scan of member text completes its first piece where a member ends for the first time, and
begins anew behind it (`Scan.Current.first`). So the records of a text are a cut of it
(`records_cut`), and there is only one cut (`Cut.unique`): no text is lost and none is read twice,
however the braces stand.
-/

namespace ClassDiagram.Member

namespace Scan

/-! ## The first piece -/

theorem segments_glyphs_cons (s : Scan) (c : Char) (t : Text) :
    s.segments (Text.glyphsFrom (Quote.after none s.past) (c :: t)) =
      (s.step (s.glyph c)).2.toList ++ (s.step (s.glyph c)).1.segments
        (Text.glyphsFrom (Quote.after none (s.step (s.glyph c)).1.past) t) := by
  rw [after_step]
  rfl

/-- The scan completes no piece in a text, in which no member ends, or the first one ends
somewhere in it. Behind that piece the scan begins anew. -/
theorem Current.first {s : Scan} (h : Current s) (t : Text) :
    (s.segments (Text.glyphsFrom (Quote.after none s.past) t) = [] ∧ Unfinished (s.past ++ t)) ∨
      ∃ front rest segment, t = front ++ rest ∧ segment.text = s.past ++ front ∧
        segment.Complete ∧ IsPiece segment.text ∧
        s.segments (Text.glyphsFrom (Quote.after none s.past) t) =
          segment :: Member.segments rest := by
  induction t generalizing s with
  | nil =>
      rw [List.append_nil]
      exact .inl ⟨rfl, h.unfinished⟩
  | cons c t ih =>
      have hmore (u : Text) : s.past ++ c :: u = s.past ++ [c] ++ u := by simp
      rw [segments_glyphs_cons]
      rcases h.step c with ⟨hnone, hpast, hnext⟩ | ⟨segment, hstep, htext, hform, hpiece⟩
      · rw [hnone, Option.toList_none, List.nil_append]
        rcases ih hnext with ⟨hnil, hunfinished⟩ | ⟨front, rest, segment, rfl, htext, hlater⟩
        · rw [hpast, ← hmore] at hunfinished
          exact .inl ⟨hnil, hunfinished⟩
        · rw [hpast, ← hmore] at htext
          exact .inr ⟨c :: front, rest, segment, rfl, htext, hlater⟩
      · refine .inr ⟨[c], t, segment, rfl, htext, hform, hpiece, ?_⟩
        rw [hstep]
        rfl

end Scan

/-- What holds of a text in which no member ends, and of a text behind a piece if it holds of
that text, holds of all texts and their pieces. -/
theorem segments_induction {motive : Text → List Segment → Prop}
    (rest : ∀ t, Unfinished t → motive t [])
    (piece : ∀ (segment : Segment) (t : Text), segment.Complete → IsPiece segment.text →
      motive t (segments t) → motive (segment.text ++ t) (segment :: segments t)) (t : Text) :
    motive t (segments t) := by
  induction hlength : t.length using Nat.strongRecOn generalizing t with
  | ind n ih =>
      have hfirst := Scan.current_fresh.first t
      change (segments t = [] ∧ Unfinished t) ∨ _ at hfirst
      rcases hfirst with ⟨hnil, hunfinished⟩ | ⟨front, u, segment, rfl, htext, hform, hpiece, hall⟩
      · rw [hnil]
        exact rest t hunfinished
      · obtain rfl : segment.text = front := htext
        have hlt : u.length < n := by
          have := List.length_pos_iff.mpr hpiece.ends.ne_nil
          rw [List.length_append] at hlength
          omega
        have hpieces : segments (segment.text ++ u) = segment :: segments u := hall
        rw [hpieces]
        exact piece segment u hform hpiece (ih u.length hlt u rfl)

/-! ## The cut -/

/-- A cut of a text into pieces, with the records of the text. The value of a record is its
piece without the blanks around it. The other pieces are initializers, and in what is left at
the end no member ends. -/
inductive Cut : Text → List Record → Prop where
  | rest {t : Text} (h : Unfinished t) : Cut t []
  | record {piece t : Text} {r : Record} {rs : List Record} (hpiece : IsPiece piece)
      (hkept : ¬IsInitializer piece) (hvalue : r.value = Text.trim piece)
      (hend : piece.getLast? = some ';' ∨ piece.getLast? = some '}') (ht : Cut t rs) :
      Cut (piece ++ t) (r :: rs)
  | initializer {piece t : Text} {rs : List Record} (hpiece : IsPiece piece)
      (hdropped : IsInitializer piece) (ht : Cut t rs) : Cut (piece ++ t) rs

/-- A cut of a text that begins with a piece begins with this piece. -/
theorem Cut.behind_piece {piece t : Text} {rs : List Record} (h : Cut (piece ++ t) rs)
    (hpiece : IsPiece piece) :
    (IsInitializer piece ∧ Cut t rs) ∨
      ¬IsInitializer piece ∧ ∃ r rest, rs = r :: rest ∧ r.value = Text.trim piece ∧ Cut t rest := by
  generalize hwhole : piece ++ t = whole at h
  cases h with
  | rest hunfinished =>
      subst hwhole
      exact absurd hpiece.ends (hunfinished piece (List.prefix_append piece t))
  | record hfirst hkept hvalue _ ht =>
      obtain ⟨rfl, rfl⟩ := hpiece.unique hfirst hwhole
      exact .inr ⟨hkept, _, _, rfl, hvalue, ht⟩
  | initializer hfirst hdropped ht =>
      obtain ⟨rfl, rfl⟩ := hpiece.unique hfirst hwhole
      exact .inl ⟨hdropped, ht⟩

/-- A text has one cut only. -/
theorem Cut.unique {t : Text} {rs rs' : List Record} (h : Cut t rs) (h' : Cut t rs') :
    rs.map Record.value = rs'.map Record.value := by
  induction h generalizing rs' with
  | rest hunfinished =>
      cases h' with
      | rest => rfl
      | record hpiece => exact absurd hpiece.ends (hunfinished _ (List.prefix_append _ _))
      | initializer hpiece => exact absurd hpiece.ends (hunfinished _ (List.prefix_append _ _))
  | record hpiece hkept hvalue _ _ ih =>
      rcases h'.behind_piece hpiece with ⟨hdropped, -⟩ | ⟨-, r, rest, rfl, hvalue', hrest⟩
      · exact absurd hdropped hkept
      · rw [List.map_cons, List.map_cons, hvalue, hvalue', ih hrest]
  | initializer hpiece hdropped _ ih =>
      rcases h'.behind_piece hpiece with ⟨-, hrest⟩ | ⟨hkept, -⟩
      · exact ih hrest
      · exact absurd hdropped hkept

/-- The statements of a record stand in its value, and only a method has any. -/
structure Record.Collects (r : Record) : Prop where
  field : r.kind = .variable → r.statements = []
  order : InOrder r.statements r.value
  statements : ∀ s ∈ r.statements, IsStatement s

namespace Segment.Complete

variable {segment : Segment} {r : Record}

/-- The initializers are the complete pieces without a record. -/
theorem isInitializer_iff (h : segment.Complete) :
    IsInitializer segment.text ↔ segment.record? = none := by
  have hsemicolon {t : Text} : ¬IsInitializer (t ++ [';']) := by
    rintro ⟨head, body, heq, -⟩
    rw [← List.cons_append, ← List.append_assoc] at heq
    exact absurd (List.append_inj' heq rfl).2 (by decide)
  cases h with
  | field => exact ⟨fun hinitializer => absurd hinitializer hsemicolon, by rintro ⟨⟩⟩
  | bodiless => exact ⟨fun hinitializer => absurd hinitializer hsemicolon, by rintro ⟨⟩⟩
  | @method head body statements hbody hopened =>
      refine ⟨?_, by rintro ⟨⟩⟩
      rintro ⟨head', body', heq, hbody', hleads⟩
      have hhead := head_unique hbody.outside hbody.braceless hbody'.outside hbody'.braceless heq
      exact absurd (hhead ▸ hleads) (not_leadsInitializer_of_opened hopened)
  | @initializer head body hbody hopened =>
      exact ⟨fun _ => rfl, fun _ =>
        ⟨head, body, rfl, hbody, leadsInitializer_of_opened hopened⟩⟩

theorem collects (h : segment.Complete) (hr : segment.record? = some r) : r.Collects := by
  cases h with
  | field =>
      cases hr
      exact ⟨fun _ => rfl, trivial, fun s hs => absurd hs List.not_mem_nil⟩
  | bodiless =>
      cases hr
      exact ⟨fun _ => rfl, trivial, fun s hs => absurd hs List.not_mem_nil⟩
  | @method head body statements hbody _ hstatements horder =>
      cases hr
      have htrim : Text.trim (head ++ '{' :: (body ++ ['}'])) =
          (Text.trimStart head ++ ['{']) ++ (body ++ ['}']) := by
        have hsplit : head ++ '{' :: (body ++ ['}']) =
            head ++ (['{'] ++ (body ++ ['}']) ++ []) := by
          simp
        have hlast : (['{'] ++ (body ++ ['}'])).getLast?.any Text.isBlank = false := by
          rw [← List.append_assoc, List.getLast?_concat]
          rfl
        rw [hsplit, Text.trim_around rfl hlast (by simp)]
        simp [Text.trimEnd]
      have hfront : Quote.after none (Text.trimStart head ++ ['{']) = none := by
        rw [Quote.after_append, hbody.outside.trimStart.1]
        rfl
      refine ⟨(by rintro ⟨⟩), ?_, hstatements⟩
      rw [htrim]
      exact (horder.append _).behind_closed hfront
  | initializer => cases hr

end Segment.Complete

/-- For every text the records are a cut of it. No text is lost but initializers and what is
left behind the last place where a member ends, and none is part of two records. The statements
of a record stand in its value in their order, without overlapping. -/
theorem records_cut (t : Text) : Cut t (records t) ∧ ∀ r ∈ records t, r.Collects := by
  refine segments_induction (motive := fun t pieces =>
    Cut t (pieces.filterMap Segment.record?) ∧
      ∀ r ∈ pieces.filterMap Segment.record?, r.Collects) ?_ ?_ t
  · exact fun t hunfinished => ⟨.rest hunfinished, fun r hr => absurd hr List.not_mem_nil⟩
  · rintro segment t hform hpiece ⟨hcut, hcollects⟩
    cases hrecord : segment.record? with
    | some r =>
        have hkept : ¬IsInitializer segment.text := by
          rw [hform.isInitializer_iff, hrecord]
          exact Option.some_ne_none r
        rw [List.filterMap_cons_some hrecord]
        exact ⟨.record hpiece hkept (Segment.value_of_record? hrecord) hpiece.ends.getLast? hcut,
          List.forall_mem_cons.mpr ⟨hform.collects hrecord, hcollects⟩⟩
    | none =>
        rw [List.filterMap_cons_none hrecord]
        exact ⟨.initializer hpiece (hform.isInitializer_iff.mpr hrecord) hcut, hcollects⟩

/-- An initializer, a method with two statements, a field with a braced value, and a field that
is not finished. -/
def mixedMembers : Text :=
  "static\x7binit();\x7d void f()\x7bg();\x7b;h() ;\x7d\x7d int[] a = \x7b1;\x7d; int x".toList

/-- The mixed members are cut into the initializer, two records and the remainder. -/
theorem records_cut_mixed :
    records mixedMembers =
      [⟨.method, "void f()\x7bg();\x7b;h() ;\x7d\x7d".toList, ["g()".toList, "h()".toList]⟩,
        ⟨.variable, "int[] a = \x7b1;\x7d;".toList, []⟩] ∧
      Cut mixedMembers (records mixedMembers) ∧ ∀ r ∈ records mixedMembers, r.Collects :=
  ⟨by decide +kernel, records_cut mixedMembers⟩

end ClassDiagram.Member
