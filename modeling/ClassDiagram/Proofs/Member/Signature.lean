import ClassDiagram.Member.Decode
import ClassDiagram.Proofs.Member.Part
import Mathlib.Logic.ExistsUnique

/-!
# Where a signature ends

The scan for members passes over braces and semicolons inside parentheses. So where the body
of a member opens, or the member ends without one, all parentheses are closed
(`form_of_mem_segments`), and the parameters of a method end in front of it. The decoder looks
for their end once more. It stops at the first brace of all, also inside the parentheses, and
it counts parentheses in literals. It reads the parameters that the scan has passed exactly if
neither makes a difference (`method?_parameters`).
-/

namespace ClassDiagram.Member

/-! ## The form of a piece -/

/-- Behind the text all literals and parentheses are closed. -/
def Outside (t : Text) : Prop :=
  Quote.after none t = none ∧ Glyph.parens.depth 0 t.glyphs = 0

/-- The form of a piece: where all literals and parentheses are closed, a brace opens the
body, or a semicolon ends the piece. -/
def HasForm (t : Text) : Prop :=
  ∃ head mark body, t = head ++ mark :: body ∧ Outside head ∧ (mark = '{' ∨ mark = ';' ∧ body = [])

namespace Scan

/-- The text of the current piece. -/
def past (s : Scan) : Text := s.seen.reverse

/-- The glyph that a character is behind the current piece. -/
def glyph (s : Scan) (c : Char) : Glyph := ⟨c, Quote.encloses (Quote.after none s.past) c⟩

/-- What the scan knows of the current piece: it is between members and counts the
parentheses that are open, or it has passed the brace that opens the body. -/
inductive Tracks (s : Scan) : Prop where
  | between (depth : s.depth = 0) (enclosure : s.enclosure = .none)
      (parens : s.parens = Glyph.parens.depth 0 s.past.glyphs)
  | inside {head body : Text} (past : s.past = head ++ '{' :: body) (outside : Outside head)

theorem tracks_fresh : Tracks fresh := .between rfl rfl rfl

/-- The current piece goes on with the character, or it ends with it. -/
theorem step_past (s : Scan) (c : Char) :
    ((s.step (s.glyph c)).2 = none ∧ (s.step (s.glyph c)).1.past = s.past ++ [c]) ∨
      ∃ segment, s.step (s.glyph c) = (fresh, some segment) ∧ segment.text = s.past ++ [c] ∧
        ((s.glyph c).role = .closeBrace ∨ (s.glyph c).role = .semicolon) := by
  rcases s.step_cases (s.glyph c) with ⟨hnone, hseen⟩ | ⟨segment, hstep, htext, hrole⟩
  · exact .inl ⟨hnone, by rw [past, hseen, List.reverse_cons]; rfl⟩
  · exact .inr ⟨segment, hstep, by rw [htext, List.reverse_cons]; rfl, hrole⟩

/-- No piece ends inside a literal, so the literals of a text are those of its pieces. -/
theorem after_step (s : Scan) (c : Char) :
    Quote.after none (s.step (s.glyph c)).1.past = Quote.next (Quote.after none s.past) c := by
  rcases s.step_past c with ⟨-, hpast⟩ | ⟨segment, hstep, -, hrole⟩
  · rw [hpast, Quote.after_append]
    rfl
  · have hmark : (s.glyph c).role ≠ .plain := by
      rcases hrole with hrole | hrole <;> simp [hrole]
    rw [hstep, (Quote.next_of_role hmark).2]
    rfl

namespace Tracks

variable {s : Scan}

theorem step_inside {head body : Text} (hpast : s.past = head ++ '{' :: body)
    (houtside : Outside head) (c : Char) :
    Keeps Tracks (HasForm ·.text) (s.step (s.glyph c)) := by
  have hmore : s.past ++ [c] = head ++ '{' :: (body ++ [c]) := by simp [hpast]
  rcases s.step_past c with ⟨hnone, htaken⟩ | ⟨segment, hstep, htext, -⟩
  · exact .of_none (Prod.ext rfl hnone) (.inside (htaken.trans hmore) houtside)
  · exact .of_some hstep tracks_fresh
      ⟨head, '{', body ++ [c], htext.trans hmore, houtside, .inl rfl⟩

theorem step_between (hdepth : s.depth = 0) (henclosure : s.enclosure = .none)
    (hparens : s.parens = Glyph.parens.depth 0 s.past.glyphs) (c : Char) :
    Keeps Tracks (HasForm ·.text) (s.step (s.glyph c)) := by
  rcases Scan.step_between hdepth henclosure (s.glyph c) with hgoes | ⟨hzero, hmark⟩
  · rcases s.step_past c with ⟨-, htaken⟩ | ⟨segment, hstep, -⟩
    · have hglyphs : (s.past ++ [c]).glyphs = s.past.glyphs ++ [s.glyph c] :=
        Text.glyphsFrom_append none _ _
      have hcount : (s.step (s.glyph c)).1.parens =
          Glyph.parens.depth 0 (s.step (s.glyph c)).1.past.glyphs := by
        rw [hgoes.parens, hparens, htaken, hglyphs, Brackets.depth_append]
        rfl
      exact .of_none (Prod.ext rfl hgoes.none)
        (.between hgoes.depth (hgoes.enclosure.trans henclosure) hcount)
    · cases (congrArg Prod.snd hstep).symm.trans hgoes.none
  · -- A brace or a semicolon that is not hidden stands outside.
    have houtside : Outside s.past := by
      have hrole : (s.glyph c).role ≠ .plain := by
        rcases hmark with hmark | ⟨hmark, -⟩ <;> simp [hmark]
      exact ⟨(Quote.next_of_role hrole).1, hparens.symm.trans hzero⟩
    rcases hmark with hopen | ⟨hsemicolon, hsome⟩
    · have hc : c = '{' := Glyph.char_of_role_openBrace hopen
      rcases s.step_past c with ⟨hnone, htaken⟩ | ⟨segment, -, -, hrole⟩
      · have hinside : (s.step (s.glyph c)).1.past = s.past ++ ['{'] := by rw [htaken, hc]
        exact .of_none (Prod.ext rfl hnone) (.inside hinside houtside)
      · rw [hopen] at hrole
        simp at hrole
    · have hglyph : s.glyph c = ⟨';', false⟩ := Glyph.eq_of_role hsemicolon (by decide)
      have hc : c = ';' := congrArg Glyph.char hglyph
      rcases s.step_past c with ⟨hnone, -⟩ | ⟨segment, hstep, htext, -⟩
      · exact absurd hnone hsome
      · exact .of_some hstep tracks_fresh
          ⟨s.past, ';', [], by rw [htext, hc], houtside, .inr ⟨rfl, rfl⟩⟩

theorem step (h : Tracks s) (c : Char) :
    Keeps Tracks (HasForm ·.text) (s.step (s.glyph c)) := by
  cases h with
  | between hdepth henclosure hparens => exact step_between hdepth henclosure hparens c
  | inside hpast houtside => exact step_inside hpast houtside c

theorem segments {t : Text} {segment : Segment} (h : Tracks s)
    (hsegment : segment ∈ s.segments (Text.glyphsFrom (Quote.after none s.past) t)) :
    HasForm segment.text := by
  induction t generalizing s with
  | nil => cases hsegment
  | cons c t ih =>
      obtain ⟨hnext, hform⟩ := h.step c
      rw [Text.glyphsFrom_cons, ← after_step] at hsegment
      rcases List.mem_append.mp hsegment with hnow | hlater
      · exact hform segment (Option.mem_toList.mp hnow)
      · exact ih hnext hlater

end Tracks

end Scan

/-- All pieces of a member text have the form of a piece. -/
theorem form_of_mem_segments {t : Text} {segment : Segment} (h : segment ∈ segments t) :
    HasForm segment.text :=
  Scan.tracks_fresh.segments h

theorem Outside.trimStart {t : Text} (h : Outside t) : Outside (Text.trimStart t) := by
  induction t with
  | nil => exact h
  | cons c t ih =>
      cases hc : Text.isBlank c with
      | false =>
          rw [Text.trimStart_of_head? (t := c :: t) (by simpa using hc)]
          exact h
      | true =>
          obtain ⟨hclosed, hdepth⟩ := h
          have hnext : Quote.next none c = none := Text.ofChar?_of_isBlank hc
          have hcount : Glyph.parens.next 0 ⟨c, Quote.encloses none c⟩ = 0 := by
            simp [Brackets.next, Glyph.parens, Quote.encloses, plain_of_isBlank hc]
          rw [Quote.after_cons, hnext] at hclosed
          rw [Text.glyphs, Text.glyphsFrom_cons, hnext, Brackets.depth_cons, hcount] at hdepth
          rw [Text.trimStart_blank hc]
          exact ih ⟨hclosed, hdepth⟩

theorem HasForm.trim {t : Text} (h : HasForm t) : HasForm (Text.trim t) := by
  obtain ⟨head, mark, body, rfl, houtside, hmark⟩ := h
  have hsolid : Text.isBlank mark = false := by
    rcases hmark with rfl | ⟨rfl, -⟩ <;> decide
  refine ⟨Text.trimStart head, mark, Text.trimEnd body, ?_, houtside.trimStart, ?_⟩
  · exact Text.trim_around (s := [mark]) (by simpa using hsolid) (by simpa using hsolid)
      (by simp) _ _
  · rcases hmark with rfl | ⟨rfl, rfl⟩
    · exact .inl rfl
    · exact .inr ⟨rfl, rfl⟩

/-- So do all records. -/
theorem form_of_mem_records {t : Text} {r : Record} (h : r ∈ records t) : HasForm r.value := by
  obtain ⟨segment, hsegment, hrecord⟩ := List.mem_filterMap.mp h
  rw [Segment.value_of_record? hrecord]
  exact (form_of_mem_segments hsegment).trim

theorem trim_value {t : Text} {r : Record} (h : r ∈ records t) : Text.trim r.value = r.value := by
  obtain ⟨segment, -, hrecord⟩ := List.mem_filterMap.mp h
  rw [Segment.value_of_record? hrecord, Text.trim_trim]

/-! ## Groups outside literals -/

/-- A stretch in front of the parenthesis that closes it, when those in literals do not count. -/
structure IsGroup (inner rest : Text) : Prop where
  source : ∃ behind, rest = inner ++ ')' :: behind
  balanced : Glyph.parens.Balanced inner.glyphs
  closed : Quote.after none inner = none

namespace IsGroup

variable {inner other rest : Text}

theorem not_longer {cut : Text} (h : IsGroup inner rest) : ¬IsGroup (inner ++ ')' :: cut) rest := by
  intro hlonger
  have hbalanced := hlonger.balanced
  have hclose : Glyph.parens.depth? 0 (Text.glyphs (')' :: cut)) = none :=
    Brackets.depth?_close_zero rfl rfl
  rw [Text.glyphs_append h.closed, Brackets.Balanced, Brackets.depth?_append, h.balanced,
    Option.bind_some, hclose] at hbalanced
  cases hbalanced

/-- Only one parenthesis closes a group. -/
theorem unique (h : IsGroup inner rest) (hother : IsGroup other rest) : inner = other := by
  obtain ⟨behind, hsource⟩ := h.source
  obtain ⟨behind', hsource'⟩ := hother.source
  rw [hsource] at hsource'
  rcases List.append_eq_append_iff.mp hsource' with ⟨cut, rfl, hcut⟩ | ⟨cut, rfl, hcut⟩
  · cases cut with
    | nil => simp
    | cons c cut =>
        cases (List.cons.inj hcut).1
        exact absurd hother h.not_longer
  · cases cut with
    | nil => simp
    | cons c cut =>
        cases (List.cons.inj hcut).1
        exact absurd h hother.not_longer

end IsGroup

/-- Outside literals and parentheses the text has no braces, and it ends outside literals. -/
structure Braceless (t : Text) : Prop where
  closed : Quote.after none t = none
  sheltered : Glyph.parens.Shelters (·.role = .openBrace) 0 t.glyphs

/-- In a piece that has not reached its body at a parenthesis, the parenthesis is closed. -/
theorem HasForm.exists_group {lead rest : Text} (h : HasForm (lead ++ '(' :: rest))
    (hlead : Braceless lead) : ∃ inner, IsGroup inner rest := by
  obtain ⟨head, mark, body, hsplit, ⟨hclosed, hdepth⟩, hmark⟩ := h
  rcases List.append_eq_append_iff.mp hsplit with ⟨cut, rfl, hcut⟩ | ⟨cut, rfl, hcut⟩
  · cases cut with
    | nil =>
        -- The mark is no parenthesis.
        cases (List.cons.inj hcut).1
        rcases hmark with hmark | ⟨hmark, -⟩ <;> cases hmark
    | cons c cut =>
        -- Behind the parenthesis all are closed before the mark.
        obtain ⟨⟨⟩, rfl⟩ := List.cons.inj hcut
        rw [Text.glyphs_append hlead.closed, Brackets.depth_append] at hdepth
        have hinside :
            Glyph.parens.depth (Glyph.parens.depth 0 lead.glyphs + 1) (Text.glyphs cut) = 0 :=
          hdepth
        obtain ⟨inner, g, behind, hglyphs, -, hg, hbalanced⟩ :=
          Brackets.exists_close (b := Glyph.parens) (hinside ▸ Nat.zero_le _)
        have hrole : g.role = .closeParen := eq_of_beq hg
        obtain ⟨htext, hinner, hend, -⟩ := Text.glyphs_split_at hglyphs (by simp [hrole])
        have hg : g = ⟨')', false⟩ := Glyph.eq_of_role hrole (by decide)
        refine ⟨Glyph.chars inner, ⟨Glyph.chars behind ++ mark :: body, ?_⟩, by rwa [hinner], hend⟩
        rw [htext, hg]
        exact List.append_assoc _ _ _
  · cases cut with
    | nil =>
        cases (List.cons.inj hcut).1
        rcases hmark with hmark | ⟨hmark, -⟩ <;> cases hmark
    | cons c cut =>
        -- The mark stands in front of the parenthesis.
        obtain ⟨rfl, hbody⟩ := List.cons.inj hcut
        rcases hmark with rfl | ⟨-, rfl⟩
        · have hsheltered := hlead.sheltered
          rw [Text.glyphs_append hclosed] at hsheltered
          have hpos := Brackets.depth_pos_of_shelters hsheltered rfl
          omega
        · simp at hbody

theorem Braceless.append {s t : Text} (hs : Braceless s) (hclosed : Quote.after none t = none)
    (hbrace : '{' ∉ t) : Braceless (s ++ t) := by
  refine ⟨by rw [Quote.after_append, hs.closed, hclosed], ?_⟩
  rw [Text.glyphs_append hs.closed, Brackets.shelters_append]
  refine ⟨hs.sheltered, Brackets.shelters_of_forall fun g hg hrole => hbrace ?_⟩
  have hmem : g.char ∈ Glyph.chars t.glyphs := List.mem_map_of_mem hg
  rwa [Text.chars_glyphs, Glyph.char_of_role_openBrace hrole] at hmem

/-! ## What the decoder reads -/

section Decoder

variable {record lead rest list inner : Text}

theorem exists_of_splitSignature? (h : splitSignature? record = some (lead, list)) :
    ∃ rest, dropAnnotations (Text.trim record) = lead ++ '(' :: rest ∧ '(' ∉ lead ∧ '{' ∉ lead ∧
      list = (splitGroup 0 (rest.takeWhile (· != '{'))).1 := by
  rw [splitSignature?] at h
  generalize dropAnnotations (Text.trim record) = v at h ⊢
  have hdropped (s : Text) (hs : ∀ d ∈ s, (d != '(') = true) : s.dropWhile (· != '(') = [] := by
    simpa using Text.dropWhile_stretch (t := []) hs rfl
  rcases Text.stretch_or_split (fun c => c != '(' && c != '{') v with
    hnone | ⟨front, c, rest, rfl, hfront, hc⟩
  · have hparen : (v.takeWhile (· != '{')).dropWhile (· != '(') = [] :=
      hdropped _ fun d hd => by grind [(List.takeWhile_sublist (· != '{')).subset hd]
    rw [hparen] at h
    cases h
  · have hnobrace : ∀ d ∈ front, (d != '{') = true := by grind
    have hnoparen : ∀ d ∈ front, (d != '(') = true := by grind
    by_cases hbrace : c = '{'
    · have hcut : (front ++ c :: rest).takeWhile (· != '{') = front :=
        Text.takeWhile_stretch hnobrace (by simp [hbrace])
      rw [hcut, hdropped front hnoparen] at h
      cases h
    · have hopen : c = '(' := by grind
      subst hopen
      have hcut : (front ++ '(' :: rest).takeWhile (· != '{') =
          front ++ '(' :: rest.takeWhile (· != '{') := by
        rw [List.takeWhile_append_of_pos hnobrace]
        rfl
      rw [hcut, Text.dropWhile_stretch hnoparen (by simp),
        Text.takeWhile_stretch hnoparen (by simp)] at h
      cases h
      exact ⟨rest, rfl, by grind, by grind, rfl⟩

/-- Of what stands in front of a closing parenthesis all is read, if no brace cuts it short and
its parentheses belong together. -/
theorem read_eq_iff {behind : Text} :
    (splitGroup 0 ((inner ++ ')' :: behind).takeWhile (· != '{'))).1 = inner ↔
      '{' ∉ inner ∧ Text.parens.Balanced inner := by
  by_cases hbrace : '{' ∈ inner
  · refine ⟨fun h => ?_, fun h => absurd hbrace h.1⟩
    have hread := splitGroup_fst_subset 0 ((inner ++ ')' :: behind).takeWhile (· != '{'))
    rw [h] at hread
    have hkept := List.all_eq_true.mp List.all_takeWhile _ (hread hbrace)
    simp at hkept
  · have hkept : (inner ++ ')' :: behind).takeWhile (· != '{') =
        inner ++ ')' :: behind.takeWhile (· != '{') := by
      rw [List.takeWhile_append_of_pos (by grind)]
      rfl
    rw [hkept, splitGroup_fst_eq_iff]
    exact ⟨fun h => ⟨hbrace, h⟩, And.right⟩

end Decoder

/-- The parameter list of a method: it stands between the first parenthesis and the one that
closes it outside literals. -/
def IsParameterList (value list : Text) : Prop :=
  ∃ lead rest, value = lead ++ '(' :: rest ∧ '(' ∉ lead ∧ Quote.after none lead = none ∧
    IsGroup list rest

theorem isParameterList_iff {lead rest list : Text} (hlead : '(' ∉ lead) :
    IsParameterList (lead ++ '(' :: rest) list ↔
      Quote.after none lead = none ∧ IsGroup list rest := by
  constructor
  · rintro ⟨other, tail, hsplit, hother, hclosed, hgroup⟩
    have hfirst (s : Text) (hs : '(' ∉ s) (t : Text) :
        (s ++ '(' :: t).takeWhile (· != '(') = s :=
      Text.takeWhile_stretch (by grind) (by simp)
    have hsame : lead = other := by
      rw [← hfirst lead hlead rest, hsplit, hfirst other hother]
    subst hsame
    cases List.append_cancel_left hsplit
    exact ⟨hclosed, hgroup⟩
  · exact fun ⟨hclosed, hgroup⟩ => ⟨lead, rest, rfl, hlead, hclosed, hgroup⟩

/-- The parameters of a method that is decoded from a record of a member text. The record has
exactly one parameter list if neither the annotations in front of it nor the rest of its head
leave a literal open or have a brace outside parentheses. What is read as the parameters is
that list exactly if there is no brace in it, not even in the arguments of an annotation or in
a literal, and its parentheses belong together with those in its literals as well. -/
theorem method?_parameters {t owner : Text} {decoding : Decoding} {r : Record} {m : Method}
    (hr : r ∈ records t) (hm : method? decoding owner r.value = some m) :
    ∃ front lead rest, r.value = front ++ (lead ++ '(' :: rest) ∧
      dropAnnotations r.value = lead ++ '(' :: rest ∧ '(' ∉ lead ∧
      (Braceless front → Quote.after none lead = none →
        ∃! list, IsParameterList (dropAnnotations r.value) list) ∧
      ∃ read, m.parameters = parameters read ∧
        ∀ list, IsParameterList (dropAnnotations r.value) list →
          (read = list ↔ '{' ∉ list ∧ Text.parens.Balanced list) := by
  simp only [method?, Option.bind_eq_bind, Option.bind_eq_some_iff, Prod.exists, pure,
    Option.some.injEq] at hm
  obtain ⟨lead, read, hsignature, type, name, access, -, rfl⟩ := hm
  obtain ⟨rest, hsplit, hlead, hbrace, hread⟩ := exists_of_splitSignature? hsignature
  rw [trim_value hr] at hsplit
  obtain ⟨front, hfront⟩ := dropAnnotations_suffix r.value
  rw [hsplit] at hfront ⊢
  refine ⟨front, lead, rest, hfront.symm, rfl, hlead, fun hfree hclosed => ?_, read, rfl, ?_⟩
  · have hform : HasForm ((front ++ lead) ++ '(' :: rest) := by
      rw [List.append_assoc, hfront]
      exact form_of_mem_records hr
    obtain ⟨list, hlist⟩ := hform.exists_group (hfree.append hclosed hbrace)
    refine ⟨list, (isParameterList_iff hlead).mpr ⟨hclosed, hlist⟩, fun other hother => ?_⟩
    exact ((isParameterList_iff hlead).mp hother).2.unique hlist
  · intro list hlist
    obtain ⟨-, ⟨behind, rfl⟩, -, -⟩ := (isParameterList_iff hlead).mp hlist
    rw [hread, read_eq_iff]

/-- A method with braces in the annotation of a parameter. -/
def bracedMethod : Text := "void f(@A(\x7bx\x7d) int a,int b)\x7b\x7d".toList

theorem method?_parameters_braced :
    ∃ r ∈ records bracedMethod, ∃ m, method? .keyword "A".toList r.value = some m ∧
      ∃ list, IsParameterList (dropAnnotations r.value) list ∧ parameters list = [⟨"int", "b"⟩] ∧
        ∃ read, m.parameters = parameters read ∧ read ≠ list ∧ m.parameters = [] := by
  have hr : (⟨.method, bracedMethod, []⟩ : Record) ∈ records bracedMethod := by decide +kernel
  have hm : method? .keyword "A".toList bracedMethod =
      some { type := some "void", name := "f" } := by
    decide +kernel
  have hlist :
      IsParameterList (dropAnnotations bracedMethod) "@A(\x7bx\x7d) int a,int b".toList := by
    refine ⟨"void f".toList, "@A(\x7bx\x7d) int a,int b)\x7b\x7d".toList, ?_, ?_, ?_, ?_⟩
    · decide +kernel
    · decide
    · decide
    · exact ⟨⟨"\x7b\x7d".toList, rfl⟩, by decide +kernel, by decide⟩
  obtain ⟨-, -, -, -, -, -, -, read, hparameters, hread⟩ := method?_parameters hr hm
  refine ⟨_, hr, _, hm, _, hlist, by decide +kernel, read, hparameters, fun hsame => ?_, rfl⟩
  exact ((hread _ hlist).mp hsame).1 (by decide)

end ClassDiagram.Member
