import ClassDiagram.Proofs.Member.Lead
import ClassDiagram.Proofs.Member.Signature

/-!
# Members behind each other

The text of a member is read as one piece whatever follows it, for the scan is back between
members behind its last character. On the way there it stands in the arguments of a call, where
parentheses hide all marks, or in a block, where only braces count, and a stretch in which the
brackets belong together takes it out of these again (`Scan.Reads`). So members that are put
behind each other are cut apart as they were (`records_flatMap`).
-/

namespace ClassDiagram.Member

/-! ## Texts of members -/

/-- Parentheses and braces are nested in each other. Outside of both of them there are
semicolons only if they are admitted there. -/
inductive Nested : Bool → List Glyph → Prop where
  | nil (semicolons : Bool) : Nested semicolons []
  | plain {semicolons : Bool} {g : Glyph} {gs : List Glyph} (hg : g.role = .plain)
      (h : Nested semicolons gs) : Nested semicolons (g :: gs)
  | semicolon {g : Glyph} {gs : List Glyph} (hg : g.role = .semicolon) (h : Nested true gs) :
      Nested true (g :: gs)
  | group {semicolons : Bool} {opening closing : Glyph} {inner gs : List Glyph}
      (hopening : opening.role = .openParen) (hinner : Nested true inner)
      (hclosing : closing.role = .closeParen) (h : Nested semicolons gs) :
      Nested semicolons (opening :: (inner ++ closing :: gs))
  | block {semicolons : Bool} {opening closing : Glyph} {inner gs : List Glyph}
      (hopening : opening.role = .openBrace) (hinner : Nested true inner)
      (hclosing : closing.role = .closeBrace) (h : Nested semicolons gs) :
      Nested semicolons (opening :: (inner ++ closing :: gs))

/-- The text of a member in front of its value or its body. -/
structure IsLead (t : Text) : Prop where
  plain : ∀ c ∈ t, c ∉ "'\"\x7b\x7d;@".toList
  unassigned : ¬" = ".toList <:+: t

/-- The modifiers, the type and the name of a field. -/
structure IsFieldLead (t : Text) : Prop extends IsLead t where
  solid : ∃ c ∈ t, Text.isBlank c = false
  parens : ∀ c ∈ t, c ≠ '(' ∧ c ≠ ')'

/-- The signature of a method. -/
structure IsMethodLead (t : Text) : Prop extends IsLead t where
  balanced : Text.parens.Balanced t
  paren : '(' ∈ t

/-- The value of a field. -/
structure IsValue (t : Text) : Prop where
  closed : Quote.after none t = none
  nested : Nested false t.glyphs

/-- The text between the braces of a method. -/
structure IsBody (t : Text) : Prop where
  closed : Quote.after none t = none
  balanced : Glyph.braces.Balanced t.glyphs

/-- The text of a member, and the kind of its record: a field, a field with a value, a method
without a body, and a method. -/
inductive IsMember : RecordKind → Text → Prop where
  | field {lead : Text} (h : IsFieldLead lead) : IsMember .variable (lead ++ [';'])
  | valued {lead value : Text} (h : IsFieldLead lead) (hvalue : IsValue value) :
      IsMember .variable (lead ++ (" = ".toList ++ (value ++ [';'])))
  | bodiless {lead : Text} (h : IsMethodLead lead) : IsMember .method (lead ++ [';'])
  | method {lead body : Text} (h : IsMethodLead lead) (hbody : IsBody body) :
      IsMember .method (lead ++ '{' :: (body ++ ['}']))

namespace Nested

variable {semicolons : Bool} {gs : List Glyph}

theorem braces (h : Nested semicolons gs) (depth : Nat) :
    Glyph.braces.depth? depth gs = some depth := by
  induction h generalizing depth with
  | nil => rfl
  | plain hg _ ih =>
      rw [Glyph.braces_other (by rw [hg]; decide) (by rw [hg]; decide)]
      exact ih depth
  | semicolon hg _ ih =>
      rw [Glyph.braces_other (by rw [hg]; decide) (by rw [hg]; decide)]
      exact ih depth
  | group hopening _ hclosing _ ihinner ih =>
      rw [Glyph.braces_other (by rw [hopening]; decide) (by rw [hopening]; decide),
        Brackets.depth?_append, ihinner, Option.bind_some,
        Glyph.braces_other (by rw [hclosing]; decide) (by rw [hclosing]; decide)]
      exact ih depth
  | block hopening _ hclosing _ ihinner ih =>
      rw [Glyph.braces_open hopening, Brackets.depth?_append, ihinner, Option.bind_some,
        Glyph.braces_close hclosing]
      exact ih depth

theorem parens (h : Nested semicolons gs) (depth : Nat) :
    Glyph.parens.depth? depth gs = some depth := by
  have hother {g : Glyph} (hg : g.role ≠ .openParen) (hg' : g.role ≠ .closeParen) (depth : Nat)
      (hs : List Glyph) : Glyph.parens.depth? depth (g :: hs) = Glyph.parens.depth? depth hs :=
    Brackets.depth?_other (beq_eq_false_iff_ne.mpr hg) (beq_eq_false_iff_ne.mpr hg')
  induction h generalizing depth with
  | nil => rfl
  | plain hg _ ih =>
      rw [hother (by rw [hg]; decide) (by rw [hg]; decide)]
      exact ih depth
  | semicolon hg _ ih =>
      rw [hother (by rw [hg]; decide) (by rw [hg]; decide)]
      exact ih depth
  | group hopening _ hclosing _ ihinner ih =>
      rw [Brackets.depth?_open (beq_iff_eq.mpr hopening), Brackets.depth?_append, ihinner,
        Option.bind_some, Brackets.depth?_close (beq_eq_false_iff_ne.mpr (by rw [hclosing]; decide))
          (beq_iff_eq.mpr hclosing)]
      exact ih depth
  | block hopening _ hclosing _ ihinner ih =>
      rw [hother (by rw [hopening]; decide) (by rw [hopening]; decide), Brackets.depth?_append,
        ihinner, Option.bind_some, hother (by rw [hclosing]; decide) (by rw [hclosing]; decide)]
      exact ih depth

end Nested

/-! ## Stretches without a complete piece -/

namespace Scan

/-- The scan reads a stretch without completing a piece and stands in another state behind it. -/
structure Reads (s : Scan) (gs : List Glyph) (s' : Scan) : Prop where
  segments : ∀ hs, s.segments (gs ++ hs) = s'.segments hs
  past : s'.past = s.past ++ Glyph.chars gs

namespace Reads

variable {s s' s'' : Scan} {g : Glyph} {gs hs : List Glyph}

theorem refl (s : Scan) : Reads s [] s := ⟨fun _ => rfl, (List.append_nil _).symm⟩

theorem trans (h : Reads s gs s') (h' : Reads s' hs s'') : Reads s (gs ++ hs) s'' := by
  refine ⟨fun rest => ?_, ?_⟩
  · rw [List.append_assoc, h.segments, h'.segments]
  · rw [h'.past, h.past, Glyph.chars_append, List.append_assoc]

theorem of_step (hstep : s.step g = (s', none)) : Reads s [g] s' := by
  refine ⟨fun rest => ?_, ?_⟩
  · rw [List.singleton_append, Scan.segments, hstep]
    rfl
  · rcases s.step_cases g with ⟨-, hseen⟩ | ⟨segment, hsome, -⟩
    · rw [hstep] at hseen
      exact (congrArg List.reverse hseen).trans List.reverse_cons
    · rw [hstep] at hsome
      cases hsome

theorem cons (hstep : s.step g = (s', none)) (h : Reads s' gs s'') : Reads s (g :: gs) s'' :=
  (of_step hstep).trans h

/-- Brackets are read up to the closing one, and what follows is read from there. -/
theorem brackets {opening closing : Glyph} {inner : List Glyph}
    (h : Reads s (opening :: (inner ++ [closing])) s') (h' : Reads s' gs s'') :
    Reads s (opening :: (inner ++ closing :: gs)) s'' := by
  simpa using h.trans h'

end Reads

section Stretch

variable {s : Scan} {g : Glyph} {gs : List Glyph} {depth after : Nat}

/-- Inside braces a step counts braces and changes nothing else that matters, unless it closes the
last of them. -/
theorem step_inside (hs : s.depth = depth + 1) (hclose : depth = 0 → g.role ≠ .closeBrace) :
    ∃ s' next, s.step g = (s', none) ∧ s'.depth = next + 1 ∧
      (∀ hs, Glyph.braces.depth? depth (g :: hs) = Glyph.braces.depth? next hs) ∧
      s'.parens = s.parens ∧ s'.enclosure = s.enclosure := by
  have hinside : 0 < s.depth := by omega
  have hhidden := hidden_of_inside hinside
  have hne : s.depth ≠ 0 := Nat.ne_of_gt hinside
  by_cases hpassive : g.Passive
  · exact ⟨_, depth, step_passive hinside hpassive, hs,
      fun _ => Glyph.braces_other hpassive.1 hpassive.2.1, rfl, rfl⟩
  rcases Glyph.role_of_not_passive hpassive with hopen | hclosing | hsemicolon
  · exact ⟨_, depth + 1, step_openBrace hhidden hopen, congrArg (· + 1) hs,
      fun _ => Glyph.braces_open hopen, rfl, if_neg hne⟩
  · obtain _ | depth := depth
    · exact absurd hclosing (hclose rfl)
    · have hstep := step_closeBrace hhidden hclosing
      rw [closeBrace, if_neg (by omega)] at hstep
      exact ⟨_, depth, hstep, congrArg (· - 1) hs, fun _ => Glyph.braces_close hclosing, rfl, rfl⟩
  · have hother (hs) : Glyph.braces.depth? depth (g :: hs) = Glyph.braces.depth? depth hs :=
      Glyph.braces_other (by rw [hsemicolon]; decide) (by rw [hsemicolon]; decide)
    have hstep := step_semicolon hhidden hsemicolon
    rw [semicolon, if_neg hne] at hstep
    split at hstep
    · exact ⟨_, depth, hstep, hs, hother, rfl, rfl⟩
    · exact ⟨_, depth, hstep, hs, hother, rfl, rfl⟩
    · exact ⟨_, depth, hstep, hs, hother, rfl, rfl⟩

/-- Inside braces a stretch is read to its end if it closes only its own. -/
theorem reads_inside (h : Glyph.braces.depth? depth gs = some after) (hs : s.depth = depth + 1) :
    ∃ s', Reads s gs s' ∧ s'.depth = after + 1 ∧ s'.parens = s.parens ∧
      s'.enclosure = s.enclosure := by
  induction gs generalizing s depth with
  | nil =>
      cases h
      exact ⟨s, .refl s, hs, rfl, rfl⟩
  | cons g gs ih =>
      have hclose : depth = 0 → g.role ≠ .closeBrace := by
        rintro rfl hrole
        rw [Glyph.braces_close_zero hrole] at h
        cases h
      obtain ⟨t, next, hstep, ht, hnext, hparens, henclosure⟩ := step_inside hs hclose
      rw [hnext] at h
      obtain ⟨s', hreads, hdepth, hparens', henclosure'⟩ := ih h ht
      exact ⟨s', hreads.cons hstep, hdepth, hparens'.trans hparens, henclosure'.trans henclosure⟩

/-- Outside of braces a stretch is read to its end if parentheses hide all of its marks. -/
theorem reads_sheltered (h : Glyph.parens.Shelters (fun g => ¬g.Passive) s.parens gs)
    (hs : s.depth = 0) :
    ∃ s', Reads s gs s' ∧ s'.depth = 0 ∧ s'.parens = Glyph.parens.depth s.parens gs ∧
      s'.enclosure = s.enclosure ∧ s'.statements = s.statements := by
  induction gs generalizing s with
  | nil => exact ⟨s, .refl s, hs, rfl, rfl, rfl⟩
  | cons g gs ih =>
      obtain ⟨hmark, hgs⟩ := h
      have hgoes := step_sheltered hs hmark
      rw [← hgoes.parens] at hgs
      obtain ⟨s', hreads, hdepth, hparens, henclosure, hstatements⟩ := ih hgs hgoes.depth
      refine ⟨s', hreads.cons (Prod.ext rfl hgoes.none), hdepth, ?_,
        henclosure.trans hgoes.enclosure, hstatements.trans hgoes.statements⟩
      rw [hparens, hgoes.parens, Brackets.depth_cons]

end Stretch

/-! ## Between members -/

/-- The scan stands between members, outside of all parentheses, and has read a text since the
last piece. -/
structure Between (s : Scan) (t : Text) : Prop where
  depth : s.depth = 0
  parens : s.parens = 0
  enclosure : s.enclosure = .none
  statements : s.statements = []
  past : s.past = t

theorem between_passed (t : Text) : (fresh.passed t).Between t :=
  ⟨rfl, rfl, rfl, rfl, by simp [past, passed, fresh]⟩

/-- The brace that closes a method completes the piece. -/
theorem segments_close {s : Scan} (hdepth : s.depth = 1) (hmethod : s.enclosure = .method)
    (gs : List Glyph) : s.segments (⟨'}', false⟩ :: gs) =
      .method (s.past ++ ['}']) s.statements.reverse :: fresh.segments gs := by
  have hclose : s.step ⟨'}', false⟩ =
      (fresh, some (.method (s.past ++ ['}']) s.statements.reverse)) := by
    have htext : (s.take '}').seen.reverse = s.past ++ ['}'] := List.reverse_cons
    rw [step_closeBrace (hidden_of_inside (by omega)) rfl, closeBrace, if_pos (by omega), hmethod]
    exact congrArg (fun t => (fresh, some (Segment.method t s.statements.reverse))) htext
  rw [Scan.segments, hclose]
  rfl

namespace Between

variable {s : Scan} {t : Text}

/-- A semicolon between members completes a piece. -/
theorem segments_semicolon (h : Between s t) (gs : List Glyph) :
    s.segments (⟨';', false⟩ :: gs) =
      (if isSignature t then .method (t ++ [';']) [] else .field (t ++ [';'])) ::
        fresh.segments gs := by
  have htext : (s.take ';').seen.reverse = t ++ [';'] := h.past ▸ List.reverse_cons
  have hseen : s.seen.reverse = t := h.past
  rw [Scan.segments, step_semicolon (hidden_of_outside h.parens) rfl, semicolon, if_pos h.depth]
  dsimp only
  rw [htext, hseen, h.enclosure]
  cases isSignature t with
  | true => rfl
  | false => rfl

section Body

variable (h : Between s t) (hopened : Enclosure.opened t = .method)

include h hopened

/-- A brace behind a signature opens the body of a method. -/
theorem reads_brace :
    Reads s [⟨'{', false⟩] (s.openBrace '{') ∧ (s.openBrace '{').depth = 1 ∧
      (s.openBrace '{').enclosure = .method := by
  refine ⟨.of_step (step_openBrace (hidden_of_outside h.parens) rfl), congrArg (· + 1) h.depth, ?_⟩
  have hseen : s.seen.reverse = t := h.past
  rw [openBrace, if_pos h.depth, hseen, hopened]

/-- A body with closed braces is part of the piece, and the piece is complete behind it. -/
theorem segments_body {body : List Glyph} (hbody : Glyph.braces.depth? 0 body = some 0) :
    ∃ statements, ∀ gs, s.segments (⟨'{', false⟩ :: (body ++ ⟨'}', false⟩ :: gs)) =
      .method (t ++ '{' :: (Glyph.chars body ++ ['}'])) statements :: fresh.segments gs := by
  obtain ⟨hopen, hdepth, hmethod⟩ := h.reads_brace hopened
  obtain ⟨s', hreads, hinside, -, henclosure⟩ := reads_inside hbody hdepth
  have hall := hopen.trans hreads
  have hpast : s'.past ++ ['}'] = t ++ '{' :: (Glyph.chars body ++ ['}']) := by
    rw [hall.past, h.past]
    simp
  refine ⟨s'.statements.reverse, fun gs => ?_⟩
  rw [← hpast, ← segments_close hinside (henclosure.trans hmethod)]
  exact hall.segments _

/-- In an empty body no statement is collected. -/
theorem segments_empty (gs : List Glyph) :
    s.segments (⟨'{', false⟩ :: ⟨'}', false⟩ :: gs) =
      .method (t ++ ['{', '}']) [] :: fresh.segments gs := by
  obtain ⟨hopen, hdepth, hmethod⟩ := h.reads_brace hopened
  have hpast : (s.openBrace '{').past ++ ['}'] = t ++ ['{', '}'] := by
    rw [hopen.past, h.past]
    simp
  have hstatements : (s.openBrace '{').statements.reverse = [] := by
    rw [openBrace, take, h.statements, List.reverse_nil]
  rw [← hpast, ← hstatements, ← segments_close hdepth hmethod]
  exact hopen.segments _

end Body

end Between

/-! ## The value of a field -/

/-- The scan is in a field behind its assignment, outside of all brackets. -/
structure InField (s : Scan) : Prop where
  depth : s.depth = 0
  parens : s.parens = 0
  enclosure : s.enclosure = .none ∨ s.enclosure = .fieldValue
  assigns : assignsFirst s.past = true

namespace InField

variable {s : Scan} {gs inner : List Glyph} {g opening closing : Glyph}

/-- Where parentheses shelter all marks, the scan stays in the field. -/
theorem sheltered (h : InField s) (hs : Glyph.parens.Shelters (fun g => ¬g.Passive) 0 gs)
    (hdepth : Glyph.parens.depth? 0 gs = some 0) : ∃ s', Reads s gs s' ∧ InField s' := by
  have hmarks : Glyph.parens.Shelters (fun g => ¬g.Passive) s.parens gs := by rwa [h.parens]
  obtain ⟨s', hreads, hzero, hparens, henclosure, -⟩ := reads_sheltered hmarks h.depth
  rw [h.parens, Brackets.depth_of_depth? hdepth] at hparens
  exact ⟨s', hreads, hzero, hparens, henclosure ▸ h.enclosure,
    hreads.past ▸ assignsFirst_append h.assigns _⟩

/-- A group in parentheses leaves the scan in the field. -/
theorem group (h : InField s) (hopening : opening.role = .openParen) (hinner : Nested true inner)
    (hclosing : closing.role = .closeParen) :
    ∃ s', Reads s (opening :: (inner ++ [closing])) s' ∧ InField s' := by
  have hopens : opening.Passive := by simp [Glyph.Passive, hopening]
  have hcloses : closing.Passive := by simp [Glyph.Passive, hclosing]
  refine h.sheltered ⟨fun hmark => absurd hopens hmark, ?_⟩
    ((Nested.group hopening hinner hclosing (.nil false)).parens 0)
  rw [Brackets.next_open (beq_iff_eq.mpr hopening), Brackets.shelters_append]
  exact ⟨Brackets.shelters_of_depth? (hinner.parens 0), fun hmark => absurd hcloses hmark, trivial⟩

/-- A block in a value leaves the scan in the field. -/
theorem block (h : InField s) (hopening : opening.role = .openBrace)
    (hinner : Glyph.braces.depth? 0 inner = some 0) (hclosing : closing.role = .closeBrace) :
    ∃ s', Reads s (opening :: (inner ++ [closing])) s' ∧ InField s' := by
  have henclosed : (s.openBrace opening.char).enclosure = .fieldValue :=
    (if_pos h.depth).trans (opened_of_assignsFirst h.assigns)
  obtain ⟨t, hreads, hdepth, hparens, henclosure⟩ :=
    reads_inside (s := s.openBrace opening.char) hinner (congrArg (· + 1) h.depth)
  rw [henclosed] at henclosure
  have hstep := step_closeBrace (s := t) (hidden_of_inside (by omega)) hclosing
  rw [closeBrace, henclosure] at hstep
  dsimp only at hstep
  rw [ite_self] at hstep
  have hall := (hreads.trans (.of_step hstep)).cons
    (step_openBrace (hidden_of_outside h.parens) hopening)
  exact ⟨_, hall, congrArg (· - 1) hdepth, hparens.trans h.parens, .inr henclosure,
    hall.past ▸ assignsFirst_append h.assigns _⟩

/-- A value leaves the scan in the field. -/
theorem value (h : InField s) {semicolons : Bool} (hgs : Nested semicolons gs)
    (hsemicolons : semicolons = false) : ∃ s', Reads s gs s' ∧ InField s' := by
  induction hgs generalizing s with
  | nil => exact ⟨s, .refl s, h⟩
  | @plain _ g gs hg _ ih =>
      have hmarks : Glyph.parens.Shelters (fun g => ¬g.Passive) 0 [g] :=
        ⟨fun hpassive => absurd hg (Glyph.not_plain_of_not_passive hpassive), trivial⟩
      have hdepth : Glyph.parens.depth? 0 [g] = some 0 :=
        (Nested.plain hg (.nil false)).parens 0
      obtain ⟨t, hreads, ht⟩ := h.sheltered hmarks hdepth
      obtain ⟨s', hreads', hs'⟩ := ih ht hsemicolons
      exact ⟨s', hreads.trans hreads', hs'⟩
  | semicolon => cases hsemicolons
  | group hopening hinner hclosing _ _ ih =>
      obtain ⟨t, hreads, ht⟩ := h.group hopening hinner hclosing
      obtain ⟨s', hreads', hs'⟩ := ih ht hsemicolons
      exact ⟨s', hreads.brackets hreads', hs'⟩
  | block hopening hinner hclosing _ _ ih =>
      obtain ⟨t, hreads, ht⟩ := h.block hopening (hinner.braces 0) hclosing
      obtain ⟨s', hreads', hs'⟩ := ih ht hsemicolons
      exact ⟨s', hreads.brackets hreads', hs'⟩

/-- A semicolon behind a value ends the field. -/
theorem segments_semicolon (h : InField s) (gs : List Glyph) :
    s.segments (⟨';', false⟩ :: gs) = .field (s.past ++ [';']) :: fresh.segments gs := by
  have htext : (s.take ';').seen.reverse = s.past ++ [';'] := List.reverse_cons
  have hassigns : assignsFirst s.seen.reverse = true := h.assigns
  have hsignature : isSignature s.seen.reverse = false := by
    rw [isSignature, hassigns]
    exact Bool.and_false _
  rw [Scan.segments, step_semicolon (hidden_of_outside h.parens) rfl, semicolon, if_pos h.depth]
  dsimp only
  rw [htext, hsignature, Bool.and_false]
  rfl

end InField

/-- An assignment takes the scan into the field. -/
theorem Between.reads_assignment {s : Scan} {t : Text} (h : Between s t)
    (hassigns : assignsFirst (t ++ " = ".toList) = true) :
    ∃ s', Reads s (Text.bare " = ".toList) s' ∧ InField s' := by
  have hpassive : ∀ g ∈ Text.bare " = ".toList, g.Passive := by decide
  obtain ⟨s', hreads, hdepth, hparens, henclosure, -⟩ := reads_sheltered (s := s)
    (Brackets.shelters_of_forall fun g hg hmark => hmark (hpassive g hg)) h.depth
  rw [h.parens] at hparens
  refine ⟨s', hreads, hdepth, hparens, .inl (henclosure.trans h.enclosure), ?_⟩
  rw [hreads.past, h.past, Text.chars_bare]
  exact hassigns

end Scan

/-! ## Members -/

namespace IsLead

variable {t : Text}

theorem unquoted (h : IsLead t) : t.Unquoted := fun c hc =>
  have hplain := h.plain c hc
  Text.ofChar?_of_ne (fun heq => hplain (by simp [heq])) fun heq => hplain (by simp [heq])

theorem not_mem_mark (h : IsLead t) : '@' ∉ t := fun hmem => h.plain _ hmem (by simp)

/-- The scan is between members behind a text with closed parentheses and without other marks. -/
theorem reads (h : IsLead t) (hbalanced : Text.parens.Balanced t) :
    ∃ s, Scan.Reads Scan.fresh (Text.bare t) s ∧ s.Between t := by
  have hpassive : ∀ g ∈ Text.bare t, g.Passive := by
    simp only [Text.bare, List.mem_map]
    rintro g ⟨c, hc, rfl⟩
    have hplain := h.plain c hc
    simp only [Glyph.Passive, Glyph.role_bare, Role.ofChar]
    grind
  have hquoted : ∀ g ∈ Text.bare t, g.quoted = true → g.char ≠ '(' ∧ g.char ≠ ')' := by
    simp only [Text.bare, List.mem_map]
    rintro g ⟨c, -, rfl⟩ hg
    cases hg
  have hcount : Glyph.parens.depth? 0 (Text.bare t) = some 0 := by
    rw [← depth?_chars hquoted, Text.chars_bare]
    exact hbalanced
  obtain ⟨s, hreads, hdepth, hparens, henclosure, hstatements⟩ := Scan.reads_sheltered
    (s := Scan.fresh) (Brackets.shelters_of_forall fun g hg hmark => hmark (hpassive g hg)) rfl
  refine ⟨s, hreads, hdepth, hparens.trans (Brackets.depth_of_depth? hcount), henclosure,
    hstatements, ?_⟩
  rw [hreads.past, Text.chars_bare]
  rfl

/-- What the scan makes of a text that begins with a lead. -/
theorem segments_append (h : IsLead t) {s : Scan} (hreads : Scan.fresh.Reads (Text.bare t) s)
    (u : Text) : segments (t ++ u) = s.segments u.glyphs := by
  rw [segments, Text.glyphs_unquoted_append h.unquoted, hreads.segments]

end IsLead

namespace IsFieldLead

variable {lead value : Text}

theorem reads (h : IsFieldLead lead) :
    ∃ s, Scan.Reads Scan.fresh (Text.bare lead) s ∧ s.Between lead :=
  h.toIsLead.reads (depth?_of_plain h.parens 0)

theorem not_mem_paren (h : IsFieldLead lead) : '(' ∉ lead := fun hmem => (h.parens _ hmem).1 rfl

theorem segments (h : IsFieldLead lead) (u : Text) :
    Member.segments ((lead ++ [';']) ++ u) = .field (lead ++ [';']) :: Member.segments u := by
  obtain ⟨s, hreads, hs⟩ := h.reads
  have hend := hs.segments_semicolon u.glyphs
  rw [isSignature_of_not_mem h.not_mem_mark h.not_mem_paren] at hend
  rw [List.append_assoc, h.segments_append hreads]
  exact hend

theorem segments_value (h : IsFieldLead lead) (hvalue : IsValue value) (u : Text) :
    Member.segments ((lead ++ (" = ".toList ++ (value ++ [';']))) ++ u) =
      .field (lead ++ (" = ".toList ++ (value ++ [';']))) :: Member.segments u := by
  obtain ⟨s, hreads, hs⟩ := h.reads
  obtain ⟨t, hassignment, ht⟩ := hs.reads_assignment
    (assignsFirst_assignment h.not_mem_mark h.not_mem_paren h.solid)
  obtain ⟨s', hvalues, hs'⟩ := ht.value hvalue.nested rfl
  have hend : s'.past ++ [';'] = lead ++ (" = ".toList ++ (value ++ [';'])) := by
    rw [(hassignment.trans hvalues).past, hs.past]
    simp
  have hglyphs : Text.glyphs (" = ".toList ++ (value ++ ([';'] ++ u))) =
      (Text.bare " = ".toList ++ value.glyphs) ++ ⟨';', false⟩ :: u.glyphs := by
    rw [Text.glyphs_unquoted_append (Text.forall_mem_of_all rfl), Text.glyphs_append hvalue.closed,
      List.append_assoc]
    rfl
  have hsplit : (lead ++ (" = ".toList ++ (value ++ [';']))) ++ u =
      lead ++ (" = ".toList ++ (value ++ ([';'] ++ u))) := by
    simp
  rw [hsplit, h.segments_append hreads, hglyphs, (hassignment.trans hvalues).segments,
    hs'.segments_semicolon, hend]
  rfl

end IsFieldLead

namespace IsMethodLead

variable {lead body : Text}

theorem opened (h : IsMethodLead lead) : Enclosure.opened lead = .method :=
  opened_of_paren h.not_mem_mark h.paren h.unassigned

theorem segments_bodiless (h : IsMethodLead lead) (u : Text) :
    Member.segments ((lead ++ [';']) ++ u) = .method (lead ++ [';']) [] :: Member.segments u := by
  obtain ⟨s, hreads, hs⟩ := h.reads h.balanced
  have hend := hs.segments_semicolon u.glyphs
  rw [isSignature_of_paren h.not_mem_mark h.paren h.unassigned] at hend
  rw [List.append_assoc, h.segments_append hreads]
  exact hend

theorem segments_empty (h : IsMethodLead lead) (u : Text) :
    Member.segments ((lead ++ ['{', '}']) ++ u) =
      .method (lead ++ ['{', '}']) [] :: Member.segments u := by
  obtain ⟨s, hreads, hs⟩ := h.reads h.balanced
  rw [List.append_assoc, h.segments_append hreads]
  exact hs.segments_empty h.opened u.glyphs

theorem segments_body (h : IsMethodLead lead) (hbody : IsBody body) :
    ∃ statements, ∀ u, Member.segments ((lead ++ '{' :: (body ++ ['}'])) ++ u) =
      .method (lead ++ '{' :: (body ++ ['}'])) statements :: Member.segments u := by
  obtain ⟨s, hreads, hs⟩ := h.reads h.balanced
  obtain ⟨statements, hsegments⟩ := hs.segments_body h.opened hbody.balanced
  refine ⟨statements, fun u => ?_⟩
  have hglyphs : Text.glyphs ('{' :: (body ++ ('}' :: u))) =
      ⟨'{', false⟩ :: (body.glyphs ++ ⟨'}', false⟩ :: u.glyphs) :=
    congrArg (_ :: ·) (Text.glyphs_append hbody.closed _)
  have hsplit : (lead ++ '{' :: (body ++ ['}'])) ++ u = lead ++ '{' :: (body ++ ('}' :: u)) := by
    simp
  rw [hsplit, h.segments_append hreads, hglyphs, hsegments, Text.chars_glyphs]
  rfl

end IsMethodLead

/-- The text of a member is one piece in front of any other text. -/
theorem IsMember.segments {kind : RecordKind} {t : Text} (h : IsMember kind t) :
    ∃ segment, (∀ u, Member.segments (t ++ u) = segment :: Member.segments u) ∧
      ∃ r, segment.record? = some r ∧ r.kind = kind ∧ r.value = Text.trim t := by
  cases h with
  | field h => exact ⟨_, h.segments, _, rfl, rfl, rfl⟩
  | valued h hvalue => exact ⟨_, h.segments_value hvalue, _, rfl, rfl, rfl⟩
  | bodiless h => exact ⟨_, h.segments_bodiless, _, rfl, rfl, rfl⟩
  | method h hbody =>
      obtain ⟨statements, hsegments⟩ := h.segments_body hbody
      exact ⟨_, hsegments, _, rfl, rfl, rfl⟩

/-- Members that are put behind each other are cut apart as they were: the records are those of
the members, in their order, each with the kind of the member and with its text without the
blanks around it. -/
theorem records_flatMap {members : List (RecordKind × Text)}
    (h : ∀ m ∈ members, IsMember m.1 m.2) :
    (records (members.flatMap Prod.snd)).map (fun r => (r.kind, r.value)) =
      members.map fun m => (m.1, Text.trim m.2) := by
  induction members with
  | nil => rfl
  | cons m members ih =>
      obtain ⟨hm, hmembers⟩ := List.forall_mem_cons.mp h
      obtain ⟨segment, hsegments, r, hrecord, hkind, hvalue⟩ := hm.segments
      rw [List.flatMap_cons, records, hsegments, List.filterMap_cons_some hrecord, List.map_cons,
        List.map_cons, hkind, hvalue]
      exact congrArg _ (ih hmembers)

/-- One member of each shape. The value of the field has a block with a call and a literal in
it, and the body of the last method has a block. -/
theorem records_flatMap_shapes :
    let members : List (RecordKind × Text) :=
      [(.variable, "int n;".toList), (.variable, "int[] a = \x7bf(1),'\x7d'\x7d;".toList),
        (.method, " void g();".toList), (.method, "void h(){if(x){y();}}".toList)]
    (∀ m ∈ members, IsMember m.1 m.2) ∧
      (records (members.flatMap Prod.snd)).map (fun r => (r.kind, r.value)) =
        [(.variable, "int n;".toList), (.variable, "int[] a = \x7bf(1),'\x7d'\x7d;".toList),
          (.method, "void g();".toList), (.method, "void h(){if(x){y();}}".toList)] := by
  have hfield : IsMember .variable ("int n".toList ++ [';']) :=
    .field ⟨⟨Text.forall_mem_of_all rfl, by decide +kernel⟩, ⟨'n', by decide +kernel, rfl⟩,
      Text.forall_mem_of_all rfl⟩
  have hnested : Nested false
      (⟨'{', false⟩ :: (Text.glyphs "f(1),'\x7d'".toList ++ [⟨'}', false⟩])) := by
    have hcall : Nested true (⟨'(', false⟩ :: ([⟨'1', false⟩] ++ ⟨')', false⟩ ::
        Text.glyphs ",'\x7d'".toList)) :=
      .group rfl (.plain rfl (.nil _)) rfl
        (.plain rfl (.plain rfl (.plain rfl (.plain rfl (.nil _)))))
    exact .block rfl (.plain rfl hcall) rfl (.nil _)
  have hvalued : IsMember .variable ("int[] a".toList ++ (" = ".toList ++
      ("\x7bf(1),'\x7d'\x7d".toList ++ [';']))) :=
    .valued ⟨⟨Text.forall_mem_of_all rfl, by decide +kernel⟩, ⟨'a', by decide +kernel, rfl⟩,
      Text.forall_mem_of_all rfl⟩ ⟨rfl, hnested⟩
  have hbodiless : IsMember .method (" void g()".toList ++ [';']) :=
    .bodiless ⟨⟨Text.forall_mem_of_all rfl, by decide +kernel⟩, rfl, by decide +kernel⟩
  have hmethod : IsMember .method ("void h()".toList ++ '{' :: ("if(x){y();}".toList ++ ['}'])) :=
    .method ⟨⟨Text.forall_mem_of_all rfl, by decide +kernel⟩, rfl, by decide +kernel⟩ ⟨rfl, rfl⟩
  have hmembers : ∀ m ∈ [(RecordKind.variable, "int n;".toList),
      (.variable, "int[] a = \x7bf(1),'\x7d'\x7d;".toList), (.method, " void g();".toList),
      (.method, "void h(){if(x){y();}}".toList)], IsMember m.1 m.2 := by
    simp only [List.forall_mem_cons]
    exact ⟨hfield, hvalued, hbodiless, hmethod, fun m hm => absurd hm List.not_mem_nil⟩
  exact ⟨hmembers, (records_flatMap hmembers).trans (by decide +kernel)⟩

end ClassDiagram.Member
