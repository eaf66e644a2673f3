import ClassDiagram.Proofs.Member.Ending

/-!
# The current piece of the scan

The scan of member text keeps all characters of the current piece, and it counts the brackets
that are open behind them (`Scan.step_level`). Behind the brace that opens a method or an
initializer the statements that it has collected stand in the text behind that brace, in front
of the current one. In the value of a field it collects none (`Scan.Stands`). A step keeps this,
and a piece that it completes has the form that its sort asks for (`Scan.Stands.step`).

The scan completes a piece as soon as the text of the piece ends a member, and not before
(`Scan.Current.step`).
-/

namespace ClassDiagram.Member

/-! ## Statements -/

/-- A statement of a method: a text without blanks at its ends and without braces and
semicolons outside literals, with all of its literals closed. -/
structure IsStatement (t : Text) : Prop where
  ne_nil : t ≠ []
  trimmed : Text.trim t = t
  passive : ∀ g ∈ t.glyphs, g.Passive
  closed : Quote.after none t = none

/-- Texts stand in another one, each behind the one before, and no literal is open in front
of them. -/
def InOrder : List Text → Text → Prop
  | [], _ => True
  | s :: ss, t => ∃ front behind, t = front ++ (s ++ behind) ∧ Quote.after none front = none ∧
      InOrder ss behind

namespace InOrder

variable {s t front gap behind : Text} {ss : List Text}

theorem append (h : InOrder ss t) (u : Text) : InOrder ss (t ++ u) := by
  induction ss generalizing t with
  | nil => trivial
  | cons s ss ih =>
      obtain ⟨front, behind, rfl, hfront, hrest⟩ := h
      exact ⟨front, behind ++ u, by simp, hfront, ih hrest⟩

theorem behind_closed (h : InOrder ss t) (hfront : Quote.after none front = none) :
    InOrder ss (front ++ t) := by
  cases ss with
  | nil => trivial
  | cons s ss =>
      obtain ⟨gap, behind, rfl, hgap, hrest⟩ := h
      refine ⟨front ++ gap, behind, by simp, ?_, hrest⟩
      rw [Quote.after_append, hfront, hgap]

/-- One more text behind the others. -/
theorem concat (h : InOrder ss t) (hss : ∀ s ∈ ss, Quote.after none s = none)
    (ht : Quote.after none t = none) (hgap : Quote.after none gap = none) :
    InOrder (ss ++ [s]) (t ++ (gap ++ (s ++ behind))) := by
  induction ss generalizing t with
  | nil =>
      refine ⟨t ++ gap, behind, by simp, ?_, trivial⟩
      rw [Quote.after_append, ht, hgap]
  | cons s' ss ih =>
      obtain ⟨front, rest, rfl, hfront, hrest⟩ := h
      obtain ⟨hs', hss⟩ := List.forall_mem_cons.mp hss
      rw [Quote.after_append, hfront, Quote.after_append, hs'] at ht
      exact ⟨front, _, by simp, hfront, ih hrest hss ht⟩

end InOrder

/-- What is left of a stretch between marks is a statement, if it is not blank. -/
theorem exists_statement {t : Text} (hclosed : Quote.after none t = none)
    (hpassive : ∀ g ∈ t.glyphs, g.Passive) (hne : Text.trim t ≠ []) :
    IsStatement (Text.trim t) ∧
      ∃ gap behind, t = gap ++ (Text.trim t ++ behind) ∧ Quote.after none gap = none := by
  obtain ⟨trailing, hsplit, hblanks⟩ := Text.exists_trim t
  obtain ⟨hleading, htrailing⟩ := List.forall_mem_append.mp hblanks
  have hunquoted {blanks : Text} (h : ∀ c ∈ blanks, Text.isBlank c = true) : blanks.Unquoted :=
    fun c hc => Text.ofChar?_of_isBlank (h c hc)
  have hgap := Quote.after_unquoted (hunquoted hleading) none
  refine ⟨⟨hne, Text.trim_trim t, fun g hg => hpassive g ?_, ?_⟩, _, _, hsplit, hgap⟩
  · rw [hsplit, Text.glyphs_append hgap, Text.glyphs, Text.glyphs, Text.glyphsFrom_append]
    exact List.mem_append_right _ (List.mem_append_left _ hg)
  · rw [hsplit, Quote.after_append, hgap, Quote.after_append,
      Quote.after_unquoted (hunquoted htrailing)] at hclosed
    exact hclosed

/-! ## Complete pieces -/

/-- The form of a complete piece. -/
inductive Segment.Complete : Segment → Prop where
  | field {t : Text} (hends : Ends (t ++ [';'])) : Complete (.field (t ++ [';']))
  | bodiless {t : Text} (hends : Ends (t ++ [';'])) : Complete (.method (t ++ [';']) [])
  | method {head body : Text} {statements : List Text} (hbody : HasBody head body)
      (hopened : Enclosure.opened head = .method) (hstatements : ∀ s ∈ statements, IsStatement s)
      (horder : InOrder statements body) :
      Complete (.method (head ++ '{' :: (body ++ ['}'])) statements)
  | initializer {head body : Text} (hbody : HasBody head body)
      (hopened : Enclosure.opened head = .initializer) :
      Complete (.initializer (head ++ '{' :: (body ++ ['}'])))

/-- A complete piece ends a member. -/
theorem Segment.Complete.ends {segment : Segment} (h : segment.Complete) : Ends segment.text := by
  cases h with
  | field hends => exact hends
  | bodiless hends => exact hends
  | method hbody hopened =>
      exact .block hbody (not_assigns_of_opened (by rw [hopened]; decide))
  | initializer hbody hopened =>
      exact .block hbody (not_assigns_of_opened (by rw [hopened]; decide))

namespace Scan

/-! ## Open brackets -/

/-- The brackets that the scan counts as open. -/
def level (s : Scan) : Level := ⟨s.depth, s.parens⟩

section Level

variable {s : Scan} {c : Char} {g : Glyph}

theorem hidden_iff : s.hidden = true ↔ s.level.hides := by
  simp [hidden, level, Level.hides]

theorem level_closeBrace (h : (s.closeBrace c).2 = none) :
    (s.closeBrace c).1.level = ⟨s.depth - 1, s.parens⟩ := by
  rw [closeBrace] at h ⊢
  dsimp only at h ⊢
  split at h
  · rw [if_pos ‹_›]
    split at h
    · cases h
    · cases h
    · rfl
  · rw [if_neg ‹_›]
    rfl

theorem level_semicolon (h : (s.semicolon c).2 = none) : (s.semicolon c).1.level = s.level := by
  rw [semicolon] at h ⊢
  dsimp only at h ⊢
  split at h
  · split at h <;> cases h
  · rw [if_neg ‹_›]
    split <;> rfl

/-- A step that completes no piece counts the brackets. -/
theorem step_level (h : (s.step g).2 = none) : (s.step g).1.level = s.level.next g := by
  cases hrole : g.role with
  | plain => simp [step, Level.next, level, take, hrole]
  | openParen =>
      by_cases hdepth : s.depth = 0 <;> simp [step, Level.next, level, take, hrole, hdepth]
  | closeParen =>
      by_cases hdepth : s.depth = 0 <;> simp [step, Level.next, level, take, hrole, hdepth]
  | openBrace =>
      by_cases hhidden : s.hidden = true
      · simp only [step, Level.next, hrole, if_pos hhidden, if_pos (hidden_iff.mp hhidden)]
        rfl
      · simp only [step, Level.next, hrole, if_neg hhidden, if_neg (mt hidden_iff.mpr hhidden)]
        rfl
  | closeBrace =>
      by_cases hhidden : s.hidden = true
      · simp only [step, Level.next, hrole, if_pos hhidden, if_pos (hidden_iff.mp hhidden)]
        rfl
      · simp only [step, hrole, if_neg hhidden] at h
        simp only [step, Level.next, hrole, if_neg hhidden, if_neg (mt hidden_iff.mpr hhidden)]
        exact level_closeBrace h
  | semicolon =>
      by_cases hhidden : s.hidden = true
      · simp only [step, Level.next, hrole, if_pos hhidden]
        rfl
      · simp only [step, hrole, if_neg hhidden] at h
        simp only [step, Level.next, hrole, if_neg hhidden]
        exact level_semicolon h

end Level

/-! ## In a body -/

/-- The scan in the body of a method or an initializer: behind the brace that opens it stand
the text that is done, with all statements collected so far, and the current statement. -/
structure InBody (s : Scan) (head done : Text) : Prop where
  past : s.past = head ++ '{' :: (done ++ s.statement.reverse)
  outside : Outside head
  braceless : Braceless head
  opened : s.enclosure = .opened head
  collects : s.enclosure = .method ∨ s.enclosure = .initializer
  inside : 0 < s.depth
  depth : Glyph.braces.depth? 0 done.glyphs = some (s.depth - 1)
  closed : Quote.after none done = none
  passive : ∀ g ∈ Text.glyphs s.statement.reverse, g.Passive
  order : InOrder s.statements.reverse done
  statements : ∀ t ∈ s.statements, IsStatement t

theorem past_take (s : Scan) (c : Char) : (s.take c).past = s.past ++ [c] := List.reverse_cons

theorem openBrace_past (s : Scan) (c : Char) : (s.openBrace c).past = s.past ++ [c] :=
  List.reverse_cons

namespace InBody

variable {s : Scan} {head done : Text} {c : Char}

/-- The literals of the current statement are those of the piece. -/
theorem after_past (h : InBody s head done) :
    Quote.after none s.past = Quote.after none s.statement.reverse := by
  rw [h.past, Quote.after_append, h.outside.1, Quote.after_cons]
  exact (Quote.after_append none done _).trans (by rw [h.closed])

theorem glyphs_statement (h : InBody s head done) :
    Text.glyphs (s.statement.reverse ++ [c]) = Text.glyphs s.statement.reverse ++ [s.glyph c] := by
  rw [Text.glyphs, Text.glyphsFrom_append, glyph, h.after_past]
  rfl

theorem take (h : InBody s head done) (hc : (s.glyph c).Passive) : InBody (s.take c) head done := by
  have hstatement : (s.take c).statement.reverse = s.statement.reverse ++ [c] := List.reverse_cons
  refine ⟨?_, h.outside, h.braceless, h.opened, h.collects, h.inside, h.depth, h.closed, ?_,
    h.order, h.statements⟩
  · rw [past_take, h.past, hstatement]
    simp
  · rw [hstatement, h.glyphs_statement, List.forall_mem_append]
    exact ⟨h.passive, List.forall_mem_singleton.mpr hc⟩

/-- Behind a mark that does not complete the piece the current statement is done. -/
theorem mark (h : InBody s head done) (hc : (s.glyph c).role ≠ .plain) {s' : Scan}
    (hpast : s'.past = s.past ++ [c]) (hstatement : s'.statement = [])
    (henclosure : s'.enclosure = s.enclosure) (hinside : 0 < s'.depth)
    (hdepth : Glyph.braces.depth? (s.depth - 1) [s.glyph c] = some (s'.depth - 1))
    (horder : InOrder s'.statements.reverse (done ++ (s.statement.reverse ++ [c])))
    (hstatements : ∀ t ∈ s'.statements, IsStatement t) :
    InBody s' head (done ++ (s.statement.reverse ++ [c])) := by
  obtain ⟨hopen, hnext⟩ := Quote.next_of_role hc
  rw [hopen] at hnext
  rw [h.after_past] at hopen
  refine ⟨?_, h.outside, h.braceless, henclosure.trans h.opened, henclosure ▸ h.collects, hinside,
    ?_, ?_, ?_, horder, hstatements⟩
  · rw [hpast, h.past, hstatement]
    simp
  · rw [Text.glyphs_append h.closed, h.glyphs_statement, Brackets.depth?_append, h.depth,
      Option.bind_some, Brackets.depth?_append, Glyph.braces_passive h.passive,
      Option.bind_some, hdepth]
  · rw [Quote.after_append, h.closed, Quote.after_append, hopen, Quote.after_cons, hnext,
      Quote.after_nil]
  · rw [hstatement]
    exact fun g hg => absurd hg List.not_mem_nil

/-- A semicolon adds the current statement to those in front of it, unless it is blank. -/
theorem endStatement (h : InBody s head done) (hc : (s.glyph c).role = .semicolon) :
    InOrder s.endStatement.reverse (done ++ (s.statement.reverse ++ [c])) ∧
      ∀ t ∈ s.endStatement, IsStatement t := by
  obtain ⟨hopen, -⟩ := Quote.next_of_role (by rw [hc]; decide : (s.glyph c).role ≠ .plain)
  rw [h.after_past] at hopen
  rw [Scan.endStatement]
  by_cases hblank : Text.trim s.statement.reverse = []
  · simp only [hblank, List.isEmpty_nil, if_true]
    exact ⟨h.order.append _, h.statements⟩
  · obtain ⟨hstatement, gap, behind, hsplit, hgap⟩ := exists_statement hopen h.passive hblank
    have hclosed : ∀ t ∈ s.statements.reverse, Quote.after none t = none := fun t ht =>
      (h.statements t (List.mem_reverse.mp ht)).closed
    have horder : InOrder (s.statements.reverse ++ [Text.trim s.statement.reverse])
        (done ++ (gap ++ (Text.trim s.statement.reverse ++ (behind ++ [c])))) :=
      h.order.concat hclosed h.closed hgap
    have hcurrent : s.statement.reverse ++ [c] =
        gap ++ (Text.trim s.statement.reverse ++ (behind ++ [c])) :=
      (congrArg (· ++ [c]) hsplit).trans (by simp)
    simp only [List.isEmpty_eq_false_iff.mpr hblank, Bool.false_eq_true, if_false,
      List.reverse_cons]
    rw [hcurrent]
    exact ⟨horder, List.forall_mem_cons.mpr ⟨hstatement, h.statements⟩⟩

/-- The text behind the first brace, when the brace that closes it is next. -/
theorem hasBody (h : InBody s head done) (hdepth : s.depth = 1)
    (hopen : Quote.after none s.past = none) : HasBody head (done ++ s.statement.reverse) := by
  refine ⟨h.outside, h.braceless, ?_, ?_⟩
  · rw [Text.glyphs_append h.closed, Brackets.depth?_append, h.depth, Option.bind_some,
      Glyph.braces_passive h.passive, hdepth]
  · rw [Quote.after_append, h.closed, ← h.after_past, hopen]

end InBody

/-! ## The whole scan -/

/-- The scan in or behind the value of a field: the piece begins with what leads the value, and
the brace that opens it. -/
structure InValue (s : Scan) (lead : Text) : Prop where
  past : lead ++ ['{'] <+: s.past
  outside : Outside lead
  braceless : Braceless lead
  assigns : Assigns lead
  enclosure : s.enclosure = .fieldValue
  statements : s.statements = []

theorem InValue.assignsFirst {s : Scan} {lead : Text} (h : InValue s lead) :
    assignsFirst s.past = true := by
  obtain ⟨rest, hpast⟩ := h.past
  rw [← hpast, List.append_assoc]
  exact assignsFirst_append (assignsFirst_iff.mpr h.assigns) _

/-- What the scan knows of the current piece, whatever text it has read. -/
inductive Stands (s : Scan) : Prop where
  | between (depth : s.depth = 0) (enclosure : s.enclosure = .none) (statements : s.statements = [])
      (parens : s.parens = Glyph.parens.depth 0 s.past.glyphs)
      (sheltered : Glyph.parens.Shelters (·.role = .openBrace) 0 s.past.glyphs)
  | inBody {head done : Text} (h : InBody s head done)
  | inValue {lead : Text} (h : InValue s lead)

theorem stands_fresh : Stands fresh := .between rfl rfl rfl rfl trivial

/-- A semicolon outside of all brackets ends a member. -/
theorem ends_semicolon {s : Scan} {c : Char} (hlevel : s.level = Member.level s.past)
    (hdepth : s.depth = 0) (hparens : s.parens = 0) (hsemicolon : (s.glyph c).role = .semicolon) :
    c = ';' ∧ Ends (s.past ++ [';']) := by
  have hmark : (s.glyph c).role ≠ .plain := by rw [hsemicolon]; decide
  refine ⟨congrArg Glyph.char (Glyph.eq_of_role (c := ';') hsemicolon (by decide)),
    .semicolon (Quote.next_of_role hmark).1 ?_⟩
  rw [← hlevel, level, hdepth, hparens]

namespace Stands

variable {s : Scan}

/-- A closing brace in a body closes a brace inside the body, or it completes the piece. -/
theorem step_close {head done : Text} (h : InBody s head done) {c : Char}
    (hclose : (s.glyph c).role = .closeBrace) :
    Keeps Stands Segment.Complete (s.step (s.glyph c)) := by
  have hmark : (s.glyph c).role ≠ .plain := by rw [hclose]; decide
  have hstep := step_closeBrace (hidden_of_inside h.inside) hclose
  by_cases hdepth : s.depth = 1
  · have hc : c = '}' := congrArg Glyph.char (Declaration.eq_of_role_closeBrace hclose)
    have hbody := h.hasBody hdepth (Quote.next_of_role hmark).1
    have htext : (s.take c).seen.reverse =
        head ++ '{' :: ((done ++ s.statement.reverse) ++ ['}']) := by
      rw [← past, past_take, h.past, hc]
      simp
    rw [closeBrace, if_pos (Nat.le_of_eq hdepth)] at hstep
    have hopened := h.opened
    rcases h.collects with hmethod | hinitializer
    · rw [hmethod] at hstep
      have hstatements : ∀ t ∈ s.statements.reverse, IsStatement t := fun t ht =>
        h.statements t (List.mem_reverse.mp ht)
      refine .of_some (hstep.trans ?_) stands_fresh
        (.method hbody (hopened.symm.trans hmethod) hstatements (h.order.append _))
      exact congrArg (fun t => (fresh, some (Segment.method t s.statements.reverse))) htext
    · rw [hinitializer] at hstep
      refine .of_some (hstep.trans ?_) stands_fresh
        (.initializer hbody (hopened.symm.trans hinitializer))
      exact congrArg (fun t => (fresh, some (Segment.initializer t))) htext
  · have hinside := h.inside
    rw [closeBrace, if_neg (by omega)] at hstep
    refine .of_none hstep (.inBody
      (h.mark hmark (past_take s c) rfl rfl ?_ ?_ (h.order.append _) h.statements))
    · show 0 < s.depth - 1
      omega
    · show _ = some (s.depth - 1 - 1)
      obtain ⟨depth, hsucc⟩ : ∃ depth, s.depth - 1 = depth + 1 := ⟨s.depth - 2, by omega⟩
      rw [hsucc, Glyph.braces_close hclose]
      rfl

theorem step_inBody {head done : Text} (h : InBody s head done) (c : Char) :
    Keeps Stands Segment.Complete (s.step (s.glyph c)) := by
  have hhidden := hidden_of_inside h.inside
  have hinside := h.inside
  by_cases hpassive : (s.glyph c).Passive
  · exact .of_none (step_passive h.inside hpassive) (.inBody (h.take hpassive))
  have hmark := Glyph.not_plain_of_not_passive hpassive
  rcases Glyph.role_of_not_passive hpassive with hopen | hclose | hsemicolon
  · refine .of_none (step_openBrace hhidden hopen) (.inBody
      (h.mark hmark (openBrace_past s c) rfl (if_neg (Nat.ne_of_gt hinside)) (Nat.succ_pos _) ?_
        (h.order.append _) h.statements))
    rw [Glyph.braces_open hopen]
    exact congrArg some (by show s.depth - 1 + 1 = s.depth + 1 - 1; omega)
  · exact step_close h hclose
  · obtain ⟨horder, hstatements⟩ := h.endStatement hsemicolon
    have hstep := step_semicolon hhidden hsemicolon
    have hcollects : s.semicolon (s.glyph c).char =
        ({ s.take c with statement := [], statements := s.endStatement }, none) := by
      rw [semicolon, if_neg (Nat.ne_of_gt hinside)]
      rcases h.collects with hmethod | hinitializer
      · rw [hmethod]
        rfl
      · rw [hinitializer]
        rfl
    refine .of_none (hstep.trans hcollects) (.inBody
      (h.mark hmark (past_take s c) rfl rfl hinside ?_ horder hstatements))
    rw [Glyph.braces_other (by rw [hsemicolon]; decide) (by rw [hsemicolon]; decide)]
    rfl

/-- Between members the scan goes on, or it enters a block, or it completes a piece. -/
theorem step_between (hdepth : s.depth = 0) (henclosure : s.enclosure = .none)
    (hstatements : s.statements = []) (hparens : s.parens = Glyph.parens.depth 0 s.past.glyphs)
    (hsheltered : Glyph.parens.Shelters (·.role = .openBrace) 0 s.past.glyphs)
    (hlevel : s.level = Member.level s.past) (c : Char) :
    Keeps Stands Segment.Complete (s.step (s.glyph c)) := by
  rcases Scan.step_between hdepth henclosure (s.glyph c) with hgoes | ⟨hzero, hmark⟩
  · have hstep : s.step (s.glyph c) = ((s.step (s.glyph c)).1, none) := Prod.ext rfl hgoes.none
    have hpast : (s.step (s.glyph c)).1.past = s.past ++ [c] := by
      rcases s.step_past c with ⟨-, hpast⟩ | ⟨segment, hsome, -⟩
      · exact hpast
      · cases (congrArg Prod.snd hsome).symm.trans hgoes.none
    have hglyphs : (s.past ++ [c]).glyphs = s.past.glyphs ++ [s.glyph c] :=
      Text.glyphsFrom_append none _ _
    refine .of_none hstep (.between hgoes.depth (hgoes.enclosure.trans henclosure)
      (hgoes.statements.trans hstatements) ?_ ?_)
    · rw [hgoes.parens, hparens, hpast, hglyphs, Brackets.depth_append]
      rfl
    · rw [hpast, hglyphs, Brackets.shelters_append, ← hparens]
      exact ⟨hsheltered, hgoes.hidden, trivial⟩
  have hhidden := hidden_of_outside hzero
  have hrole : (s.glyph c).role ≠ .plain := by
    rcases hmark with hmark | ⟨hmark, -⟩ <;> simp [hmark]
  have hclosed := (Quote.next_of_role hrole).1
  rcases hmark with hopen | ⟨hsemicolon, -⟩
  · -- What the brace encloses was decided by the text in front of it.
    have hc : c = '{' := Glyph.char_of_role_openBrace hopen
    have hpast : (s.openBrace c).past = s.past ++ ['{'] := by rw [openBrace_past, hc]
    have henclosed : (s.openBrace c).enclosure = .opened s.past := if_pos hdepth
    have hstep := step_openBrace hhidden hopen
    have hbody (hcollects : Enclosure.opened s.past = .method ∨
        Enclosure.opened s.past = .initializer) : InBody (s.openBrace c) s.past [] :=
      { past := hpast
        outside := ⟨hclosed, hparens.symm.trans hzero⟩
        braceless := ⟨hclosed, hsheltered⟩
        opened := henclosed
        collects := by rwa [henclosed]
        inside := Nat.succ_pos _
        depth := congrArg some hdepth.symm
        closed := rfl
        passive := fun g hg => absurd hg List.not_mem_nil
        order := by
          have hnone : (s.openBrace c).statements = [] := hstatements
          rw [hnone]
          trivial
        statements := by
          have hnone : (s.openBrace c).statements = [] := hstatements
          rw [hnone]
          exact fun t ht => absurd ht List.not_mem_nil }
    rcases opened_cases s.past with ⟨hinitializer, -⟩ | ⟨hvalue, hassigns⟩ | hmethod
    · exact .of_none hstep (.inBody (hbody (.inr hinitializer)))
    · have hin : InValue (s.openBrace c) s.past :=
        { past := hpast ▸ List.prefix_refl _
          outside := ⟨hclosed, hparens.symm.trans hzero⟩
          braceless := ⟨hclosed, hsheltered⟩
          assigns := assignsFirst_iff.mp hassigns
          enclosure := henclosed.trans hvalue
          statements := hstatements }
      exact .of_none hstep (.inValue hin)
    · exact .of_none hstep (.inBody (hbody (.inl hmethod)))
  · obtain ⟨hc, hends⟩ := ends_semicolon hlevel hdepth hzero hsemicolon
    have htext : (s.take c).seen.reverse = s.past ++ [';'] := by rw [← past, past_take, hc]
    have hstep := step_semicolon hhidden hsemicolon
    rw [semicolon, if_pos hdepth] at hstep
    dsimp only at hstep
    split at hstep
    · refine .of_some (hstep.trans ?_) stands_fresh (.bodiless hends)
      exact congrArg (fun t => (fresh, some (Segment.method t []))) htext
    · refine .of_some (hstep.trans ?_) stands_fresh (.field hends)
      exact congrArg (fun t => (fresh, some (Segment.field t))) htext

/-- In the value of a field only a semicolon outside of all brackets completes the piece. -/
theorem step_inValue {lead : Text} (h : InValue s lead) (hlevel : s.level = Member.level s.past)
    (c : Char) : Keeps Stands Segment.Complete (s.step (s.glyph c)) := by
  -- A scan with one more character of the piece that is still in the value stands there.
  have hvalue {s' : Scan} (hpast : s'.past = s.past ++ [c]) (henclosed : s'.enclosure = .fieldValue)
      (hnone : s'.statements = s.statements) : Stands s' :=
    .inValue { h with
      past := hpast ▸ h.past.trans (List.prefix_append _ _)
      enclosure := henclosed
      statements := hnone.trans h.statements }
  have henclosure := h.enclosure
  by_cases hpassive : (s.glyph c).Passive
  · obtain ⟨parens, hstep⟩ := step_of_passive (s := s) hpassive
    exact .of_none hstep (hvalue (past_take s c) henclosure rfl)
  cases hhidden : s.hidden with
  | true => exact .of_none (step_of_hidden hhidden hpassive) (hvalue (past_take s c) henclosure rfl)
  | false =>
      rcases Glyph.role_of_not_passive hpassive with hopen | hclose | hsemicolon
      · have henclosed : (s.openBrace c).enclosure = .fieldValue := by
          change (if s.depth = 0 then Enclosure.opened s.past else s.enclosure) = _
          rw [opened_of_assignsFirst h.assignsFirst, henclosure, ite_self]
        exact .of_none (step_openBrace hhidden hopen) (hvalue (openBrace_past s c) henclosed rfl)
      · have hstep := step_closeBrace hhidden hclose
        rw [closeBrace, henclosure] at hstep
        dsimp only at hstep
        rw [ite_self] at hstep
        exact .of_none hstep (hvalue (past_take s c) henclosure rfl)
      · have hstep := step_semicolon hhidden hsemicolon
        rw [semicolon] at hstep
        split at hstep
        · rename_i hdepth
          have hparens : s.parens = 0 := by simpa [Scan.hidden, hdepth] using hhidden
          obtain ⟨hc, hends⟩ := ends_semicolon hlevel hdepth hparens hsemicolon
          have htext : (s.take c).seen.reverse = s.past ++ [';'] := by rw [← past, past_take, hc]
          rw [if_neg (by simp [henclosure])] at hstep
          refine .of_some (hstep.trans ?_) stands_fresh (.field hends)
          exact congrArg (fun t => (fresh, some (Segment.field t))) htext
        · rw [henclosure] at hstep
          exact .of_none hstep (hvalue (past_take s c) henclosure rfl)

theorem step (h : Stands s) (hlevel : s.level = Member.level s.past) (c : Char) :
    Keeps Stands Segment.Complete (s.step (s.glyph c)) := by
  cases h with
  | between hdepth henclosure hstatements hparens hsheltered =>
      exact step_between hdepth henclosure hstatements hparens hsheltered hlevel c
  | inBody h => exact step_inBody h c
  | inValue h => exact step_inValue h hlevel c

end Stands

/-! ## The current piece -/

/-- The scan has read the text of its current piece, and that text does not end a member. -/
structure Current (s : Scan) : Prop where
  stands : Stands s
  level : s.level = Member.level s.past
  unfinished : Unfinished s.past

theorem current_fresh : Current fresh := ⟨stands_fresh, rfl, unfinished_nil⟩

namespace Current

variable {s : Scan}

/-- A character completes a piece if a member ends behind it. -/
theorem step_of_ends (h : Current s) {c : Char} (hends : Ends (s.past ++ [c])) :
    (s.step (s.glyph c)).2 ≠ none := by
  generalize htext : s.past ++ [c] = t at hends
  have hglyph (hclosed : Quote.after none s.past = none) : s.glyph c = ⟨c, false⟩ := by
    rw [glyph, hclosed]
    rfl
  cases hends with
  | @semicolon front hclosed hlevel =>
      obtain ⟨rfl, hc⟩ := List.append_inj' htext rfl
      obtain rfl : c = ';' := List.singleton_inj.mp hc
      rw [← h.level] at hlevel
      have hdepth : s.depth = 0 := congrArg Level.braces hlevel
      have hparens : s.parens = 0 := congrArg Level.parens hlevel
      rw [hglyph hclosed, step_semicolon (hidden_of_outside hparens) rfl, Scan.semicolon,
        if_pos hdepth]
      dsimp only
      split <;> exact Option.some_ne_none _
  | @block head body hbody hvalue =>
      rw [← List.cons_append, ← List.append_assoc] at htext
      obtain ⟨hpast, hc⟩ := List.append_inj' htext rfl
      obtain rfl : c = '}' := List.singleton_inj.mp hc
      have hlevel : s.level = ⟨1, 0⟩ := by rw [h.level, hpast, hbody.level]
      have hdepth : s.depth = 1 := congrArg Level.braces hlevel
      rw [hglyph (hpast ▸ hbody.after), step_closeBrace (hidden_of_inside (by omega)) rfl,
        closeBrace, if_pos (by omega)]
      cases h.stands with
      | between houtside => omega
      | inBody hin =>
          rcases hin.collects with hmethod | hinitializer
          · rw [hmethod]
            exact Option.some_ne_none _
          · rw [hinitializer]
            exact Option.some_ne_none _
      | @inValue lead hin =>
          -- The block is the value of a field, for no text has two first braces.
          obtain ⟨rest, hrest⟩ := hin.past
          have hsame : lead ++ '{' :: rest = head ++ '{' :: body := by
            rw [← hpast, ← hrest, List.append_assoc]
            rfl
          have hhead := head_unique hin.outside hin.braceless hbody.outside hbody.braceless hsame
          exact absurd (hhead ▸ hin.assigns) hvalue

/-- A character goes on with the current piece, or a member ends behind it for the first time
and the piece is complete. -/
theorem step (h : Current s) (c : Char) :
    ((s.step (s.glyph c)).2 = none ∧ (s.step (s.glyph c)).1.past = s.past ++ [c] ∧
        Current (s.step (s.glyph c)).1) ∨
      ∃ segment, s.step (s.glyph c) = (fresh, some segment) ∧ segment.text = s.past ++ [c] ∧
        segment.Complete ∧ IsPiece segment.text := by
  obtain ⟨hstands, hcomplete⟩ := h.stands.step h.level c
  rcases s.step_past c with ⟨hnone, hpast⟩ | ⟨segment, hstep, htext, -⟩
  · refine .inl ⟨hnone, hpast, hstands, ?_, ?_⟩
    · rw [step_level hnone, hpast, level_concat, h.level]
      rfl
    · rw [hpast]
      exact h.unfinished.concat fun hends => h.step_of_ends hends hnone
  · have hform : segment.Complete := hcomplete segment (by rw [hstep]; rfl)
    refine .inr ⟨segment, hstep, htext, hform, ?_⟩
    rw [htext]
    exact h.unfinished.piece (htext ▸ hform.ends)

end Current

end Scan

end ClassDiagram.Member
