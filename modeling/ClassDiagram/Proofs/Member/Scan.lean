import ClassDiagram.Member.Record
import ClassDiagram.Proofs.Declaration.Piece
import ClassDiagram.Proofs.Text.Brackets

/-!
# The scan of member text

A step of the scan for members goes on with the current piece or completes it, and each sort of
mark does it in its own way (`step_openBrace`, `step_closeBrace`, `step_semicolon`). Between
members only parentheses count (`step_between`).

The scan never counts more open braces than are open in the text, for it may
pass over an opening brace but over no closing one. So it stands between members behind
every text whose braces are closed (`depth_behind_le`). A parenthesis that is open there
hides all braces and semicolons until it is closed. If it never is, the text behind it has
no members (`records_open_paren`).
-/

namespace ClassDiagram.Member

namespace Scan

/-! ## Steps -/

/-- A step takes its character, and it may complete the piece with it. -/
theorem step_cases (s : Scan) (g : Glyph) :
    ((s.step g).2 = none ∧ (s.step g).1.seen = g.char :: s.seen) ∨
      ∃ segment, s.step g = (fresh, some segment) ∧ segment.text = (g.char :: s.seen).reverse ∧
        (g.role = .closeBrace ∨ g.role = .semicolon) := by
  cases hrole : g.role with
  | plain => exact .inl (by simp [step, hrole, take])
  | openParen =>
      simp only [step, hrole]
      split <;> exact .inl ⟨trivial, rfl⟩
  | closeParen =>
      simp only [step, hrole]
      split <;> exact .inl ⟨trivial, rfl⟩
  | openBrace =>
      simp only [step, hrole]
      split <;> exact .inl ⟨trivial, rfl⟩
  | closeBrace =>
      simp only [step, hrole]
      split
      · exact .inl ⟨rfl, rfl⟩
      · rw [closeBrace]
        split
        · split
          · exact .inr ⟨_, rfl, rfl, .inl trivial⟩
          · exact .inr ⟨_, rfl, rfl, .inl trivial⟩
          · exact .inl ⟨rfl, rfl⟩
        · exact .inl ⟨rfl, rfl⟩
  | semicolon =>
      simp only [step, hrole]
      split
      · exact .inl ⟨rfl, rfl⟩
      · rw [semicolon]
        split
        · split
          · exact .inr ⟨_, rfl, rfl, .inr trivial⟩
          · exact .inr ⟨_, rfl, rfl, .inr trivial⟩
        · split <;> exact .inl ⟨rfl, rfl⟩

/-- What a step keeps: a property of the scan, and the form of a piece that it completes. -/
structure Keeps (holds : Scan → Prop) (form : Segment → Prop) (next : Scan × Option Segment) :
    Prop where
  scan : holds next.1
  segment : ∀ segment ∈ next.2, form segment

namespace Keeps

variable {holds : Scan → Prop} {form : Segment → Prop} {next : Scan × Option Segment}

theorem of_none {s : Scan} (hnext : next = (s, none)) (hs : holds s) : Keeps holds form next := by
  rw [hnext]
  exact ⟨hs, by rintro _ ⟨⟩⟩

theorem of_some {segment : Segment} (hnext : next = (fresh, some segment)) (hs : holds fresh)
    (hsegment : form segment) : Keeps holds form next := by
  rw [hnext]
  exact ⟨hs, by rintro _ ⟨⟩; exact hsegment⟩

end Keeps

section Roles

variable {s : Scan} {g : Glyph}

theorem hidden_of_inside (h : 0 < s.depth) : s.hidden = false := by
  rw [hidden, beq_eq_false_iff_ne.mpr (Nat.ne_of_gt h), Bool.false_and]

theorem hidden_of_outside (h : s.parens = 0) : s.hidden = false := by
  rw [hidden, h]
  exact Bool.and_false _

theorem step_openBrace (hhidden : s.hidden = false) (h : g.role = .openBrace) :
    s.step g = (s.openBrace g.char, none) := by
  simp only [step, h, hhidden, Bool.false_eq_true, if_false]

theorem step_closeBrace (hhidden : s.hidden = false) (h : g.role = .closeBrace) :
    s.step g = s.closeBrace g.char := by
  simp only [step, h, hhidden, Bool.false_eq_true, if_false]

theorem step_semicolon (hhidden : s.hidden = false) (h : g.role = .semicolon) :
    s.step g = s.semicolon g.char := by
  simp only [step, h, hhidden, Bool.false_eq_true, if_false]

/-- Hidden braces and semicolons are only remembered. -/
theorem step_of_hidden (hhidden : s.hidden = true) (h : ¬g.Passive) :
    s.step g = (s.take g.char, none) := by
  rcases Glyph.role_of_not_passive h with hrole | hrole | hrole
  · simp only [step, hrole, if_pos hhidden]
  · simp only [step, hrole, if_pos hhidden]
  · simp only [step, hrole, if_pos hhidden]

/-- All but braces and semicolons is remembered, and parentheses between members are counted. -/
theorem step_of_passive (h : g.Passive) :
    ∃ parens, s.step g = ({ s.take g.char with parens := parens }, none) := by
  cases hrole : g.role with
  | openBrace => exact absurd hrole h.1
  | closeBrace => exact absurd hrole h.2.1
  | semicolon => exact absurd hrole h.2.2
  | openParen =>
      simp only [step, hrole]
      split
      · exact ⟨_, rfl⟩
      · exact ⟨s.parens, rfl⟩
  | closeParen =>
      simp only [step, hrole]
      split
      · exact ⟨_, rfl⟩
      · exact ⟨s.parens, rfl⟩
  | plain =>
      simp only [step, hrole]
      exact ⟨s.parens, rfl⟩

/-- Inside braces all but braces and semicolons is only remembered. -/
theorem step_passive (hinside : 0 < s.depth) (h : g.Passive) :
    s.step g = (s.take g.char, none) := by
  have hdepth : ¬s.depth = 0 := Nat.ne_of_gt hinside
  cases hrole : g.role with
  | openBrace => exact absurd hrole h.1
  | closeBrace => exact absurd hrole h.2.1
  | semicolon => exact absurd hrole h.2.2
  | openParen => simp only [step, hrole, if_neg hdepth]
  | closeParen => simp only [step, hrole, if_neg hdepth]
  | plain => simp only [step, hrole]

end Roles

/-! ## Between members -/

/-- The step of a scan that goes on outside of braces: parentheses are counted, and a brace that
opens is hidden by them. -/
structure GoesOn (s : Scan) (g : Glyph) (next : Scan × Option Segment) : Prop where
  none : next.2 = .none
  depth : next.1.depth = 0
  parens : next.1.parens = Glyph.parens.next s.parens g
  enclosure : next.1.enclosure = s.enclosure
  statements : next.1.statements = s.statements
  hidden : g.role = .openBrace → 0 < s.parens

/-- Where parentheses hide braces and semicolons, the scan goes on. -/
theorem step_sheltered {s : Scan} {g : Glyph} (hdepth : s.depth = 0)
    (hmark : ¬g.Passive → 0 < s.parens) : GoesOn s g (s.step g) := by
  by_cases hpassive : g.Passive
  · have hbrace : g.role = .openBrace → 0 < s.parens := fun hopen => absurd hopen hpassive.1
    cases hrole : g.role with
    | openBrace => exact absurd hrole hpassive.1
    | closeBrace => exact absurd hrole hpassive.2.1
    | semicolon => exact absurd hrole hpassive.2.2
    | openParen =>
        simp only [step, hrole, if_pos hdepth]
        exact ⟨rfl, hdepth, by simp [Glyph.parens, Brackets.next, hrole], rfl, rfl, hbrace⟩
    | closeParen =>
        simp only [step, hrole, if_pos hdepth]
        exact ⟨rfl, hdepth, by simp [Glyph.parens, Brackets.next, hrole], rfl, rfl, hbrace⟩
    | plain =>
        simp only [step, hrole]
        exact ⟨rfl, hdepth, by simp [take, Glyph.parens, Brackets.next, hrole], rfl, rfl, hbrace⟩
  · have hhidden : s.hidden = true := by
      rw [Scan.hidden, hdepth]
      simpa using hmark hpassive
    have hparens : (s.take g.char).parens = Glyph.parens.next s.parens g := by
      rcases Glyph.role_of_not_passive hpassive with hrole | hrole | hrole
      · simp [take, Glyph.parens, Brackets.next, hrole]
      · simp [take, Glyph.parens, Brackets.next, hrole]
      · simp [take, Glyph.parens, Brackets.next, hrole]
    rw [step_of_hidden hhidden hpassive]
    exact ⟨rfl, hdepth, hparens, rfl, rfl, fun _ => hmark hpassive⟩

/-- Between members the scan goes on, unless it meets a brace that opens or a semicolon outside
all parentheses. Such a semicolon completes a piece. -/
theorem step_between {s : Scan} (hdepth : s.depth = 0) (henclosure : s.enclosure = .none)
    (g : Glyph) :
    GoesOn s g (s.step g) ∨
      s.parens = 0 ∧ (g.role = .openBrace ∨ g.role = .semicolon ∧ (s.step g).2 ≠ none) := by
  by_cases hmark : ¬g.Passive → 0 < s.parens
  · exact .inl (step_sheltered hdepth hmark)
  obtain ⟨hpassive, hparens⟩ := Classical.not_imp.mp hmark
  have hzero : s.parens = 0 := Nat.eq_zero_of_not_pos hparens
  have hhidden := hidden_of_outside hzero
  rcases Glyph.role_of_not_passive hpassive with hopen | hclose | hsemicolon
  · exact .inr ⟨hzero, .inl hopen⟩
  · refine .inl ?_
    rw [step_closeBrace hhidden hclose, closeBrace, henclosure]
    dsimp only
    rw [ite_self]
    exact ⟨rfl, congrArg (· - 1) hdepth,
      by simp [take, Glyph.parens, Brackets.next, hclose], rfl, rfl,
      fun hopen => by rw [hopen] at hclose; cases hclose⟩
  · refine .inr ⟨hzero, .inr ⟨hsemicolon, ?_⟩⟩
    rw [step_semicolon hhidden hsemicolon, semicolon, if_pos hdepth]
    dsimp only
    split <;> exact Option.some_ne_none _

/-! ## Stretches of text -/

/-- The scan behind glyphs. -/
def behind (s : Scan) (gs : List Glyph) : Scan := gs.foldl (fun s g => (s.step g).1) s

theorem behind_cons (s : Scan) (g : Glyph) (gs : List Glyph) :
    s.behind (g :: gs) = (s.step g).1.behind gs := rfl

theorem segments_append (s : Scan) (gs hs : List Glyph) :
    s.segments (gs ++ hs) = s.segments gs ++ (s.behind gs).segments hs := by
  induction gs generalizing s with
  | nil => rfl
  | cons g gs ih => rw [List.cons_append, segments, segments, ih, List.append_assoc, behind_cons]

/-- The scan after a stretch of text that is no more than remembered. -/
def passed (s : Scan) (t : Text) : Scan :=
  { s with seen := t.reverse ++ s.seen, statement := t.reverse ++ s.statement }

theorem passed_passed (s : Scan) (t u : Text) : (s.passed t).passed u = s.passed (t ++ u) := by
  simp [passed]

theorem segments_plain {t : Text} (ht : ∀ c ∈ t, Role.ofChar c = .plain) (s : Scan)
    (gs : List Glyph) : s.segments (Text.bare t ++ gs) = (s.passed t).segments gs := by
  induction t generalizing s with
  | nil => rfl
  | cons c t ih =>
      have hstep : s.step ⟨c, false⟩ = (s.passed [c], none) := by
        rw [step, Glyph.role_bare, ht c (by simp)]
        rfl
      rw [Text.bare_cons, List.cons_append, segments, hstep]
      apply (ih (fun d hd => ht d (List.mem_cons_of_mem _ hd)) (s.passed [c])).trans
      rw [passed_passed]
      rfl

/-! ## Braces -/

section Depth

variable {s : Scan} {g : Glyph} {gs : List Glyph} {depth after : Nat}

theorem depth_openBrace (h : g.role = .openBrace) : (s.step g).1.depth ≤ s.depth + 1 := by
  simp only [step, h]
  split
  · exact Nat.le_succ s.depth
  · exact Nat.le_refl _

theorem depth_closeBrace (h : g.role = .closeBrace) : (s.step g).1.depth ≤ s.depth - 1 := by
  simp only [step, h]
  split
  · rename_i hhidden
    have hdepth : s.depth = 0 := by
      rw [hidden, Bool.and_eq_true] at hhidden
      exact eq_of_beq hhidden.1
    change s.depth ≤ s.depth - 1
    omega
  · rw [closeBrace]
    split
    · split
      · exact Nat.zero_le _
      · exact Nat.zero_le _
      · exact Nat.le_refl _
    · exact Nat.le_refl _

theorem depth_other (hopen : g.role ≠ .openBrace) (hclose : g.role ≠ .closeBrace) :
    (s.step g).1.depth ≤ s.depth := by
  cases hrole : g.role with
  | openBrace => exact absurd hrole hopen
  | closeBrace => exact absurd hrole hclose
  | plain =>
      simp only [step, hrole]
      exact Nat.le_refl _
  | openParen =>
      simp only [step, hrole]
      split <;> exact Nat.le_refl _
  | closeParen =>
      simp only [step, hrole]
      split <;> exact Nat.le_refl _
  | semicolon =>
      simp only [step, hrole]
      split
      · exact Nat.le_refl _
      · rw [semicolon]
        split
        · dsimp only
          split <;> exact Nat.zero_le _
        · split <;> exact Nat.le_refl _

/-- The scan counts at most the braces that are open in the text. -/
theorem depth_behind_le (hs : s.depth ≤ depth) (h : Glyph.braces.depth? depth gs = some after) :
    (s.behind gs).depth ≤ after := by
  replace h := Brackets.nesting_of_depth? h
  induction h generalizing s with
  | nil => exact hs
  | opening hopen _ ih =>
      rw [behind_cons]
      exact ih (Nat.le_trans (depth_openBrace (eq_of_beq hopen)) (by omega))
  | closing _ hclose _ ih =>
      rw [behind_cons]
      exact ih (Nat.le_trans (depth_closeBrace (eq_of_beq hclose)) (by omega))
  | other hopen hclose _ ih =>
      have hdepth := s.depth_other (beq_eq_false_iff_ne.mp hopen) (beq_eq_false_iff_ne.mp hclose)
      rw [behind_cons]
      exact ih (Nat.le_trans hdepth hs)

end Depth

end Scan

theorem Segment.value_of_record? {segment : Segment} {r : Record} (h : segment.record? = some r) :
    r.value = Text.trim segment.text := by
  cases segment with
  | field t => cases h; rfl
  | method t statements => cases h; rfl
  | initializer t => cases h

/-! ## Parentheses -/

/-- No parenthesis is closed that was not opened before. -/
def ClosesOwn (gs : List Glyph) : Prop :=
  ∀ n ≤ gs.length,
    (gs.take n).countP (·.role = .closeParen) ≤ (gs.take n).countP (·.role = .openParen)

instance (gs : List Glyph) : Decidable (ClosesOwn gs) :=
  inferInstanceAs (Decidable (∀ n ≤ gs.length, _))

namespace ClosesOwn

variable {gs hs : List Glyph}

theorem of_forall_ne (h : ∀ g ∈ gs, g.role ≠ .closeParen) : ClosesOwn gs := by
  intro n _
  have hnone : (gs.take n).countP (·.role = .closeParen) = 0 := by
    rw [List.countP_eq_zero]
    exact fun g hg => by simpa using h g (List.mem_of_mem_take hg)
  rw [hnone]
  exact Nat.zero_le _

theorem append (hgs : ClosesOwn gs) (hhs : ClosesOwn hs) : ClosesOwn (gs ++ hs) := by
  intro n hn
  rw [List.length_append] at hn
  rw [List.take_append, List.countP_append, List.countP_append]
  have hrest := hhs (n - gs.length) (by omega)
  rcases Nat.le_total n gs.length with hle | hle
  · have hfirst := hgs n hle
    omega
  · have hfirst := hgs gs.length (Nat.le_refl _)
    rw [List.take_length] at hfirst
    rw [List.take_of_length_le hle]
    omega

end ClosesOwn

namespace Scan

section Hidden

variable {s : Scan} {g : Glyph} {gs : List Glyph}

/-- Inside a parenthesis between members only parentheses count. -/
theorem step_hidden (hdepth : s.depth = 0) (hparens : 0 < s.parens) :
    (s.step g).2 = none ∧ (s.step g).1.depth = 0 ∧
      (s.step g).1.parens + (if g.role = .closeParen then 1 else 0) =
        s.parens + (if g.role = .openParen then 1 else 0) := by
  have hgoes := step_sheltered (g := g) hdepth fun _ => hparens
  refine ⟨hgoes.none, hgoes.depth, ?_⟩
  rw [hgoes.parens, Brackets.next]
  cases hrole : g.role with
  | closeParen =>
      simp [Glyph.parens, hrole]
      omega
  | _ => simp [Glyph.parens, hrole]

/-- As long as some parenthesis stays open between members, no member is complete. -/
theorem segments_hidden (hdepth : s.depth = 0)
    (h : ∀ n ≤ gs.length, (gs.take n).countP (·.role = .closeParen) <
      s.parens + (gs.take n).countP (·.role = .openParen)) : s.segments gs = [] := by
  induction gs generalizing s with
  | nil => rfl
  | cons g gs ih =>
      have hparens : 0 < s.parens := by simpa using h 0 (Nat.zero_le _)
      obtain ⟨hnone, hdepth', hcount⟩ := step_hidden (g := g) hdepth hparens
      rw [segments, hnone, ih hdepth']
      · rfl
      · intro n hn
        have hstep := h (n + 1) (by rw [List.length_cons]; omega)
        simp only [List.take_succ_cons, List.countP_cons, decide_eq_true_eq] at hstep
        omega

theorem segments_openParen (hdepth : s.depth = 0) (hg : g.role = .openParen)
    (h : ClosesOwn gs) : s.segments (g :: gs) = [] := by
  have hstep : s.step g = ({ s.take g.char with parens := s.parens + 1 }, none) := by
    simp only [step, hg, if_pos hdepth]
  have hnone : segments { s.take g.char with parens := s.parens + 1 } gs = [] := by
    refine segments_hidden hdepth fun n hn => ?_
    have := h n hn
    dsimp only
    omega
  rw [segments, hstep, hnone]
  rfl

end Hidden

end Scan

/-- A parenthesis that is opened between members and never closed hides all members
behind it. -/
theorem records_open_paren {m front rest : Text} (hunquoted : Quote.after none m = none)
    (hdepth : Glyph.braces.depth? 0 m.glyphs = some 0) (hfront : front.Unquoted)
    (hplain : ∀ c ∈ front, Role.ofChar c = .plain) (hrest : ClosesOwn rest.glyphs) :
    records (m ++ (front ++ '(' :: rest)) = records m := by
  have hparen : Text.glyphs ('(' :: rest) = ⟨'(', false⟩ :: rest.glyphs := rfl
  have hbehind : ((Scan.fresh.behind m.glyphs).passed front).depth = 0 :=
    Nat.le_zero.mp (Scan.depth_behind_le (Nat.le_refl 0) hdepth)
  rw [records, segments, Text.glyphs_append hunquoted, Text.glyphs_unquoted_append hfront, hparen,
    Scan.segments_append, Scan.segments_plain hplain, Scan.segments_openParen hbehind rfl hrest,
    List.append_nil, records, segments]

end ClassDiagram.Member
