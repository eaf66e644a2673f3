import ClassDiagram.Proofs.Source.Blank
import ClassDiagram.Proofs.Source.Squeeze

/-!
# The canonical spacing of a dense text

Where a space stands in a dense text is decided by its neighbours, by the operator run behind it,
and by whether an operator character stands in front of them (`LaidOut`). Spacing the equals signs
of a squeezed text lays out every place of it (`laidOut_spaceAssignments`): a copied character has
no new neighbours but the spaces of a plain equals sign. From there the spacing of the whole
text is read off (`canonical_normalize`).
-/

namespace ClassDiagram.Source

/-- An equals sign between these is plain: no operator character stands in front of it, and
there is no other equals sign in its operator run. -/
def PlainSign (before : Option Char) (behind : Text) : Prop :=
  before.any isOperator = false ∧ '=' ∉ behind.takeWhile isOperator

/-- The spacing of a dense text. Its blanks are spaces inside the text. There are at most two of
them in a row, and two only between an operator run that ends in an equals sign and a plain equals
sign. A plain equals sign has a space on each side, except at the ends of the text, and every space
next to a tight mark is one of these. -/
structure Canonical (n : Text) : Prop where
  blank : Text.Spaced n
  first : n.head?.any Text.isBlank = false
  last : n.getLast?.any Text.isBlank = false
  atMostTwo : ∀ front back, n ≠ front ++ ' ' :: ' ' :: ' ' :: back
  double : ∀ front back, n = front ++ ' ' :: ' ' :: back →
    front.getLast? = some '=' ∧ ∃ behind, back = '=' :: behind ∧ PlainSign (some ' ') behind
  sign : ∀ front behind, n = front ++ '=' :: behind → PlainSign front.getLast? behind →
    (front = [] ∨ front.getLast? = some ' ') ∧ (behind = [] ∨ behind.head? = some ' ')
  tight : ∀ front back, n = front ++ ' ' :: back →
    front.getLast?.any isTight = true ∨ back.head?.any isTight = true →
    (∃ behind, back = '=' :: behind ∧ PlainSign (some ' ') behind) ∨
      ∃ s, front = s ++ ['='] ∧ PlainSign s.getLast? (' ' :: back)

/-! ## Places of a text -/

/-- A property of all places of a text, which says something about the character before a place
and the text behind it. -/
def Throughout (P : Option Char → Text → Prop) (before : Option Char) : Text → Prop
  | [] => P before []
  | c :: t => P before (c :: t) ∧ Throughout P (some c) t

section Throughout

variable {P : Option Char → Text → Prop} {before : Option Char} {t front back : Text}

theorem Throughout.here (h : Throughout P before t) : P before t := by
  cases t with
  | nil => exact h
  | cons c t => exact h.1

theorem Throughout.behind (h : Throughout P before (front ++ back)) :
    P (front.getLast?.or before) back := by
  induction front generalizing before with
  | nil => exact h.here
  | cons c front ih =>
      have hrest := ih h.2
      rw [List.getLast?_cons]
      cases hlast : front.getLast? with
      | none => simpa [hlast] using hrest
      | some d => simpa [hlast] using hrest

end Throughout

/-- What the spacing of equals signs says about one place of a text. -/
structure LaidOut (before : Option Char) (t : Text) : Prop where
  double : ∀ back, t = ' ' :: ' ' :: back →
    before = some '=' ∧ ∃ behind, back = '=' :: ' ' :: behind
  sign : ∀ behind, t = '=' :: behind → PlainSign before behind →
    before = some ' ' ∧ behind.head? = some ' '
  behindMark : ∀ mark back, t = mark :: ' ' :: back → isTight mark = true →
    ∃ behind, back = '=' :: ' ' :: behind
  beforeMark : ∀ c mark back, t = c :: ' ' :: mark :: back → isTight mark = true →
    c = '=' ∧ before.any isOperator = false

/-! ## The places of an arrangement -/

section Copied

variable {before : Option Char} {tight : Bool} {c : Char} {t back : Text}

theorem laidOut_nil : LaidOut before [] where
  double _ h := by cases h
  sign _ h := by cases h
  behindMark _ _ h := by cases h
  beforeMark _ _ _ h := by cases h

/-- Spacing puts no tight mark in front of a text. -/
theorem isTight_of_spaceAssignments {s : Text} (hs : ∀ d ∈ s, Text.isBlank d = true)
    (hnone : (Text.trimStart t).head?.any isTight = false)
    (hspaced : spaceAssignments t = s ++ c :: back) : isTight c = false := by
  rw [← Bool.not_eq_true]
  intro hc
  have hself : Text.trimStart (c :: back) = c :: back :=
    Text.trimStart_of_head? (isBlank_of_isTight hc)
  rw [← head?_trimStart_spaceAssignments, hspaced, Text.trimStart_append_of_blank hs, hself]
    at hnone
  exact absurd hc (Bool.eq_false_iff.mp hnone)

/-- No new space comes in front of a tight mark. -/
theorem Squeezed.not_isTight (h : Squeezed tight t) {mark : Char}
    (hspaced : spaceAssignments t = ' ' :: mark :: back) : isTight mark = false := by
  cases h with
  | nil =>
      rw [spaceAssignments_nil] at hspaced
      cases hspaced
  | @char _ c t hc h =>
      obtain ⟨behind, hbehind⟩ := exists_of_spaceAssignments_eq (t := c :: t) hc hspaced
      cases hbehind
      rfl
  | @space t hblank hnone h =>
      refine isTight_of_spaceAssignments (List.forall_mem_singleton.mpr rfl) ?_ hspaced
      rwa [Text.trimStart_blank rfl, Text.trimStart_of_head? hblank]

/-- A character that is copied. -/
theorem laidOut_copied (h : Squeezed tight (c :: t)) (hhere : Assignment.here? (c :: t) = none) :
    LaidOut before (c :: spaceAssignments t) where
  double back heq := by
    obtain ⟨rfl, hspaced⟩ := List.cons.inj heq
    cases h with
    | char hc => cases hc
    | space hblank _ _ =>
        have hrest : Assignment.here? t = none := by
          rwa [Assignment.here?_eq_none_iff, Text.trimStart_blank rfl,
            ← Assignment.here?_eq_none_iff] at hhere
        have hhead := head?_spaceAssignments_of_none hblank hrest
        rw [hspaced] at hhead
        cases hhead
  sign behind heq _ := by
    obtain ⟨rfl, -⟩ := List.cons.inj heq
    rw [Assignment.here?_eq_none_iff, Text.trimStart_of_head? (t := '=' :: t) rfl,
      List.takeWhile_cons_of_pos rfl] at hhere
    exact absurd List.mem_cons_self hhere
  behindMark mark back heq hmark := by
    obtain ⟨rfl, hspaced⟩ := List.cons.inj heq
    have hrest := h.tail (isBlank_of_isTight hmark)
    rw [hmark] at hrest
    exact exists_of_spaceAssignments_eq hrest.head?_blank hspaced
  beforeMark d mark back heq hmark := by
    obtain ⟨rfl, hspaced⟩ := List.cons.inj heq
    obtain ⟨flag, hrest⟩ := h.exists_tail
    rw [hrest.not_isTight hspaced] at hmark
    cases hmark

end Copied

section Sign

variable {before : Option Char} {c d : Char} {t behind : Text} {a : Assignment}

/-- The space in front of an operator character. -/
theorem laidOut_space_before (hc : isOperator c = true) (t : Text) :
    LaidOut before (' ' :: c :: t) where
  double _ h := by
    cases h
    cases hc
  sign _ h := by cases h
  behindMark _ _ h hmark := by
    cases h
    cases hmark
  beforeMark _ _ _ h := by
    cases h
    cases hc

/-- The space behind an equals sign. -/
theorem laidOut_space_behind (ht : t.head?.any Text.isBlank = false) :
    LaidOut (some '=') (' ' :: spaceAssignments t) where
  double back h := ⟨rfl, exists_of_spaceAssignments_eq ht (List.cons.inj h).2⟩
  sign _ h := by cases h
  behindMark _ _ h hmark := by
    obtain ⟨rfl, -⟩ := List.cons.inj h
    cases hmark
  beforeMark _ mark back h hmark := by
    have hspaced := (List.cons.inj h).2
    obtain ⟨_, hbehind⟩ := exists_of_spaceAssignments_eq ht hspaced
    cases hbehind
    cases hmark

/-- A plain equals sign between its spaces. -/
theorem laidOut_plain (t : Text) : LaidOut (some ' ') ('=' :: ' ' :: t) where
  double _ h := by cases h
  sign _ h _ := by
    cases h
    exact ⟨rfl, rfl⟩
  behindMark _ _ h hmark := by
    cases h
    cases hmark
  beforeMark _ _ _ h _ := by
    cases h
    exact ⟨rfl, rfl⟩

/-- An operator character with an equals sign behind it in its run. -/
theorem laidOut_operator (hc : isOperator c = true) (hd : isOperator d = true)
    (hlast : '=' ∈ (d :: t).takeWhile isOperator) : LaidOut before (c :: d :: t) where
  double _ h := by
    cases h
    cases hc
  sign _ h hplain := by
    cases h
    exact absurd hlast hplain.2
  behindMark _ _ h := by
    cases h
    cases hd
  beforeMark _ _ _ h := by
    cases h
    cases hd

/-- The last equals sign of a run in front of which an operator character stands. -/
theorem laidOut_last (hc : isOperator c = true)
    (hmark : ∀ mark back, t = ' ' :: mark :: back → isTight mark = false) :
    LaidOut (some c) ('=' :: t) where
  double _ h := by cases h
  sign _ _ hplain := by
    have hnone := hplain.1
    rw [Option.any_some, hc] at hnone
    cases hnone
  behindMark _ _ h htight := by
    obtain ⟨rfl, -⟩ := List.cons.inj h
    cases htight
  beforeMark _ mark back h htight := by
    have hnone := hmark mark back (List.cons.inj h).2
    rw [htight] at hnone
    cases hnone

/-- The sign of a comparison or a compound assignment has no tight mark behind its space. -/
theorem isTight_behind (ha : a.StandsAt t)
    (htrail : a.trail = [] ∨ a.trail = [' '] ∧ a.rest.head?.any isTight = false) {mark : Char}
    {back : Text} (h : a.trail ++ spaceAssignments a.rest = ' ' :: mark :: back) :
    isTight mark = false := by
  rcases htrail with hnil | ⟨htrail, hnone⟩
  · have hlast := ha.last
    rw [hnil, List.nil_append] at h hlast
    have hhere : Assignment.here? a.rest = none := by
      rwa [Assignment.here?_eq_none_iff, Text.trimStart_of_head? ha.rest]
    have hhead := head?_spaceAssignments_of_none ha.rest hhere
    rw [h] at hhead
    cases hhead
  · rw [htrail, List.singleton_append] at h
    refine isTight_of_spaceAssignments (s := []) (by simp) ?_ (List.cons.inj h).2
    rwa [Text.trimStart_of_head? ha.rest]

/-- An operator run with its last equals sign. -/
theorem throughout_run {lead behind : Text} (hlead : ∀ c ∈ lead, isOperator c = true)
    (hlast : ∀ c, isOperator c = true → Throughout LaidOut (some c) ('=' :: behind))
    (hne : lead ≠ []) (before : Option Char) :
    Throughout LaidOut before (lead ++ '=' :: behind) := by
  induction lead generalizing before with
  | nil => exact absurd rfl hne
  | cons c lead ih =>
      have hc := hlead c (by simp)
      cases lead with
      | nil =>
          refine ⟨laidOut_operator hc rfl ?_, hlast c hc⟩
          rw [List.takeWhile_cons_of_pos rfl]
          exact List.mem_cons_self
      | cons d lead =>
          have hrest : ∀ e ∈ d :: lead, isOperator e = true :=
            fun e he => hlead e (List.mem_cons_of_mem _ he)
          have hmem : '=' ∈ ((d :: lead) ++ '=' :: behind).takeWhile isOperator := by
            rw [List.takeWhile_append_of_pos hrest, List.takeWhile_cons_of_pos rfl]
            simp
          exact ⟨laidOut_operator hc (hrest d (by simp)) hmem, ih hrest (List.cons_ne_nil _ _) _⟩

end Sign

/-- Every place of an arrangement is laid out. -/
theorem laidOut_spaceAssignments {tight : Bool} {t : Text} (h : Squeezed tight t)
    (before : Option Char) : Throughout LaidOut before (spaceAssignments t) := by
  fun_induction spaceAssignments t generalizing tight before with
  | case1 => exact laidOut_nil
  | case2 c t a hhere ih =>
      have ha := Assignment.standsAt_of_here? hhere
      obtain ⟨hgap, htrail, hrest⟩ := h.assignment ha
      have hbehind : Throughout LaidOut (some '=') (' ' :: spaceAssignments a.rest) :=
        ⟨laidOut_space_behind ha.rest, ih hrest _⟩
      by_cases hlead : a.lead = []
      · rw [Assignment.spaced_plain hlead]
        exact ⟨laidOut_space_before rfl _, laidOut_plain _, hbehind⟩
      · have hrun (before : Option Char) : Throughout LaidOut before
            (a.lead ++ '=' :: (a.trail ++ spaceAssignments a.rest)) := by
          refine throughout_run ha.lead (fun d hd => ⟨laidOut_last hd fun _ _ => ?_, ?_⟩) hlead
            before
          · exact isTight_behind ha htrail
          · rcases htrail with hnil | ⟨htrail, -⟩
            · rw [hnil]
              exact ih hrest _
            · rw [htrail]
              exact hbehind
        rw [Assignment.spaced_compound hlead, List.append_assoc, List.append_assoc,
          List.cons_append]
        rcases hgap with hnil | ⟨hgap, -⟩
        · rw [hnil]
          exact hrun before
        · obtain ⟨d, lead, hd⟩ := List.exists_cons_of_ne_nil hlead
          have hoperator := ha.lead d (by simp [hd])
          rw [hgap]
          refine ⟨?_, hrun _⟩
          rw [hd]
          exact laidOut_space_before hoperator _
  | case3 c t hhere ih =>
      obtain ⟨flag, hrest⟩ := h.exists_tail
      exact ⟨laidOut_copied h hhere, ih hrest _⟩

/-! ## The spacing of the whole text -/

section Trim

variable {leading n trailing front back : Text}

/-- Behind a space a plain equals sign comes, and a space behind it unless the text ends. -/
theorem exists_plain (h : ∃ behind, back ++ trailing = '=' :: ' ' :: behind) (hne : back ≠ []) :
    ∃ behind, back = '=' :: behind ∧ PlainSign (some ' ') behind := by
  obtain ⟨behind, hsplit⟩ := h
  obtain ⟨c, back, rfl⟩ := List.exists_cons_of_ne_nil hne
  obtain ⟨rfl, hrest⟩ := List.cons.inj hsplit
  refine ⟨back, rfl, rfl, ?_⟩
  cases back with
  | nil => exact List.not_mem_nil
  | cons d back =>
      obtain ⟨rfl, -⟩ := List.cons.inj hrest
      exact List.not_mem_nil

/-- Blanks in front of a text are no operator characters. -/
theorem any_getLast?_blanks (hleading : ∀ c ∈ leading, Text.isBlank c = true) (front : Text) :
    (leading ++ front).getLast?.any isOperator = front.getLast?.any isOperator := by
  rw [List.getLast?_append]
  cases front.getLast? with
  | some c => rfl
  | none =>
      cases hlast : leading.getLast? with
      | none => rfl
      | some c => exact isOperator_of_isBlank (hleading c (List.mem_of_getLast? hlast))

/-- A text between blanks, with all places laid out, that neither begins nor ends with a blank. -/
structure Framed (leading n trailing : Text) : Prop where
  places : Throughout LaidOut none (leading ++ (n ++ trailing))
  leading : ∀ c ∈ leading, Text.isBlank c = true
  trailing : ∀ c ∈ trailing, Text.isBlank c = true
  first : n.head?.any Text.isBlank = false
  last : n.getLast?.any Text.isBlank = false

namespace Framed

theorem place (h : Framed leading n trailing) (hsplit : n = front ++ back) :
    LaidOut (leading ++ front).getLast? (back ++ trailing) := by
  have hplaces := h.places
  rw [hsplit, List.append_assoc, ← List.append_assoc] at hplaces
  simpa using hplaces.behind

theorem behind_ne_nil (h : Framed leading n trailing) (hsplit : n = front ++ ' ' :: back) :
    back ≠ [] := by
  rintro rfl
  have hlast := h.last
  rw [hsplit, List.getLast?_concat] at hlast
  cases hlast

theorem front_ne_nil (h : Framed leading n trailing) (hsplit : n = front ++ ' ' :: back) :
    front ≠ [] := by
  rintro rfl
  have hfirst := h.first
  rw [hsplit] at hfirst
  cases hfirst

theorem double (h : Framed leading n trailing) (hsplit : n = front ++ ' ' :: ' ' :: back) :
    front.getLast? = some '=' ∧ ∃ behind, back = '=' :: behind ∧ PlainSign (some ' ') behind := by
  obtain ⟨hbefore, hbehind⟩ := (h.place hsplit).double _ rfl
  have hback : n = (front ++ [' ']) ++ ' ' :: back := by simpa using hsplit
  refine ⟨?_, exists_plain hbehind (h.behind_ne_nil hback)⟩
  rwa [List.getLast?_append, List.getLast?_eq_some_getLast (h.front_ne_nil hsplit), Option.some_or,
    ← List.getLast?_eq_some_getLast] at hbefore

theorem sign (h : Framed leading n trailing) {behind : Text} (hsplit : n = front ++ '=' :: behind)
    (hplain : PlainSign front.getLast? behind) :
    (front = [] ∨ front.getLast? = some ' ') ∧ (behind = [] ∨ behind.head? = some ' ') := by
  have hnone : (leading ++ front).getLast?.any isOperator = false := by
    rw [any_getLast?_blanks h.leading]
    exact hplain.1
  have hrun : '=' ∉ (behind ++ trailing).takeWhile isOperator := by
    rw [takeWhile_append_blanks h.trailing]
    exact hplain.2
  obtain ⟨hbefore, hbehind⟩ := (h.place hsplit).sign _ rfl ⟨hnone, hrun⟩
  constructor
  · rw [List.getLast?_append] at hbefore
    cases hfront : front.getLast? with
    | none => exact .inl (List.getLast?_eq_none_iff.mp hfront)
    | some c => exact .inr (by simpa [hfront] using hbefore)
  · cases behind with
    | nil => exact .inl rfl
    | cons c behind => exact .inr hbehind

/-- A space behind a tight mark belongs to a plain equals sign behind it. -/
theorem behindMark (h : Framed leading n trailing) (hsplit : n = front ++ ' ' :: back)
    (hmark : front.getLast?.any isTight = true) :
    ∃ behind, back = '=' :: behind ∧ PlainSign (some ' ') behind := by
  obtain ⟨s, mark, rfl⟩ : ∃ s mark, front = s ++ [mark] :=
    ⟨_, _, (List.dropLast_concat_getLast (h.front_ne_nil hsplit)).symm⟩
  rw [List.getLast?_concat] at hmark
  have hplace : n = s ++ mark :: ' ' :: back := by simpa using hsplit
  exact exists_plain ((h.place hplace).behindMark mark _ rfl hmark) (h.behind_ne_nil hsplit)

/-- A space in front of a tight mark belongs to a plain equals sign in front of it. -/
theorem beforeMark (h : Framed leading n trailing) (hsplit : n = front ++ ' ' :: back)
    (hmark : back.head?.any isTight = true) :
    ∃ s, front = s ++ ['='] ∧ PlainSign s.getLast? (' ' :: back) := by
  obtain ⟨s, c, rfl⟩ : ∃ s c, front = s ++ [c] :=
    ⟨_, _, (List.dropLast_concat_getLast (h.front_ne_nil hsplit)).symm⟩
  obtain ⟨mark, back, rfl⟩ := List.exists_cons_of_ne_nil (h.behind_ne_nil hsplit)
  have hplace : n = s ++ c :: ' ' :: mark :: back := by simpa using hsplit
  obtain ⟨rfl, hnone⟩ := (h.place hplace).beforeMark c mark (back ++ trailing) rfl hmark
  rw [any_getLast?_blanks h.leading] at hnone
  exact ⟨s, rfl, hnone, List.not_mem_nil⟩

theorem canonical (h : Framed leading n trailing) (hblank : Text.Spaced n) : Canonical n where
  blank := hblank
  first := h.first
  last := h.last
  atMostTwo front back hsplit := by
    obtain ⟨-, _, hbehind, -⟩ := h.double hsplit
    cases hbehind
  double _ _ := h.double
  sign _ _ := h.sign
  tight _ _ hsplit := Or.imp (h.behindMark hsplit) (h.beforeMark hsplit)

end Framed

end Trim

/-- The spacing of a dense text is canonical. -/
theorem canonical_normalize (t : Text) : Canonical (normalize t) := by
  obtain ⟨trailing, hsplit, hblanks⟩ := Text.exists_trim (arrange false (dropAllClauses t))
  obtain ⟨hleading, htrailing⟩ := List.forall_mem_append.mp hblanks
  have hplaces : Throughout LaidOut none (arrange false (dropAllClauses t)) :=
    laidOut_spaceAssignments (.of_squeeze false _) none
  rw [hsplit] at hplaces
  have hframed : Framed _ (normalize t) trailing := ⟨hplaces, hleading, htrailing,
    Text.head?_trimEnd (Text.head?_trimStart _), Text.getLast?_trimEnd _⟩
  exact hframed.canonical (spaced_normalize t)

end ClassDiagram.Source
