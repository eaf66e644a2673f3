import ClassDiagram.Proofs.Source.Split

/-!
# Where an equals sign is spaced

A text with an operator run that has an equals sign is taken apart at the last one of the run
(`Assignment.standsAt_of_here?`), and there is no other way to take it apart
(`Assignment.StandsAt.here?_eq`). What the search makes of a text has the same first character apart
from blanks, and behind a text that begins with no blank a space comes to the front only together
with a plain equals sign.
-/

namespace ClassDiagram.Source

/-! ## The last equals sign -/

section Last

variable {t lead tail : Text}

theorem cutLastEquals?_eq_none_iff : cutLastEquals? t = none ↔ '=' ∉ t := by
  induction t with
  | nil => simp [cutLastEquals?]
  | cons c t ih =>
      rw [cutLastEquals?, List.mem_cons, not_or, ← ih]
      cases h : cutLastEquals? t with
      | some cut => simp
      | none =>
          by_cases hc : c = '='
          · simp [hc]
          · simp [hc, Ne.symm hc]

/-- Behind the sign at which a run is cut there is no other one. -/
theorem exists_of_cutLastEquals? (h : cutLastEquals? t = some (lead, tail)) :
    t = lead ++ '=' :: tail ∧ '=' ∉ tail := by
  induction t generalizing lead with
  | nil => cases h
  | cons c t ih =>
      rw [cutLastEquals?] at h
      cases hrest : cutLastEquals? t with
      | some cut =>
          rw [hrest] at h
          cases h
          obtain ⟨rfl, htail⟩ := ih hrest
          exact ⟨rfl, htail⟩
      | none =>
          simp only [hrest] at h
          split at h
          · rename_i hc
            cases h
            rw [beq_iff_eq] at hc
            exact ⟨by rw [hc, List.nil_append], cutLastEquals?_eq_none_iff.mp hrest⟩
          · cases h

theorem cutLastEquals?_append (htail : '=' ∉ tail) :
    cutLastEquals? (lead ++ '=' :: tail) = some (lead, tail) := by
  induction lead with
  | nil =>
      rw [List.nil_append, cutLastEquals?, cutLastEquals?_eq_none_iff.mpr htail]
      rfl
  | cons c lead ih => rw [List.cons_append, cutLastEquals?, ih]

end Last

/-! ## Assignments in a text -/

theorem isOperator_of_isBlank {c : Char} (h : Text.isBlank c = true) : isOperator c = false := by
  rw [← Bool.not_eq_true, isOperator, List.contains_iff_mem]
  intro hmem
  have hmarks : ∀ d ∈ "!<>=+-*/%&|^~".toList, Text.isBlank d = false := Text.forall_mem_of_all rfl
  rw [hmarks c hmem] at h
  cases h

theorem isBlank_of_isOperator {c : Char} (h : isOperator c = true) : Text.isBlank c = false := by
  rw [← Bool.not_eq_true]
  intro hblank
  rw [isOperator_of_isBlank hblank] at h
  cases h

theorem isTight_of_isOperator {c : Char} (h : isOperator c = true) : isTight c = false := by
  rw [← Bool.not_eq_true]
  intro htight
  rw [isOperator_of_isTight htight] at h
  cases h

namespace Assignment

variable {a : Assignment} {t : Text}

/-- The parts of an assignment make up a text: blanks, operator characters, an equals sign which
is the last one of its run, and the blanks behind it. -/
structure StandsAt (a : Assignment) (t : Text) : Prop where
  source : t = a.gap ++ (a.lead ++ '=' :: (a.trail ++ a.rest))
  gap : ∀ c ∈ a.gap, Text.isBlank c = true
  lead : ∀ c ∈ a.lead, isOperator c = true
  last : '=' ∉ (a.trail ++ a.rest).takeWhile isOperator
  trail : ∀ c ∈ a.trail, Text.isBlank c = true
  rest : a.rest.head?.any Text.isBlank = false

theorem here?_eq_none_iff :
    here? t = none ↔ '=' ∉ (Text.trimStart t).takeWhile isOperator := by
  rw [← cutLastEquals?_eq_none_iff, Text.trimStart, here?]
  dsimp only
  split
  · rename_i hcut
    simp [hcut]
  · rename_i hcut
    simp [hcut]

/-- The first character that is no blank begins the operator run. -/
theorem StandsAt.head?_sign (h : a.StandsAt t) :
    (a.lead ++ '=' :: (a.trail ++ a.rest)).head?.any Text.isBlank = false := by
  cases hlead : a.lead with
  | nil => rfl
  | cons c lead => exact isBlank_of_isOperator (h.lead c (by simp [hlead]))

theorem StandsAt.trimStart_eq (h : a.StandsAt t) :
    Text.trimStart t = a.lead ++ '=' :: (a.trail ++ a.rest) := by
  rw [h.source, Text.trimStart_append_of_blank h.gap, Text.trimStart_of_head? h.head?_sign]

theorem standsAt_of_here? (h : here? t = some a) : a.StandsAt t := by
  have hsource := source_here? h
  rw [here?] at h
  dsimp only at h
  split at h
  · cases h
  · rename_i lead tail hcut
    obtain ⟨hrun, htail⟩ := exists_of_cutLastEquals? hcut
    have hall : ∀ c ∈ lead ++ '=' :: tail, isOperator c = true := by
      rw [← hrun]
      exact List.all_eq_true.mp List.all_takeWhile
    cases h
    refine ⟨hsource.trans (by simp), List.all_eq_true.mp List.all_takeWhile, fun c hc => ?_, ?_,
      List.all_eq_true.mp List.all_takeWhile, Text.head?_trimStart _⟩
    · exact hall c (by simp [hc])
    · dsimp only
      rw [List.takeWhile_append_dropWhile, Text.takeWhile_stretch]
      · exact htail
      · exact fun c hc => hall c (by simp [hc])
      · cases hrest : (t.dropWhile Text.isBlank).dropWhile isOperator with
        | nil => rfl
        | cons c rest =>
            have hhead := List.head?_dropWhile_not isOperator (t.dropWhile Text.isBlank)
            rw [hrest] at hhead
            simpa using hhead

theorem StandsAt.here?_eq (h : a.StandsAt t) : here? t = some a := by
  have hgap : t.takeWhile Text.isBlank = a.gap := by
    rw [h.source]
    exact Text.takeWhile_stretch h.gap h.head?_sign
  have hstart : t.dropWhile Text.isBlank = a.lead ++ '=' :: (a.trail ++ a.rest) := h.trimStart_eq
  have hsign : isOperator '=' = true := rfl
  have hrun : (a.lead ++ '=' :: (a.trail ++ a.rest)).takeWhile isOperator =
      a.lead ++ '=' :: (a.trail ++ a.rest).takeWhile isOperator := by
    rw [List.takeWhile_append_of_pos h.lead, List.takeWhile_cons_of_pos hsign]
  have hbehind : (a.lead ++ '=' :: (a.trail ++ a.rest)).dropWhile isOperator =
      (a.trail ++ a.rest).dropWhile isOperator := by
    rw [List.dropWhile_append_of_pos h.lead, List.dropWhile_cons_of_pos hsign]
  rw [here?]
  dsimp only
  rw [hstart, hrun, cutLastEquals?_append h.last, hgap, hbehind]
  dsimp only
  rw [List.takeWhile_append_dropWhile, Text.takeWhile_stretch h.trail h.rest,
    Text.dropWhile_stretch h.trail h.rest]

/-- A plain equals sign has no operator character in front. -/
theorem spaced_plain (h : a.lead = []) : a.spaced = [' ', '=', ' '] := by
  rw [spaced, h]
  rfl

theorem spaced_compound (h : a.lead ≠ []) : a.spaced = a.gap ++ (a.lead ++ '=' :: a.trail) := by
  rw [spaced, if_neg (by simpa using h), List.append_assoc]

end Assignment

/-! ## The search for equals signs -/

section Search

variable {a : Assignment} {c : Char} {t : Text}

theorem spaceAssignments_standsAt (h : a.StandsAt t) :
    spaceAssignments t = a.spaced ++ spaceAssignments a.rest := by
  cases t with
  | nil =>
      have hsource := h.source
      simp at hsource
  | cons c t => exact spaceAssignments_cons_some h.here?_eq

/-- The first character that is no blank stays the first one. -/
theorem head?_trimStart_spaceAssignments (t : Text) :
    (Text.trimStart (spaceAssignments t)).head? = (Text.trimStart t).head? := by
  have hfirst (s : Text) : (Text.trimStart s).head? = (inked s).head? := by
    rw [inked, List.head?_filter, Text.trimStart]
    induction s with
    | nil => rfl
    | cons c s ih =>
        cases hc : Text.isBlank c with
        | true => rw [List.dropWhile_cons_of_pos hc, List.find?_cons_of_neg (by simp [hc]), ih]
        | false =>
            rw [List.dropWhile_cons_of_neg (by simp [hc]), List.find?_cons_of_pos (by simp [hc])]
            rfl
  rw [hfirst, hfirst, inked_spaceAssignments]

/-- A blank at which no assignment stands is copied. -/
theorem trimStart_spaceAssignments (h : Assignment.here? t = none) :
    Text.trimStart (spaceAssignments t) = spaceAssignments (Text.trimStart t) := by
  induction t with
  | nil => rw [spaceAssignments_nil, Text.trimStart]; exact spaceAssignments_nil.symm
  | cons c t ih =>
      rw [spaceAssignments_cons_none h]
      cases hc : Text.isBlank c with
      | true =>
          rw [Text.trimStart_blank hc, Text.trimStart_blank hc, ih]
          rwa [Assignment.here?_eq_none_iff, Text.trimStart_blank hc,
            ← Assignment.here?_eq_none_iff] at h
      | false =>
          rw [Text.trimStart_of_head? (t := c :: spaceAssignments t) hc,
            Text.trimStart_of_head? (t := c :: t) hc, spaceAssignments_cons_none h]

/-- No space comes to the front where no assignment stands. -/
theorem head?_spaceAssignments_of_none (ht : t.head?.any Text.isBlank = false)
    (h : Assignment.here? t = none) : (spaceAssignments t).head?.any Text.isBlank = false := by
  have htrim := trimStart_spaceAssignments h
  rw [Text.trimStart_of_head? ht] at htrim
  rw [← htrim]
  exact Text.head?_trimStart _

/-- A blank at the front stays there, or a space comes in its place. -/
theorem exists_blank_spaceAssignments (hc : Text.isBlank c = true) (t : Text) :
    ∃ d s, spaceAssignments (c :: t) = d :: s ∧ Text.isBlank d = true := by
  cases hhere : Assignment.here? (c :: t) with
  | none => exact ⟨c, _, spaceAssignments_cons_none hhere, hc⟩
  | some a =>
      have hstands := Assignment.standsAt_of_here? hhere
      rw [spaceAssignments_cons_some hhere]
      by_cases hlead : a.lead = []
      · rw [Assignment.spaced_plain hlead]
        exact ⟨' ', _, rfl, rfl⟩
      · rw [Assignment.spaced_compound hlead]
        cases hgap : a.gap with
        | nil =>
            have hsign := hstands.head?_sign
            have hsource := hstands.source
            rw [hgap, List.nil_append] at hsource
            rw [← hsource] at hsign
            rw [show Text.isBlank c = false from hsign] at hc
            cases hc
        | cons d gap => exact ⟨d, _, rfl, hstands.gap d (by simp [hgap])⟩

/-- A space that comes to the front is that of a plain equals sign. -/
theorem exists_of_spaceAssignments_eq (ht : t.head?.any Text.isBlank = false) {back : Text}
    (h : spaceAssignments t = ' ' :: back) : ∃ behind, back = '=' :: ' ' :: behind := by
  cases hhere : Assignment.here? t with
  | none =>
      have hhead := head?_spaceAssignments_of_none ht hhere
      rw [h] at hhead
      cases hhead
  | some a =>
      have hstands := Assignment.standsAt_of_here? hhere
      rw [spaceAssignments_standsAt hstands] at h
      cases hlead : a.lead with
      | nil =>
          rw [Assignment.spaced_plain hlead] at h
          cases h
          exact ⟨_, rfl⟩
      | cons d lead =>
          -- the space would stand in the gap, and the text begins with no blank
          have hd := isBlank_of_isOperator (hstands.lead d (by simp [hlead]))
          have hgap : a.gap = [] := by
            cases t with
            | nil => cases hhere
            | cons c t => exact Assignment.gap_of_here? ht hhere
          rw [Assignment.spaced_compound (by simp [hlead]), hgap, hlead] at h
          cases h
          cases hd

end Search

end ClassDiagram.Source
