import ClassDiagram.Proofs.Source.Split
import Mathlib.Logic.Relation

/-!
# Taking comments out of a text

A comment is taken out where the first marker stands, and the search goes on at the seam. It
never looks back, and it need not: the text in front of a marker does not end in a slash, since
that slash would be the first character of a marker in front (`Unmarked.append`). So the text
edited in place is what a single pass over the original text copies, and no marker is left in it
(`stripComments_single_pass`).
-/

namespace ClassDiagram.Source

/-- The text has no marker of a comment. -/
def Unmarked (t : Text) : Prop := ¬"//".toList <:+: t ∧ ¬"/*".toList <:+: t

/-- A comment with the text behind it. It begins with its marker. A line comment ends in front
of the next line feed, a block comment behind the first `*/` that begins behind the marker, and
either ends with the text when there is none. -/
inductive IsComment : Text → Text → Prop where
  | line {body rest : Text} (hbody : '\n' ∉ body) (hrest : rest.head?.all (· == '\n') = true) :
      IsComment ('/' :: '/' :: body) rest
  | block {body rest : Text} (hbody : ¬"*/".toList <:+: body ++ ['*']) :
      IsComment ('/' :: '*' :: (body ++ "*/".toList)) rest
  | unclosed {body : Text} (hbody : ¬"*/".toList <:+: body) : IsComment ('/' :: '*' :: body) []

/-- A pass over a text from left to right, with what it gives: all up to the next marker is
copied, the comment there is skipped, and the pass goes on behind it. The slash behind the copied
text is that of the marker. -/
inductive Pass : Text → Text → Prop where
  | done {t : Text} (h : Unmarked t) : Pass t t
  | skip {copied comment rest out : Text} (hcopied : Unmarked (copied ++ ['/']))
      (hcomment : IsComment comment rest) (h : Pass rest out) :
      Pass (copied ++ (comment ++ rest)) (copied ++ out)

/-- One deletion in place, on the text in front of the cursor and the text behind it: the first
comment behind the cursor goes, and the cursor moves to the seam. -/
inductive Deletes : Text × Text → Text × Text → Prop where
  | comment {front copied comment rest : Text} (hcopied : Unmarked (copied ++ ['/']))
      (hcomment : IsComment comment rest) :
      Deletes (front, copied ++ (comment ++ rest)) (front ++ copied, rest)

/-! ## Markers -/

section Marker

variable {c : Char} {s t : Text}

theorem opensComment_cons :
    opensComment (c :: t) = true ↔ c = '/' ∧ (t.head? = some '/' ∨ t.head? = some '*') := by
  rw [opensComment.eq_def]
  split
  · rename_i heq
    cases heq
    simp
  · rename_i heq
    cases heq
    simp
  · rename_i hline hblock
    refine ⟨fun h => absurd h Bool.false_ne_true, ?_⟩
    rintro ⟨rfl, hhead | hhead⟩
    · obtain ⟨u, rfl⟩ := List.head?_eq_some_iff.mp hhead
      exact absurd rfl (hline u)
    · obtain ⟨u, rfl⟩ := List.head?_eq_some_iff.mp hhead
      exact absurd rfl (hblock u)

theorem opensComment_iff : opensComment t = true ↔ "//".toList <+: t ∨ "/*".toList <+: t := by
  constructor
  · intro h
    rw [opensComment.eq_def] at h
    split at h
    · exact .inl (List.prefix_append _ _)
    · exact .inr (List.prefix_append _ _)
    · cases h
  · rintro (⟨u, rfl⟩ | ⟨u, rfl⟩) <;> rfl

theorem unmarked_nil : Unmarked [] := by
  constructor <;> intro h <;> cases List.eq_nil_of_infix_nil h

theorem unmarked_cons : Unmarked (c :: t) ↔ opensComment (c :: t) = false ∧ Unmarked t := by
  rw [← Bool.not_eq_true, opensComment_iff, Unmarked, Unmarked, List.infix_cons_iff,
    List.infix_cons_iff, not_or, not_or, not_or, and_and_and_comm]

/-- A marker has two characters. -/
theorem opensComment_congr (h : s.head? = t.head?) :
    opensComment (c :: s) = opensComment (c :: t) := by
  rw [Bool.eq_iff_iff, opensComment_cons, opensComment_cons, h]

/-- What begins no marker in front of a slash begins none in front of anything. -/
theorem opensComment_append (h : opensComment (c :: (s ++ ['/'])) = false) (t : Text) :
    opensComment (c :: (s ++ t)) = false := by
  cases s with
  | nil =>
      have hc : c ≠ '/' := by
        rintro rfl
        cases h
      rw [← Bool.not_eq_true, opensComment_cons]
      exact fun hmark => hc hmark.1
  | cons d s =>
      rw [← h]
      exact opensComment_congr rfl

/-- Copied text does not end in a slash, so no marker begins in it, whatever follows. -/
theorem Unmarked.append (hs : Unmarked (s ++ ['/'])) (ht : Unmarked t) : Unmarked (s ++ t) := by
  induction s with
  | nil => exact ht
  | cons c s ih =>
      obtain ⟨hmark, hrest⟩ := unmarked_cons.mp hs
      exact unmarked_cons.mpr ⟨opensComment_append hmark t, ih hrest⟩

/-- A text with a marker has a first one. -/
theorem exists_first_marker (h : ¬Unmarked t) :
    ∃ copied s, t = copied ++ '/' :: s ∧ Unmarked (copied ++ ['/']) ∧
      opensComment ('/' :: s) = true := by
  induction t with
  | nil => exact absurd unmarked_nil h
  | cons c t ih =>
      cases hmark : opensComment (c :: t) with
      | true =>
          obtain ⟨rfl, -⟩ := opensComment_cons.mp hmark
          exact ⟨[], t, rfl, unmarked_cons.mpr ⟨rfl, unmarked_nil⟩, hmark⟩
      | false =>
          rw [unmarked_cons, not_and] at h
          obtain ⟨copied, s, rfl, hcopied, hs⟩ := ih (h hmark)
          refine ⟨c :: copied, s, rfl, unmarked_cons.mpr ⟨?_, hcopied⟩, hs⟩
          rw [← hmark]
          exact opensComment_congr (by cases copied <;> rfl)

end Marker

/-! ## The end of a comment -/

section Block

variable {body t : Text}

/-- The text behind a block comment that is closed. -/
theorem afterBlock_append (hbody : ¬"*/".toList <:+: body ++ ['*']) (rest : Text) :
    afterBlock (body ++ ("*/".toList ++ rest)) = rest := by
  induction body with
  | nil => rfl
  | cons c body ih =>
      rw [List.cons_append, List.infix_cons_iff, not_or] at hbody
      rw [List.cons_append, afterBlock]
      · exact ih hbody.2
      · rintro u rfl hu
        apply hbody.1
        cases body with
        | nil => cases hu
        | cons d body =>
            cases hu
            exact ⟨_, rfl⟩

/-- A block comment that is not closed has nothing behind it. -/
theorem afterBlock_unclosed (hbody : ¬"*/".toList <:+: body) : afterBlock body = [] := by
  fun_induction afterBlock body with
  | case1 t => exact absurd (List.prefix_append ['*', '/'] t).isInfix hbody
  | case2 c t _ ih => exact ih fun h => hbody (List.infix_cons h)
  | case3 => rfl

/-- Every block comment is closed or not. -/
theorem exists_block (t : Text) :
    (∃ body rest, t = body ++ ("*/".toList ++ rest) ∧ ¬"*/".toList <:+: body ++ ['*']) ∨
      ¬"*/".toList <:+: t := by
  fun_induction afterBlock t with
  | case1 t => exact .inl ⟨[], t, rfl, by decide⟩
  | case2 c t hclose ih =>
      have hopen {u : Text} (hu : u.head? = t.head?) : ¬"*/".toList <+: c :: u := by
        rintro ⟨v, hv⟩
        cases hv
        obtain ⟨w, rfl⟩ := List.head?_eq_some_iff.mp hu.symm
        exact hclose w rfl rfl
      rcases ih with ⟨body, rest, rfl, hbody⟩ | hnone
      · refine .inl ⟨c :: body, rest, rfl, ?_⟩
        rw [List.cons_append, List.infix_cons_iff, not_or]
        refine ⟨hopen ?_, hbody⟩
        rw [List.head?_append, List.head?_append]
        rfl
      · refine .inr ?_
        rw [List.infix_cons_iff, not_or]
        exact ⟨hopen rfl, hnone⟩
  | case3 => exact .inr (by decide)

end Block

/-! ## One comment -/

section Comment

variable {copied comment rest s t : Text}

/-- A text without markers has nothing to lose. -/
theorem stripComments_eq_self (h : Unmarked t) : stripComments t = t := by
  induction t with
  | nil => rw [stripComments]
  | cons c t ih =>
      obtain ⟨hmark, hrest⟩ := unmarked_cons.mp h
      rw [stripComments_cons_of_not hmark, ih hrest]

theorem stripComments_copied (h : Unmarked (copied ++ ['/'])) (t : Text) :
    stripComments (copied ++ t) = copied ++ stripComments t := by
  induction copied with
  | nil => rfl
  | cons c copied ih =>
      obtain ⟨hmark, hrest⟩ := unmarked_cons.mp h
      rw [List.cons_append, stripComments_cons_of_not (opensComment_append hmark t), ih hrest,
        List.cons_append]

/-- A comment leaves nothing behind. -/
theorem IsComment.stripComments_append (h : IsComment comment rest) :
    stripComments (comment ++ rest) = stripComments rest := by
  cases h with
  | line hbody hrest =>
      rename_i body
      have hline : afterLine (body ++ rest) = rest := by
        refine Text.dropWhile_stretch (fun c hc => ?_) ?_
        · simpa using ne_of_mem_of_not_mem hc hbody
        · cases rest with
          | nil => rfl
          | cons c rest => simpa using hrest
      rw [List.cons_append, List.cons_append, stripComments, hline]
  | block hbody =>
      rw [List.cons_append, List.cons_append, stripComments, List.append_assoc,
        afterBlock_append hbody]
  | unclosed hbody =>
      rw [List.append_nil, stripComments, afterBlock_unclosed hbody]

/-- A comment begins at every marker. -/
theorem exists_comment (h : opensComment ('/' :: s) = true) :
    ∃ comment rest, '/' :: s = comment ++ rest ∧ IsComment comment rest := by
  obtain ⟨-, hhead | hhead⟩ := opensComment_cons.mp h
  · obtain ⟨u, rfl⟩ := List.head?_eq_some_iff.mp hhead
    have hsplit := List.takeWhile_append_dropWhile (p := (· != '\n')) (l := u)
    refine ⟨'/' :: '/' :: u.takeWhile (· != '\n'), u.dropWhile (· != '\n'), ?_, .line ?_ ?_⟩
    · rw [List.cons_append, List.cons_append, hsplit]
    · intro hmem
      exact absurd (List.all_eq_true.mp List.all_takeWhile _ hmem) (by decide)
    · have hnot := List.head?_dropWhile_not (· != '\n') u
      cases hdrop : u.dropWhile (· != '\n') with
      | nil => rfl
      | cons c rest =>
          rw [hdrop] at hnot
          simpa using hnot
  · obtain ⟨u, rfl⟩ := List.head?_eq_some_iff.mp hhead
    rcases exists_block u with ⟨body, rest, rfl, hbody⟩ | hbody
    · refine ⟨'/' :: '*' :: (body ++ "*/".toList), rest, ?_, .block hbody⟩
      rw [List.cons_append, List.cons_append, List.append_assoc]
    · exact ⟨'/' :: '*' :: u, [], (List.append_nil _).symm, .unclosed hbody⟩

theorem IsComment.length_lt (h : IsComment comment rest) :
    rest.length < (comment ++ rest).length := by
  rw [List.length_append]
  cases h <;> simp only [List.length_cons] <;> omega

end Comment

/-! ## A pass and an edit in place -/

section Run

variable {s t out : Text} {front : Text}

/-- A pass makes of a text what is left without its comments. -/
theorem Pass.eq_stripComments (h : Pass t out) : out = stripComments t := by
  induction h with
  | done h => exact (stripComments_eq_self h).symm
  | skip hcopied hcomment _ ih =>
      rw [stripComments_copied hcopied, hcomment.stripComments_append, ih]

/-- No marker is left by a pass. -/
theorem Pass.unmarked (h : Pass t out) : Unmarked out := by
  induction h with
  | done h => exact h
  | skip hcopied _ _ ih => exact hcopied.append ih

/-- A text without markers, or its copied front, its first comment and the rest. -/
theorem unmarked_or_comment (t : Text) :
    Unmarked t ∨ ∃ copied comment rest, t = copied ++ (comment ++ rest) ∧
      Unmarked (copied ++ ['/']) ∧ IsComment comment rest := by
  by_cases h : Unmarked t
  · exact .inl h
  · obtain ⟨copied, s, rfl, hcopied, hs⟩ := exists_first_marker h
    obtain ⟨comment, rest, hsplit, hcomment⟩ := exists_comment hs
    exact .inr ⟨copied, comment, rest, by rw [hsplit], hcopied, hcomment⟩

/-- Every text is passed over. -/
theorem exists_pass (t : Text) : ∃ out, Pass t out := by
  induction hlength : t.length using Nat.strongRecOn generalizing t with
  | ind n ih =>
      rcases unmarked_or_comment t with h | ⟨copied, comment, rest, rfl, hcopied, hcomment⟩
      · exact ⟨t, .done h⟩
      · have hless := hcomment.length_lt
        rw [List.length_append] at hlength
        obtain ⟨out, hout⟩ := ih rest.length (by omega) rest rfl
        exact ⟨copied ++ out, .skip hcopied hcomment hout⟩

theorem pass_iff : Pass t out ↔ out = stripComments t := by
  constructor
  · exact Pass.eq_stripComments
  · rintro rfl
    obtain ⟨out, hout⟩ := exists_pass t
    rw [← hout.eq_stripComments]
    exact hout

/-- What is copied by a pass is what deletions leave in place. -/
theorem Pass.deletes (h : Pass t out) (front : Text) :
    ∃ kept last, Relation.ReflTransGen Deletes (front, t) (kept, last) ∧ Unmarked last ∧
      kept ++ last = front ++ out := by
  induction h generalizing front with
  | @done t h => exact ⟨front, t, .refl, h, rfl⟩
  | @skip copied comment rest out hcopied hcomment _ ih =>
      obtain ⟨kept, last, hrun, hlast, hsplit⟩ := ih (front ++ copied)
      refine ⟨kept, last, .head (.comment hcopied hcomment) hrun, hlast, ?_⟩
      rw [hsplit, List.append_assoc]

/-- A deletion changes nothing in the text that is left in the end. -/
theorem Deletes.stripComments_eq {u v : Text × Text} (h : Deletes u v) :
    v.1 ++ stripComments v.2 = u.1 ++ stripComments u.2 := by
  cases h with
  | comment hcopied hcomment =>
      rw [stripComments_copied hcopied, hcomment.stripComments_append, List.append_assoc]

theorem stripComments_eq_of_deletes {u v : Text × Text} (h : Relation.ReflTransGen Deletes u v) :
    v.1 ++ stripComments v.2 = u.1 ++ stripComments u.2 := by
  induction h with
  | refl => rfl
  | tail _ hstep ih => rw [hstep.stripComments_eq, ih]

end Run

/-- A text without its comments has no marker, so nothing changes when they are taken out again.
It is what a single pass from left to right over the text gives, and what is left in the end when
one comment after the other is deleted in place and the search goes on at the seam. -/
theorem stripComments_single_pass (t : Text) :
    Unmarked (stripComments t) ∧ stripComments (stripComments t) = stripComments t ∧
      (∀ out, Pass t out ↔ out = stripComments t) ∧
      ∀ out, (∃ kept last, Relation.ReflTransGen Deletes ([], t) (kept, last) ∧ Unmarked last ∧
        kept ++ last = out) ↔ out = stripComments t := by
  have hpass : Pass t (stripComments t) := pass_iff.mpr rfl
  refine ⟨hpass.unmarked, stripComments_eq_self hpass.unmarked, fun _ => pass_iff, fun out => ?_⟩
  constructor
  · rintro ⟨kept, last, hrun, hlast, rfl⟩
    have hsame := stripComments_eq_of_deletes hrun
    rwa [stripComments_eq_self hlast] at hsame
  · rintro rfl
    exact hpass.deletes []

/-- A line comment in a block comment and a marker that closes no comment of its own. -/
example : stripComments "a/* x // y */b /*/ c */d// e\n/".toList = "ab d\n/".toList := by
  decide +kernel

end ClassDiagram.Source
