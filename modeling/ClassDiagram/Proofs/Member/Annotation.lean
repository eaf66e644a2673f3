import ClassDiagram.Member.Annotation
import ClassDiagram.Proofs.Text.Brackets
import ClassDiagram.Proofs.Text.Word

/-!
# Annotations with parentheses in literals

The arguments of an annotation end at the parenthesis that closes them, and parentheses are
counted inside literals as well. So an annotation is dropped as a whole when its parentheses
belong together either way, above all when no literal holds one. Otherwise too little of the
text is dropped or too much (`dropAnnotations_before`).
-/

namespace ClassDiagram.Member

/-! ## Groups -/

section Group

variable {s inner : Text} {depth stop : Nat}

theorem splitGroup_cons {c : Char} (hc : c = ')' → 0 < depth) (t : Text) :
    splitGroup depth (c :: t) =
      (c :: (splitGroup (Text.parens.next depth c) t).1,
        (splitGroup (Text.parens.next depth c) t).2) := by
  rw [splitGroup, if_neg]
  · rfl
  · intro h
    rw [Bool.and_eq_true, beq_iff_eq, beq_iff_eq] at h
    exact Nat.ne_of_gt (hc h.1) h.2

/-- A stretch that closes nothing of its own front stands inside the parentheses. -/
theorem splitGroup_append (h : Text.parens.depth? depth s = some stop) (t : Text) :
    splitGroup depth (s ++ t) = (s ++ (splitGroup stop t).1, (splitGroup stop t).2) := by
  replace h := Brackets.nesting_of_depth? h
  induction h with
  | nil => rfl
  | opening hopen _ ih =>
      rw [List.cons_append, splitGroup_cons (by simp [eq_of_beq hopen]),
        Brackets.next_open hopen, ih]
      rfl
  | @closing depth _ _ hopen hclose _ ih =>
      rw [List.cons_append, splitGroup_cons fun _ => Nat.succ_pos depth,
        Brackets.next_close hopen hclose, Nat.succ_sub_one, ih]
      rfl
  | other hopen hclose _ ih =>
      rw [List.cons_append, splitGroup_cons fun heq => absurd heq (beq_eq_false_iff_ne.mp hclose),
        Brackets.next_other hopen hclose, ih]
      rfl

theorem splitGroup_balanced (h : Text.parens.Balanced inner) (behind : Text) :
    splitGroup 0 (inner ++ ')' :: behind) = (inner, behind) := by
  rw [splitGroup_append h]
  simp [splitGroup]

theorem depth?_of_plain (h : ∀ c ∈ s, c ≠ '(' ∧ c ≠ ')') (depth : Nat) :
    Text.parens.depth? depth s = some depth :=
  Brackets.depth?_of_forall fun c hc =>
    ⟨beq_eq_false_iff_ne.mpr (h c hc).1, beq_eq_false_iff_ne.mpr (h c hc).2⟩

/-- A parenthesis that closes what was not opened ends the group. -/
theorem splitGroup_early (h : Text.parens.depth? 0 s = none) :
    ∃ front rest, s = front ++ ')' :: rest ∧
      ∀ t, splitGroup 0 (s ++ t) = (front, rest ++ t) := by
  obtain ⟨front, c, rest, rfl, -, hclose, hfront⟩ := Brackets.exists_of_depth?_eq_none h
  have hc : c = ')' := eq_of_beq hclose
  subst hc
  refine ⟨front, rest, rfl, fun t => ?_⟩
  rw [List.append_assoc, List.cons_append, splitGroup_balanced hfront]

/-- An open parenthesis keeps the group open. -/
theorem splitGroup_late (h : Text.parens.depth? 0 s = some (stop + 1)) (t : Text) :
    splitGroup 0 (s ++ ')' :: t) = (s ++ ')' :: (splitGroup stop t).1, (splitGroup stop t).2) := by
  rw [splitGroup_append h, splitGroup_cons fun _ => Nat.succ_pos stop]
  rfl

/-- The group ends at a parenthesis exactly if those in front of it belong together. -/
theorem splitGroup_fst_eq_iff {behind : Text} :
    (splitGroup 0 (inner ++ ')' :: behind)).1 = inner ↔ Text.parens.Balanced inner := by
  refine ⟨fun h => ?_, fun h => by rw [splitGroup_balanced h]⟩
  cases hdepth : Text.parens.depth? 0 inner with
  | none =>
      obtain ⟨front, rest, rfl, hsplit⟩ := splitGroup_early hdepth
      rw [hsplit] at h
      simp at h
  | some depth =>
      cases depth with
      | zero => exact hdepth
      | succ depth =>
          rw [splitGroup_late hdepth] at h
          simp at h

/-- In glyphs without parentheses in literals the parentheses are those of the text. -/
theorem depth?_chars {gs : List Glyph}
    (h : ∀ g ∈ gs, g.quoted = true → g.char ≠ '(' ∧ g.char ≠ ')') (depth : Nat) :
    Text.parens.depth? depth (Glyph.chars gs) = Glyph.parens.depth? depth gs := by
  induction gs generalizing depth with
  | nil => rfl
  | cons g gs ih =>
      obtain ⟨hg, hgs⟩ := List.forall_mem_cons.mp h
      have hkinds : Text.parens.opens g.char = Glyph.parens.opens g ∧
          Text.parens.closes g.char = Glyph.parens.closes g := by
        obtain ⟨c, quoted⟩ := g
        cases quoted with
        | true =>
            obtain ⟨hopen, hclose⟩ := hg rfl
            exact ⟨beq_eq_false_iff_ne.mpr hopen, beq_eq_false_iff_ne.mpr hclose⟩
        | false =>
            simp only [Text.parens, Glyph.parens, Glyph.role_bare, Role.ofChar]
            grind
      rw [Glyph.chars_cons, Brackets.depth?, Brackets.depth?, hkinds.1, hkinds.2, ih hgs, ih hgs,
        ih hgs]

theorem length_splitGroup_snd_lt {t : Text} (ht : t ≠ []) :
    (splitGroup depth t).2.length < t.length := by
  cases t with
  | nil => exact absurd rfl ht
  | cons c t =>
      have hrest := length_splitGroup_snd
      simp only [splitGroup]
      split
      · simp
      · exact Nat.lt_succ_of_le (hrest _ t)

end Group

/-! ## One annotation -/

section Drop

variable {t : Text}

theorem dropAnnotations_mark (t : Text) :
    dropAnnotations ('@' :: t) = dropAnnotations (afterMark t) := by
  rw [dropAnnotations]
  split
  · rename_i rest h
    cases (Text.trimStart_of_head? rfl : Text.trimStart ('@' :: t) = '@' :: t) ▸ h
    rfl
  · rename_i hnone
    exact absurd (Text.trimStart_of_head? rfl) (hnone t)

theorem dropAnnotations_of_head? (h : (Text.trimStart t).head? ≠ some '@') :
    dropAnnotations t = Text.trimStart t := by
  rw [dropAnnotations]
  split
  · rename_i rest heq
    exact absurd (by rw [heq]; rfl) h
  · rfl

theorem dropAnnotations_blank {c : Char} (hc : Text.isBlank c = true) (t : Text) :
    dropAnnotations (c :: t) = dropAnnotations t := by
  rw [dropAnnotations.eq_def (c :: t), dropAnnotations.eq_def t, Text.trimStart_blank hc]

theorem splitGroup_snd_suffix (depth : Nat) (t : Text) : (splitGroup depth t).2 <:+ t := by
  induction t generalizing depth with
  | nil => exact List.suffix_rfl
  | cons c t ih =>
      simp only [splitGroup]
      split
      · exact List.suffix_cons c t
      · exact (ih _).trans (List.suffix_cons c t)

theorem afterMark_suffix (t : Text) : afterMark t <:+ t := by
  have hdrop := List.dropWhile_suffix (l := t) fun c => !(Text.isBlank c || c == '(')
  rw [afterMark]
  split
  · rename_i group heq
    rw [heq] at hdrop
    exact (splitGroup_snd_suffix 0 group).trans ((List.suffix_cons _ _).trans hdrop)
  · exact hdrop

/-- Annotations and blanks are dropped in front of a text, and nothing else is. -/
theorem dropAnnotations_suffix (t : Text) : dropAnnotations t <:+ t := by
  fun_induction dropAnnotations t with
  | case1 t rest heq ih =>
      have hstart : '@' :: rest <:+ t := heq ▸ List.dropWhile_suffix _
      exact ih.trans ((afterMark_suffix rest).trans ((List.suffix_cons _ _).trans hstart))
  | case2 t _ => exact List.dropWhile_suffix _

end Drop

/-- An annotation: a name, and the text between its parentheses, if it has any. Outside
literals the parentheses of the arguments belong together, and all of their literals are
closed. -/
structure Annotation where
  name : Text
  arguments : Option Text
  plain : ∀ c ∈ name, Text.isBlank c = false ∧ c ≠ '(' ∧ c ≠ ')'
  balanced : ∀ t ∈ arguments, Glyph.parens.Balanced t.glyphs
  closed : ∀ t ∈ arguments, Quote.after none t = none

namespace Annotation

/-- The arguments with their parentheses. -/
def suffix (a : Annotation) : Text :=
  match a.arguments with
  | some t => '(' :: (t ++ [')'])
  | none => []

def text (a : Annotation) : Text := '@' :: (a.name ++ a.suffix)

/-- The parentheses of the arguments belong together also when those in literals count. -/
def Paired (a : Annotation) : Prop := ∀ t ∈ a.arguments, Text.parens.Balanced t

instance (a : Annotation) : Decidable a.Paired :=
  inferInstanceAs (Decidable (∀ t ∈ a.arguments, Text.parens.Balanced t))

/-- Annotations with spaces between them, in front of a text behind one more space. -/
def before (as : List Annotation) (t : Text) : Text :=
  [' '].intercalate (as.map text) ++ ' ' :: t

variable {a : Annotation} {as : List Annotation}

/-- Literals without parentheses leave the count as it is. -/
theorem paired_of_bare
    (h : ∀ t ∈ a.arguments, ∀ g ∈ t.glyphs, g.quoted = true → g.char ≠ '(' ∧ g.char ≠ ')') :
    a.Paired := by
  intro t ht
  have hbalanced := a.balanced t ht
  rw [Brackets.Balanced, ← depth?_chars (h t ht), Text.chars_glyphs] at hbalanced
  exact hbalanced

theorem dropWhile_text (a : Annotation) {t : Text}
    (ht : (a.suffix ++ t).head?.any (fun c => !(Text.isBlank c || c == '(')) = false) :
    ((a.name ++ (a.suffix ++ t)).dropWhile fun c => !(Text.isBlank c || c == '(')) =
      a.suffix ++ t := by
  refine Text.dropWhile_stretch (fun c hc => ?_) ht
  obtain ⟨hblank, hopen, -⟩ := a.plain c hc
  simp [hblank, hopen]

/-- Behind the arguments of an annotation the text goes on where the group ends. -/
theorem afterMark_arguments {t : Text} (harguments : a.arguments = some t) (behind : Text) :
    afterMark (a.name ++ (a.suffix ++ behind)) = (splitGroup 0 (t ++ ')' :: behind)).2 := by
  have hsuffix : a.suffix ++ behind = '(' :: (t ++ ')' :: behind) := by
    simp [suffix, harguments]
  rw [afterMark, a.dropWhile_text (by rw [hsuffix]; rfl), hsuffix]
  rfl

/-- An annotation in front of a space is dropped if its parentheses belong together. -/
theorem dropAnnotations_text (h : a.Paired) (t : Text) :
    dropAnnotations (a.text ++ ' ' :: t) = dropAnnotations t := by
  have hafter : afterMark (a.name ++ (a.suffix ++ ' ' :: t)) = ' ' :: t := by
    cases harguments : a.arguments with
    | none =>
        have hsuffix : a.suffix = [] := by rw [suffix, harguments]
        rw [afterMark, a.dropWhile_text (by rw [hsuffix]; rfl), hsuffix]
        rfl
    | some group =>
        rw [afterMark_arguments harguments, splitGroup_balanced (h group harguments)]
  rw [text, List.cons_append, List.append_assoc, dropAnnotations_mark, hafter,
    dropAnnotations_blank rfl]

/-! ## Sequences -/

/-- Annotations, each with a space behind it. -/
def spaced (as : List Annotation) : Text := as.flatMap fun a => a.text ++ [' ']

theorem dropAnnotations_before_eq (as : List Annotation) (t : Text) :
    dropAnnotations (before as t) = dropAnnotations (spaced as ++ t) := by
  cases as with
  | nil => exact dropAnnotations_blank rfl t
  | cons a as =>
      congr 1
      induction as generalizing a with
      | nil => simp [before, spaced]
      | cons b as ih =>
          have hrest := ih b
          simp only [before, spaced, List.map_cons, List.intercalate_cons_cons, List.flatMap_cons,
            List.append_assoc] at hrest ⊢
          rw [hrest]

theorem dropAnnotations_spaced (h : ∀ a ∈ as, a.Paired) (t : Text) :
    dropAnnotations (spaced as ++ t) = dropAnnotations t := by
  induction as with
  | nil => rfl
  | cons a as ih =>
      obtain ⟨ha, has⟩ := List.forall_mem_cons.mp h
      rw [spaced, List.flatMap_cons, List.append_assoc, List.append_assoc]
      exact (dropAnnotations_text ha _).trans (ih has)

/-- Paired annotations leave the depth of parentheses as it is. -/
theorem depth?_spaced (h : ∀ a ∈ as, a.Paired) (depth : Nat) :
    Text.parens.depth? depth (spaced as) = some depth := by
  have hone {a : Annotation} (ha : a.Paired) :
      Text.parens.depth? depth (a.text ++ [' ']) = some depth := by
    have hname : Text.parens.depth? depth a.name = some depth :=
      depth?_of_plain (fun c hc => (a.plain c hc).2) depth
    have hsuffix : Text.parens.depth? depth a.suffix = some depth := by
      cases harguments : a.arguments with
      | none => rw [suffix, harguments]; rfl
      | some t =>
          have hinside := Brackets.depth?_add (ha t harguments) (depth + 1)
          rw [Nat.zero_add] at hinside
          rw [suffix, harguments]
          dsimp only
          rw [Brackets.depth?_open rfl, Brackets.depth?_append, hinside]
          rfl
    rw [text, List.cons_append, Brackets.depth?_other rfl rfl, Brackets.depth?_append,
      Brackets.depth?_append, hname, Option.bind_some, hsuffix]
    rfl
  induction as with
  | nil => rfl
  | cons a as ih =>
      obtain ⟨ha, has⟩ := List.forall_mem_cons.mp h
      rw [spaced, List.flatMap_cons, Brackets.depth?_append, hone ha]
      exact ih has

section Unpaired

variable {t r : Text} {back : List Annotation} (harguments : a.arguments = some t)

include harguments

theorem dropAnnotations_arguments (tail : Text) :
    dropAnnotations (a.text ++ tail) = dropAnnotations (splitGroup 0 (t ++ ')' :: tail)).2 := by
  rw [text, List.cons_append, List.append_assoc, dropAnnotations_mark,
    afterMark_arguments harguments]

/-- Where the arguments of an annotation end too early, what is left of them stays. -/
theorem length_lt_of_early (hmark : '@' ∉ t) (hearly : Text.parens.depth? 0 t = none)
    (tail : Text) :
    tail.length < (dropAnnotations (a.text ++ tail)).length := by
  obtain ⟨front, rest, rfl, hsplit⟩ := splitGroup_early hearly
  have htrim : Text.trimStart (rest ++ ')' :: tail) = Text.trimStart rest ++ ')' :: tail :=
    Text.trimStart_append_of_head? rfl rest
  have hhead : (Text.trimStart (rest ++ ')' :: tail)).head? ≠ some '@' := by
    rw [htrim]
    cases hrest : Text.trimStart rest with
    | nil => simp
    | cons c kept =>
        have hc : c ∈ rest := (List.dropWhile_sublist Text.isBlank).subset
          (show c ∈ Text.trimStart rest by rw [hrest]; exact List.mem_cons_self)
        rintro ⟨⟩
        exact hmark (by simp [hc])
  rw [dropAnnotations_arguments harguments, hsplit, dropAnnotations_of_head? hhead, htrim]
  simp
  omega

/-- Where they do not end, a part of what follows the annotations is lost. -/
theorem length_lt_of_late {depth : Nat} (hlate : Text.parens.depth? 0 t = some (depth + 1))
    (hback : ∀ b ∈ back, b.Paired) (hr : r ≠ []) :
    (dropAnnotations (a.text ++ ' ' :: (spaced back ++ r))).length < r.length := by
  have hspace : Text.parens.depth? depth (' ' :: spaced back) = some depth := by
    rw [Brackets.depth?_other rfl rfl, depth?_spaced hback]
  have hrest : (splitGroup depth (' ' :: (spaced back ++ r))).2 = (splitGroup depth r).2 := by
    rw [← List.cons_append, splitGroup_append hspace]
  rw [dropAnnotations_arguments harguments, splitGroup_late hlate, hrest]
  exact Nat.lt_of_le_of_lt (dropAnnotations_suffix _).length_le (length_splitGroup_snd_lt hr)

end Unpaired

/-- An annotation that is not paired is not dropped exactly. -/
theorem dropAnnotations_of_not_paired {back : List Annotation} {r : Text}
    (hmark : ∀ t ∈ a.arguments, '@' ∉ t) (hback : ∀ b ∈ back, b.Paired) (hr : r ≠ [])
    (ha : ¬a.Paired) : dropAnnotations (a.text ++ ' ' :: (spaced back ++ r)) ≠ r := by
  intro hsame
  have hlength := congrArg List.length hsame
  obtain ⟨t, harguments, ht⟩ : ∃ t ∈ a.arguments, ¬Text.parens.Balanced t := by
    simpa [Paired] using ha
  cases hdepth : Text.parens.depth? 0 t with
  | none =>
      have hmore := length_lt_of_early harguments (hmark t harguments) hdepth
        (' ' :: (spaced back ++ r))
      rw [hlength, List.length_cons, List.length_append] at hmore
      omega
  | some depth =>
      cases depth with
      | zero => exact ht hdepth
      | succ depth =>
          have hless := length_lt_of_late harguments hdepth hback hr
          omega

end Annotation

open Annotation

/-- Take a text that begins with neither a blank nor an annotation. All annotations in front
of it are dropped, and nothing else, if the parentheses of each belong together with those
in its literals as well; without any in its literals they do. Among such annotations one more
is dropped exactly if it has this property, too. Only if there is a further mark `@` in its
arguments, or no text behind it, the outcome may be the same without it. -/
theorem dropAnnotations_before {r : Text} (hblank : r.head?.any Text.isBlank = false)
    (hmark : r.head? ≠ some '@') :
    (∀ a : Annotation,
      (∀ t ∈ a.arguments, ∀ g ∈ t.glyphs, g.quoted = true → g.char ≠ '(' ∧ g.char ≠ ')') →
        a.Paired) ∧
    (∀ as : List Annotation, (∀ a ∈ as, a.Paired) → dropAnnotations (before as r) = r) ∧
    ∀ front a back, (∀ b ∈ front ++ back, b.Paired) → (∀ t ∈ a.arguments, '@' ∉ t) → r ≠ [] →
      (dropAnnotations (before (front ++ a :: back) r) = r ↔ a.Paired) := by
  have hstay : dropAnnotations r = r := by
    have htrim := Text.trimStart_of_head? hblank
    rw [dropAnnotations_of_head? (by rwa [htrim]), htrim]
  have hdropped : ∀ as : List Annotation, (∀ a ∈ as, a.Paired) →
      dropAnnotations (before as r) = r := by
    intro as has
    rw [dropAnnotations_before_eq, dropAnnotations_spaced has, hstay]
  refine ⟨fun a => paired_of_bare, hdropped, fun front a back hpaired ha hr => ⟨fun h => ?_, ?_⟩⟩
  · obtain ⟨hfront, hback⟩ := List.forall_mem_append.mp hpaired
    have hsplit : spaced (front ++ a :: back) ++ r =
        spaced front ++ (a.text ++ ' ' :: (spaced back ++ r)) := by
      simp [spaced]
    rw [dropAnnotations_before_eq, hsplit, dropAnnotations_spaced hfront] at h
    exact Classical.byContradiction fun hunpaired =>
      dropAnnotations_of_not_paired ha hback hr hunpaired h
  · intro ha
    apply hdropped
    intro b hb
    rcases List.mem_append.mp hb with hb | hb
    · exact hpaired b (List.mem_append_left _ hb)
    · rcases List.mem_cons.mp hb with rfl | hb
      · exact ha
      · exact hpaired b (List.mem_append_right _ hb)

/-- `@Size(max = (9))`, whose parentheses belong together. -/
def Annotation.size : Annotation where
  name := "Size".toList
  arguments := some "max = (9)".toList
  plain := Text.forall_mem_of_all rfl
  balanced := by decide
  closed := by decide

/-- `@Mark(")")`, whose literal holds a parenthesis. -/
def Annotation.mark : Annotation where
  name := "Mark".toList
  arguments := some "\")\"".toList
  plain := Text.forall_mem_of_all rfl
  balanced := by decide
  closed := by decide

theorem dropAnnotations_before_mark :
    dropAnnotations (before [size, size] "int x".toList) = "int x".toList ∧
      dropAnnotations (before [size, mark, size] "int x".toList) ≠ "int x".toList := by
  obtain ⟨-, hdropped, hiff⟩ := dropAnnotations_before (r := "int x".toList) rfl (by decide)
  refine ⟨hdropped [size, size] (by decide), fun h => ?_⟩
  have hpaired : Annotation.mark.Paired :=
    (hiff [size] Annotation.mark [size] (by decide) (by decide) (by decide)).mp h
  exact absurd hpaired (by decide)

end ClassDiagram.Member
