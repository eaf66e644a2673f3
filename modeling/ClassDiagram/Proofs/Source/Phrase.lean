import ClassDiagram.Proofs.Source.Arrange

/-!
# Phrases

A phrase is a text that keeps its place between any two neighbours. Words are
phrases, and so are phrases behind each other with a space, a comma or an assignment
between them. Behind a comma the printed spelling has a space, which the dense
spelling lacks.
-/

namespace ClassDiagram.Source

/-- How the places next to tight marks are written. -/
inductive Spelling where
  /-- With a single space, as in print. -/
  | printed
  /-- Without any blank, as in the dense form. -/
  | dense
  deriving DecidableEq, Repr

/-- What is written next to a tight mark. -/
def Spelling.gap : Spelling → Text
  | printed => [' ']
  | dense => []

@[simp] theorem Spelling.gap_dense : Spelling.dense.gap = [] := rfl

theorem settle_gap_behind (spelling : Spelling) (t : Text) :
    settle true (spelling.gap ++ t) = settle true t := by
  cases spelling with
  | printed => exact settle_space_behind t
  | dense => rfl

theorem settle_gap_before (spelling : Spelling) {tight : Bool} {c : Char} (hc : isTight c = true)
    (t : Text) : settle tight (spelling.gap ++ c :: t) = settle tight (c :: t) := by
  cases spelling with
  | printed => exact settle_space_before hc t
  | dense => rfl

/-- Written as the first text, a phrase is the second one in canonical spacing. A
space in front of it stays. -/
structure Settles (written settled : Text) : Prop where
  front : ∀ tight t, t.head?.any Text.isWordChar = false →
    settle tight (written ++ t) = settled ++ settle false t
  space : ∀ t, t.head?.any Text.isWordChar = false →
    settle false (' ' :: (written ++ t)) = ' ' :: (settled ++ settle false t)

/-- A word that opens no clause. -/
structure IsPlain (w : Text) : Prop where
  word : Text.IsWord w
  clause : opensClause w = false

instance (w : Text) : Decidable (IsPlain w) :=
  decidable_of_iff (Text.IsWord w ∧ opensClause w = false)
    ⟨fun h => ⟨h.1, h.2⟩, fun h => ⟨h.word, h.clause⟩⟩

namespace Settles

variable {a a' b b' w : Text}

theorem of_plain (hw : IsPlain w) : Settles w w where
  front _ _ ht := settle_word hw.word ⟨ht, fun _ => hw.clause⟩
  space _ ht := settle_space_word hw.word ⟨ht, fun _ => hw.clause⟩

theorem spaced (ha : Settles a a') (hb : Settles b b') :
    Settles (a ++ ' ' :: b) (a' ++ ' ' :: b') where
  front tight t ht := by
    rw [List.append_assoc, List.cons_append, ha.front tight _ rfl, hb.space t ht,
      List.append_assoc, List.cons_append]
  space t ht := by
    rw [List.append_assoc, List.cons_append, ha.space _ rfl, hb.space t ht,
      List.append_assoc, List.cons_append]

theorem listed (spelling : Spelling) (ha : Settles a a') (hb : Settles b b') :
    Settles (a ++ ',' :: (spelling.gap ++ b)) (a' ++ ',' :: b') where
  front tight t ht := by
    rw [List.append_assoc, List.cons_append, List.append_assoc, ha.front tight _ rfl,
      settle_mark rfl, settle_gap_behind, hb.front true t ht, List.append_assoc, List.cons_append]
  space t ht := by
    rw [List.append_assoc, List.cons_append, List.append_assoc, ha.space _ rfl,
      settle_mark rfl, settle_gap_behind, hb.front true t ht, List.append_assoc, List.cons_append]

theorem assigned (ha : Settles a a') (hw : IsPlain w) :
    Settles (a ++ " = ".toList ++ w) (a' ++ " = ".toList ++ w) where
  front tight t ht := by
    rw [List.append_assoc, List.append_assoc, ha.front tight _ rfl, List.append_assoc,
      List.append_assoc]
    exact congrArg (a' ++ ·) (settle_assignment_word hw.word ⟨ht, fun _ => hw.clause⟩)
  space t ht := by
    rw [List.append_assoc, List.append_assoc, ha.space _ rfl, List.append_assoc,
      List.append_assoc]
    exact congrArg (fun rest => ' ' :: (a' ++ rest))
      (settle_assignment_word hw.word ⟨ht, fun _ => hw.clause⟩)

/-- Words with single spaces between them are a phrase. -/
theorem words {ws : List Text} (hne : ws ≠ []) (hws : ∀ w ∈ ws, IsPlain w) :
    Settles ([' '].intercalate ws) ([' '].intercalate ws) := by
  induction ws with
  | nil => exact absurd rfl hne
  | cons w ws ih =>
      have hw : Settles w w := of_plain (hws w (by simp))
      cases ws with
      | nil => rwa [List.intercalate_singleton]
      | cons v ws =>
          have hrest := ih (by simp) fun u hu => hws u (List.mem_cons_of_mem _ hu)
          rw [List.intercalate_cons_cons, List.append_assoc]
          exact hw.spaced hrest

/-- A list of phrases is a phrase, in either spelling. -/
theorem list (spelling : Spelling) {phrases : List Text} (hne : phrases ≠ [])
    (hphrases : ∀ s ∈ phrases, Settles s s) :
    Settles ((',' :: spelling.gap).intercalate phrases) ([','].intercalate phrases) := by
  induction phrases with
  | nil => exact absurd rfl hne
  | cons s phrases ih =>
      have hs := hphrases s (by simp)
      cases phrases with
      | nil => rwa [List.intercalate_singleton, List.intercalate_singleton]
      | cons u phrases =>
          have hrest := ih (by simp) fun v hv => hphrases v (List.mem_cons_of_mem _ hv)
          rw [List.intercalate_cons_cons, List.intercalate_cons_cons, List.append_assoc,
            List.append_assoc]
          exact hs.listed spelling hrest

end Settles

/-- Words with single spaces between them are read back. -/
theorem words_of_plain {ws : List Text} (hws : ∀ w ∈ ws, IsPlain w) :
    Text.words ([' '].intercalate ws) = ws :=
  Text.words_intercalate fun w hw => ⟨(hws w hw).word.solid, (hws w hw).word.ne_nil⟩

/-! ## The characters of phrases -/

theorem over_gap (spelling : Spelling) {marks : Text} (hspace : ' ' ∈ marks) :
    Text.Over marks spelling.gap := by
  cases spelling with
  | printed => exact .cons hspace .nil
  | dense => exact .nil

theorem over_list (spelling : Spelling) {marks : Text} (hcomma : ',' ∈ marks)
    (hspace : ' ' ∈ marks) {phrases : List Text} (hphrases : ∀ s ∈ phrases, Text.Over marks s) :
    Text.Over marks ((',' :: spelling.gap).intercalate phrases) := by
  refine .intercalate ?_ hphrases
  cases spelling with
  | printed => exact List.cons_subset.mpr ⟨hcomma, List.cons_subset.mpr ⟨hspace, List.nil_subset _⟩⟩
  | dense => exact List.cons_subset.mpr ⟨hcomma, List.nil_subset _⟩

/-! ## Annotations -/

/-- The annotation of a name with an argument. -/
def annotationText (name argument : Text) : Text := '@' :: (name ++ '(' :: (argument ++ [')']))

/-- A list of words in braces. -/
def braced (spelling : Spelling) (ws : List Text) : Text :=
  '{' :: ((',' :: spelling.gap).intercalate ws ++ ['}'])

theorem over_braced (spelling : Spelling) {ws : List Text} (hws : ∀ w ∈ ws, Text.IsWord w) :
    Text.Over [' ', ',', '{', '}'] (braced spelling ws) :=
  .cons (by simp) (.append (over_list spelling (by simp) (by simp) fun w hw =>
    .of_word (hws w hw).2) (.of_marks (by simp)))

theorem over_annotationText {name w : Text} (hname : Text.IsWord name) (hw : Text.IsWord w) :
    Text.Over ['@', '(', ')'] (annotationText name w) :=
  .cons (by simp) (.append (.of_word hname.2) (.cons (by simp)
    (.append (.of_word hw.2) (.of_marks (by simp)))))

end ClassDiagram.Source
