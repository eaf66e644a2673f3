import ClassDiagram.Proofs.Member.Decode
import ClassDiagram.Proofs.Member.Joined
import ClassDiagram.Proofs.Tree.Spacing

/-!
# The members of a tree

The member text of a type is cut back into its declarations: a field or a method at
every semicolon, and a method at every empty body.
-/

namespace ClassDiagram

open Source (Spelling IsPlain)

namespace Tree

open Member

/-! ## Fields -/

namespace Field

variable (f : Field)

theorem startsWord_declaration : Text.StartsWord f.declaration :=
  f.access.plain_keyword.word.startsWord.intercalate.append _

theorem segments_text (u : Text) : segments (f.text ++ u) = .field f.text :: segments u := by
  have hunquoted : f.declaration.Unquoted := f.over_declaration.unquoted rfl
  have hplain : ∀ c ∈ f.declaration, Role.ofChar c = .plain :=
    f.over_declaration.forall_mem (Text.forall_mem_of_all rfl) fun c hc => plain_of_isWordChar hc
  have hsignature : isSignature f.declaration = false :=
    isSignature_of_not_mem (f.over_declaration.not_mem rfl (by decide))
      (f.over_declaration.not_mem rfl (by decide))
  have hend := (Scan.between_passed f.declaration).segments_semicolon u.glyphs
  rw [hsignature] at hend
  rw [text, List.append_assoc, segments, Text.glyphs_unquoted_append hunquoted,
    Scan.segments_plain hplain]
  exact hend

end Field

/-! ## Methods and constructors -/

namespace Operation

variable (owner : Word) (o : Operation)

theorem startsWord_signature : Text.StartsWord (o.signature .dense owner) :=
  o.access.plain_keyword.word.startsWord.intercalate.append _

theorem not_paren_words : ∀ c ∈ [' '].intercalate (o.words owner), c ≠ '(' ∧ c ≠ ')' :=
  (over_words (List.mem_singleton_self ' ') (o.plain_words owner)).forall_mem
    (Text.forall_mem_of_all rfl) fun _ hc =>
      ⟨Text.ne_of_isWordChar hc rfl, Text.ne_of_isWordChar hc rfl⟩

theorem not_paren_parametersText : ∀ c ∈ o.parametersText .dense, c ≠ '(' ∧ c ≠ ')' :=
  (o.over_parametersText .dense).forall_mem (Text.forall_mem_of_all rfl) fun _ hc =>
    ⟨Text.ne_of_isWordChar hc rfl, Text.ne_of_isWordChar hc rfl⟩

/-- The parentheses around the parameters are the only ones of a signature. -/
theorem balanced_signature : Text.parens.Balanced (o.signature .dense owner) := by
  rw [Brackets.Balanced, signature, Brackets.depth?_append,
    depth?_of_plain (o.not_paren_words owner), Option.bind_some, Brackets.depth?_open rfl,
    Brackets.depth?_append, depth?_of_plain o.not_paren_parametersText, Option.bind_some,
    Brackets.depth?_close rfl rfl]
  rfl

/-- A signature is the lead of a method. -/
theorem isMethodLead : IsMethodLead (o.signature .dense owner) where
  plain := by
    have hmarks : ∀ c ∈ "'\"\x7b\x7d;@".toList, Text.isWordChar c = false :=
      Text.forall_mem_of_all rfl
    exact (o.over_signature .dense owner).forall_mem (Text.forall_mem_of_all rfl) fun c hc hmem =>
      absurd (hmarks c hmem) (by simp [hc])
  unassigned := fun hunits =>
    (o.over_signature .dense owner).not_mem (d := '=') rfl (by decide) (hunits.subset (by decide))
  balanced := o.balanced_signature owner
  paren := List.mem_append_right _ (by simp)

theorem segments_text (u : Text) :
    segments (o.text .dense owner ++ u) = .method (o.text .dense owner) [] :: segments u := by
  rw [text]
  cases o.hasBody with
  | true => exact (o.isMethodLead owner).segments_empty u
  | false => exact (o.isMethodLead owner).segments_bodiless u

end Operation

/-! ## The records -/

/-- Items that are one piece each are as many pieces behind each other. -/
theorem segments_flatMap {α : Type} {item : α → Text} {piece : α → Segment}
    (hitem : ∀ a u, segments (item a ++ u) = piece a :: segments u) (as : List α) (u : Text) :
    segments ((as.flatMap fun a => item a ++ Spelling.dense.gap) ++ u) =
      as.map piece ++ segments u := by
  induction as with
  | nil => rfl
  | cons a as ih =>
      rw [List.flatMap_cons, Spelling.gap_dense, List.append_nil, List.append_assoc, hitem]
      exact congrArg (piece a :: ·) ih

/-- The record of a field. -/
def Field.record (f : Field) : Record := ⟨.variable, f.text, []⟩

/-- The record of a method or a constructor. -/
def Operation.record (owner : Word) (o : Operation) : Record := ⟨.method, o.text .dense owner, []⟩

theorem Field.trim_text (f : Field) : Text.trim f.text = f.text :=
  (StartsMember.of_startsWord f.startsWord_declaration).trim_concat rfl

theorem Operation.trim_text (owner : Word) (o : Operation) :
    Text.trim (o.text .dense owner) = o.text .dense owner := by
  have hstart := StartsMember.of_startsWord (o.startsWord_signature owner)
  rw [text]
  cases o.hasBody with
  | true =>
      have hsplit : o.signature .dense owner ++ (Spelling.dense.gap ++ ['{', '}']) =
          (o.signature .dense owner ++ ['{']) ++ ['}'] := by simp
      rw [if_pos rfl, hsplit]
      exact (hstart.append _).trim_concat rfl
  | false =>
      rw [if_neg (by simp)]
      exact hstart.trim_concat rfl

/-- The members of a shape are cut back into their records. -/
theorem records_members (shape : Shape) (name : Word) :
    records (shape.members .dense name) =
      shape.fields.map Field.record ++ shape.operations.map (Operation.record name) := by
  have hfields := segments_flatMap Field.segments_text shape.fields
  have hoperations := segments_flatMap (fun o => o.segments_text name) shape.operations []
  rw [List.append_nil] at hoperations
  have hrecords {α : Type} {piece : α → Segment} {record : α → Record}
      (hpiece : ∀ a, (piece a).record? = some (record a)) (as : List α) :
      (as.map piece).filterMap Segment.record? = as.map record := by
    rw [List.filterMap_map, ← List.filterMap_eq_map]
    exact congrArg (List.filterMap · as) (funext hpiece)
  have hfield (f : Field) : (Segment.field f.text).record? = some f.record := by
    rw [Segment.record?, f.trim_text, Field.record]
  have hoperation (o : Operation) :
      (Segment.method (o.text .dense name) []).record? = some (o.record name) := by
    rw [Segment.record?, o.trim_text, Operation.record]
  have hnil : segments [] = [] := rfl
  rw [records, Shape.members, hfields, hoperations, hnil, List.append_nil, List.filterMap_append,
    hrecords hfield, hrecords hoperation]

end Tree

end ClassDiagram
