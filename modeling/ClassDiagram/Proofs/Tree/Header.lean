import ClassDiagram.Proofs.Declaration.Supertype
import ClassDiagram.Proofs.Tree.Spacing

/-!
# The header of a tree

The header of a tree is the first run of its dense text, since its name stands there
behind the keyword of its kind. The kind and both lists of supertypes are read back
from its words, and so is the name when the tree is found as a block.
-/

namespace ClassDiagram

open Declaration
open Source (Spelling IsPlain)

/-! ## Lists of names -/

namespace Word

/-- A name without arguments. -/
def typeUse (w : Word) : TypeUse where
  name := w.text
  arguments := none
  ne_nil := w.isWord.ne_nil
  plain c hc := by
    have hword := w.isWord.2 c hc
    exact ⟨Text.isBlank_of_isWordChar hword, Text.ne_of_isWordChar hword rfl,
      Text.ne_of_isWordChar hword rfl, Text.ne_of_isWordChar hword rfl⟩
  unreserved hmem := by
    have hreserved : ∀ keyword ∈ Signature.keywords, keyword ∈ reservedWords := by decide
    exact w.not_mem_reservedWords (hreserved _ hmem)
  balanced := balanced_none

theorem text_typeUse (w : Word) : w.typeUse.text = w.text := List.append_nil w.text

theorem hasBlank_typeUse (w : Word) : w.typeUse.hasBlank = false := by
  rw [TypeUse.hasBlank, text_typeUse, List.any_eq_false]
  intro c hc
  simp [w.isWord.solid c hc]

theorem list_typeUse (ws : List Word) : TypeUse.list (ws.map typeUse) = list .dense ws := by
  rw [TypeUse.list, List.map_map, list]
  exact congrArg _ (List.map_congr_left fun w _ => w.text_typeUse)

theorem bareName_text (w : Word) : bareName w.text = w.text := by
  have hangle : ∀ c ∈ w.text, (c != '<') = true := fun c hc =>
    bne_iff_ne.mpr (Text.ne_of_isWordChar (w.isWord.2 c hc) rfl)
  have htake := Text.takeWhile_stretch (t := []) hangle rfl
  rwa [List.append_nil] at htake

end Word

/-! ## The words of a header -/

namespace Tree.Shape

/-- The heading of a type of this shape. -/
def heading (name : Word) : Shape → Heading
  | classLike isAbstract extended implemented _ _ =>
    .classLike isAbstract name.typeUse (extended.map Word.typeUse) (implemented.map Word.typeUse)
  | interface extended _ _ => .interface name.typeUse (extended.map Word.typeUse)
  | enum => .enum name.typeUse

section Heading

variable (shape : Shape) (name : Word)

@[simp] theorem kind_heading : (shape.heading name).kind = shape.kind := by
  cases shape <;> rfl

@[simp] theorem type_heading : (shape.heading name).type = name.typeUse := by
  cases shape <;> rfl

@[simp] theorem extended_heading :
    (shape.heading name).extended = shape.extended.map Word.typeUse := by
  cases shape <;> rfl

@[simp] theorem implemented_heading :
    (shape.heading name).implemented = shape.implemented.map Word.typeUse := by
  cases shape <;> rfl

theorem text_heading : (shape.heading name).text = shape.header .dense name := by
  have hclause (keyword : Text) (ws : List Word) :
      Heading.clause keyword (ws.map Word.typeUse) = clause .dense keyword ws := by
    rw [Heading.clause, clause, Word.list_typeUse, List.isEmpty_map]
  have hwords (tail : Text) : [' '].intercalate shape.kind.keywords ++ ' ' :: (name.text ++ tail) =
      [' '].intercalate (shape.words name) ++ tail := by
    rw [words]
    cases shape.kind <;> simp [Kind.keywords, List.intercalate_cons_cons]
  rw [Heading.text, kind_heading, type_heading, extended_heading, implemented_heading, hclause,
    hclause, Word.text_typeUse, hwords, header]

/-- The words of a header are the keywords of its kind, the name and the clauses, and from
the name on none of them states a kind. -/
theorem exists_words_header : ∃ clauses,
    Text.words (shape.header .dense name) = shape.kind.keywords ++ name.text :: clauses ∧
      ∀ w ∈ name.text :: clauses, w ∉ typeKeywords := by
  have hplain : ∀ c ∈ shape.header .dense name, c ≠ '<' ∧ c ≠ '>' :=
    (over_header .dense name shape).forall_mem (Text.forall_mem_of_all rfl) fun c hc =>
      ⟨Text.ne_of_isWordChar hc rfl, Text.ne_of_isWordChar hc rfl⟩
  have hname : TypeUse.visibleList [name.typeUse] = name.text := by
    rw [TypeUse.visibleList_singleton, TypeUse.visible_of_not_hasBlank _ name.hasBlank_typeUse,
      name.text_typeUse]
  have hwords := (shape.heading name).topWords_text
  have hkinds := (shape.heading name).not_mem_kindKeywords
  rw [text_heading, topWords_of_plain hplain, kind_heading, type_heading, hname] at hwords
  rw [type_heading, hname] at hkinds
  exact ⟨_, hwords, fun w hw hmem =>
    hkinds w hw (Signature.mem_kindKeywords_of_mem_typeKeywords w hmem)⟩

end Heading

/-- The signature of a header is the kind with the supertypes. -/
def supertypes (ws : List Word) : Option (List Text) :=
  if ws.isEmpty then none else some (ws.map Word.text)

theorem ofHeader_header (shape : Shape) (name : Word) :
    Signature.ofHeader (shape.header .dense name) =
      .ok ⟨shape.kind, supertypes shape.extended, supertypes shape.implemented⟩ := by
  have hlist (ws : List Word) :
      Heading.supertypes (TypeUse.uptoBlank (ws.map Word.typeUse)) = supertypes ws := by
    have hall : Heading.supertypes (TypeUse.uptoBlank (ws.map Word.typeUse)) =
        Heading.supertypes (ws.map Word.typeUse) := by
      refine Heading.supertypes_uptoBlank.mpr fun u hu => ?_
      obtain ⟨w, -, rfl⟩ := List.mem_map.mp (List.dropLast_subset _ hu)
      exact w.hasBlank_typeUse
    rw [hall, Heading.supertypes, supertypes, List.isEmpty_map, List.map_map]
    rfl
  rw [← text_heading, Heading.ofHeader_text, kind_heading, extended_heading, implemented_heading,
    hlist, hlist]

/-! ## The place of the header -/

/-- The words up to the name end in the keyword of a type and the name. -/
theorem exists_keyword (kind : Kind) :
    ∃ front keyword, keyword ∈ typeKeywords ∧ (front = [] ∨ front = "abstract ".toList) ∧
      ∀ name, [' '].intercalate (kind.keywords ++ [name]) = front ++ (keyword ++ ' ' :: name) := by
  have hone (keyword name : Text) :
      [' '].intercalate ([keyword] ++ [name]) = [] ++ (keyword ++ ' ' :: name) := by
    simp [List.intercalate_cons_cons]
  cases kind with
  | plainClass => exact ⟨[], "class".toList, by decide, .inl rfl, hone _⟩
  | abstractClass =>
      refine ⟨"abstract ".toList, "class".toList, by decide, .inr rfl, fun name => ?_⟩
      rw [Kind.keywords, List.cons_append, List.cons_append, List.intercalate_cons_cons]
      exact congrArg ("abstract ".toList ++ ·) (hone "class".toList name)
  | interface => exact ⟨[], "interface".toList, by decide, .inl rfl, hone _⟩
  | enum => exact ⟨[], "enum".toList, by decide, .inl rfl, hone _⟩

/-- The header is the first run of a text that begins with it. -/
theorem locate?_header (shape : Shape) (name : Word) (inner : Text) :
    Header.locate? (shape.header .dense name ++ '{' :: inner) name.text =
      some ⟨[], shape.header .dense name, inner⟩ := by
  obtain ⟨front, keyword, hkeyword, hfront, hwords⟩ := exists_keyword shape.kind
  have hclause {keyword : Text} (hplain : IsPlain keyword) (ws : List Word) :
      ∀ c ∈ clause .dense keyword ws, endsRun c = false :=
    run_of_over (over_clause .dense hplain ws) rfl
  have hhead : (clause .dense "extends".toList shape.extended ++
      clause .dense "implements".toList shape.implemented).head?.any Text.isWordChar = false := by
    cases shape.extended with
    | nil =>
        cases shape.implemented with
        | nil => rfl
        | cons w ws => rfl
    | cons w ws => rfl
  have hheader : shape.header .dense name = front ++ (keyword ++ ' ' :: (name.text ++
      (clause .dense "extends".toList shape.extended ++
        clause .dense "implements".toList shape.implemented))) := by
    rw [header, words, hwords]
    simp only [List.append_assoc, List.cons_append]
  rw [hheader]
  refine locate?_of_keyword hkeyword name.isWord ?_ ?_ ?_ hhead
  · rcases hfront with rfl | rfl
    · exact List.forall_mem_nil _
    · exact Text.forall_mem_of_all rfl
  · rcases hfront with rfl | rfl
    · rfl
    · rfl
  · intro c hc
    rcases List.mem_append.mp hc with hc | hc
    · exact hclause (by decide) _ c hc
    · exact hclause (by decide) _ c hc

theorem startsWord_header (shape : Shape) (name : Word) :
    Text.StartsWord (shape.header .dense name) := by
  obtain ⟨front, words, hkeywords⟩ := List.exists_cons_of_ne_nil (shape.words_ne_nil name)
  have hfront := (shape.plain_words name front (by simp [hkeywords])).word
  rw [header, hkeywords]
  exact hfront.startsWord.intercalate.append _

/-- A header begins and ends in a word. -/
theorem trim_header (shape : Shape) (name : Word) :
    Text.trim (shape.header .dense name) = shape.header .dense name := by
  have hclause {a keyword : Text} (ha : Text.EndsWord a) (ws : List Word) :
      Text.EndsWord (a ++ clause .dense keyword ws) := by
    cases ws with
    | nil =>
        rw [show clause .dense keyword [] = [] from rfl, List.append_nil]
        exact ha
    | cons w ws =>
        have hlist : Text.EndsWord (Word.list .dense (w :: ws)) := by
          apply Text.EndsWord.intercalate (by simp)
          intro s hs
          obtain ⟨v, -, rfl⟩ := List.mem_map.mp hs
          exact v.isWord.endsWord
        exact (((hlist.behind [' ']).behind keyword).behind [' ']).behind a
  have hwords : Text.EndsWord ([' '].intercalate (shape.words name)) :=
    .intercalate (shape.words_ne_nil name) fun w hw => (shape.plain_words name w hw).word.endsWord
  apply (startsWord_header shape name).trim_eq
  rw [header, ← List.append_assoc]
  exact hclause (hclause hwords _) _

theorem run_header (shape : Shape) (name : Word) :
    ∀ c ∈ shape.header .dense name, endsRun c = false :=
  run_of_over (over_header .dense name shape) rfl

/-! ## The declared name -/

theorem fromKeywords_of_forall_not_mem {ws : List Text} (hws : ∀ w ∈ ws, w ∉ typeKeywords) :
    fromKeywords ws = [] := by
  induction ws with
  | nil => rfl
  | cons w ws ih =>
      have hw : typeKeywords.contains w = false := by simpa using hws w (by simp)
      rw [fromKeywords, if_neg (Bool.eq_false_iff.mp hw),
        ih fun v hv => hws v (List.mem_cons_of_mem _ hv)]

/-- A block that begins with a header declares the name in it. -/
theorem declaredName_header (shape : Shape) (name : Word) (inner : Text) :
    declaredName (shape.header .dense name ++ '{' :: inner) = .ok name.text := by
  have htake : (shape.header .dense name ++ '{' :: inner).takeWhile (· != '{') =
      shape.header .dense name := by
    refine Text.takeWhile_stretch (fun c hc => ?_) rfl
    have hmark := run_header shape name c hc
    rw [bne_iff_ne]
    rintro rfl
    cases hmark
  obtain ⟨clauses, hwords, hrest⟩ := shape.exists_words_header name
  have hnone := fromKeywords_of_forall_not_mem hrest
  have hfrom : ∃ keyword, fromKeywords (shape.kind.keywords ++ name.text :: clauses) =
      [keyword :: name.text :: clauses] := by
    cases shape.kind with
    | plainClass => exact ⟨_, congrArg (_ :: ·) hnone⟩
    | abstractClass => exact ⟨_, congrArg (_ :: ·) hnone⟩
    | interface => exact ⟨_, congrArg (_ :: ·) hnone⟩
    | enum => exact ⟨_, congrArg (_ :: ·) hnone⟩
  obtain ⟨keyword, hfrom⟩ := hfrom
  have hne : (!name.text.isEmpty) = true := by simpa using name.isWord.ne_nil
  rw [declaredName, htake, hwords, hfrom]
  simp only [List.head?_cons, Option.map_some, name.bareName_text, Option.filter_some, hne, if_true]

/-- A header with its keyword declares a type. -/
theorem declaresType_header (shape : Shape) (name : Word) :
    declaresType (shape.header .dense name) = true := by
  obtain ⟨clauses, hwords, -⟩ := shape.exists_words_header name
  rw [declaresType, hwords]
  cases shape.kind with
  | plainClass => rfl
  | abstractClass => rfl
  | interface => rfl
  | enum => rfl

end Tree.Shape

end ClassDiagram
