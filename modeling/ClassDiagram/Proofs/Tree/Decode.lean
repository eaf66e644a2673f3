import ClassDiagram.Proofs.Member.Field
import ClassDiagram.Proofs.Member.Operation
import ClassDiagram.Proofs.Tree.Members

/-!
# The decoded members of a tree

The members of a tree are fields and methods in print, with their modifiers in one order and
plain names for all of their parts. So they are decoded as what the catalogue holds of them, and
the members of a shape are, one after the other.
-/

namespace ClassDiagram

open Source (Spelling)
open ClassDiagram.Tree

/-! ## Names -/

namespace Word

variable (w : Word)

/-- A name is no modifier. -/
theorem not_mem_keywords : w.text ∉ Member.Modifiers.keywords := by
  have hreserved : ∀ keyword ∈ Member.Modifiers.keywords,
      keyword ∈ reservedWords ∨ '-' ∈ keyword := by decide
  intro hmem
  rcases hreserved _ hmem with hword | hdash
  · exact w.not_mem_reservedWords hword
  · exact w.isWord.not_mem rfl hdash

/-- A name has neither brackets nor commas. -/
theorem isPart_of_mem : ∀ c ∈ w.text, Member.IsPart c := by
  have hmarks : ∀ d ∈ ",<([>)]".toList, Text.isWordChar d = false := Text.forall_mem_of_all rfl
  intro c hc hmem
  exact w.isWord.not_mem (hmarks c hmem) hc

end Word

/-! ## Fields -/

namespace Tree.Field

open Member

variable (f : Field)

/-- A field is decoded as what the catalogue holds of it. -/
theorem fields_text : fields .keyword f.text = [f.toVariable] := by
  have hmarks : ∀ c ∈ fieldMarks, Text.isWordChar c = false := Text.forall_mem_of_all rfl
  have htext : f.text =
      [' '].intercalate f.words ++ assignment (f.value.map Word.text) ++ [';'] := by
    rw [text, declaration]
    cases f.value <;> rfl
  have hvalue : (f.value.map Word.text).map Text.trim = f.value.map Word.text := by
    cases f.value with
    | none => rfl
    | some value => exact congrArg some value.trim_text
  have hnames : declaredNames (f.value.map Word.text) f.name.text = [f.name.text] := by
    have hcomma : f.name.text.contains ',' = false := by
      simpa using f.name.isWord.not_mem (d := ',') rfl
    rw [declaredNames, hcomma, Bool.and_false]
    rfl
  rw [htext, words, fields_keywords (.refl _) (f.type.isWord.token_without hmarks)
    f.type.not_mem_keywords (f.name.isWord.token_without hmarks), hvalue, hnames, Option.map_map]
  rfl

end Tree.Field

/-! ## Methods -/

namespace Tree.Operation

open Member

variable (owner : Word) (o : Operation)

/-- A parameter with plain names. -/
def typedName (p : Word × Word) : TypedName where
  type := p.1.text
  name := p.2.text
  type_token := p.1.isWord.token_without (Text.forall_mem_of_all rfl)
  name_token := p.2.isWord.token_without (Text.forall_mem_of_all rfl)
  nested := .of_forall p.1.isPart_of_mem
  plain := p.2.isPart_of_mem

theorem parametersText_dense :
    o.parametersText .dense = TypedName.list (o.parameters.map typedName) := by
  have htext (p : Word × Word) : parameterText p = (typedName p).text := by
    rw [parameterText, List.intercalate_cons_cons, List.intercalate_singleton, List.append_assoc,
      List.singleton_append]
    rfl
  rw [parametersText, TypedName.list, List.map_map, Spelling.gap_dense]
  exact congrArg [','].intercalate (List.map_congr_left fun p _ => htext p)

/-- The head of a method or a constructor. -/
def methodHead : MethodHead owner.text :=
  have hmarks : ∀ c ∈ leadMarks, Text.isWordChar c = false := Text.forall_mem_of_all rfl
  match o.head with
  | some (type, name) =>
    .typed type.text name.text (type.isWord.token_without hmarks) type.not_mem_keywords
      (name.isWord.token_without hmarks)
  | none => .constructor (owner.isWord.token_without hmarks) owner.not_mem_keywords

/-- A method or a constructor is decoded as what the catalogue holds of it. -/
theorem method?_text :
    method? .keyword owner.text (o.text .dense owner) = some (o.toMethod owner) := by
  have hwords : o.words owner =
      modifierWords o.access o.isStatic o.isFinal o.isAbstract ++ (o.methodHead owner).words := by
    rw [words, methodHead]
    cases o.head <;> rfl
  have htext : o.text .dense owner =
      [' '].intercalate
          (modifierWords o.access o.isStatic o.isFinal o.isAbstract ++
            (o.methodHead owner).words) ++
        '(' :: (TypedName.list (o.parameters.map typedName) ++
          ')' :: if o.hasBody then ['\x7b', '\x7d'] else [';']) := by
    simp [text, signature, hwords, parametersText_dense]
  have hperm := List.Perm.refl (modifierWords o.access o.isStatic o.isFinal o.isAbstract)
  rw [htext, method?_keywords hperm _ (splitSignature?_list hperm _ _ _),
    TypedName.parameters_list, List.map_map, toMethod, methodHead]
  cases o.head <;> rfl

end Tree.Operation

/-! ## All members -/

theorem Member.allFields_append (decoding : Decoding) (rs ss : List Record) :
    allFields decoding (rs ++ ss) = allFields decoding rs ++ allFields decoding ss :=
  List.flatMap_append

theorem Member.allMethods_append (decoding : Decoding) (owner : Text) (rs ss : List Record) :
    allMethods decoding owner (rs ++ ss) =
      allMethods decoding owner rs ++ allMethods decoding owner ss :=
  List.filterMap_append

namespace Tree.Shape

open Member

variable (shape : Shape) (name : Word)

/-- The fields of a shape are decoded in their order, without the methods. -/
theorem allFields_members :
    allFields .keyword (records (shape.members .dense name)) =
      shape.fields.map Field.toVariable := by
  have hfields (fs : List Field) :
      allFields .keyword (fs.map Field.record) = fs.map Field.toVariable := by
    induction fs with
    | nil => rfl
    | cons f fs ih =>
        have hone : allFields .keyword [f.record] = [f.toVariable] := by
          show Member.fields .keyword f.text ++ [] = _
          rw [List.append_nil, f.fields_text]
        rw [List.map_cons, List.map_cons, ← List.singleton_append, allFields_append, hone, ih]
        rfl
  have hoperations (os : List Operation) :
      allFields .keyword (os.map (Operation.record name)) = [] := by
    induction os with
    | nil => rfl
    | cons o os ih =>
        rw [List.map_cons, ← List.singleton_append, allFields_append, ih]
        rfl
  rw [records_members, allFields_append, hfields, hoperations, List.append_nil]

/-- The methods of a shape are decoded in their order, without the fields. -/
theorem allMethods_members :
    allMethods .keyword name.text (records (shape.members .dense name)) =
      shape.operations.map (Operation.toMethod name) := by
  have hfields (fs : List Field) :
      allMethods .keyword name.text (fs.map Field.record) = [] := by
    induction fs with
    | nil => rfl
    | cons f fs ih =>
        rw [List.map_cons, ← List.singleton_append, allMethods_append, ih]
        rfl
  have hoperations (os : List Operation) :
      allMethods .keyword name.text (os.map (Operation.record name)) =
        os.map (Operation.toMethod name) := by
    induction os with
    | nil => rfl
    | cons o os ih =>
        have hone : allMethods .keyword name.text [o.record name] = [o.toMethod name] :=
          List.filterMap_cons_some (o.method?_text name)
        rw [List.map_cons, List.map_cons, ← List.singleton_append, allMethods_append, hone, ih]
        rfl
  rw [records_members, allMethods_append, hfields, hoperations, List.nil_append]

end Tree.Shape

end ClassDiagram
