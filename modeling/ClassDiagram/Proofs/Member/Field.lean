import ClassDiagram.Proofs.Member.Decode

/-!
# Fields in print

A field in print is its modifiers in whatever order, its type, its name and possibly its value.
The modifiers end at the type, since that is no keyword, and the value begins at the first
assignment, since there is no equals sign in front of it. So nothing in the value is looked at,
and the parts of the field are read back (`fields_text_keywords`).
-/

namespace ClassDiagram.Member

open ClassDiagram.Tree (modifierWords)

/-- Modifiers in whatever order, a type and a name declare a field, or several without a
value. -/
theorem fields_keywords {access : Access} {isStatic isFinal : Bool} {ks : List Text}
    (hks : ks.Perm (modifierWords access isStatic isFinal false)) {type name : Text}
    (htype : Text.IsTokenWithout fieldMarks type) (hkeyword : type ∉ Modifiers.keywords)
    (hname : Text.IsTokenWithout fieldMarks name) (value : Option Text) :
    fields .keyword ([' '].intercalate (ks ++ [type, name]) ++ assignment value ++ [';']) =
      (declaredNames (value.map Text.trim) name).map fun name => {
        type := String.ofList type
        name := String.ofList name
        value := (value.map Text.trim).map String.ofList
        access
        isStatic
        isFinal } := by
  have hmarks : ∀ c ∈ fieldMarks, Text.isWordChar c = false := Text.forall_mem_of_all rfl
  have hhead : ∀ w ∈ [type, name], Text.IsTokenWithout fieldMarks w := by
    simp only [List.forall_mem_cons]
    exact ⟨htype, hname, List.forall_mem_nil _⟩
  exact fields_of_decode (startsMember_keywords hks _) (tokens_keywords hks.subset hmarks hhead)
    (Modifiers.decode_perm hks hkeyword [name]) value

/-- The parts of one field. -/
structure FieldParts where
  access : Access
  isStatic : Bool
  isFinal : Bool
  type : Text
  name : Text
  value : Option Text
  type_token : Text.IsTokenWithout fieldMarks type
  type_not_keyword : type ∉ Modifiers.keywords
  name_token : Text.IsTokenWithout fieldMarks name
  /-- Commas part the names of a field without a value. -/
  single : value = none → ',' ∉ name
  /-- The value may hold anything, but it has no blanks at its ends. -/
  trimmed : ∀ v ∈ value, v.head?.any Text.isBlank = false ∧ v.getLast?.any Text.isBlank = false

namespace FieldParts

/-- The record of a field whose modifiers are written in the given order. -/
def text (f : FieldParts) (keywords : List Text) : Text :=
  [' '].intercalate (keywords ++ [f.type, f.name]) ++ assignment f.value ++ [';']

/-- What is read from it. -/
def toVariable (f : FieldParts) : Variable where
  type := String.ofList f.type
  name := String.ofList f.name
  value := f.value.map String.ofList
  access := f.access
  isStatic := f.isStatic
  isFinal := f.isFinal

variable (f : FieldParts)

theorem declaredNames_name : declaredNames f.value f.name = [f.name] := by
  rw [declaredNames]
  split
  · rename_i hseveral
    obtain ⟨hvalue, hcomma⟩ := Bool.and_eq_true_iff.mp hseveral
    exact absurd (List.contains_iff_mem.mp hcomma) (f.single (Option.isNone_iff_eq_none.mp hvalue))
  · rfl

theorem trim_value : f.value.map Text.trim = f.value := by
  cases hvalue : f.value with
  | none => rfl
  | some v =>
      obtain ⟨hfirst, hlast⟩ := f.trimmed v hvalue
      exact congrArg some (Text.trim_of_ends hfirst hlast)

end FieldParts

/-- Every field is read back from its record, in whatever order its modifiers stand there. -/
theorem fields_text_keywords (f : FieldParts) {keywords : List Text}
    (h : keywords.Perm (modifierWords f.access f.isStatic f.isFinal false)) :
    fields .keyword (f.text keywords) = [f.toVariable] := by
  rw [FieldParts.text, fields_keywords h f.type_token f.type_not_keyword f.name_token, f.trim_value,
    f.declaredNames_name]
  rfl

/-- A constant with a comma in its name, whose value holds quotes, semicolons, commas and further
assignments. -/
def FieldParts.constant : FieldParts where
  access := .protectedAccess
  isStatic := true
  isFinal := true
  type := "Map<String,@A(x)int[]>".toList
  name := "a,b".toList
  value := some "f(\"; = ', \", ';') = \"".toList
  type_token := by decide
  type_not_keyword := by decide
  name_token := by decide
  single := by rintro ⟨⟩
  trimmed := by
    rintro v ⟨⟩
    decide

theorem fields_text_constant :
    (["final", "protected", "static"].map String.toList).Perm
        (modifierWords .protectedAccess true true false) ∧
      fields .keyword
          "final protected static Map<String,@A(x)int[]> a,b = f(\"; = ', \", ';') = \";".toList =
        [{ type := "Map<String,@A(x)int[]>", name := "a,b"
           value := some "f(\"; = ', \", ';') = \"", access := .protectedAccess
           isStatic := true, isFinal := true }] := by
  have hperm : (["final", "protected", "static"].map String.toList).Perm
      (modifierWords .protectedAccess true true false) := by decide
  have hread := fields_text_keywords .constant hperm
  exact ⟨hperm, hread⟩

end ClassDiagram.Member
