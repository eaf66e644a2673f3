import ClassDiagram.Proofs.Member.Field

/-!
# Declarations of several fields

A declaration may introduce several names. They are told apart at the commas of its last word,
but only if it assigns nothing. The first assignment parts a declaration into one name, with
all commas that are in it, and a value, which takes the rest of the text with all that is
declared there. So there is one field for each declarator exactly if no declarator has a value
or there is only one (`fields_declaration`).
-/

namespace ClassDiagram

/-! ## Texts without blanks at their ends -/

/-- A text between two characters that are no blanks. -/
structure Text.Edged (t : Text) : Prop where
  ne_nil : t ≠ []
  first : t.head?.any isBlank = false
  last : t.getLast?.any isBlank = false

namespace Text.Edged

variable {s t : Text}

theorem of_solid (ht : Solid t) (hne : t ≠ []) : Edged t := by
  refine ⟨hne, ?_, ?_⟩
  · rw [List.head?_eq_some_head hne]
    exact ht _ (List.head_mem hne)
  · rw [List.getLast?_eq_some_getLast hne]
    exact ht _ (List.getLast_mem hne)

theorem trim_eq (ht : Edged t) : trim t = t := trim_of_ends ht.first ht.last

theorem join (hs : Edged s) (ht : Edged t) (u : Text) : Edged (s ++ (u ++ t)) := by
  refine ⟨by simp [hs.ne_nil], ?_, ?_⟩
  · rw [List.head?_append, List.head?_eq_some_head hs.ne_nil, Option.some_or,
      ← List.head?_eq_some_head hs.ne_nil]
    exact hs.first
  · rw [← List.append_assoc, List.getLast?_append, List.getLast?_eq_some_getLast ht.ne_nil,
      Option.some_or, ← List.getLast?_eq_some_getLast ht.ne_nil]
    exact ht.last

theorem intercalate {separator : Text} {texts : List Text} (hne : texts ≠ [])
    (h : ∀ t ∈ texts, Edged t) : Edged (separator.intercalate texts) := by
  induction texts with
  | nil => exact absurd rfl hne
  | cons t texts ih =>
      obtain ⟨ht, htexts⟩ := List.forall_mem_cons.mp h
      cases texts with
      | nil => rwa [List.intercalate_singleton]
      | cons u texts =>
          rw [List.intercalate_cons_cons, List.append_assoc]
          exact ht.join (ih (List.cons_ne_nil u texts) htexts) separator

end Text.Edged

namespace Member

/-! ## Declarations -/

/-- A part of a declaration: a text without blanks and quotes, and without the characters that
part a declaration from others and its own parts from each other. -/
structure Lexeme where
  text : Text
  ne_nil : text ≠ []
  plain : ∀ c ∈ text, Text.isBlank c = false ∧ Quote.ofChar? c = none ∧ c ∉ ",=;@".toList

namespace Lexeme

variable (l : Lexeme)

theorem solid : Text.Solid l.text := fun c hc => (l.plain c hc).1

theorem unquoted : Text.Unquoted l.text := fun c hc => (l.plain c hc).2.1

theorem edged : Text.Edged l.text := .of_solid l.solid l.ne_nil

theorem ne_of_mem {c d : Char} (hc : c ∈ l.text) (hd : d ∈ ",=;@".toList) : c ≠ d := by
  rintro rfl
  exact (l.plain c hc).2.2 hd

theorem not_mem_fieldMarks {c : Char} (hc : c ∈ l.text) : c ∉ fieldMarks := by
  have hquotes : ∀ d ∈ fieldMarks, d = '=' ∨ Quote.ofChar? d ≠ none :=
    Text.forall_mem_of_all rfl
  intro hmem
  rcases hquotes c hmem with heq | hquote
  · exact l.ne_of_mem hc (by decide) heq
  · exact hquote (l.unquoted c hc)

end Lexeme

/-- A name that a declaration introduces, with or without a value. -/
structure Declarator where
  name : Lexeme
  value : Option Lexeme

/-- Texts with commas between them. -/
def commaList (texts : List Text) : Text := [','].intercalate texts

namespace Declarator

def text (d : Declarator) : Text := d.name.text ++ assignment (d.value.map Lexeme.text)

/-- The names of declarators with commas between them. -/
def names (ds : List Declarator) : Text := commaList (ds.map fun d => d.name.text)

/-- The field that a declarator introduces in a private declaration. -/
def toVariable (type : Lexeme) (d : Declarator) : Variable where
  type := String.ofList type.text
  name := String.ofList d.name.text
  value := d.value.map fun value => String.ofList value.text
  access := .privateAccess

variable {d : Declarator} {ds : List Declarator}

theorem edged_text (d : Declarator) : Text.Edged d.text := by
  obtain ⟨name, value⟩ := d
  cases value with
  | none => simpa [text, assignment] using name.edged
  | some value => exact name.edged.join value.edged _

theorem forall_mem_names {p : Char → Prop} (hcomma : p ',') (h : ∀ l : Lexeme, ∀ c ∈ l.text, p c) :
    ∀ c ∈ names ds, p c := by
  refine Text.forall_mem_intercalate (List.forall_mem_singleton.mpr hcomma) fun t ht => ?_
  obtain ⟨d, -, rfl⟩ := List.mem_map.mp ht
  exact h d.name

theorem names_ne_nil (hne : ds ≠ []) : names ds ≠ [] := by
  refine (Text.Edged.intercalate (by simpa using hne) fun t ht => ?_).ne_nil
  obtain ⟨d, -, rfl⟩ := List.mem_map.mp ht
  exact d.name.edged

end Declarator

open Declarator

/-- A private declaration without its semicolon, by what stands behind the type. -/
def privately (type : Lexeme) (list : Text) : Text :=
  [' '].intercalate ["private".toList, type.text, list]

/-- A private declaration. -/
def declaration (type : Lexeme) (ds : List Declarator) : Text :=
  privately type (commaList (ds.map Declarator.text)) ++ [';']

/-! ## The parts of a declaration -/

theorem privately_eq (type : Lexeme) (list : Text) :
    privately type list = "private".toList ++ ([' '] ++ (type.text ++ ([' '] ++ list))) := by
  rw [privately, List.intercalate_cons_cons, List.intercalate_cons_cons, List.intercalate_singleton,
    List.append_assoc, List.append_assoc]

theorem privately_append (type : Lexeme) (s t : Text) :
    privately type (s ++ t) = privately type s ++ t := by
  rw [privately_eq, privately_eq, List.append_assoc, List.append_assoc, List.append_assoc,
    List.append_assoc]

section Parts

variable {type : Lexeme} {ds : List Declarator} {value : Option Text}

/-- The names of a declaration are one word. -/
theorem token_names (hne : ds ≠ []) : Text.IsTokenWithout fieldMarks (names ds) where
  token := ⟨names_ne_nil hne, forall_mem_names rfl Lexeme.solid⟩
  unmarked := forall_mem_names (by decide) fun l _ hc => l.not_mem_fieldMarks hc

/-- A declaration without a value has the names between its commas. -/
theorem declaredNames_none (hne : ds ≠ []) :
    declaredNames none (names ds) = ds.map fun d => d.name.text := by
  have hsplit : Text.splitWhere (· == ',') (names ds) = ds.map fun d => d.name.text := by
    refine Text.splitWhere_intercalate (by simpa using hne) rfl fun t ht c hc => ?_
    obtain ⟨d, -, rfl⟩ := List.mem_map.mp ht
    exact beq_eq_false_iff_ne.mpr (d.name.ne_of_mem hc (by decide))
  have hfull : ∀ t ∈ ds.map (fun d => d.name.text), (!t.isEmpty) = true := by
    intro t ht
    obtain ⟨d, -, rfl⟩ := List.mem_map.mp ht
    simpa using d.name.ne_nil
  rw [declaredNames]
  split
  · rw [hsplit, List.filter_eq_self.mpr hfull]
  · rename_i hcomma
    have hone : ∀ c ∈ names ds, (c == ',') = false := by
      intro c hc
      rw [beq_eq_false_iff_ne]
      rintro rfl
      exact hcomma (by simpa using hc)
    rw [← hsplit, Text.splitWhere_of_forall hone]

/-- All fields of a declaration have the value behind its first assignment. -/
theorem fields_privately (htype : type.text ∉ Modifiers.keywords) (hne : ds ≠ [])
    (value : Option Text) (hvalue : ∀ v ∈ value, Text.Edged v) :
    fields .keyword (privately type (names ds) ++ assignment value ++ [';']) =
      (declaredNames value (names ds)).map fun name => {
        type := String.ofList type.text
        name := String.ofList name
        value := value.map String.ofList
        access := .privateAccess } := by
  have htrim : value.map Text.trim = value := by
    cases value with
    | none => rfl
    | some v => exact congrArg some (hvalue v rfl).trim_eq
  have htoken : Text.IsTokenWithout fieldMarks type.text :=
    ⟨⟨type.ne_nil, type.solid⟩, fun _ hc => type.not_mem_fieldMarks hc⟩
  have hread := fields_keywords (.refl (Tree.modifierWords .privateAccess false false false)) htoken
    htype (token_names hne) value
  rwa [htrim] at hread

end Parts

/-! ## Lists with commas -/

section CommaList

variable {texts : List Text} {t : Text} {front back ds : List Declarator} {d : Declarator}
  {w : Lexeme}

theorem commaList_cons (hne : texts ≠ []) (t : Text) :
    commaList (t :: texts) = t ++ ',' :: commaList texts := by
  obtain ⟨u, texts, rfl⟩ := List.exists_cons_of_ne_nil hne
  rw [commaList, List.intercalate_cons_cons, List.append_assoc]
  rfl

theorem commaList_append_cons (s t : Text) (texts : List Text) :
    commaList ((s ++ t) :: texts) = s ++ commaList (t :: texts) := by
  by_cases hne : texts = []
  · simp [hne, commaList]
  · rw [commaList_cons hne, commaList_cons hne, List.append_assoc]

theorem commaList_text_of_forall (h : ∀ d ∈ ds, d.value = none) :
    commaList (ds.map Declarator.text) = names ds := by
  have hmap : ds.map Declarator.text = ds.map fun d => d.name.text := by
    refine List.map_congr_left fun d hd => ?_
    rw [Declarator.text, h d hd]
    exact List.append_nil _
  rw [hmap, names]

theorem names_singleton (d : Declarator) : names [d] = d.name.text := by
  rw [names, List.map_singleton, commaList, List.intercalate_singleton]

theorem names_cons (d : Declarator) (hne : ds ≠ []) :
    names (d :: ds) = d.name.text ++ ',' :: names ds :=
  commaList_cons (by simpa using hne) d.name.text

/-- The first assignment of a list has the names so far in front and the rest of the list
behind. -/
theorem commaList_text_of_value (hfront : ∀ e ∈ front, e.value = none) (hvalue : d.value = some w) :
    commaList ((front ++ d :: back).map Declarator.text) =
      names (front ++ [d]) ++
        assignment (some (commaList (w.text :: back.map Declarator.text))) := by
  induction front with
  | nil =>
      rw [List.nil_append, List.map_cons, Declarator.text, hvalue, Option.map_some, assignment,
        ← List.append_assoc, commaList_append_cons, List.nil_append, names_singleton, assignment,
        List.append_assoc]
  | cons e front ih =>
      obtain ⟨he, hfront⟩ := List.forall_mem_cons.mp hfront
      have htext : e.text = e.name.text := by
        rw [Declarator.text, he]
        exact List.append_nil _
      rw [List.cons_append, List.map_cons, commaList_cons (by simp), ih hfront, htext,
        List.cons_append, names_cons e (by simp), List.append_assoc, List.cons_append]

theorem exists_first_value (h : ¬∀ d ∈ ds, d.value = none) :
    ∃ front d back w,
      ds = front ++ d :: back ∧ (∀ e ∈ front, e.value = none) ∧ d.value = some w := by
  induction ds with
  | nil => exact absurd (List.forall_mem_nil _) h
  | cons d ds ih =>
      cases hvalue : d.value with
      | some w => exact ⟨[], d, ds, w, rfl, List.forall_mem_nil _, hvalue⟩
      | none =>
          obtain ⟨front, e, back, w, rfl, hfront, he⟩ :=
            ih fun hds => h (List.forall_mem_cons.mpr ⟨hvalue, hds⟩)
          exact ⟨d :: front, e, back, w, rfl, List.forall_mem_cons.mpr ⟨hvalue, hfront⟩, he⟩

end CommaList

/-! ## Fields -/

section Fields

variable {type : Lexeme} {front ds : List Declarator} {d : Declarator} {w : Lexeme}

theorem fields_of_forall (htype : type.text ∉ Modifiers.keywords) (hne : ds ≠ [])
    (h : ∀ d ∈ ds, d.value = none) :
    fields .keyword (declaration type ds) = ds.map (toVariable type) := by
  have hfields := fields_privately htype hne none (by rintro _ ⟨⟩)
  rw [assignment, List.append_nil, declaredNames_none hne, List.map_map] at hfields
  rw [declaration, commaList_text_of_forall h, hfields]
  refine List.map_congr_left fun d hd => ?_
  rw [toVariable, h d hd]
  rfl

theorem fields_of_value (htype : type.text ∉ Modifiers.keywords)
    (hfront : ∀ e ∈ front, e.value = none) (hvalue : d.value = some w) (back : List Declarator) :
    fields .keyword (declaration type (front ++ d :: back)) = [{
      type := String.ofList type.text
      name := String.ofList (names (front ++ [d]))
      value := some (String.ofList (commaList (w.text :: back.map Declarator.text)))
      access := .privateAccess }] := by
  have hrest : Text.Edged (commaList (w.text :: back.map Declarator.text)) := by
    refine Text.Edged.intercalate (List.cons_ne_nil _ _) (List.forall_mem_cons.mpr ⟨w.edged, ?_⟩)
    exact List.forall_mem_map.mpr fun d _ => d.edged_text
  have hnames : front ++ [d] ≠ [] := by simp
  have hfields := fields_privately htype hnames
    (some (commaList (w.text :: back.map Declarator.text))) (by rintro _ ⟨⟩; exact hrest)
  rw [declaration, commaList_text_of_value hfront hvalue, privately_append, hfields]
  rfl

end Fields

/-- A declaration without any value has one field for each declarator. Otherwise it has one
field in all: its name is the text up to the first value, and its value the text from there.
So there is one field for each declarator exactly if none has a value or there is only one. -/
theorem fields_declaration {type : Lexeme} (htype : type.text ∉ Modifiers.keywords)
    {ds : List Declarator} (hne : ds ≠ []) :
    ((∀ d ∈ ds, d.value = none) →
      fields .keyword (declaration type ds) = ds.map (toVariable type)) ∧
    (∀ front d back w, ds = front ++ d :: back → (∀ e ∈ front, e.value = none) →
      d.value = some w →
        fields .keyword (declaration type ds) = [{
          type := String.ofList type.text
          name := String.ofList (names (front ++ [d]))
          value := some (String.ofList (commaList (w.text :: back.map Declarator.text)))
          access := .privateAccess }]) ∧
    (fields .keyword (declaration type ds) = ds.map (toVariable type) ↔
      (∀ d ∈ ds, d.value = none) ∨ ds.length = 1) := by
  refine ⟨fields_of_forall htype hne, ?_, fun h => ?_, ?_⟩
  · rintro front d back w rfl
    exact fun hfront hvalue => fields_of_value htype hfront hvalue back
  · by_cases hnone : ∀ d ∈ ds, d.value = none
    · exact .inl hnone
    · obtain ⟨front, d, back, w, rfl, hfront, hvalue⟩ := exists_first_value hnone
      rw [fields_of_value htype hfront hvalue back] at h
      have hlength := congrArg List.length h
      rw [List.length_map] at hlength
      exact .inr hlength.symm
  · rintro (hnone | hone)
    · exact fields_of_forall htype hne hnone
    · obtain ⟨d, rfl⟩ := List.length_eq_one_iff.mp hone
      cases hvalue : d.value with
      | none => exact fields_of_forall htype hne (List.forall_mem_singleton.mpr hvalue)
      | some w =>
          have hfield := fields_of_value htype (List.forall_mem_nil _) hvalue []
          rw [List.nil_append] at hfield
          rw [hfield, List.map_singleton, toVariable, hvalue]
          simp [names, commaList]

/-- The type `int`. -/
def Lexeme.int : Lexeme := ⟨"int".toList, by decide, Text.forall_mem_of_all rfl⟩

/-- A part of one character. -/
def Lexeme.single (c : Char)
    (h : Text.isBlank c = false ∧ Quote.ofChar? c = none ∧ c ∉ ",=;@".toList) : Lexeme :=
  ⟨[c], List.cons_ne_nil c [], List.forall_mem_singleton.mpr h⟩

/-- The declarators `a = 1` and `b = 2`. -/
def Declarator.twoValues : List Declarator :=
  [⟨.single 'a' (by decide), some (.single '1' (by decide))⟩,
    ⟨.single 'b' (by decide), some (.single '2' (by decide))⟩]

theorem fields_declaration_twoValues :
    declaration .int twoValues = "private int a = 1,b = 2;".toList ∧
      fields .keyword (declaration .int twoValues) =
        [{ type := "int", name := "a", value := some "1,b = 2" }] := by
  have htype : Lexeme.int.text ∉ Modifiers.keywords := by decide
  obtain ⟨-, hvalue, -⟩ := fields_declaration htype (List.cons_ne_nil _ _)
  have hfield := hvalue [] _ _ _ (rfl : twoValues = _) (List.forall_mem_nil _) rfl
  exact ⟨by decide +kernel, hfield.trans (by decide +kernel)⟩

/-- Not all declarations have one field for each declarator. -/
theorem not_forall_fields_eq_map :
    ¬∀ (type : Lexeme) (ds : List Declarator), type.text ∉ Modifiers.keywords → ds ≠ [] →
      fields .keyword (declaration type ds) = ds.map (toVariable type) := by
  intro h
  have hfields := h .int twoValues (by decide) (List.cons_ne_nil _ _)
  exact absurd hfields (by decide +kernel)

end Member

end ClassDiagram
