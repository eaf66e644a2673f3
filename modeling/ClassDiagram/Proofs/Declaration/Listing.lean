import ClassDiagram.Proofs.Declaration.Signature

/-!
# Lists of types

A list of types is cut at the commas outside angle brackets, and of each piece the name in front of
its first bracket stays. Brackets that belong together hide all commas between them, however deep
they are nested, so a list gives back the names that were written into it (`typeNames_list`).
-/

namespace ClassDiagram.Declaration

/-- A type in a list, with the blanks around it. -/
structure Listed where
  front : Text
  name : Text
  /-- The text between the outermost angle brackets. -/
  arguments : Option Text
  behind : Text
  front_blank : ∀ c ∈ front, Text.isBlank c = true
  name_ne_nil : name ≠ []
  name_plain : ∀ c ∈ name, Text.isBlank c = false ∧ c ≠ ',' ∧ c ≠ '<' ∧ c ≠ '>'
  balanced : ∀ t ∈ arguments, Text.angles.Balanced t
  behind_blank : ∀ c ∈ behind, Text.isBlank c = true

namespace Listed

/-- The type itself. -/
def type (e : Listed) : Text := e.name ++ angled e.arguments

def text (e : Listed) : Text := e.front ++ (e.type ++ e.behind)

/-- A list of types, with commas between them. -/
def list (es : List Listed) : Text := [','].intercalate (es.map text)

section Text

variable (e : Listed)

theorem type_ne_nil : e.type ≠ [] := List.append_ne_nil_of_left_ne_nil e.name_ne_nil _

theorem head?_type : e.type.head?.any Text.isBlank = false := by
  obtain ⟨c, rest, hname⟩ := List.exists_cons_of_ne_nil e.name_ne_nil
  rw [type, hname]
  exact (e.name_plain c (by simp [hname])).1

/-- A type ends with its name or a closing bracket. -/
theorem getLast?_type : e.type.getLast?.any Text.isBlank = false := by
  rw [type]
  cases e.arguments with
  | none =>
      rw [angled, List.append_nil, List.getLast?_eq_some_getLast e.name_ne_nil]
      exact (e.name_plain _ (List.getLast_mem e.name_ne_nil)).1
  | some t =>
      rw [angled, ← List.cons_append, ← List.append_assoc, List.getLast?_concat]
      rfl

theorem trim_text : Text.trim e.text = e.type := by
  rw [text, Text.trim_around e.head?_type e.getLast?_type e.type_ne_nil,
    Text.trimStart_blanks e.front_blank, Text.trimEnd_blanks e.behind_blank, List.nil_append,
    List.append_nil]

theorem bareName_trim_text : bareName (Text.trim e.text) = e.name := by
  rw [trim_text, type]
  exact bareName_angled (fun c hc => (e.name_plain c hc).2.2.1) (angled_cases e.arguments)

/-- All commas of an entry stand inside its brackets, which are closed at its end. -/
theorem shelters_text :
    Text.angles.Shelters (· = ',') 0 e.text ∧ Text.angles.depth 0 e.text = 0 := by
  have hblanks {t : Text} (ht : ∀ c ∈ t, Text.isBlank c = true) :
      Text.angles.Shelters (· = ',') 0 t ∧ Text.angles.depth 0 t = 0 := by
    refine ⟨Brackets.shelters_of_forall fun c hc => Text.ne_of_isBlank (ht c hc) rfl, ?_⟩
    refine Brackets.depth_of_depth? (Brackets.depth?_of_forall fun c hc => ?_)
    exact ⟨beq_eq_false_iff_ne.mpr (Text.ne_of_isBlank (ht c hc) rfl),
      beq_eq_false_iff_ne.mpr (Text.ne_of_isBlank (ht c hc) rfl)⟩
  obtain ⟨hfront, hfrontDepth⟩ := hblanks e.front_blank
  obtain ⟨htype, htypeDepth⟩ : Text.angles.Shelters (· = ',') 0 e.type ∧
      Text.angles.depth 0 e.type = 0 :=
    shelters_angled (fun c hc => (e.name_plain c hc).2.2) e.balanced
      (fun c hc => (e.name_plain c hc).2.1) (by decide)
  obtain ⟨hbehind, hbehindDepth⟩ := hblanks e.behind_blank
  rw [text, Brackets.shelters_append, Brackets.shelters_append, Brackets.depth_append,
    Brackets.depth_append, hfrontDepth, htypeDepth]
  exact ⟨⟨hfront, htype, hbehind⟩, hbehindDepth⟩

end Text

/-- The pieces of a list are its entries. -/
theorem listPieces_list {es : List Listed} (hne : es ≠ []) :
    listPieces 0 (list es) = es.map text := by
  induction es with
  | nil => exact absurd rfl hne
  | cons e es ih =>
      obtain ⟨hcomma, hdepth⟩ := e.shelters_text
      cases es with
      | nil =>
          rw [list, List.map_singleton, List.intercalate_singleton]
          exact listPieces_of_shelters hcomma
      | cons next es =>
          have hlist : list (e :: next :: es) = e.text ++ ',' :: list (next :: es) := by
            simp [list, List.intercalate_cons_cons]
          rw [hlist, listPieces_append_comma hcomma hdepth, ih (List.cons_ne_nil next es)]
          rfl

end Listed

/-- A list of types, joined by commas and with blanks wherever a type begins or ends, gives back
their names in order. Generic arguments may hold commas, blanks and further brackets. -/
theorem typeNames_list (es : List Listed) : typeNames (Listed.list es) = es.map Listed.name := by
  by_cases hne : es = []
  · subst hne
    rfl
  · have hnames : (es.map Listed.text).map (fun piece => bareName (Text.trim piece)) =
        es.map Listed.name := by
      rw [List.map_map]
      exact List.map_congr_left fun e _ => e.bareName_trim_text
    rw [typeNames, Listed.listPieces_list hne, hnames, List.filter_eq_self]
    intro name hname
    obtain ⟨e, -, rfl⟩ := List.mem_map.mp hname
    simpa using e.name_ne_nil

/-- A type with a comma in nested arguments and blanks around it, and one without arguments. -/
def nestedEntries : List Listed :=
  [{ front := " ".toList
     name := "Map".toList
     arguments := some "K, List<V,W>".toList
     behind := " ".toList
     front_blank := Text.forall_mem_of_all rfl
     name_ne_nil := by decide
     name_plain := Text.forall_mem_of_all rfl
     balanced := by decide
     behind_blank := Text.forall_mem_of_all rfl },
   { front := "\t".toList
     name := "B".toList
     arguments := none
     behind := []
     front_blank := Text.forall_mem_of_all rfl
     name_ne_nil := by decide
     name_plain := Text.forall_mem_of_all rfl
     balanced := balanced_none
     behind_blank := Text.forall_mem_of_all rfl }]

theorem typeNames_list_nested :
    Listed.list nestedEntries = " Map<K, List<V,W>> ,\tB".toList ∧
      typeNames " Map<K, List<V,W>> ,\tB".toList = ["Map".toList, "B".toList] := by
  have hlist : Listed.list nestedEntries = " Map<K, List<V,W>> ,\tB".toList := by decide
  have hnames := typeNames_list nestedEntries
  rw [hlist] at hnames
  exact ⟨hlist, hnames⟩

end ClassDiagram.Declaration
