import ClassDiagram.Proofs.Member.Part

/-!
# What fields and methods are made of

However malformed a member is, what is read from it has a certain form. Types and names are
tokens, the blanks of a value are spaces, and a method has no type exactly if it is a
constructor, whose name is that of its owner. All of this is true of either decoding and
needs no more of a record than that its blanks are spaces.
-/

namespace ClassDiagram

/-- The form of all fields: a type and a name without blanks, and a value on one line. -/
structure Variable.WellFormed (v : Variable) : Prop where
  type : Text.IsToken v.type.toList
  name : Text.IsToken v.name.toList
  value : ∀ value ∈ v.value, Text.Spaced value.toList

/-- The form of all parameters: a type and a name without blanks. -/
structure Parameter.WellFormed (p : Parameter) : Prop where
  type : Text.IsToken p.type.toList
  name : Text.IsToken p.name.toList

/-- The form of all methods in the type `owner`. -/
structure Method.WellFormed (owner : String) (m : Method) : Prop where
  typed : m.type.isSome = !m.isConstructor
  type : ∀ type ∈ m.type, Text.IsToken type.toList
  name : Text.IsToken m.name.toList
  constructed : m.isConstructor = true → m.name = owner
  parameters : ∀ p ∈ m.parameters, p.WellFormed

namespace Member

/-! ## Words -/

section Words

variable {words : List Text}

theorem takeKeywords_subset (m : Modifiers) (words : List Text) :
    (m.takeKeywords words).2 ⊆ words := by
  induction words generalizing m with
  | nil => exact List.Subset.refl _
  | cons word words ih =>
      rw [Modifiers.takeKeywords]
      split
      · exact List.subset_cons_of_subset _ (ih _)
      · exact List.Subset.refl _

theorem byPosition_subset (words : List Text) : (Modifiers.byPosition words).2 ⊆ words := by
  have hrest : (if (words.head?.bind Access.ofKeyword?).isSome then words.tail else words) ⊆
      words := by
    split
    · exact (List.tail_sublist words).subset
    · exact List.Subset.refl _
  rw [Modifiers.byPosition]
  split
  · exact List.Subset.refl _
  · dsimp only
    generalize (if (words.head?.bind Access.ofKeyword?).isSome then words.tail else words) = rest
      at hrest
    split
    · exact List.Subset.trans (List.tail_sublist rest).subset hrest
    · exact List.Subset.trans (List.drop_subset _ _) hrest

/-- Either decoding leaves words that were there before. -/
theorem decode_subset (decoding : Decoding) (words : List Text) :
    (Modifiers.decode decoding words).2 ⊆ words := by
  cases decoding with
  | keyword => exact takeKeywords_subset {} words
  | positional => exact byPosition_subset words

theorem mem_of_lastTwo? {type name : Text} (h : lastTwo? words = some (type, name)) :
    type ∈ words ∧ name ∈ words := by
  fun_induction lastTwo? words with
  | case1 => cases h
  | case2 => cases h
  | case3 => cases h; simp
  | case4 word words _ _ ih =>
      obtain ⟨htype, hname⟩ := ih h
      exact ⟨List.mem_cons_of_mem _ htype, List.mem_cons_of_mem _ hname⟩

/-- The last two words behind the modifiers of a text are tokens. -/
theorem token_of_lastTwo? {decoding : Decoding} {t type name : Text}
    (h : lastTwo? (Modifiers.decode decoding (Text.words t)).2 = some (type, name)) :
    Text.IsToken type ∧ Text.IsToken name := by
  obtain ⟨htype, hname⟩ := mem_of_lastTwo? h
  exact ⟨Text.token_of_mem_words (decode_subset _ _ htype),
    Text.token_of_mem_words (decode_subset _ _ hname)⟩

end Words

/-! ## Fields -/

theorem token_of_mem_declaredNames {value : Option Text} {name declared : Text}
    (hname : Text.IsToken name) (h : declared ∈ declaredNames value name) :
    Text.IsToken declared := by
  rw [declaredNames] at h
  split at h
  · obtain ⟨hpiece, hne⟩ := List.mem_filter.mp h
    refine ⟨?_, fun c hc => hname.2 c (Text.subset_of_mem_splitWhere hpiece hc)⟩
    rintro rfl
    cases hne
  · cases List.mem_singleton.mp h
    exact hname

theorem wellFormed_of_mem_fields {decoding : Decoding} {record : Text} {v : Variable}
    (hrecord : Text.Spaced record) (h : v ∈ fields decoding record) : v.WellFormed := by
  rw [fields] at h
  obtain ⟨-, hvalue⟩ := splitValue_subset record
  generalize splitValue record = parts at h hvalue
  obtain ⟨declaration, value⟩ := parts
  dsimp only at h hvalue
  split at h
  · cases h
  · rename_i type name hlast
    obtain ⟨htype, hname⟩ := token_of_lastTwo? hlast
    obtain ⟨declared, hdeclared, rfl⟩ := List.mem_map.mp h
    constructor
    · simpa using htype
    · simpa using token_of_mem_declaredNames hname hdeclared
    · intro text htext
      obtain ⟨given, hgiven, rfl⟩ := Option.map_eq_some_iff.mp htext
      rw [String.toList_ofList]
      exact hrecord.mono (hvalue given hgiven)

/-! ## Parameters -/

theorem wordPair?_cases {piece type name : Text} (h : wordPair? piece = some (type, name)) :
    (type ≠ [] ∧ (∀ c ∈ type, isGap c = false) ∧ type ⊆ piece) ∧
      (name ≠ [] ∧ (∀ c ∈ name, isGap c = false) ∧ name ⊆ piece) := by
  have hword (t : Text) : ∀ c ∈ t.takeWhile (fun c => !isGap c), isGap c = false := by
    intro c hc
    simpa using List.all_eq_true.mp (List.all_takeWhile (p := fun c => !isGap c)) c hc
  have hstart : (piece.dropWhile isGap).Sublist piece := List.dropWhile_sublist _
  have hbehind :
      (((piece.dropWhile isGap).dropWhile fun c => !isGap c).dropWhile isGap).Sublist piece :=
    ((List.dropWhile_sublist _).trans (List.dropWhile_sublist _)).trans hstart
  simp only [wordPair?, takeWord, Option.ite_none_right_eq_some, Bool.and_eq_true,
    Bool.not_eq_true', List.isEmpty_eq_false_iff] at h
  obtain ⟨⟨⟨htype, hname⟩, -⟩, ⟨⟩⟩ := h
  exact ⟨⟨htype, hword _, ((List.takeWhile_sublist _).trans hstart).subset⟩,
    ⟨hname, hword _, ((List.takeWhile_sublist _).trans hbehind).subset⟩⟩

/-- Where blanks are spaces, the narrow gaps between the words of a parameter are all there
are. -/
theorem token_of_ungapped {piece word : Text} (hpiece : Text.Spaced piece)
    (h : word ≠ [] ∧ (∀ c ∈ word, isGap c = false) ∧ word ⊆ piece) : Text.IsToken word := by
  obtain ⟨hne, hgaps, hsubset⟩ := h
  refine ⟨hne, fun c hc => ?_⟩
  rw [← Bool.not_eq_true]
  intro hblank
  have hspace := hpiece c (hsubset hc) hblank
  have hgap := hgaps c hc
  rw [hspace] at hgap
  cases hgap

theorem wellFormed_of_mem_parameters {t : Text} {p : Parameter} (ht : Text.Spaced t)
    (h : p ∈ parameters t) : p.WellFormed := by
  obtain ⟨piece, hpiece, hparameter⟩ := List.mem_filterMap.mp h
  have hsubset := subset_of_mem_parameterPieces hpiece
  rw [Text.chars_glyphs] at hsubset
  rw [parameter?] at hparameter
  split at hparameter
  · cases hparameter
  · obtain ⟨⟨type, name⟩, hpair, rfl⟩ := Option.map_eq_some_iff.mp hparameter
    obtain ⟨htype, hname⟩ := wordPair?_cases hpair
    constructor
    · simpa using token_of_ungapped (ht.mono hsubset) htype
    · simpa using token_of_ungapped (ht.mono hsubset) hname

/-! ## Methods -/

/-- A constructor is recognised by the name of its owner among the words. -/
theorem mem_of_constructorAccess? {owner : Text} {words rest : List Text} {modifiers : Modifiers}
    {access : Access} (h : constructorAccess? owner words modifiers rest = some access)
    (hrest : rest ⊆ words) : owner ∈ words := by
  unfold constructorAccess? at h
  rcases Option.or_eq_some_iff.mp h with hplain | ⟨-, hleft⟩
  · split at hplain
    · split at hplain
      · rename_i hname
        simp [hname]
      · cases hplain
    · split at hplain
      · rename_i hname
        simp [hname]
      · cases hplain
    · cases hplain
  · split at hleft
    · rename_i hname
      exact hrest (by simp [hname])
    · cases hleft

theorem methodHead?_cases {owner name : Text} {words rest : List Text} {modifiers : Modifiers}
    {type : Option Text} {access : Access}
    (h : methodHead? owner words modifiers rest = some (type, name, access))
    (hrest : rest ⊆ words) :
    (type = none ∧ name = owner ∧ name ∈ words) ∨
      ∃ result, type = some result ∧ lastTwo? rest = some (result, name) := by
  rw [methodHead?] at h
  split at h
  · rename_i found haccess
    cases h
    exact .inl ⟨rfl, rfl, mem_of_constructorAccess? haccess hrest⟩
  · obtain ⟨⟨result, last⟩, hlast, heq⟩ := Option.map_eq_some_iff.mp h
    cases heq
    exact .inr ⟨result, rfl, hlast⟩

theorem wellFormed_of_method? {decoding : Decoding} {owner record : Text} {m : Method}
    (hrecord : Text.Spaced record) (h : method? decoding owner record = some m) :
    m.WellFormed (String.ofList owner) := by
  simp only [method?, Option.bind_eq_bind, Option.bind_eq_some_iff, Prod.exists, pure,
    Option.some.injEq] at h
  obtain ⟨lead, list, hsignature, type, name, access, hhead, rfl⟩ := h
  have hlist := hrecord.mono (splitSignature?_subset hsignature)
  have hparameters : ∀ p ∈ parameters list, p.WellFormed := fun p hp =>
    wellFormed_of_mem_parameters hlist hp
  rcases methodHead?_cases hhead (decode_subset _ _) with
    ⟨rfl, rfl, hmem⟩ | ⟨result, rfl, hlast⟩
  · constructor
    · rfl
    · rintro _ ⟨⟩
    · simpa using Text.token_of_mem_words hmem
    · exact fun _ => rfl
    · exact hparameters
  · obtain ⟨hresult, hname⟩ := token_of_lastTwo? hlast
    constructor
    · rfl
    · rintro _ ⟨⟩
      simpa using hresult
    · simpa using hname
    · rintro ⟨⟩
    · exact hparameters

/-! ## All members of a type -/

section Members

variable {decoding : Decoding} {t : Text}

theorem wellFormed_of_mem_allFields {v : Variable} (ht : Text.Spaced t)
    (h : v ∈ allFields decoding (records t)) : v.WellFormed := by
  obtain ⟨r, hr, hv⟩ := List.mem_flatMap.mp h
  split at hv
  · exact wellFormed_of_mem_fields (ht.mono (value_subset hr)) hv
  · cases hv

theorem wellFormed_of_mem_allMethods {owner : String} {m : Method} (ht : Text.Spaced t)
    (h : m ∈ allMethods decoding owner.toList (records t)) : m.WellFormed owner := by
  obtain ⟨r, hr, hm⟩ := List.mem_filterMap.mp h
  split at hm
  · have hform := wellFormed_of_method? (ht.mono (value_subset hr)) hm
    rwa [String.ofList_toList] at hform
  · cases hm

end Members

end Member

end ClassDiagram
