import ClassDiagram.Proofs.Tree.Basic

/-!
# The dense form of a tree

A tree in print has the spaces around its tight marks that the dense form lacks, and
no others. So the dense form of its printed text is its dense text, and that text
stays as it is when it is read again as the text of a child.
-/

namespace ClassDiagram

open Source (Spelling Settles settle IsPlain over_gap over_list)

/-! ## Names -/

theorem isWordChar_of_isName {t : Text} (h : isName t = true) :
    ∀ c ∈ t, Text.isWordChar c = true := by
  intro c hc
  simp only [isName, Bool.and_eq_true, List.all_eq_true] at h
  have hchar := h.1.2 c hc
  have hascii : c.toNat < 128 := by
    have hclasses : c.isAlphanum = (c.isUpper || c.isLower || c.isDigit) := rfl
    have hbelow {last : Char} (hlast : last.toNat < 128) (h : c.val ≤ last.val) : c.toNat < 128 :=
      Nat.lt_of_le_of_lt (UInt32.le_iff_toNat_le.mp h) hlast
    rw [hclasses, Bool.or_eq_true, Bool.or_eq_true, Bool.or_eq_true, beq_iff_eq] at hchar
    rcases hchar with ((hupper | hlower) | hdigit) | rfl
    · have hrange : 'A'.val ≤ c.val ∧ c.val ≤ 'Z'.val := of_decide_eq_true hupper
      exact hbelow (by decide) hrange.2
    · have hrange : (decide ('a'.val ≤ c.val) && decide (c.val ≤ 'z'.val)) = true := hlower
      exact hbelow (by decide) (of_decide_eq_true (Bool.and_eq_true_iff.mp hrange).2)
    · exact Nat.lt_of_le_of_lt (Char.isDigit_iff_toNat.mp hdigit).2 (by decide)
    · decide
  rw [Text.isWordChar, if_pos hascii, hchar]

namespace Word

variable (w : Word)

theorem isWord : Text.IsWord w.text := by
  refine ⟨?_, isWordChar_of_isName w.isName⟩
  intro hnil
  have h := w.isName
  rw [hnil] at h
  cases h

theorem not_mem_reservedWords : w.text ∉ reservedWords := by
  intro hmem
  have h := w.isName
  rw [ClassDiagram.isName, List.contains_iff_mem.mpr hmem, Bool.not_true, Bool.and_false] at h
  cases h

theorem trim_text : Text.trim w.text = w.text := w.isWord.startsWord.trim_eq w.isWord.endsWord

/-- A name differs from every keyword. -/
theorem ne_of_mem_reservedWords (keyword : Text) (h : keyword ∈ reservedWords) :
    w.text ≠ keyword := by
  rintro rfl
  exact w.not_mem_reservedWords h

theorem plain : IsPlain w.text where
  word := w.isWord
  clause := by
    have hpackage := w.ne_of_mem_reservedWords "package".toList (by decide)
    have himport := w.ne_of_mem_reservedWords "import".toList (by decide)
    rw [Source.opensClause, beq_eq_false_iff_ne.mpr hpackage, beq_eq_false_iff_ne.mpr himport]
    rfl

theorem settles : Settles w.text w.text := .of_plain w.plain

end Word

theorem Word.settles_list (spelling : Spelling) {ws : List Word} (hne : ws ≠ []) :
    Settles (Word.list spelling ws) (Word.list .dense ws) := by
  apply Settles.list spelling (by simpa using hne)
  intro s hs
  obtain ⟨w, -, rfl⟩ := List.mem_map.mp hs
  exact w.settles

theorem Access.plain_keyword (access : Access) : IsPlain access.keyword := by
  cases access with
  | privateAccess => decide
  | protectedAccess => decide
  | publicAccess => decide

theorem Kind.plain_keywords (kind : Kind) : ∀ w ∈ kind.keywords, IsPlain w := by
  cases kind with
  | plainClass => decide
  | abstractClass => decide
  | interface => decide
  | enum => decide

namespace Tree

/-- The keywords that can stand in front of a member. -/
def modifierKeywords : List Text :=
  ["private", "protected", "public", "static", "final", "abstract"].map String.toList

theorem modifierWords_subset (access : Access) (isStatic isFinal isAbstract : Bool) :
    modifierWords access isStatic isFinal isAbstract ⊆ modifierKeywords := by
  have haccess : access.keyword ∈ modifierKeywords := by
    cases access <;> decide
  have hflag {flag : Bool} {keyword : Text} (hkeyword : keyword ∈ modifierKeywords) :
      (if flag then [keyword] else []) ⊆ modifierKeywords := by
    cases flag with
    | true => exact List.cons_subset.mpr ⟨hkeyword, List.nil_subset _⟩
    | false => exact List.nil_subset _
  apply List.cons_subset.mpr
  refine ⟨haccess, ?_⟩
  apply List.append_subset.mpr
  exact ⟨List.append_subset.mpr ⟨hflag (by decide), hflag (by decide)⟩, hflag (by decide)⟩

theorem plain_modifierWords {access : Access} {isStatic isFinal isAbstract : Bool} {w : Text}
    (hw : w ∈ modifierWords access isStatic isFinal isAbstract) : IsPlain w := by
  have hplain : ∀ keyword ∈ modifierKeywords, IsPlain keyword := by decide
  exact hplain w (modifierWords_subset _ _ _ _ hw)

/-! ## Members -/

namespace Field

theorem words_ne_nil (f : Field) : f.words ≠ [] :=
  List.append_ne_nil_of_left_ne_nil (List.cons_ne_nil _ _) _

theorem plain_words (f : Field) : ∀ w ∈ f.words, IsPlain w := by
  intro w hw
  rcases List.mem_append.mp hw with hw | hw
  · exact plain_modifierWords hw
  · simp only [List.mem_cons, List.not_mem_nil, or_false] at hw
    rcases hw with rfl | rfl
    · exact f.type.plain
    · exact f.name.plain

theorem settles_declaration (f : Field) : Settles f.declaration f.declaration := by
  have hwords : Settles ([' '].intercalate f.words) ([' '].intercalate f.words) :=
    .words f.words_ne_nil f.plain_words
  rw [declaration]
  cases f.value with
  | none =>
      rw [List.append_nil]
      exact hwords
  | some value =>
      dsimp only
      rw [← List.append_assoc]
      exact hwords.assigned value.plain

theorem settle_text (f : Field) (tight : Bool) (t : Text) :
    settle tight (f.text ++ t) = f.text ++ settle true t := by
  rw [text, List.append_assoc, List.append_assoc, f.settles_declaration.front tight _ rfl]
  exact congrArg (f.declaration ++ ·) (Source.settle_mark rfl t)

end Field

namespace Operation

variable (spelling : Spelling) (owner : Word) (o : Operation)

theorem words_ne_nil : o.words owner ≠ [] :=
  List.append_ne_nil_of_left_ne_nil (List.cons_ne_nil _ _) _

theorem plain_words : ∀ w ∈ o.words owner, IsPlain w := by
  intro w hw
  rcases List.mem_append.mp hw with hw | hw
  · exact plain_modifierWords hw
  · cases hhead : o.head with
    | none =>
        rw [hhead, List.mem_singleton] at hw
        rw [hw]
        exact owner.plain
    | some head =>
        simp only [hhead, List.mem_cons, List.not_mem_nil, or_false] at hw
        rcases hw with rfl | rfl
        · exact head.1.plain
        · exact head.2.plain

theorem plain_parameterWords (p : Word × Word) : ∀ w ∈ [p.1.text, p.2.text], IsPlain w := by
  intro w hw
  simp only [List.mem_cons, List.not_mem_nil, or_false] at hw
  rcases hw with rfl | rfl
  · exact p.1.plain
  · exact p.2.plain

theorem settles_parameterText (p : Word × Word) : Settles (parameterText p) (parameterText p) :=
  .words (List.cons_ne_nil _ _) (plain_parameterWords p)

/-- The parameters and the parenthesis that closes them. -/
theorem settle_parameters (t : Text) :
    settle false (o.parametersText spelling ++ ')' :: t) =
      o.parametersText .dense ++ ')' :: settle false t := by
  rw [parametersText, parametersText]
  cases hparameters : o.parameters with
  | nil =>
      rw [List.map_nil, List.intercalate_nil, List.intercalate_nil, List.nil_append,
        List.nil_append, Source.settle_inert rfl rfl]
  | cons p ps =>
      have hlist : Settles ((',' :: spelling.gap).intercalate ((p :: ps).map parameterText))
          ([','].intercalate ((p :: ps).map parameterText)) := by
        apply Settles.list spelling (by simp)
        intro s hs
        obtain ⟨q, -, rfl⟩ := List.mem_map.mp hs
        exact settles_parameterText q
      rw [hlist.front false _ rfl, Source.settle_inert rfl rfl]
      rfl

theorem settle_signature (tight : Bool) (t : Text) :
    settle tight (o.signature spelling owner ++ t) =
      o.signature .dense owner ++ settle false t := by
  have hwords : Settles ([' '].intercalate (o.words owner)) ([' '].intercalate (o.words owner)) :=
    .words (o.words_ne_nil owner) (o.plain_words owner)
  rw [signature, signature, List.append_assoc, List.append_assoc, List.cons_append,
    List.append_assoc, hwords.front tight _ rfl, Source.settle_inert rfl rfl,
    List.singleton_append, settle_parameters, List.cons_append, List.append_assoc,
    List.singleton_append]

theorem settle_text (tight : Bool) (t : Text) :
    settle tight (o.text spelling owner ++ t) = o.text .dense owner ++ settle true t := by
  rw [text, text, List.append_assoc, List.append_assoc, settle_signature]
  cases o.hasBody with
  | true =>
      rw [if_pos rfl, if_pos rfl, List.append_assoc]
      exact congrArg (o.signature .dense owner ++ ·)
        ((Source.settle_gap_before spelling rfl _).trans
          ((Source.settle_mark rfl _).trans (congrArg _ (Source.settle_mark rfl _))))
  | false =>
      rw [if_neg (by simp), if_neg (by simp)]
      exact congrArg (o.signature .dense owner ++ ·) (Source.settle_mark rfl t)

end Operation

/-- Items that settle one by one settle with the gaps between them. -/
theorem settle_items {α : Type} (spelling : Spelling) (item : Spelling → α → Text)
    (as : List α)
    (hitem : ∀ a ∈ as, ∀ t, settle true (item spelling a ++ t) = item .dense a ++ settle true t)
    (t : Text) :
    settle true (as.flatMap (fun a => item spelling a ++ spelling.gap) ++ t) =
      as.flatMap (fun a => item .dense a ++ Spelling.dense.gap) ++ settle true t := by
  induction as with
  | nil => rfl
  | cons a as ih =>
      rw [List.flatMap_cons, List.flatMap_cons, List.append_assoc, List.append_assoc,
        hitem a (by simp), Source.settle_gap_behind,
        ih fun b hb => hitem b (List.mem_cons_of_mem _ hb), Spelling.gap_dense, List.append_nil,
        List.append_assoc]

/-! ## Types -/

namespace Shape

variable (spelling : Spelling) (shape : Shape) (name : Word)

theorem words_ne_nil : shape.words name ≠ [] :=
  List.append_ne_nil_of_right_ne_nil _ (List.cons_ne_nil _ _)

theorem plain_words : ∀ w ∈ shape.words name, IsPlain w := by
  intro w hw
  rcases List.mem_append.mp hw with hw | hw
  · exact shape.kind.plain_keywords w hw
  · rw [List.mem_singleton.mp hw]
    exact name.plain

/-- A clause with its keyword goes on with a phrase. -/
theorem settles_clause {a a' keyword : Text} (ha : Settles a a') (hkeyword : IsPlain keyword)
    (supertypes : List Word) :
    Settles (a ++ clause spelling keyword supertypes) (a' ++ clause .dense keyword supertypes) := by
  cases supertypes with
  | nil =>
      rw [show clause spelling keyword [] = [] from rfl,
        show clause .dense keyword [] = [] from rfl, List.append_nil, List.append_nil]
      exact ha
  | cons w ws =>
      exact ha.spaced ((Settles.of_plain hkeyword).spaced
        (Word.settles_list spelling (List.cons_ne_nil w ws)))

theorem settles_header :
    Settles (shape.header spelling name) (shape.header .dense name) := by
  have hwords :
      Settles ([' '].intercalate (shape.words name)) ([' '].intercalate (shape.words name)) :=
    .words (shape.words_ne_nil name) (shape.plain_words name)
  have hextends : IsPlain "extends".toList := by decide
  have himplements : IsPlain "implements".toList := by decide
  rw [header, header, ← List.append_assoc, ← List.append_assoc]
  exact settles_clause spelling (settles_clause spelling hwords hextends shape.extended) himplements
    shape.implemented

theorem settle_members (t : Text) :
    settle true (shape.members spelling name ++ t) =
      shape.members .dense name ++ settle true t := by
  have hfields := settle_items spelling (fun _ => Field.text) shape.fields
    fun f _ => f.settle_text true
  have hoperations := settle_items spelling (fun spelling => Operation.text spelling name)
    shape.operations fun o _ => o.settle_text spelling name true
  rw [members, members, List.append_assoc, hfields, hoperations, List.append_assoc]

end Shape

/-- Printed or not, a tree is its dense text in canonical spacing, also behind a tight
mark. -/
theorem settle_text (spelling : Spelling) (tree : Tree) (tight : Bool) (t : Text) :
    settle tight (tree.text spelling ++ t) = tree.text .dense ++ settle true t := by
  induction tree generalizing tight t with
  | node shape name nested ih =>
      have hnested (t : Text) : settle true (texts spelling nested ++ t) =
          texts .dense nested ++ settle true t := by
        rw [texts_eq_flatMap, texts_eq_flatMap]
        exact settle_items spelling text nested (fun inner hinner => ih inner hinner true) t
      have hbrace (u : Text) : settle false (spelling.gap ++ '{' :: (spelling.gap ++ u)) =
          '{' :: settle true u := by
        rw [Source.settle_gap_before spelling rfl, Source.settle_mark rfl, Source.settle_gap_behind]
      have hhead : (spelling.gap ++ '{' :: (spelling.gap ++ (shape.members spelling name ++
          (texts spelling nested ++ '}' :: t)))).head?.any Text.isWordChar = false := by
        cases spelling with
        | printed => rfl
        | dense => rfl
      simp only [text, List.append_assoc, List.cons_append, List.nil_append, Spelling.gap_dense]
      rw [(shape.settles_header spelling name).front tight _ hhead, hbrace, shape.settle_members,
        hnested, Source.settle_mark rfl]

/-! ## Characters -/

section Over

variable (spelling : Spelling) (owner name : Word)

theorem over_words {marks : Text} (hspace : ' ' ∈ marks) {ws : List Text}
    (hws : ∀ w ∈ ws, IsPlain w) : Text.Over marks ([' '].intercalate ws) :=
  .intercalate (List.cons_subset.mpr ⟨hspace, List.nil_subset _⟩) fun w hw =>
    .of_word (hws w hw).word.2

theorem Field.over_declaration (f : Field) : Text.Over [' ', '='] f.declaration := by
  refine .append (over_words (by simp) f.plain_words) ?_
  cases f.value with
  | none => exact .nil
  | some value => exact .append (.of_marks (by simp)) (.of_word value.isWord.2)

theorem Operation.over_parametersText (o : Operation) :
    Text.Over [' ', ','] (o.parametersText spelling) := by
  apply over_list spelling (by simp) (by simp)
  intro s hs
  obtain ⟨p, -, rfl⟩ := List.mem_map.mp hs
  exact over_words (by simp) (plain_parameterWords p)

theorem Operation.over_signature (o : Operation) :
    Text.Over [' ', ',', '(', ')'] (o.signature spelling owner) :=
  .append (over_words (by simp) (o.plain_words owner))
    (.cons (by simp) (.append ((o.over_parametersText spelling).mono (by simp))
      (.cons (by simp) .nil)))

theorem Shape.over_clause {keyword : Text} (hkeyword : IsPlain keyword) (supertypes : List Word) :
    Text.Over [' ', ','] (clause spelling keyword supertypes) := by
  rw [clause]
  split
  · exact .nil
  · refine .cons (by simp) (.append (.of_word hkeyword.word.2) (.cons (by simp) ?_))
    apply over_list spelling (by simp) (by simp)
    intro s hs
    obtain ⟨w, -, rfl⟩ := List.mem_map.mp hs
    exact .of_word w.isWord.2

theorem Shape.over_header (shape : Shape) :
    Text.Over [' ', ','] (shape.header spelling name) :=
  .append (over_words (by simp) (shape.plain_words name))
    (.append (over_clause spelling (by decide) _) (over_clause spelling (by decide) _))

/-- The marks of source texts. -/
def marks : Text := [' ', ',', ';', '{', '}', '(', ')', '=']

theorem over_flatMap {α : Type} {item : α → Text} {as : List α}
    (hitem : ∀ a ∈ as, Text.Over marks (item a)) : Text.Over marks (as.flatMap item) := by
  intro c hc
  obtain ⟨a, ha, hc⟩ := List.mem_flatMap.mp hc
  exact hitem a ha c hc

theorem Shape.over_members (shape : Shape) :
    Text.Over marks (shape.members spelling name) := by
  refine .append (over_flatMap fun f _ => ?_) (over_flatMap fun o _ => ?_)
  · exact .append
      (.append (f.over_declaration.mono (by simp [marks])) (.of_marks (by simp [marks])))
      (over_gap spelling (by simp [marks]))
  · refine .append (.append ((o.over_signature spelling name).mono (by simp [marks])) ?_)
      (over_gap spelling (by simp [marks]))
    split
    · exact .append (over_gap spelling (by simp [marks])) (.of_marks (by simp [marks]))
    · exact .of_marks (by simp [marks])

theorem over_text (tree : Tree) : Text.Over marks (tree.text spelling) := by
  induction tree with
  | node shape name nested ih =>
      have hgap : Text.Over marks spelling.gap := over_gap spelling (by simp [marks])
      have hnested : Text.Over marks (texts spelling nested) := by
        rw [texts_eq_flatMap]
        exact over_flatMap fun inner hinner => (ih inner hinner).append hgap
      rw [text]
      exact .append ((shape.over_header spelling name).mono (by simp [marks]))
        (.append hgap (.cons (by simp [marks]) (.append hgap
          (.append (shape.over_members spelling name)
            (.append hnested (.of_marks (by simp [marks])))))))

end Over

/-! ## The dense form -/

section Dense

variable (spelling : Spelling) (tree : Tree)

theorem startsWord_text : Text.StartsWord (tree.text spelling) := by
  obtain ⟨shape, name, nested⟩ := tree
  rw [text, Shape.header, Shape.words]
  cases shape.kind with
  | plainClass => exact ⟨'c', rfl, rfl⟩
  | abstractClass => exact ⟨'a', rfl, rfl⟩
  | interface => exact ⟨'i', rfl, rfl⟩
  | enum => exact ⟨'e', rfl, rfl⟩

theorem getLast?_text : (tree.text spelling).getLast? = some '}' := by
  obtain ⟨shape, name, nested⟩ := tree
  have hend : (node shape name nested).text spelling =
      (shape.header spelling name ++ (spelling.gap ++ '{' :: (spelling.gap ++
        (shape.members spelling name ++ texts spelling nested)))) ++ ['}'] := by
    simp [text]
  rw [hend, List.getLast?_concat]

/-- No blank stands at the ends of a tree. -/
theorem trim_text : Text.trim (tree.text spelling) = tree.text spelling := by
  apply Text.trim_of_ends (startsWord_text spelling tree).head?_any
  rw [getLast?_text]
  rfl

/-- The dense form of a tree in either spelling is its dense text. -/
theorem dense_text : Source.dense (tree.text spelling) = tree.text .dense := by
  have hslash : '/' ∉ tree.text spelling := (over_text spelling tree).not_mem rfl (by decide)
  have hstrip : Source.stripComments (tree.text spelling) = tree.text spelling := by
    have h := Source.stripComments_append hslash []
    rwa [List.append_nil, Source.stripComments, List.append_nil] at h
  have hsettle := settle_text spelling tree false []
  rw [List.append_nil, Source.settle_nil, List.append_nil] at hsettle
  rw [Source.dense_eq, hstrip, hsettle, trim_text]

end Dense

end Tree

end ClassDiagram
