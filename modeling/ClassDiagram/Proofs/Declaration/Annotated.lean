import ClassDiagram.Proofs.Declaration.Block
import ClassDiagram.Proofs.Declaration.Front
import ClassDiagram.Proofs.Project.Levels
import ClassDiagram.Proofs.Source.Phrase

/-!
# Annotations in front of a type

An annotation in front of a declaration goes into its header. With one word as its
argument it changes nothing there: it has no mark, no quote and no keyword of its
own. A braced argument ends the run, so that the header is cut in two. What stands
before the cut declares no type, and the file cannot be read any more, although the
same annotation is dropped in front of a member.
-/

namespace ClassDiagram

open Declaration

namespace Source

/-! ## The dense form -/

section Settle

variable {name : Text} (hname : Text.IsWord name)

include hname

theorem settle_annotationText {argument settled : Text}
    (hargument : ∀ t, settle false (argument ++ ')' :: t) = settled ++ settle false (')' :: t))
    (t : Text) :
    settle false (annotationText name argument ++ t) =
      annotationText name settled ++ settle false t := by
  have hparen : Text.isWordChar '(' = false := rfl
  rw [annotationText, List.cons_append, List.append_assoc, List.cons_append, List.append_assoc,
    List.singleton_append, settle_inert rfl rfl, settle_word hname (endsWord_mark rfl rfl _),
    settle_inert rfl hparen, hargument, settle_inert rfl rfl, annotationText]
  simp

/-- Every file with an annotation in front of its text has the dense annotation in
front of its dense text. -/
theorem dense_annotated {argument settled : Text} (hslash : '/' ∉ argument)
    (hargument : ∀ t, settle false (argument ++ ')' :: t) = settled ++ settle false (')' :: t))
    {t : Text} (ht : dense t ≠ []) :
    ∃ gap, (gap = [' '] ∨ gap = [] ∧ (dense t).head?.any isTight = true) ∧
      dense (annotationText name argument ++ ' ' :: t) =
        annotationText name settled ++ (gap ++ dense t) := by
  refine dense_behind ?_ (settle_annotationText hname hargument) (by simp [annotationText]) rfl ht
  have hslash' : '/' ∉ name := hname.not_mem rfl
  simp [annotationText, hslash, hslash']

end Settle

theorem settle_word_argument {w : Text} (hw : Text.IsWord w) (t : Text) :
    settle false (w ++ ')' :: t) = w ++ settle false (')' :: t) :=
  settle_word hw (endsWord_mark rfl rfl t)

theorem settle_braced_argument (spelling : Spelling) {ws : List Text} (hws : ∀ w ∈ ws, IsPlain w)
    (t : Text) :
    settle false (braced spelling ws ++ ')' :: t) =
      braced .dense ws ++ settle false (')' :: t) := by
  have hlist : settle true ((',' :: spelling.gap).intercalate ws ++ '}' :: ')' :: t) =
      [','].intercalate ws ++ '}' :: settle false (')' :: t) := by
    cases ws with
    | nil =>
        rw [List.intercalate_nil, List.intercalate_nil, List.nil_append, List.nil_append,
          settle_mark rfl, settle_inert rfl rfl, settle_inert rfl rfl]
    | cons w ws =>
        have hphrases := Settles.list spelling (List.cons_ne_nil w ws)
          fun u hu => Settles.of_plain (hws u hu)
        rw [hphrases.front true _ rfl, settle_mark rfl, settle_inert rfl rfl, settle_inert rfl rfl]
  rw [braced, List.cons_append, List.append_assoc, List.singleton_append, settle_mark rfl, hlist,
    braced]
  simp

theorem getLast?_annotationText (name argument : Text) :
    (annotationText name argument).getLast? = some ')' := by
  have hsplit : annotationText name argument = ('@' :: (name ++ '(' :: argument)) ++ [')'] := by
    simp [annotationText]
  rw [hsplit, List.getLast?_concat]

end Source

/-! ## Headers at the start -/

theorem Text.eq_nil_of_size {t : Text} (h : t.size = 0) : t = [] := by
  cases t with
  | nil => rfl
  | cons c t =>
      have := c.utf8Size_pos
      rw [Text.size_cons] at h
      omega

namespace Declaration.Header

variable {header : Header}

/-- A header at the start of a text has nothing before it. -/
theorem lead_of_start (h : header.start = 0) :
    header.before = [] ∧ header.run.head?.any Text.isBlank = false := by
  obtain ⟨hbefore, hblanks⟩ := List.append_eq_nil_iff.mp (Text.eq_nil_of_size h)
  refine ⟨hbefore, ?_⟩
  cases hrun : header.run with
  | nil => rfl
  | cons c run =>
      rw [List.head?_cons, Option.any_some, ← Bool.not_eq_true]
      intro hc
      rw [hrun, List.takeWhile_cons_of_pos hc] at hblanks
      cases hblanks

theorem text_of_head? (h : header.run.head?.any Text.isBlank = false) :
    header.text = Text.trimEnd header.run := by
  rw [text, Text.trim, Text.trimStart_of_head? h]

/-- A tight mark at the start of a header is a comma, the only one that ends no run. -/
theorem head?_text_of_isTight {run behind : Text} (hrun : ∀ c ∈ run, endsRun c = false)
    (hne : (⟨[], run, behind⟩ : Header).text ≠ [])
    (htight : (⟨[], run, behind⟩ : Header).source.head?.any Source.isTight = true) :
    (⟨[], run, behind⟩ : Header).text.head? = some ',' := by
  cases run with
  | nil => exact absurd rfl hne
  | cons c run =>
      have hc : Source.isTight c = true := htight
      have hblank := Source.isBlank_of_isTight hc
      have hmark := hrun c (by simp)
      rw [text_of_head? (by simpa using hblank), Text.trimEnd_cons hblank]
      obtain rfl | rfl | rfl | rfl := Source.isTight_cases hc
      · rfl
      · cases hmark
      · cases hmark
      · cases hmark

section Front

variable {front : Text} {c : Char} (hhead : front.head? = some c) (hc : Text.isBlank c = false)

include hhead hc

/-- A text in front of a header goes into the text of the header. -/
theorem text_front (behind : Text) (h : header.run.head?.any Text.isBlank = false)
    (hne : header.text ≠ []) :
    (⟨[], front ++ header.run, behind⟩ : Header).text = front ++ header.text := by
  rw [text_of_head? h] at hne ⊢
  rw [text_of_head?, Text.trimEnd_append hne]
  change (front ++ header.run).head?.any Text.isBlank = false
  rw [List.head?_append, hhead]
  exact hc

theorem leftover_front {run behind : Text} (hfront : Text.Unquoted front)
    (h : run.head?.any Text.isBlank = false) :
    (⟨[], front ++ run, behind⟩ : Header).leftover = (⟨[], run, behind⟩ : Header).leftover := by
  have hlead : (front ++ run).takeWhile Text.isBlank = run.takeWhile Text.isBlank := by
    have hfirst : (front ++ run).head?.any Text.isBlank = false := by
      rw [List.head?_append, hhead]
      exact hc
    exact (Text.takeWhile_stretch (s := []) (List.forall_mem_nil _) hfirst).trans
      (Text.takeWhile_stretch (s := []) (List.forall_mem_nil _) h).symm
  rw [leftover, leftover, body_front hfront, lead, lead, hlead]

end Front

end Declaration.Header

/-! ## One word -/

section Word

variable {name w : Text} (hname : Text.IsWord name) (hw : Text.IsWord w)

include hname hw

/-- The characters of an annotation of one word, and of the gap behind it. -/
theorem over_annotated_gap {gap : Text} (hgap : gap = [' '] ∨ gap = []) :
    Text.Over ['@', '(', ')', ' '] (Source.annotationText name w ++ gap) := by
  apply ((Source.over_annotationText hname hw).mono (by simp)).append
  rcases hgap with rfl | rfl
  · exact .of_marks (by simp)
  · exact .nil

/-- An annotation of one word mentions no type behind a keyword. -/
theorem lastMention?_annotated {type gap t : Text} (hgap : gap = [' '] ∨ gap = [])
    (h : lastMention? (keywordMention type) none t = none) :
    lastMention? (keywordMention type) none (Source.annotationText name w ++ gap ++ t) = none := by
  have htail : lastMention? (keywordMention type) none (gap ++ t) = none := by
    rcases hgap with rfl | rfl
    · exact lastMention?_keyword_mark rfl h
    · exact h
  have hargument : lastMention? (keywordMention type) none (w ++ ')' :: (gap ++ t)) = none :=
    lastMention?_keyword_word hw.2 rfl rfl (lastMention?_keyword_mark rfl htail)
  have hword : lastMention? (keywordMention type) none
      (name ++ '(' :: (w ++ ')' :: (gap ++ t))) = none :=
    lastMention?_keyword_word hname.2 rfl rfl (lastMention?_keyword_mark rfl hargument)
  have hsplit : Source.annotationText name w ++ gap ++ t =
      '@' :: (name ++ '(' :: (w ++ ')' :: (gap ++ t))) := by simp [Source.annotationText]
  rw [hsplit]
  exact lastMention?_keyword_mark rfl hword

/-- The signature stays when the annotation becomes the first word of a header or
joins it at a comma. -/
theorem ofHeader_annotated {gap t : Text} {signature : Signature}
    (hgap : gap = [' '] ∨ gap = [] ∧ t.head? = some ',')
    (h : Signature.ofHeader t = .ok signature) :
    Signature.ofHeader (Source.annotationText name w ++ (gap ++ t)) = .ok signature := by
  have hover := Source.over_annotationText hname hw
  have hsolid : Text.Solid (Source.annotationText name w) := hover.solid rfl
  have hangle : ∀ c ∈ Source.annotationText name w, c ≠ '<' ∧ c ≠ '>' :=
    hover.forall_mem (Text.forall_mem_of_all rfl) fun c hc =>
      ⟨Text.ne_of_isWordChar hc rfl, Text.ne_of_isWordChar hc rfl⟩
  rcases hgap with rfl | ⟨rfl, hcomma⟩
  · exact (Signature.ofHeader_front_space hsolid (by simp [Source.annotationText]) hangle
      (Signature.not_mem_keywords rfl _)).mpr h
  · cases t with
    | nil => cases hcomma
    | cons c t =>
        cases hcomma
        exact (Signature.ofHeader_front_joined rfl hsolid hangle rfl rfl).mpr h

end Word

/-- The file with an annotation in front of its text. -/
def SourceFile.annotated (name argument : Text) (file : SourceFile) : SourceFile :=
  { file with
    text := String.ofList (Source.annotationText name argument ++ ' ' :: file.text.toList) }

theorem SourceFile.text_annotated (name argument : Text) (file : SourceFile) :
    (file.annotated name argument).text.toList =
      Source.annotationText name argument ++ ' ' :: file.text.toList := String.toList_ofList

section Read

variable {settings : Settings} {id : Identifier} {file : SourceFile} {reading : Reading}
  {header : Header} {name : Text}
  (hname : Text.IsWord name) (htype : Text.IsWord file.name.toList)
  (hlocate : Header.locate? (Source.dense file.text.toList) file.name.toList = some header)

include hname htype hlocate

theorem SourceFile.read_annotated_word {w : Text} (hw : Text.IsWord w) (hstart : header.start = 0)
    (hread : file.read settings id = .ok reading) :
    (file.annotated name w).read settings id = .ok reading := by
  obtain ⟨found, signature, hfound, hsignature, hchildren, hentry⟩ := read_eq_ok_iff.mp hread
  rw [hlocate] at hfound
  cases hfound
  have hsource := Header.source_locate? hlocate
  obtain ⟨hbefore, hfirst⟩ := Header.lead_of_start hstart
  obtain ⟨before, run, behind⟩ := header
  cases hbefore
  have hne : Source.dense file.text.toList ≠ [] := by simp [← hsource, Header.source]
  obtain ⟨gap, hgap, hdense⟩ := Source.dense_annotated hname (hw.not_mem rfl)
    (Source.settle_word_argument hw) hne
  have hblank : gap = [' '] ∨ gap = [] := hgap.imp_right And.left
  have htext : (⟨[], run, behind⟩ : Header).text ≠ [] := by
    intro hnil
    rw [hnil] at hsignature
    cases hsignature
  have hrun : ∀ c ∈ run, endsRun c = false :=
    Header.run_of_locate? (fun c hc => endsRun_of_isWordChar (htype.2 c hc)) hlocate
  have hcomma : gap = [' '] ∨ gap = [] ∧ (⟨[], run, behind⟩ : Header).text.head? = some ',' := by
    refine hgap.imp_right fun htight => ⟨htight.1, Header.head?_text_of_isTight hrun htext ?_⟩
    rw [hsource]
    exact htight.2
  have hhead : (Source.annotationText name w ++ gap).head? = some '@' := rfl
  have hover := over_annotated_gap hname hw hblank
  have hunquoted : Text.Unquoted (Source.annotationText name w ++ gap) := hover.unquoted rfl
  refine read_eq_ok_iff.mpr
    ⟨⟨[], Source.annotationText name w ++ gap ++ run, behind⟩, signature, ?_, ?_, ?_, ?_⟩
  · rw [text_annotated, hdense, ← List.append_assoc]
    refine locate?_front (fun c hc => endsRun_of_isWordChar (htype.2 c hc)) (run_of_over hover rfl)
      ?_ (lastMention?_annotated hname hw hblank) hlocate rfl
    rcases hblank with rfl | rfl
    · rw [List.getLast?_concat]
      rfl
    · rw [List.append_nil, Source.getLast?_annotationText]
      rfl
  · rw [Header.text_front hhead rfl behind hfirst htext, List.append_assoc]
    exact ofHeader_annotated hname hw hcomma hsignature
  · rw [Header.leftover_front hhead rfl hunquoted hfirst]
    exact hchildren
  · rw [Header.body_front hunquoted]
    exact hentry

end Read

/-! ## A braced list -/

/-- An annotation up to its argument. -/
def Source.opening (name : Text) : Text := '@' :: (name ++ ['('])

open Source (opening)

theorem opening_not_mem_typeKeywords (name : Text) : opening name ∉ typeKeywords := by
  intro hmem
  have hfirst : ∀ keyword ∈ typeKeywords, keyword.head?.any Text.isWordChar = true := by decide
  cases hfirst _ hmem

section Braced

variable {name : Text} (hname : Text.IsWord name)

include hname

theorem over_opening : Text.Over ['@', '('] (opening name) :=
  .cons (by simp) (.append (.of_word hname.2) (.of_marks (by simp)))

theorem unquoted_opening_braced {ws : List Text} (hws : ∀ w ∈ ws, Text.IsWord w) :
    Text.Unquoted (opening name ++ Source.braced .dense ws) := by
  have hover : Text.Over ['@', '(', ' ', ',', '{', '}'] (opening name ++ Source.braced .dense ws) :=
    ((over_opening hname).mono (by simp)).append ((Source.over_braced .dense hws).mono (by simp))
  exact hover.unquoted rfl

/-- The part of an annotation up to its closed brace is a block that declares no type. -/
theorem child_opening (parent : String) (inner : Text) :
    child parent (opening name ++ '{' :: (inner ++ ['}'])) =
      .error (.classSyntax parent (.ambiguousDeclaration (String.ofList (opening name)))) := by
  have hbrace : ∀ c ∈ opening name, (c != '{') = true :=
    (over_opening hname).forall_mem (Text.forall_mem_of_all rfl) fun c hc =>
      bne_iff_ne.mpr (Text.ne_of_isWordChar hc rfl)
  have hheader : (opening name ++ '{' :: (inner ++ ['}'])).takeWhile (· != '{') =
      opening name := Text.takeWhile_stretch hbrace rfl
  have htype : typeKeywords.contains (opening name) = false := by
    rw [← Bool.not_eq_true, List.contains_iff_mem]
    exact opening_not_mem_typeKeywords name
  have hwords : Text.words (opening name) = [opening name] :=
    Text.words_solid ((over_opening hname).solid rfl) (by simp [opening])
  rw [child, declaredName, hheader, hwords, fromKeywords, if_neg (Bool.eq_false_iff.mp htype)]
  rfl

end Braced

section Read

variable {settings : Settings} {id : Identifier} {file : SourceFile} {header : Header}
  {name : Text} (hname : Text.IsWord name) (htype : Text.IsWord file.name.toList)
  (hlocate : Header.locate? (Source.dense file.text.toList) file.name.toList = some header)

include hname htype hlocate

/-- With a braced list in its annotation a file cannot be read. -/
theorem SourceFile.read_annotated_braced (spelling : Source.Spelling) {ws : List Text}
    (hws : ∀ w ∈ ws, Source.IsPlain w) :
    ∃ cause, (file.annotated name (Source.braced spelling ws)).read settings id =
      .error (.classSyntax file.name cause) := by
  have hsource := Header.source_locate? hlocate
  have hne : Source.dense file.text.toList ≠ [] := by simp [← hsource, Header.source]
  have hlist : Text.Over [',', ' '] ([','].intercalate ws) :=
    Source.over_list .dense (by simp) (by simp) fun w hw => .of_word (hws w hw).word.2
  have hinner : ∀ c ∈ [','].intercalate ws, endsRun c = false := run_of_over hlist rfl
  have hopening : ∀ c ∈ opening name, endsRun c = false := run_of_over (over_opening hname) rfl
  have hslash : '/' ∉ Source.braced spelling ws :=
    (Source.over_braced spelling fun w hw => (hws w hw).word).not_mem rfl (by decide)
  obtain ⟨gap, hgap, hdense⟩ := Source.dense_annotated hname hslash
    (Source.settle_braced_argument spelling hws) hne
  have hsplit : Source.annotationText name (Source.braced .dense ws) ++
      (gap ++ Source.dense file.text.toList) = opening name ++ '{' ::
        ([','].intercalate ws ++ '}' :: (')' :: gap ++ Source.dense file.text.toList)) := by
    simp [Source.annotationText, Source.braced, opening]
  have hbehind : Header.locate? (')' :: gap ++ Source.dense file.text.toList) file.name.toList ≠
      none := by
    refine locate?_front_ne_none ?_ ?_ (by simp [hlocate])
    · rcases hgap with rfl | ⟨rfl, -⟩
      · exact Text.forall_mem_of_all rfl
      · exact Text.forall_mem_of_all rfl
    · rcases hgap with rfl | ⟨rfl, -⟩
      · rfl
      · rfl
  obtain ⟨found, hfound, hplace⟩ := locate?_closed
    (fun c hc => endsRun_of_isWordChar (htype.2 c hc)) hopening hinner hbehind
  rw [← hsplit, ← hdense, ← text_annotated] at hfound
  apply read_eq_classSyntax hfound
  rcases hplace with ⟨-, hrun⟩ | ⟨before, hbefore⟩
  · have htext : found.text = opening name := by
      rw [Header.text, hrun]
      exact Text.trim_of_ends rfl (by rw [opening, ← List.cons_append, List.getLast?_concat]; rfl)
    have hfault := Signature.ofHeader_of_word ((over_opening hname).solid rfl) (by simp [opening])
      (opening_not_mem_typeKeywords name)
    rw [← htext] at hfault
    exact .inl ⟨_, hfault⟩
  · have hleftover : ∃ t, found.leftover =
        opening name ++ '{' :: ([','].intercalate ws ++ ['}']) ++ t := by
      refine ⟨before ++ found.run.takeWhile Text.isBlank ++ found.body.nested.flatten ++
        (found.body.behind.map Glyph.chars).getD [], ?_⟩
      rw [Header.leftover, Header.lead, hbefore]
      simp
    obtain ⟨t, hleftover⟩ := hleftover
    have hblocks := blocks_block hopening (.of_run hinner) rfl
        (unquoted_opening_braced hname fun w hw => (hws w hw).word) t
    rw [← hleftover] at hblocks
    exact .inr (children_error_of_cons hblocks (child_opening hname file.name _))

end Read

/-! ## Either argument -/

/-- Take a file that can be read and whose header begins its dense text. An annotation
of one word changes neither its children nor its entry, apart from the identifier. With
a braced list the same annotation makes the file one that cannot be read. -/
theorem SourceFile.read_annotated {settings : Settings} {id : Identifier} {file : SourceFile}
    {reading : Reading} {header : Header} {name : Text} (hname : Text.IsWord name)
    (htype : Text.IsWord file.name.toList) (hread : file.read settings id = .ok reading)
    (hlocate : Header.locate? (Source.dense file.text.toList) file.name.toList = some header)
    (hstart : header.start = 0) (other : Identifier) :
    (∀ w, Text.IsWord w → (file.annotated name w).read settings other =
      .ok { reading with entry := { reading.entry with id := other } }) ∧
    (∀ spelling ws, (∀ w ∈ ws, Source.IsPlain w) →
      ∃ cause, (file.annotated name (Source.braced spelling ws)).read settings other =
        .error (.classSyntax file.name cause)) := by
  refine ⟨fun w hw => ?_, fun spelling ws hws => ?_⟩
  · have hsame := read_annotated_word hname htype hlocate hw hstart hread
    rw [read_withId settings id, hsame]
    rfl
  · exact read_annotated_braced hname htype hlocate spelling hws

/-- A class with a class inside, in front of which `@S(x)` is harmless and `@S({x,y})`
is not. -/
theorem SourceFile.read_annotated_nestedPair :
    (Project.nestedPair.annotated ['S'] ['x']).read {} (Identifier.ofNat 1) =
      .ok ⟨{ id := Identifier.ofNat 1, name := "A", kind := .plainClass, fields := some [],
              methods := some [] }, [⟨"B", "class B{}", some "A"⟩]⟩ ∧
    ∃ cause, (Project.nestedPair.annotated ['S']
      (Source.braced .dense [['x'], ['y']])).read {} (Identifier.ofNat 1) =
        .error (.classSyntax "A" cause) := by
  have hread : Project.nestedPair.read {} (Identifier.ofNat 0) =
      .ok ⟨{ id := Identifier.ofNat 0, name := "A", kind := .plainClass, fields := some [],
              methods := some [] }, [⟨"B", "class B{}", some "A"⟩]⟩ := by
    decide +kernel
  have hlocate : Header.locate? (Source.dense Project.nestedPair.text.toList)
      Project.nestedPair.name.toList = some ⟨[], "class A".toList, "class B{}\x7d".toList⟩ := by
    decide +kernel
  obtain ⟨hword, hlist⟩ := SourceFile.read_annotated (show Text.IsWord ['S'] by decide)
    (by decide +kernel) hread hlocate rfl (Identifier.ofNat 1)
  exact ⟨hword ['x'] (by decide), hlist .dense [['x'], ['y']] (by decide)⟩

end ClassDiagram
