import ClassDiagram.Proofs.Declaration.Nested
import ClassDiagram.Proofs.Member.Scan
import ClassDiagram.Proofs.Source.Cut

/-!
# Annotations on nested declarations

An annotation in front of a nested declaration stands between two marks, so it goes into
the piece of that declaration. With one word as its argument it is one more word there,
and nothing else changes. A braced argument ends a block of its own. That block declares
no type, so it stays in the member text, where its open parenthesis hides every member
behind it.
-/

namespace ClassDiagram

namespace Declaration

/-! ## The words of a declaration -/

theorem not_mem_typeKeywords {c : Char} (hc : Text.isWordChar c = false) (w : Text) :
    c :: w ∉ typeKeywords := by
  intro hmem
  rw [(isWord_of_typeKeyword hmem).2 c List.mem_cons_self] at hc
  cases hc

theorem fromKeywords_append {ws : List Text} (hws : ∀ w ∈ ws, w ∉ typeKeywords) (rest : List Text) :
    fromKeywords (ws ++ rest) = fromKeywords rest := by
  induction ws with
  | nil => rfl
  | cons w ws ih =>
      have hw : typeKeywords.contains w = false := by simpa using hws w (by simp)
      rw [List.cons_append, fromKeywords, if_neg (Bool.eq_false_iff.mp hw),
        ih fun v hv => hws v (List.mem_cons_of_mem _ hv)]

section Words

variable {b : Char} {s gap t : Text} (hb : Text.isWordChar b = false)
  (hsolid : Text.Solid (b :: s)) (hgap : gap = [' '] ∨ gap = [] ∧ t.head? = some ',')

include hb hsolid hgap

/-- A solid text that begins with a mark is a word of its own in front of a space, or it
joins a word that begins with a comma. None of these words is a keyword. -/
theorem exists_words_front :
    ∃ ws vs rest, Text.words (b :: s ++ (gap ++ t)) = ws ++ rest ∧ Text.words t = vs ++ rest ∧
      (∀ w ∈ ws, w ∉ typeKeywords) ∧ ∀ v ∈ vs, v ∉ typeKeywords := by
  rcases hgap with rfl | ⟨rfl, hcomma⟩
  · refine ⟨[b :: s], [], Text.words t, ?_, rfl, ?_, by simp⟩
    · rw [List.singleton_append, Text.words_append_blank rfl,
        Text.words_solid hsolid (List.cons_ne_nil _ _)]
    · simpa using not_mem_typeKeywords hb s
  · obtain ⟨t, rfl⟩ : ∃ u, t = ',' :: u := by
      cases t with
      | nil => cases hcomma
      | cons c t =>
          cases hcomma
          exact ⟨t, rfl⟩
    obtain ⟨word, rest, hwords⟩ := Text.exists_words_cons (rfl : Text.isBlank ',' = false) t
    refine ⟨[b :: (s ++ ',' :: word)], [',' :: word], rest, ?_, hwords, ?_, ?_⟩
    · exact Text.words_solid_append_solid hsolid rfl hwords
    · simpa using not_mem_typeKeywords hb (s ++ ',' :: word)
    · simpa using not_mem_typeKeywords rfl word

theorem declaresType_front : declaresType (b :: s ++ (gap ++ t)) = declaresType t := by
  obtain ⟨ws, vs, rest, hfront, ht, hws, hvs⟩ := exists_words_front hb hsolid hgap
  have hnone {us : List Text} (hus : ∀ u ∈ us, u ∉ typeKeywords) :
      us.any (fun word => typeKeywords.contains word) = false := by simpa using hus
  rw [declaresType, declaresType, hfront, ht, List.any_append, List.any_append, hnone hws,
    hnone hvs]

theorem declaredName_front (hbrace : '{' ∉ b :: s) {name : Text} (h : declaredName t = .ok name) :
    declaredName (b :: s ++ (gap ++ t)) = .ok name := by
  have hopen : ∀ c ∈ b :: s ++ gap, (c != '{') = true := by
    intro c hc
    rcases List.mem_append.mp hc with hc | hc
    · exact bne_iff_ne.mpr fun heq => hbrace (heq ▸ hc)
    · rcases hgap with rfl | ⟨rfl, -⟩
      · cases List.mem_singleton.mp hc
        rfl
      · cases hc
  have hheader : (b :: s ++ (gap ++ t)).takeWhile (· != '{') =
      b :: s ++ (gap ++ t.takeWhile (· != '{')) := by
    rw [← List.append_assoc, List.takeWhile_append_of_pos hopen, List.append_assoc]
  have hgap' : gap = [' '] ∨ gap = [] ∧ (t.takeWhile (· != '{')).head? = some ',' := by
    refine hgap.imp_right fun ⟨hnil, hcomma⟩ => ⟨hnil, ?_⟩
    cases t with
    | nil => cases hcomma
    | cons c t =>
        cases hcomma
        rfl
  obtain ⟨ws, vs, rest, hfront, ht, hws, hvs⟩ := exists_words_front hb hsolid hgap'
  rw [declaredName] at h ⊢
  rw [ht, fromKeywords_append hvs] at h
  rw [hheader, hfront, fromKeywords_append hws]
  split at h
  · split at h
    · exact h
    · cases h
  · cases h

/-- In front of a nested declaration such a text becomes a part of it. -/
theorem WholePiece.front_word (hunquoted : Text.Unquoted (b :: s))
    (hrun : ∀ c ∈ b :: s, endsRun c = false) (ht : WholePiece t (.nested t)) :
    WholePiece (b :: s ++ (gap ++ t)) (.nested (b :: s ++ (gap ++ t))) := by
  have hall {p : Char → Prop} (hspace : p ' ') (hfront : ∀ c ∈ b :: s, p c) :
      ∀ c ∈ b :: s ++ gap, p c := by
    intro c hc
    rcases List.mem_append.mp hc with hc | hc
    · exact hfront c hc
    · rcases hgap with rfl | ⟨rfl, -⟩
      · cases List.mem_singleton.mp hc
        exact hspace
      · cases hc
  rw [← List.append_assoc]
  refine ht.front (hall rfl hunquoted) (hall rfl hrun) fun head rest hsplit hne hdeclares => ?_
  rw [List.append_assoc, declaresType_front hb hsolid]
  · exact hdeclares
  · refine hgap.imp_right fun ⟨hnil, hcomma⟩ => ⟨hnil, ?_⟩
    rw [hsplit, List.head?_append_of_ne_nil _ hne] at hcomma
    exact hcomma

/-- The name of a nested declaration does not depend on such a text. -/
theorem declaredName_trim_front (hbrace : '{' ∉ b :: s) (ht : t.head?.any Text.isBlank = false)
    (hne : t ≠ []) {name : Text} (h : declaredName (Text.trimEnd t) = .ok name) :
    declaredName (Text.trim (b :: s ++ (gap ++ t))) = .ok name := by
  obtain ⟨c, t, rfl⟩ := List.exists_cons_of_ne_nil hne
  have hend : Text.trimEnd (c :: t) = c :: Text.trimEnd t := Text.trimEnd_cons (by simpa using ht) t
  have hfront : (b :: s ++ (gap ++ c :: t)).head?.any Text.isBlank = false := by
    simpa using hsolid b (by simp)
  have hstay : Text.trimEnd (c :: t) ≠ [] := by
    rw [hend]
    exact List.cons_ne_nil _ _
  rw [Text.trim, Text.trimStart_of_head? hfront, ← List.append_assoc, Text.trimEnd_append hstay,
    List.append_assoc]
  have hgap' : gap = [' '] ∨ gap = [] ∧ (Text.trimEnd (c :: t)).head? = some ',' := by
    rw [hend]
    exact hgap
  exact declaredName_front hb hsolid hgap' hbrace h

/-- A block keeps its name when such a text stands between it and what waits for it. -/
theorem sameName_front (hbrace : '{' ∉ b :: s) {state : Nat × Text} (hidle : Idle state)
    {blanks : Text} (hblanks : ∀ d ∈ blanks, Text.isBlank d = true)
    (ht : t.head?.any Text.isBlank = false) (hne : t ≠ []) :
    SameName (state.2.reverse ++ (blanks ++ t)) (state.2.reverse ++ (b :: s ++ (gap ++ t))) := by
  rw [Idle] at hidle
  split at hidle
  · have hwaiting : ∀ d ∈ state.2.reverse, Text.isBlank d = true := by simpa using hidle
    intro u name hname
    rw [List.append_assoc, List.append_assoc, Text.trim_append_of_blank hwaiting,
      Text.trim_append_of_blank hblanks] at hname
    rw [List.append_assoc, List.append_assoc, List.append_assoc,
      Text.trim_append_of_blank hwaiting]
    have hhead : (t ++ u).head? = t.head? := by
      rw [List.head?_append_of_ne_nil _ hne]
    rw [Text.trim, Text.trimStart_of_head? (by rwa [hhead])] at hname
    exact declaredName_trim_front hb hsolid (by rwa [hhead]) hbrace (by rwa [hhead]) (by simp [hne])
      hname
  · obtain ⟨front, rest, hfront⟩ := List.append_of_mem (List.mem_reverse.mpr hidle)
    rw [hfront, List.append_assoc, List.append_assoc, List.cons_append, List.cons_append]
    exact .of_brace front _ _

end Words

end Declaration

open Declaration

/-! ## The cut in front of a nested declaration -/

/-- A nested declaration of the type of a file, and the cut of the text of the file in front
of it. -/
structure SourceFile.NestedAt (file : SourceFile) (header : Header) (before : List Piece)
    (d : Text) (after : List Piece) (s t : Text) : Prop where
  located : Header.locate? (Source.dense file.text.toList) file.name.toList = some header
  clear : header.Clear
  pieces : header.body.pieces = before ++ .nested d :: after
  text : file.text.toList = s ++ t
  closed : Source.Closed s
  front : Source.dense s = header.before ++ (header.run ++ '{' :: before.flatMap Piece.text)

/-- The file with an annotation between two parts of its text. -/
def SourceFile.annotatedAt (name argument s t : Text) (file : SourceFile) : SourceFile :=
  { file with text := String.ofList (s ++ (Source.annotationText name argument ++ ' ' :: t)) }

section NestedAt

variable {file : SourceFile} {header : Header} {before after : List Piece} {d s t : Text}

namespace SourceFile.NestedAt

/-- The cut stands behind the brace of the header or behind the mark of a piece. -/
theorem getLast?_front (h : file.NestedAt header before d after s t) {front : Text}
    (hbefore : Pieces front before) :
    ∃ mark, (Source.dense s).getLast? = some mark ∧ Source.isTight mark = true := by
  rw [h.front, hbefore.text_eq]
  rcases hbefore.eq_nil_or_concat with rfl | ⟨u, mark, rfl, hmark⟩
  · refine ⟨'{', ?_, rfl⟩
    rw [← List.append_assoc, List.getLast?_concat]
  · refine ⟨mark, ?_, ?_⟩
    · rw [← List.cons_append, ← List.append_assoc, ← List.append_assoc, List.getLast?_concat]
    · simp only [endsRun, Bool.or_eq_true, beq_iff_eq] at hmark
      obtain (rfl | rfl) | rfl := hmark <;> rfl

/-- The dense text of the annotated file has the annotation between two pieces of the body,
which may be changed apart from the others. -/
theorem exists_annotated (h : file.NestedAt header before d after s t)
    {name argument settled : Text} (hname : Text.IsWord name)
    (hargument : Source.IsArgument argument settled) :
    ∃ front gap rest,
      (gap = [' '] ∨ gap = [] ∧ (Text.trimStart d).head? = some ',') ∧
      header.behind = front ++ (d ++ rest) ∧ Pieces front before ∧ WholePiece d (.nested d) ∧
      Source.dense (file.annotatedAt name argument s t).text.toList =
        header.before ++ header.run ++ '{' :: (front ++
          (Source.annotationText name settled ++ (gap ++ Text.trimStart d) ++ rest)) ∧
      ∀ u pieces, Pieces u pieces →
        ({ header with behind := front ++ (u ++ rest) } : Header).body =
          ⟨before ++ (pieces ++ after), header.body.behind⟩ := by
  obtain ⟨front, rest, hbehind, hbefore, hd, hbody⟩ := Header.exists_nested h.clear.brace h.pieces
  have htrim := Text.trimStart_append hd.trimStart_ne_nil rest
  obtain ⟨mark, hmark, htight⟩ := h.getLast?_front hbefore
  have hfront := h.front
  rw [hbefore.text_eq] at hfront
  have hdense : Source.dense (s ++ t) = Source.dense s ++ (d ++ rest) := by
    rw [← h.text, ← Header.source_locate? h.located, Header.source, hbehind, hfront]
    simp
  obtain ⟨gap, hgap, hannotated⟩ := Source.dense_append_annotation h.closed hmark htight hname
    hargument hdense (by simp [htrim, hd.trimStart_ne_nil])
  have hcomma : gap = [' '] ∨ gap = [] ∧ (Text.trimStart d).head? = some ',' := by
    rcases hgap with hspace | ⟨hnil, hhead⟩
    · exact .inl hspace
    · refine .inr ⟨hnil, ?_⟩
      obtain ⟨c, u, hcons, hc⟩ := hd.trimStart.exists_head
      rw [htrim, hcons] at hhead
      rw [hcons]
      obtain rfl | rfl | rfl | rfl := Source.isTight_cases (c := c) hhead
      · rfl
      · cases hc
      · cases hc
      · cases hc
  refine ⟨front, gap, rest, hcomma, hbehind, hbefore, hd, ?_, hbody⟩
  rw [annotatedAt, String.toList_ofList, hannotated, hfront, htrim]
  simp

variable {settings : Settings} {id : Identifier} {reading : Reading} {name argument settled : Text}

/-- The children keep their names when a word in front of the declaration joins it. -/
theorem children_replaced (h : file.NestedAt header before d after s t) {front gap word : Text}
    {b : Char} {members : List Piece} {behind : Text} (hbefore : Pieces front before)
    (hd : WholePiece d (.nested d))
    (hgap : gap = [' '] ∨ gap = [] ∧ (Text.trimStart d).head? = some ',')
    (hb : Text.isWordChar b = false) (hover : Text.Over ['@', '(', ')'] (b :: word))
    (hmembers : members.filterMap Piece.nested? = [])
    (hbody : ({ header with behind } : Header).body =
      ⟨before ++ (members ++ [.nested (b :: word ++ (gap ++ Text.trimStart d))] ++ after),
        header.body.behind⟩) (files : List SourceFile)
    (hfiles : children file.name header.leftover = .ok files) :
    ∃ found, children file.name ({ header with behind } : Header).leftover = .ok found ∧
      found.map SourceFile.name = files.map SourceFile.name := by
  obtain ⟨hunquoted, hidle⟩ := Header.idle_nested h.located h.clear hbefore
  obtain ⟨c, rest, hcons, hc⟩ := hd.trimStart.exists_head
  have hblanks : ∀ e ∈ d.takeWhile Text.isBlank, Text.isBlank e = true :=
    List.all_eq_true.mp List.all_takeWhile
  have hsplit : d = d.takeWhile Text.isBlank ++ c :: rest := by
    rw [← hcons]
    exact List.takeWhile_append_dropWhile.symm
  have hcblank : Text.isBlank c = false := by
    have hhead := Text.head?_trimStart d
    rw [hcons] at hhead
    simpa using hhead
  have hnested : header.body.nested =
      before.filterMap Piece.nested? ++ d :: after.filterMap Piece.nested? := by
    rw [Body.nested, h.pieces, List.filterMap_append, List.filterMap_cons]
    rfl
  have hnested' : ({ header with behind } : Header).body.nested = before.filterMap Piece.nested? ++
      (b :: word ++ (gap ++ Text.trimStart d)) :: after.filterMap Piece.nested? := by
    rw [hbody, Body.nested, List.filterMap_append, List.filterMap_append, List.filterMap_append,
      hmembers]
    rfl
  have hblock (more : Text) : d ++ more = d.takeWhile Text.isBlank ++ c :: (rest ++ more) := by
    rw [← List.cons_append, ← List.append_assoc, ← hsplit]
  have hword (more : Text) : b :: word ++ (gap ++ c :: rest) ++ more =
      b :: word ++ gap ++ c :: (rest ++ more) := by
    simp
  rw [Header.leftover_of_nested hnested, hblock] at hfiles
  rw [Header.leftover_of_nested hnested', hbody, hcons, hword]
  rw [hcons] at hgap
  have hover' : Text.Over ['@', '(', ')', ' '] (b :: word ++ gap) := by
    apply (hover.mono (by simp)).append
    rcases hgap with rfl | ⟨rfl, -⟩
    · exact .of_marks (by simp)
    · exact .nil
  have hsame := sameName_front (t := [c]) hb (hover.solid rfl) hgap
    (hover.not_mem rfl (by decide)) hidle hblanks (by simpa using hcblank) (by simp)
  rw [← List.append_assoc (b :: word)] at hsame
  exact children_replace hunquoted (fun e he => Text.ofChar?_of_isBlank (hblanks e he))
    (fun e he => endsRun_of_isBlank (hblanks e he)) (hover'.unquoted rfl) (run_of_over hover' rfl)
    hc hsame hfiles

/-- The annotated file is read when the annotation falls into pieces of member text and a
word in front of the declaration. The children keep their names, and the member text of
the new pieces comes between that of the others. -/
theorem read_annotatedAt (h : file.NestedAt header before d after s t)
    (htype : ∀ c ∈ file.name.toList, endsRun c = false) (hname : Text.IsWord name)
    (hargument : Source.IsArgument argument settled)
    (hread : file.read settings id = .ok reading) {x word : Text} {b : Char} {members : List Piece}
    (hsplit : Source.annotationText name settled = x ++ b :: word) (hx : Pieces x members)
    (hmembers : members.filterMap Piece.nested? = []) (hb : Text.isWordChar b = false)
    (hover : Text.Over ['@', '(', ')'] (b :: word))
    (hkeyword : ∀ gap u, gap = [' '] ∨ gap = [] →
      firstRun? (keywordMention file.name.toList) u = none →
        firstRun? (keywordMention file.name.toList)
          (Source.annotationText name settled ++ (gap ++ u)) = none) (other : Identifier) :
    ∃ signature children,
      file.entry settings id signature header.body.members = reading.entry ∧
      (file.annotatedAt name argument s t).read settings other =
        .ok ⟨file.entry settings other signature (before.flatMap Piece.memberText ++
          (members.flatMap Piece.memberText ++ after.flatMap Piece.memberText)), children⟩ ∧
      children.map SourceFile.name = reading.children.map SourceFile.name := by
  obtain ⟨front, gap, rest, hgap, hbehind, hbefore, hd, htext, hbody⟩ :=
    h.exists_annotated hname hargument
  have hpiece := hd.trimStart.front_word hb (hover.solid rfl) hgap (hover.unquoted rfl)
    (run_of_over hover rfl)
  have hpieces := hx.append hpiece.pieces
  rw [← List.append_assoc, ← hsplit] at hpieces
  have hmissing : firstRun? (keywordMention file.name.toList) header.behind = none →
      firstRun? (keywordMention file.name.toList) (front ++
        (Source.annotationText name settled ++ (gap ++ Text.trimStart d) ++ rest)) = none := by
    intro hnone
    rw [hbehind] at hnone
    refine hbefore.firstRun?_eq_none htype hnone fun hrest => ?_
    have htrimmed := firstRun?_trimStart_eq_none hrest
    rw [Text.trimStart_append hd.trimStart_ne_nil] at htrimmed
    rw [List.append_assoc, List.append_assoc]
    exact hkeyword gap _ (hgap.imp_right And.left) htrimmed
  obtain ⟨signature, children, hentry, hannotated, hnames⟩ := read_replaced htype hread h.located
    htext hmissing (h.children_replaced hbefore hd hgap hb hover hmembers (hbody _ _ hpieces)) other
  refine ⟨signature, children, hentry, hannotated.trans ?_, hnames⟩
  rw [hbody _ _ hpieces]
  simp only [Body.members, List.flatMap_append, List.flatMap_cons, List.flatMap_nil,
    Piece.memberText, List.append_nil]

end SourceFile.NestedAt

variable {settings : Settings} {id : Identifier} {reading : Reading} {name : Text}

/-- An annotation of one word in front of a nested declaration changes neither the entry,
apart from its identifier, nor the names of the children. -/
theorem SourceFile.read_inside_word (h : file.NestedAt header before d after s t)
    (htype : ∀ c ∈ file.name.toList, endsRun c = false) (hname : Text.IsWord name)
    (hread : file.read settings id = .ok reading) {w : Text} (hw : Text.IsWord w)
    (other : Identifier) :
    ∃ children, (file.annotatedAt name w s t).read settings other =
        .ok ⟨{ reading.entry with id := other }, children⟩ ∧
      children.map SourceFile.name = reading.children.map SourceFile.name := by
  obtain ⟨signature, children, hentry, hannotated, hnames⟩ := h.read_annotatedAt htype hname
    (Source.isArgument_word hw) hread (List.nil_append _).symm .nil rfl rfl
    (Source.over_annotationText hname hw)
    (fun _ _ hgap hu => firstRun?_word_eq_none hname hgap hu hw) other
  refine ⟨children, hannotated.trans ?_, hnames⟩
  rw [← hentry, Body.members, h.pieces, List.flatMap_append]
  rfl

/-! ### A braced list -/

/-- The part of an annotation up to its closed brace is a block of its own, which declares
no type. -/
theorem wholePiece_opening (hname : Text.IsWord name) {ws : List Text}
    (hws : ∀ w ∈ ws, Text.IsWord w) :
    WholePiece (Source.opening name ++ Source.braced .dense ws)
      (.member (Source.opening name ++ Source.braced .dense ws)) := by
  have hunquoted := unquoted_opening_braced hname hws
  have hlist : Text.Over [',', ' '] ([','].intercalate ws) :=
    Source.over_list .dense (by simp) (by simp) fun w hw => .of_word (hws w hw).2
  have hdeclares : declaresType (Source.opening name) = false := by
    have hwords : Text.words (Source.opening name) = [Source.opening name] :=
      Text.words_solid ((over_opening hname).solid rfl) (by simp [Source.opening])
    rw [declaresType, hwords]
    simpa using opening_not_mem_typeKeywords name
  have hinner : Glyph.braces.depth? 0 (Text.bare ([','].intercalate ws)) = some 0 :=
    Glyph.braces_passive (passive_bare (run_of_over hlist rfl))
  have hblock := Body.Complete.block (passive_bare (run_of_over (over_opening hname) rfl))
    (show Glyph.role ⟨'{', false⟩ = .openBrace from rfl) hinner
    (show Glyph.role ⟨'}', false⟩ = .closeBrace from rfl)
  have hglyphs : Text.glyphs (Source.opening name ++ Source.braced .dense ws) =
      Text.bare (Source.opening name) ++ ⟨'{', false⟩ ::
        (Text.bare ([','].intercalate ws) ++ [⟨'}', false⟩]) := by
    rw [Text.glyphs_unquoted hunquoted]
    simp [Source.braced, Source.Spelling.gap]
  rw [← hglyphs, Text.chars_bare, hdeclares, Text.chars_glyphs] at hblock
  exact ⟨hblock, Quote.after_unquoted hunquoted none⟩

/-- Behind the open parenthesis of an annotation there are no members. -/
theorem records_opening (hname : Text.IsWord name) {ws : List Text}
    (hws : ∀ w ∈ ws, Text.IsWord w) {front : Text} (hbefore : Pieces front before) {rest : Text}
    (hrest : Member.ClosesOwn rest.glyphs) :
    Member.records (before.flatMap Piece.memberText ++
        (Source.opening name ++ Source.braced .dense ws ++ rest)) =
      Member.records (before.flatMap Piece.memberText) := by
  obtain ⟨hunquoted, hdepth⟩ := hbefore.members
  have hat : Text.Over ['@'] ('@' :: name) := .cons (by simp) (.of_word hname.2)
  have hbraced := Source.over_braced .dense hws
  have hparens : Member.ClosesOwn (Text.glyphs (Source.braced .dense ws ++ rest)) := by
    rw [Text.glyphs_unquoted_append (hbraced.unquoted rfl)]
    refine .append (.of_forall_ne ?_) hrest
    simp only [Text.bare, List.mem_map]
    rintro g ⟨c, hc, rfl⟩
    exact hbraced.forall_mem (p := fun c => Role.ofChar c ≠ .closeParen)
      (Text.forall_mem_of_all rfl) (fun c hc => by rw [plain_of_isWordChar hc]; decide) c hc
  have hsplit : Source.opening name ++ Source.braced .dense ws ++ rest =
      ('@' :: name) ++ '(' :: (Source.braced .dense ws ++ rest) := by
    simp [Source.opening]
  rw [hsplit]
  exact Member.records_open_paren hunquoted hdepth (hat.unquoted rfl)
    (hat.forall_mem (Text.forall_mem_of_all rfl) fun c hc => plain_of_isWordChar hc) hparens

/-- With a braced list as its argument the annotation leaves the names of the children as
they are, but only the members in front of it stay. -/
theorem SourceFile.read_inside_braced (h : file.NestedAt header before d after s t)
    (htype : ∀ c ∈ file.name.toList, endsRun c = false) (hname : Text.IsWord name)
    (hread : file.read settings id = .ok reading) (spelling : Source.Spelling) {ws : List Text}
    (hws : ∀ w ∈ ws, Text.IsWord w)
    (hparens : Member.ClosesOwn (Text.glyphs (after.flatMap Piece.memberText)))
    (other : Identifier) :
    ∃ children, (file.annotatedAt name (Source.braced spelling ws) s t).read settings other =
        .ok ⟨{ reading.entry with
          id := other
          fields := reading.entry.fields.map fun _ => Member.allFields settings.decoding
            (Member.records (before.flatMap Piece.memberText))
          methods := reading.entry.methods.map fun _ => Member.allMethods settings.decoding
            file.name.toList (Member.records (before.flatMap Piece.memberText)) }, children⟩ ∧
      children.map SourceFile.name = reading.children.map SourceFile.name := by
  have hsplit : Source.annotationText name (Source.braced .dense ws) =
      Source.opening name ++ Source.braced .dense ws ++ [')'] := by
    simp [Source.annotationText, Source.opening]
  obtain ⟨signature, children, hentry, hannotated, hnames⟩ := h.read_annotatedAt htype hname
    (Source.isArgument_braced spelling hws) hread hsplit (wholePiece_opening hname hws).pieces rfl
    rfl (.of_marks (by simp)) (fun _ _ hgap hu => firstRun?_braced_eq_none hname hgap hu htype hws)
    other
  refine ⟨children, hannotated.trans ?_, hnames⟩
  obtain ⟨front, -, -, hbefore, -⟩ := Header.exists_nested h.clear.brace h.pieces
  have hmembers := records_opening hname hws hbefore hparens
  rw [entry_members settings id other file signature header.body.members, hentry]
  simp only [List.flatMap_cons, List.flatMap_nil, Piece.memberText, List.append_nil]
  rw [hmembers]

/-! ### Either argument -/

/-- Take a file that can be read and a declaration nested in its type, and write an
annotation in front of that declaration. The children keep their names. With one word as
the argument the entry stays the same, apart from its identifier. With a braced list it
keeps the members in front of the annotation and loses all others, unless they close a
parenthesis that they do not open. -/
theorem SourceFile.read_nested_annotated (h : file.NestedAt header before d after s t)
    (htype : ∀ c ∈ file.name.toList, endsRun c = false) (hname : Text.IsWord name)
    (hread : file.read settings id = .ok reading) (other : Identifier) :
    (∀ w, Text.IsWord w → ∃ children,
      (file.annotatedAt name w s t).read settings other =
        .ok ⟨{ reading.entry with id := other }, children⟩ ∧
      children.map SourceFile.name = reading.children.map SourceFile.name) ∧
    (∀ spelling ws, (∀ w ∈ ws, Text.IsWord w) →
      Member.ClosesOwn (Text.glyphs (after.flatMap Piece.memberText)) → ∃ children,
        (file.annotatedAt name (Source.braced spelling ws) s t).read settings other =
          .ok ⟨{ reading.entry with
            id := other
            fields := reading.entry.fields.map fun _ => Member.allFields settings.decoding
              (Member.records (before.flatMap Piece.memberText))
            methods := reading.entry.methods.map fun _ => Member.allMethods settings.decoding
              file.name.toList (Member.records (before.flatMap Piece.memberText)) }, children⟩ ∧
        children.map SourceFile.name = reading.children.map SourceFile.name) :=
  ⟨fun _ hw => read_inside_word h htype hname hread hw other,
    fun spelling _ hws hparens => read_inside_braced h htype hname hread spelling hws hparens other⟩

end NestedAt

/-- A class with a field on either side of a nested class. -/
def SourceFile.twoFields : SourceFile := ⟨"N", "class N{int a;class M{}int z;}", none⟩

/-- In front of the nested class `@A(x)` is harmless, and `@A({x,y})` hides the field
behind it. -/
theorem SourceFile.read_nested_annotated_twoFields :
    let s : Text := "class N\x7bint a;".toList
    let t : Text := "class M{}int z;\x7d".toList
    let entry : Entry := { id := Identifier.ofNat 1, name := "N", kind := .plainClass,
                           fields := some [⟨"int", "a", none, .privateAccess, false, false⟩,
                             ⟨"int", "z", none, .privateAccess, false, false⟩],
                           methods := some [] }
    (∃ children, (twoFields.annotatedAt ['A'] ['x'] s t).read {} (Identifier.ofNat 1) =
        .ok ⟨entry, children⟩ ∧ children.map SourceFile.name = ["M"]) ∧
      ∃ children, (twoFields.annotatedAt ['A'] (Source.braced .dense [['x'], ['y']]) s t).read {}
          (Identifier.ofNat 1) =
        .ok ⟨{ entry with
          fields := some [⟨"int", "a", none, .privateAccess, false, false⟩] }, children⟩ ∧
        children.map SourceFile.name = ["M"] := by
  intro s t entry
  have hread : twoFields.read {} (Identifier.ofNat 0) =
      .ok ⟨{ entry with id := Identifier.ofNat 0 }, [⟨"M", "class M{}", some "N"⟩]⟩ := by
    decide +kernel
  have hclosed : Source.Closed ("class N\x7bint a".toList ++ [';']) :=
    Source.closed_of_kept rfl (by decide +kernel)
  have hnested : twoFields.NestedAt ⟨[], "class N".toList, "int a;class M{}int z;\x7d".toList⟩
      [.member "int a;".toList] "class M{}".toList [.member "int z;".toList, .member []] s t :=
    { located := by decide +kernel
      clear := by decide +kernel
      pieces := by decide +kernel
      text := by decide +kernel
      closed := hclosed
      front := by decide +kernel }
  obtain ⟨hword, hlist⟩ := read_nested_annotated hnested
    (Text.forall_mem_of_all (by decide +kernel)) (by decide : Text.IsWord ['A']) hread
    (Identifier.ofNat 1)
  obtain ⟨children, hlisted, hnames⟩ := hlist .dense [['x'], ['y']] (by decide) (by decide +kernel)
  refine ⟨hword ['x'] (by decide), children, hlisted.trans ?_, hnames⟩
  refine congrArg Except.ok (congrArg (Reading.mk · children) ?_)
  decide +kernel

end ClassDiagram
