import ClassDiagram.Proofs.Declaration.Signature
import ClassDiagram.Proofs.Tree.Spacing

/-!
# Supertypes with generic arguments

A header cuts its words at every blank, and only then does it look at angle brackets. The
words that begin inside brackets are passed over, so a bound such as `T extends X` is no
supertype. But a list of supertypes is the one word behind its keyword, and a blank inside
the arguments of one of them ends that word: all supertypes behind it are lost. So a header
is read exactly up to the first such blank of each list (`ofHeader_heading`).
-/

namespace ClassDiagram.Declaration

/-! ## Types -/

/-- A type as a header names it, with generic arguments or without. -/
structure TypeUse where
  name : Text
  /-- The text between the outermost angle brackets. -/
  arguments : Option Text
  ne_nil : name ≠ []
  plain : ∀ c ∈ name, Text.isBlank c = false ∧ c ≠ ',' ∧ c ≠ '<' ∧ c ≠ '>'
  unreserved : name ∉ Signature.keywords
  balanced : ∀ t ∈ arguments, Text.angles.Balanced t

namespace TypeUse

/-- The arguments with their brackets. -/
def suffix (u : TypeUse) : Text :=
  match u.arguments with
  | some t => '<' :: (t ++ ['>'])
  | none => []

def text (u : TypeUse) : Text := u.name ++ u.suffix

/-- True if there is a blank among the arguments, as in `List<? extends Shape>`. -/
def hasBlank (u : TypeUse) : Bool := u.text.any Text.isBlank

/-- The types of a list, with commas between them. -/
def list (us : List TypeUse) : Text := [','].intercalate (us.map text)

/-- The types of a list up to the first one with a blank among its arguments. -/
def uptoBlank : List TypeUse → List TypeUse
  | [] => []
  | u :: us => if u.hasBlank then [u] else u :: uptoBlank us

section Suffix

variable (u : TypeUse)

theorem suffix_cases : u.suffix = [] ∨ ∃ t, u.suffix = '<' :: t := angled_cases u.arguments

/-- All brackets of a type are closed, and outside of them stands only its name. -/
theorem balanced_text {p : Char → Prop} (hname : ∀ c ∈ u.name, ¬p c) (hopen : ¬p '<') :
    Text.angles.Shelters p 0 u.text ∧ Text.angles.depth 0 u.text = 0 :=
  shelters_angled (fun c hc => (u.plain c hc).2.2) u.balanced hname hopen

/-- Blanks and commas stand inside the arguments of a type. -/
theorem shelters_text :
    Text.angles.Shelters (Text.isBlank · = true) 0 u.text ∧
      Text.angles.Shelters (· = ',') 0 u.text ∧ Text.angles.depth 0 u.text = 0 := by
  have hblank := u.balanced_text (p := (Text.isBlank · = true))
    (fun c hc h => by simp [(u.plain c hc).1] at h) (by decide)
  have hcomma := u.balanced_text (p := (· = ',')) (fun c hc => (u.plain c hc).2.1) (by decide)
  exact ⟨hblank.1, hcomma.1, hcomma.2⟩

/-- What is seen of a type where a header ends the word at a blank. -/
def visible : Text := u.text.takeWhile fun c => !Text.isBlank c

theorem visible_of_not_hasBlank (h : u.hasBlank = false) : u.visible = u.text := by
  have hsolid : ∀ c ∈ u.text, (!Text.isBlank c) = true := by
    simpa [hasBlank] using h
  have htake := Text.takeWhile_stretch (t := []) hsolid rfl
  rwa [List.append_nil] at htake

theorem takeWhile_name_append (t : Text) :
    (u.name ++ t).takeWhile (fun c => !Text.isBlank c) =
      u.name ++ t.takeWhile fun c => !Text.isBlank c :=
  List.takeWhile_append_of_pos fun c hc => by simp [(u.plain c hc).1]

/-- Without blanks and arguments a type is its name. -/
theorem bareName_visible : bareName (Text.trim u.visible) = u.name := by
  have hsolid : Text.Solid u.visible := fun c hc => by
    simpa using List.all_eq_true.mp (List.all_takeWhile (p := fun c => !Text.isBlank c)) c hc
  have hends : u.visible.head?.any Text.isBlank = false ∧
      u.visible.getLast?.any Text.isBlank = false := by
    constructor
    · cases hhead : u.visible.head? with
      | none => rfl
      | some c => exact hsolid c (List.mem_of_head? hhead)
    · cases hlast : u.visible.getLast? with
      | none => rfl
      | some c => exact hsolid c (List.mem_of_getLast? hlast)
  have hrest : (u.suffix.takeWhile fun c => !Text.isBlank c) = [] ∨
      ∃ t, (u.suffix.takeWhile fun c => !Text.isBlank c) = '<' :: t := by
    rcases u.suffix_cases with hnil | ⟨t, hcons⟩
    · exact .inl (by rw [hnil, List.takeWhile_nil])
    · exact .inr ⟨_, by rw [hcons, List.takeWhile_cons_of_pos (by decide)]⟩
  rw [Text.trim_of_ends hends.1 hends.2, visible, text, takeWhile_name_append,
    bareName_angled (fun c hc => (u.plain c hc).2.2.1) hrest]

/-- No keyword begins with the name of a type, if the name goes on at all. -/
theorem name_append_not_mem_keywords {t : Text} (ht : t.head?.any Text.isWordChar = false) :
    u.name ++ t ∉ Signature.keywords := by
  have hwords : ∀ keyword ∈ Signature.keywords, Text.IsWord keyword := by decide
  intro hmem
  cases t with
  | nil => exact u.unreserved (by rwa [List.append_nil] at hmem)
  | cons c t =>
      have hc : Text.isWordChar c = false := by simpa using ht
      exact (hwords _ hmem).not_mem hc (by simp)

end Suffix

/-! ## Lists of types -/

section List

variable {us : List TypeUse}

theorem list_cons_cons (u v : TypeUse) (us : List TypeUse) :
    list (u :: v :: us) = u.text ++ ',' :: list (v :: us) := by
  simp [list, List.intercalate_cons_cons]

/-- The brackets of a list are closed, and its blanks stand inside them. -/
theorem shelters_list (us : List TypeUse) :
    Text.angles.Shelters (Text.isBlank · = true) 0 (list us) ∧
      Text.angles.depth 0 (list us) = 0 := by
  induction us with
  | nil => exact ⟨trivial, rfl⟩
  | cons u us ih =>
      obtain ⟨hblank, -, hdepth⟩ := u.shelters_text
      cases us with
      | nil =>
          rw [list, List.map_singleton, List.intercalate_singleton]
          exact ⟨hblank, hdepth⟩
      | cons v us =>
          have hcomma : Text.angles.next 0 ',' = 0 := rfl
          rw [list_cons_cons, Brackets.shelters_append, Brackets.depth_append, hdepth,
            Brackets.Shelters, Brackets.depth_cons, hcomma]
          exact ⟨⟨hblank, by decide, ih.1⟩, ih.2⟩

/-- What is seen of a list where a header ends the word at a blank. -/
def visibleList (us : List TypeUse) : Text := (list us).takeWhile fun c => !Text.isBlank c

theorem visibleList_singleton (u : TypeUse) : visibleList [u] = u.visible := by
  rw [visibleList, list, List.map_singleton, List.intercalate_singleton, visible]

theorem visibleList_cons_cons (u v : TypeUse) (us : List TypeUse) :
    visibleList (u :: v :: us) =
      if u.hasBlank then u.visible else u.text ++ ',' :: visibleList (v :: us) := by
  rw [visibleList, list_cons_cons, List.takeWhile_append]
  cases hblank : u.hasBlank with
  | true =>
      have hshort : ¬(u.visible.length = u.text.length) := by
        intro hlength
        have hall := (List.takeWhile_prefix _).eq_of_length hlength
        have hsolid := List.all_takeWhile (p := fun c => !Text.isBlank c) (l := u.text)
        rw [hall] at hsolid
        simp only [hasBlank, List.any_eq_true] at hblank
        obtain ⟨c, hc, hblank⟩ := hblank
        simpa [hblank] using List.all_eq_true.mp hsolid c hc
      rw [if_pos rfl]
      exact if_neg hshort
  | false =>
      have hlength : u.visible.length = u.text.length := by rw [u.visible_of_not_hasBlank hblank]
      rw [if_neg Bool.false_ne_true]
      exact if_pos hlength

/-- The pieces of what is seen are the types up to the first blank. -/
theorem listPieces_visibleList (hne : us ≠ []) :
    listPieces 0 (visibleList us) = (uptoBlank us).map visible := by
  have hone (u : TypeUse) : listPieces 0 u.visible = [u.visible] := by
    have hcomma := u.shelters_text.2.1
    rw [← List.takeWhile_append_dropWhile (p := fun c => !Text.isBlank c) (l := u.text)] at hcomma
    exact listPieces_of_shelters (Brackets.shelters_append.mp hcomma).1
  induction us with
  | nil => exact absurd rfl hne
  | cons u us ih =>
      cases us with
      | nil =>
          rw [visibleList_singleton, hone, uptoBlank, uptoBlank, ite_self]
          rfl
      | cons v us =>
          rw [visibleList_cons_cons, uptoBlank]
          cases hblank : u.hasBlank with
          | true => exact hone u
          | false =>
              obtain ⟨-, hcomma, hdepth⟩ := u.shelters_text
              rw [if_neg Bool.false_ne_true, if_neg Bool.false_ne_true, List.map_cons,
                u.visible_of_not_hasBlank hblank, listPieces_append_comma hcomma hdepth,
                ih (List.cons_ne_nil v us)]

/-- The names of the types up to the first blank are read back. -/
theorem typeNames_visibleList (hne : us ≠ []) :
    typeNames (visibleList us) = (uptoBlank us).map name := by
  have hnames : ((uptoBlank us).map visible).map (fun piece => bareName (Text.trim piece)) =
      (uptoBlank us).map name := by
    rw [List.map_map]
    exact List.map_congr_left fun u _ => u.bareName_visible
  rw [typeNames, listPieces_visibleList hne, hnames, List.filter_eq_self]
  intro t ht
  obtain ⟨u, -, rfl⟩ := List.mem_map.mp ht
  simpa using u.ne_nil

/-- A list begins with a name, behind which stands a mark, if anything. -/
theorem exists_visibleList (hne : us ≠ []) :
    ∃ u ∈ us, ∃ t : Text, visibleList us = u.name ++ t ∧ t.head?.any Text.isWordChar = false := by
  cases us with
  | nil => exact absurd rfl hne
  | cons u us =>
      obtain ⟨tail, hlist, htail⟩ : ∃ tail, list (u :: us) = u.name ++ (u.suffix ++ tail) ∧
          tail.head?.any Text.isWordChar = false := by
        cases us with
        | nil => exact ⟨[], by simp [list, text], rfl⟩
        | cons v us => exact ⟨',' :: list (v :: us), by simp [list_cons_cons, text], rfl⟩
      have hmark : (u.suffix ++ tail).head?.any Text.isWordChar = false := by
        rcases u.suffix_cases with hnil | ⟨t, hcons⟩
        · rwa [hnil, List.nil_append]
        · rw [hcons]
          rfl
      refine ⟨u, List.mem_cons_self, (u.suffix ++ tail).takeWhile fun c => !Text.isBlank c, ?_, ?_⟩
      · rw [visibleList, hlist, takeWhile_name_append]
      · cases hmore : u.suffix ++ tail with
        | nil => rfl
        | cons c t =>
            rw [hmore] at hmark
            rw [List.takeWhile_cons]
            split
            · exact hmark
            · rfl

theorem visibleList_not_mem_keywords (hne : us ≠ []) : visibleList us ∉ Signature.keywords := by
  obtain ⟨u, -, t, heq, ht⟩ := exists_visibleList hne
  exact heq ▸ u.name_append_not_mem_keywords ht

theorem uptoBlank_ne_nil (u : TypeUse) (us : List TypeUse) : uptoBlank (u :: us) ≠ [] := by
  rw [uptoBlank]
  split
  · exact List.cons_ne_nil u []
  · exact List.cons_ne_nil u _

/-- All types are seen exactly if no blank stands in front of the last one. -/
theorem map_name_uptoBlank :
    (uptoBlank us).map name = us.map name ↔ ∀ u ∈ us.dropLast, u.hasBlank = false := by
  induction us with
  | nil => simp [uptoBlank]
  | cons u us ih =>
      cases us with
      | nil => simp [uptoBlank]
      | cons v us =>
          rw [uptoBlank, List.dropLast_cons_cons, List.forall_mem_cons, ← ih]
          cases hblank : u.hasBlank with
          | true => simp
          | false => simp

end List

end TypeUse

/-! ## Headers -/

open TypeUse

/-- The header of a type with supertypes, as far as its kind can have them. An empty list
stands for a clause that is left out. -/
inductive Heading where
  | classLike (isAbstract : Bool) (type : TypeUse) (extended implemented : List TypeUse)
  | interface (type : TypeUse) (extended : List TypeUse)
  | enum (type : TypeUse)

namespace Heading

def kind : Heading → Kind
  | classLike isAbstract .. => if isAbstract then .abstractClass else .plainClass
  | interface .. => .interface
  | enum _ => .enum

def type : Heading → TypeUse
  | classLike _ type .. => type
  | interface type _ => type
  | enum type => type

def extended : Heading → List TypeUse
  | classLike _ _ extended _ => extended
  | interface _ extended => extended
  | enum _ => []

def implemented : Heading → List TypeUse
  | classLike _ _ _ implemented => implemented
  | interface .. => []
  | enum _ => []

/-- A keyword with the list behind it, unless the list is empty. -/
def clause (keyword : Text) (us : List TypeUse) : Text :=
  if us.isEmpty then [] else ' ' :: (keyword ++ ' ' :: list us)

def text (h : Heading) : Text :=
  [' '].intercalate h.kind.keywords ++ ' ' :: (h.type.text ++
    (clause "extends".toList h.extended ++ clause "implements".toList h.implemented))

/-- What a signature says about a list of supertypes. -/
def supertypes (us : List TypeUse) : Option (List Text) :=
  if us.isEmpty then none else some (us.map TypeUse.name)

/-- The words of a clause that count. -/
def clauseWords (keyword : Text) (us : List TypeUse) : List Text :=
  if us.isEmpty then [] else [keyword, visibleList us]

section Clause

variable {keyword : Text} {us : List TypeUse}

theorem clauseWords_cons (u : TypeUse) (us : List TypeUse) :
    clauseWords keyword (u :: us) = [keyword, visibleList (u :: us)] := rfl

theorem supertypes_of_ne_nil (hne : us ≠ []) : supertypes us = some (us.map name) := by
  rw [supertypes, if_neg (by simpa using hne)]

theorem words_clause (hkeyword : Text.IsWord keyword) (t : Text) :
    Text.words (t ++ clause keyword us) =
      Text.words t ++ if us.isEmpty then [] else keyword :: Text.words (list us) := by
  cases us with
  | nil => simp [clause]
  | cons u us =>
      rw [clause, if_neg (by simp), if_neg (by simp), Text.words_append_blank rfl,
        Text.words_append_blank rfl, Text.words_solid hkeyword.solid hkeyword.ne_nil]
      rfl

theorem head?_list (hne : us ≠ []) : (list us).head?.all Text.isBlank = false := by
  cases us with
  | nil => exact absurd rfl hne
  | cons u us =>
      obtain ⟨c, name, hname⟩ := List.exists_cons_of_ne_nil u.ne_nil
      have hc := (u.plain c (by simp [hname])).1
      cases us with
      | nil => simp [list, TypeUse.text, hname, hc]
      | cons v us => simp [list_cons_cons, TypeUse.text, hname, hc]

/-- Behind a clause the words go on outside brackets. -/
theorem topWordsFrom_clause (hkeyword : Text.IsWord keyword) (us : List TypeUse)
    (words : List Text) :
    topWordsFrom 0 ((if us.isEmpty then [] else keyword :: Text.words (list us)) ++ words) =
      clauseWords keyword us ++ topWordsFrom 0 words := by
  cases us with
  | nil => rfl
  | cons u us =>
      have hangle : ∀ c ∈ keyword, c ≠ '<' ∧ c ≠ '>' := fun c hc =>
        ⟨Text.ne_of_isWordChar (hkeyword.2 c hc) rfl, Text.ne_of_isWordChar (hkeyword.2 c hc) rfl⟩
      obtain ⟨hblank, hdepth⟩ := shelters_list (u :: us)
      rw [if_neg (by simp), clauseWords_cons, List.cons_append, topWordsFrom, if_pos rfl,
        Signature.angleDepth_plain hangle,
        topWordsFrom_words (head?_list (by simp)) hblank, hdepth]
      rfl

/-- A word of a clause is its keyword or no keyword at all. -/
theorem mem_clauseWords {w : Text} (hw : w ∈ clauseWords keyword us) :
    w = keyword ∨ w ∉ Signature.keywords := by
  cases us with
  | nil => cases hw
  | cons u us =>
      rw [clauseWords_cons, List.mem_pair] at hw
      rcases hw with rfl | rfl
      · exact .inl rfl
      · exact .inr (visibleList_not_mem_keywords (List.cons_ne_nil u us))

/-- Behind its keyword the types of a clause are found up to the first blank. -/
theorem wordAfter?_clauseWords {keyword : String} {rest : List Text}
    (hrest : ∀ w ∈ rest, w ≠ keyword.toList) :
    (Signature.wordAfter? keyword (clauseWords keyword.toList us ++ rest)).map typeNames =
      supertypes (uptoBlank us) := by
  cases us with
  | nil => exact congrArg (Option.map typeNames) (Signature.wordAfter?_of_forall_ne hrest)
  | cons u us =>
      rw [supertypes_of_ne_nil (uptoBlank_ne_nil u us), clauseWords_cons,
        ← typeNames_visibleList (List.cons_ne_nil u us)]
      exact congrArg (Option.map typeNames) (Signature.wordAfter?_self _)

end Clause

/-- The words of a header that count: each list is one word, up to its first blank. -/
theorem topWords_text (h : Heading) :
    topWords h.text = h.kind.keywords ++ visibleList [h.type] ::
      (clauseWords "extends".toList h.extended ++
        clauseWords "implements".toList h.implemented) := by
  have hkeywords (words : List Text) :
      topWordsFrom 0 (h.kind.keywords ++ words) = h.kind.keywords ++ topWordsFrom 0 words := by
    cases h.kind with
    | plainClass => rfl
    | abstractClass => rfl
    | interface => rfl
    | enum => rfl
  have hlist : h.type.text = list [h.type] := by simp [list]
  obtain ⟨hblank, hdepth⟩ := shelters_list [h.type]
  have himplements : Text.IsWord "implements".toList := by decide
  have hlast := topWordsFrom_clause himplements h.implemented []
  rw [List.append_nil] at hlast
  rw [topWords, text, Text.words_append_blank rfl, Source.words_of_plain h.kind.plain_keywords,
    ← List.append_assoc h.type.text, words_clause (by decide), words_clause (by decide),
    List.append_assoc, hkeywords, hlist, topWordsFrom_words (head?_list (by simp)) hblank, hdepth,
    topWordsFrom_clause (by decide), hlast]
  simp [visibleList, topWordsFrom]

/-- Behind the keywords of its kind no word of a header states a kind. -/
theorem not_mem_kindKeywords (h : Heading) :
    ∀ w ∈ visibleList [h.type] :: (clauseWords "extends".toList h.extended ++
      clauseWords "implements".toList h.implemented), w ∉ Signature.kindKeywords := by
  have hsub : ∀ keyword ∈ Signature.kindKeywords, keyword ∈ Signature.keywords ∧
      keyword ≠ "extends".toList ∧ keyword ≠ "implements".toList := by decide
  intro w hw hmem
  obtain ⟨hkeyword, hextends, himplements⟩ := hsub w hmem
  rcases List.mem_cons.mp hw with rfl | hw
  · exact visibleList_not_mem_keywords (List.cons_ne_nil h.type []) hkeyword
  · rcases List.mem_append.mp hw with hw | hw
    · exact (mem_clauseWords hw).elim hextends (· hkeyword)
    · exact (mem_clauseWords hw).elim himplements (· hkeyword)

/-- The signature of a header has the supertypes up to the first blank of each list. -/
theorem ofHeader_text (h : Heading) :
    Signature.ofHeader h.text = .ok ⟨h.kind, supertypes (uptoBlank h.extended),
      supertypes (uptoBlank h.implemented)⟩ := by
  have hkind : Signature.kindOf h.text (topWords h.text) = .ok h.kind := by
    rw [topWords_text]
    exact Signature.kindOf_keywords h.not_mem_kindKeywords h.kind h.text
  have hkinds (kind : Kind) :
      "extends".toList ∉ kind.keywords ∧ "implements".toList ∉ kind.keywords := by
    cases kind <;> decide
  -- Neither the keywords of the kind nor the name of the type begin a clause.
  have hfront {keyword : Text} (hkeyword : keyword ∈ Signature.keywords)
      (hkinds : ∀ kind : Kind, keyword ∉ kind.keywords) :
      ∀ w ∈ h.kind.keywords ++ [visibleList [h.type]], w ≠ keyword := by
    intro w hw
    rcases List.mem_append.mp hw with hw | hw
    · exact fun heq => hkinds h.kind (heq ▸ hw)
    · rw [List.mem_singleton.mp hw]
      exact fun heq => visibleList_not_mem_keywords (List.cons_ne_nil h.type []) (heq ▸ hkeyword)
  have hother {keyword other : Text} (hne : other ≠ keyword)
      (hkeyword : keyword ∈ Signature.keywords) {us : List TypeUse} :
      ∀ w ∈ clauseWords other us, w ≠ keyword := by
    intro w hw
    rcases mem_clauseWords hw with rfl | hfree
    · exact hne
    · exact fun heq => hfree (heq ▸ hkeyword)
  have hsplit : topWords h.text = (h.kind.keywords ++ [visibleList [h.type]]) ++
      (clauseWords "extends".toList h.extended ++
        (clauseWords "implements".toList h.implemented ++ [])) := by
    rw [topWords_text]
    simp
  have hextended : (Signature.wordAfter? "extends" (topWords h.text)).map typeNames =
      supertypes (uptoBlank h.extended) := by
    rw [hsplit, Signature.wordAfter?_append (hfront (by decide) fun kind => (hkinds kind).1),
      wordAfter?_clauseWords]
    rw [List.append_nil]
    exact hother (by decide) (by decide)
  have himplemented : (Signature.wordAfter? "implements" (topWords h.text)).map typeNames =
      supertypes (uptoBlank h.implemented) := by
    rw [hsplit, Signature.wordAfter?_append (hfront (by decide) fun kind => (hkinds kind).2),
      Signature.wordAfter?_append (hother (by decide) (by decide)),
      wordAfter?_clauseWords (List.forall_mem_nil _)]
  rw [Signature.ofHeader_eq, Signature.ofWords, hkind, hextended, himplemented]
  cases h with
  | classLike isAbstract _ _ _ =>
      cases isAbstract with
      | true => rfl
      | false => rfl
  | interface _ _ => rfl
  | enum _ => rfl

theorem supertypes_uptoBlank {us : List TypeUse} :
    supertypes (uptoBlank us) = supertypes us ↔ ∀ u ∈ us.dropLast, u.hasBlank = false := by
  rw [← map_name_uptoBlank]
  cases us with
  | nil => simp [uptoBlank]
  | cons u us =>
      rw [supertypes_of_ne_nil (uptoBlank_ne_nil u us),
        supertypes_of_ne_nil (List.cons_ne_nil u us), Option.some.injEq]

end Heading

/-- The header of a type states its kind, and its supertypes are those up to the first one with
a blank among its generic arguments, in either list. So they are all that are written exactly
if no supertype but the last of a list has such a blank. -/
theorem ofHeader_heading (h : Heading) :
    Signature.ofHeader h.text = .ok ⟨h.kind, Heading.supertypes (uptoBlank h.extended),
        Heading.supertypes (uptoBlank h.implemented)⟩ ∧
      (Signature.ofHeader h.text = .ok ⟨h.kind, Heading.supertypes h.extended,
          Heading.supertypes h.implemented⟩ ↔
        (∀ u ∈ h.extended.dropLast, u.hasBlank = false) ∧
          ∀ u ∈ h.implemented.dropLast, u.hasBlank = false) := by
  refine ⟨h.ofHeader_text, ?_⟩
  rw [h.ofHeader_text, Except.ok.injEq, Signature.mk.injEq, Heading.supertypes_uptoBlank,
    Heading.supertypes_uptoBlank]
  exact and_iff_right rfl

/-- Behind a wildcard with a bound the next supertype is lost. -/
example : Signature.ofHeader "class A extends B<? extends C>,D".toList =
    .ok ⟨.plainClass, some ["B".toList], none⟩ := by
  decide +kernel

end ClassDiagram.Declaration
