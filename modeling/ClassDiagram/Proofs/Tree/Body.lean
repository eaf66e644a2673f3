import ClassDiagram.Proofs.Declaration.Block
import ClassDiagram.Proofs.Tree.Decode
import ClassDiagram.Proofs.Tree.Header

/-!
# The body of a tree

The body of a tree is made of statements and blocks. The blocks that a keyword of a
type opens are the trees inside it, and all other pieces are its members. So the file
of a tree gives its entry and the files of the trees inside it.
-/

namespace ClassDiagram

open Declaration
open Source (Spelling IsPlain)

/-! ## Texts that declare no type -/

namespace Declaration

theorem declaresType_append_space (s t : Text) :
    declaresType (s ++ ' ' :: t) = (declaresType s || declaresType t) := by
  rw [declaresType, Text.words_append_blank rfl, List.any_append]
  rfl

theorem declaresType_solid {s : Text} (hs : Text.Solid s) (hne : s ≠ []) (h : s ∉ typeKeywords) :
    declaresType s = false := by
  rw [declaresType, Text.words_solid hs hne, List.any_cons, List.any_nil, Bool.or_false,
    ← Bool.not_eq_true, List.contains_iff_mem]
  exact h

/-- A keyword has no mark in it. -/
theorem declaresType_marked {s : Text} (hs : Text.Solid s)
    (hmark : ∃ c ∈ s, Text.isWordChar c = false) : declaresType s = false := by
  obtain ⟨c, hc, hword⟩ := hmark
  apply declaresType_solid hs (List.ne_nil_of_mem hc)
  intro hmem
  exact (isWord_of_typeKeyword hmem).not_mem hword hc

end Declaration

namespace Tree.Operation

/-- A parenthesis or a comma keeps what stands around a parameter from being a
keyword. -/
theorem declaresType_parameters {front : Text} (hfront : Text.Solid front)
    (hmark : ∃ c ∈ front, Text.isWordChar c = false) (ps : List (Word × Word)) :
    declaresType (front ++ ([','].intercalate (ps.map parameterText) ++ [')'])) = false := by
  have hclose : Text.Solid [')'] := Text.forall_mem_of_all rfl
  have hcomma : Text.Solid [','] := Text.forall_mem_of_all rfl
  -- The name of a parameter and the comma behind it are the front of the next one.
  induction ps generalizing front with
  | nil =>
      apply declaresType_marked (hfront.append hclose)
      exact ⟨')', by simp, rfl⟩
  | cons p ps ih =>
      have htype : declaresType (front ++ p.1.text) = false := by
        obtain ⟨c, hc, hword⟩ := hmark
        apply declaresType_marked (hfront.append p.1.isWord.solid)
        exact ⟨c, List.mem_append_left _ hc, hword⟩
      have hsplit : front ++ ([','].intercalate ((p :: ps).map parameterText) ++ [')']) =
          (front ++ p.1.text) ++ ' ' :: (match ps with
            | [] => p.2.text ++ [')']
            | _ :: _ => (p.2.text ++ [',']) ++
                ([','].intercalate (ps.map parameterText) ++ [')'])) := by
        cases ps with
        | nil => simp [parameterText, List.intercalate_cons_cons]
        | cons q ps => simp [parameterText, List.intercalate_cons_cons]
      rw [hsplit, declaresType_append_space, htype, Bool.false_or]
      cases ps with
      | nil =>
          apply declaresType_marked (p.2.isWord.solid.append hclose)
          exact ⟨')', by simp, rfl⟩
      | cons q ps => exact ih (p.2.isWord.solid.append hcomma) ⟨',', by simp, rfl⟩

variable (owner : Word) (o : Operation)

theorem words_not_mem_typeKeywords : ∀ w ∈ o.words owner, w ∉ typeKeywords := by
  have hmodifiers : ∀ keyword ∈ modifierKeywords, keyword ∉ typeKeywords := by decide
  have hreserved : ∀ keyword ∈ typeKeywords, keyword ∈ reservedWords := by decide
  have hname (name : Word) : name.text ∉ typeKeywords := fun hmem =>
    name.not_mem_reservedWords (hreserved _ hmem)
  intro w hw
  rcases List.mem_append.mp hw with hw | hw
  · exact hmodifiers w (modifierWords_subset _ _ _ _ hw)
  · cases hhead : o.head with
    | none =>
        rw [hhead, List.mem_singleton] at hw
        rw [hw]
        exact hname owner
    | some head =>
        simp only [hhead, List.mem_cons, List.not_mem_nil, or_false] at hw
        rcases hw with rfl | rfl
        · exact hname head.1
        · exact hname head.2

/-- A signature declares no type, so its body is no tree. -/
theorem declaresType_signature : declaresType (o.signature .dense owner) = false := by
  have hwords (ws : List Text) (hne : ws ≠ []) (hplain : ∀ w ∈ ws, IsPlain w)
      (hkeyword : ∀ w ∈ ws, w ∉ typeKeywords) :
      declaresType ([' '].intercalate ws ++ '(' :: (o.parametersText .dense ++ [')'])) = false := by
    induction ws with
    | nil => exact absurd rfl hne
    | cons w ws ih =>
        have hw := (hplain w (by simp)).word
        cases ws with
        | nil =>
            rw [List.intercalate_singleton, ← List.singleton_append, ← List.append_assoc]
            apply declaresType_parameters
            · exact hw.solid.append (Text.forall_mem_of_all rfl)
            · exact ⟨'(', by simp, rfl⟩
        | cons v ws =>
            have hrest := ih (by simp) (fun u hu => hplain u (List.mem_cons_of_mem _ hu))
              fun u hu => hkeyword u (List.mem_cons_of_mem _ hu)
            rw [List.intercalate_cons_cons, List.append_assoc, List.append_assoc,
              List.singleton_append, declaresType_append_space,
              declaresType_solid hw.solid hw.ne_nil (hkeyword w (by simp)), hrest]
            rfl
  exact hwords _ (o.words_ne_nil owner) (o.plain_words owner) (o.words_not_mem_typeKeywords owner)

end Tree.Operation

/-! ## The pieces of a body -/

namespace Tree

theorem run_field (f : Field) : ∀ c ∈ f.declaration, endsRun c = false :=
  run_of_over f.over_declaration rfl

theorem run_signature (owner : Word) (o : Operation) :
    ∀ c ∈ o.signature .dense owner, endsRun c = false :=
  run_of_over (o.over_signature .dense owner) rfl

theorem read_field (f : Field) (gs : List Glyph) :
    Body.read 0 false [] (Text.bare (f.text ++ Spelling.dense.gap) ++ gs) =
      (Body.read 0 false [] gs).withPiece (.member f.text) := by
  rw [Spelling.gap_dense, List.append_nil]
  exact Body.read_complete (Body.complete_statement (run_field f)) false

theorem read_operation (owner : Word) (o : Operation) (gs : List Glyph) :
    Body.read 0 false [] (Text.bare (o.text .dense owner ++ Spelling.dense.gap) ++ gs) =
      (Body.read 0 false [] gs).withPiece (.member (o.text .dense owner)) := by
  rw [Spelling.gap_dense, List.append_nil, Operation.text]
  cases o.hasBody with
  | true =>
      have hcomplete := Body.complete_block (run_signature owner o) .nil
      rw [o.declaresType_signature owner] at hcomplete
      exact Body.read_complete hcomplete false
  | false => exact Body.read_complete (Body.complete_statement (run_signature owner o)) false

/-- The text between the braces of a tree. -/
def inner (shape : Shape) (name : Word) (nested : List Tree) : Text :=
  shape.members .dense name ++ texts .dense nested

theorem text_node (shape : Shape) (name : Word) (nested : List Tree) :
    (node shape name nested).text .dense =
      shape.header .dense name ++ '{' :: (inner shape name nested ++ ['}']) := by
  rw [text, inner, List.append_assoc]
  rfl

theorem paired_members (shape : Shape) (name : Word) : Paired (shape.members .dense name) := by
  apply Paired.append
  · apply Paired.flatMap
    intro f _
    rw [Spelling.gap_dense, List.append_nil]
    exact (Paired.of_run (run_field f)).append (.of_unbraced (by simp))
  · apply Paired.flatMap
    intro o _
    rw [Spelling.gap_dense, List.append_nil, Operation.text]
    apply (Paired.of_run (run_signature name o)).append
    cases o.hasBody with
    | true => exact .group .nil .nil
    | false => exact .of_unbraced (by simp)

theorem paired_text (tree : Tree) : Paired (tree.text .dense) := by
  induction tree with
  | node shape name nested ih =>
      have hnested : Paired (texts .dense nested) := by
        rw [texts_eq_flatMap]
        apply Paired.flatMap
        intro t ht
        rw [Spelling.gap_dense, List.append_nil]
        exact ih t ht
      rw [text_node]
      exact (Paired.of_run (Shape.run_header shape name)).append
        (.group ((paired_members shape name).append hnested) .nil)

theorem paired_inner (shape : Shape) (name : Word) (nested : List Tree) :
    Paired (inner shape name nested) := by
  rw [inner, texts_eq_flatMap]
  apply (paired_members shape name).append
  apply Paired.flatMap
  intro t _
  rw [Spelling.gap_dense, List.append_nil]
  exact paired_text t

theorem read_tree (t : Tree) (gs : List Glyph) :
    Body.read 0 false [] (Text.bare (t.text .dense ++ Spelling.dense.gap) ++ gs) =
      (Body.read 0 false [] gs).withPiece (.nested (t.text .dense)) := by
  obtain ⟨shape, name, nested⟩ := t
  have hcomplete := Body.complete_block (Shape.run_header shape name)
    (paired_inner shape name nested)
  rw [Shape.declaresType_header] at hcomplete
  rw [Spelling.gap_dense, List.append_nil, text_node]
  exact Body.read_complete hcomplete false

/-- The pieces of the text between the braces and of the brace that closes it. -/
theorem read_inner (shape : Shape) (name : Word) (nested : List Tree) :
    Body.read 0 false [] (Text.bare (inner shape name nested ++ ['}'])) =
      ⟨shape.fields.map (fun f => .member f.text) ++
        (shape.operations.map (fun o => .member (o.text .dense name)) ++
          (nested.map (fun t => .nested (t.text .dense)) ++ [.member []])), some []⟩ := by
  rw [inner, Shape.members, texts_eq_flatMap, Text.bare_append, Text.bare_append, Text.bare_append,
    List.append_assoc, List.append_assoc, Body.read_items fun f _ => read_field f,
    Body.read_items fun o _ => read_operation name o, Body.read_items fun t _ => read_tree t,
    Text.bare_cons, Text.bare_nil, Body.read_end rfl]
  rfl

/-- The header of a tree with the body behind it. -/
def split (shape : Shape) (name : Word) (nested : List Tree) : Header :=
  ⟨[], shape.header .dense name, inner shape name nested ++ ['}']⟩

theorem body_split (shape : Shape) (name : Word) (nested : List Tree) :
    (split shape name nested).body =
      Body.read 0 false [] (Text.bare (inner shape name nested ++ ['}'])) := by
  have hunquoted : Text.Unquoted ((node shape name nested).text .dense) :=
    (over_text .dense _).unquoted rfl
  rw [text_node, ← List.singleton_append, ← List.append_assoc] at hunquoted
  have hfront : Text.Unquoted (shape.header .dense name ++ ['{']) :=
    fun c hc => hunquoted c (List.mem_append_left _ hc)
  have hbehind : Text.Unquoted (inner shape name nested ++ ['}']) :=
    fun c hc => hunquoted c (List.mem_append_right _ hc)
  rw [Header.body_eq]
  show Body.ofGlyphs (Text.glyphsFrom (Quote.after none (shape.header .dense name ++ ['{']))
    (inner shape name nested ++ ['}'])) = _
  rw [Quote.after_unquoted hfront, Text.glyphsFrom_unquoted hbehind, Body.ofGlyphs]

/-- The members of the body are the members of the tree. -/
theorem members_split (shape : Shape) (name : Word) (nested : List Tree) :
    (split shape name nested).body.members = shape.members .dense name := by
  have htrees :
      (nested.map fun t => Piece.nested (t.text .dense)).flatMap Piece.memberText = [] := by
    rw [List.flatMap_eq_nil_iff]
    intro piece hpiece
    obtain ⟨t, -, rfl⟩ := List.mem_map.mp hpiece
    rfl
  rw [body_split, read_inner, Body.members]
  dsimp only
  rw [List.flatMap_append, List.flatMap_append, List.flatMap_append, htrees, List.flatMap_map,
    List.flatMap_map, Shape.members]
  simp [Piece.memberText]

/-- The trees inside a tree are all that is left over. -/
theorem leftover_split (shape : Shape) (name : Word) (nested : List Tree) :
    (split shape name nested).leftover = (nested.map (text .dense)).flatten := by
  have hlead : (split shape name nested).lead = [] := by
    have hfirst := (Shape.startsWord_header shape name).head?_any
    exact Text.takeWhile_stretch (s := []) (List.forall_mem_nil _) hfirst
  have hmembers {α : Type} (item : α → Text) (as : List α) :
      (as.map fun a => Piece.member (item a)).filterMap Piece.nested? = [] := by
    rw [List.filterMap_eq_nil_iff]
    intro piece hpiece
    obtain ⟨a, -, rfl⟩ := List.mem_map.mp hpiece
    rfl
  have hnested : (split shape name nested).body.nested = nested.map (text .dense) := by
    rw [body_split, read_inner, Body.nested]
    dsimp only
    rw [List.filterMap_append, List.filterMap_append, List.filterMap_append, hmembers, hmembers,
      List.filterMap_map]
    simp [Piece.nested?, Function.comp_def]
  have hbehind : (split shape name nested).body.behind = some [] := by
    rw [body_split, read_inner]
  rw [Header.leftover, hlead, hnested, hbehind]
  simp

/-! ## The file of a tree -/

/-- The texts of trees are the blocks of what is left over. -/
theorem blocks_texts (ts : List Tree) :
    blocks (ts.map (text .dense)).flatten = ts.map (text .dense) := by
  induction ts with
  | nil => rfl
  | cons t ts ih =>
      obtain ⟨shape, name, nested⟩ := t
      have hunquoted : Text.Unquoted ((node shape name nested).text .dense) :=
        (over_text .dense _).unquoted rfl
      rw [text_node] at hunquoted
      rw [List.map_cons, List.flatten_cons, text_node,
        blocks_block (Shape.run_header shape name) (paired_inner shape name nested)
          (Shape.startsWord_header shape name).head?_any hunquoted, ih]

/-- The file of a tree inside another one is the child that its text gives. -/
theorem child_text (parent : String) (t : Tree) :
    child parent (t.text .dense) = .ok (Placed.file .dense ⟨some parent, t⟩) := by
  obtain ⟨shape, name, nested⟩ := t
  rw [child, text_node, Shape.declaredName_header, Placed.file, text_node]
  rfl

/-- The trees inside a tree are its children. -/
theorem children_texts (parent : String) (ts : List Tree) :
    children parent (ts.map (text .dense)).flatten =
      .ok (ts.map fun t => Placed.file .dense ⟨some parent, t⟩) := by
  rw [children_eq_ok_iff, blocks_texts]
  induction ts with
  | nil => exact .nil
  | cons t ts ih => exact .cons (child_text parent t) ih

/-- The entry of a tree is decoded from its signature and its members. -/
theorem entry_split {settings : Settings} (hsettings : settings.decoding = .keyword)
    (spelling : Spelling) (parent : Option String) (shape : Shape) (name : Word)
    (nested : List Tree) (id : Identifier) :
    (Placed.file spelling ⟨parent, node shape name nested⟩).entry settings id
        ⟨shape.kind, Shape.supertypes shape.extended, Shape.supertypes shape.implemented⟩
        (shape.members .dense name) =
      Placed.entry ⟨parent, node shape name nested⟩ id := by
  have hnames (ws : List Word) :
      (Shape.supertypes ws).map (·.map String.ofList) = Shape.supertypeNames ws := by
    cases ws with
    | nil => rfl
    | cons w ws => simp [Shape.supertypes, Shape.supertypeNames, Word.name]
  have hname : name.name.toList = name.text := String.toList_ofList
  have hmembers {α : Type} (found : α) :
      (if shape.kind != .enum then some found else none) =
        if shape.kind = .enum then none else some found := by
    by_cases h : shape.kind = .enum
    · rw [h]
      rfl
    · rw [if_neg h, if_pos (bne_iff_ne.mpr h)]
  have hfields := shape.allFields_members name
  have hmethods := shape.allMethods_members name
  rw [← hname] at hmethods
  rw [SourceFile.entry, hsettings, hnames, hnames, Placed.entry, Shape.entry]
  dsimp only [Placed.file, Tree.shape, Tree.name]
  rw [hfields, hmethods, hmembers, hmembers]
  rfl

/-- The file of a tree, in either spelling, gives its entry and the files of the trees
inside it. -/
theorem read_file {settings : Settings} (hsettings : settings.decoding = .keyword)
    (spelling : Spelling) (p : Placed) (id : Identifier) :
    (p.file spelling).read settings id =
      .ok ⟨p.entry id, p.inside.map (Placed.file .dense)⟩ := by
  obtain ⟨parent, ⟨shape, name, nested⟩⟩ := p
  have hname : name.name.toList = name.text := String.toList_ofList
  apply SourceFile.read_eq_ok_iff.mpr
  refine ⟨split shape name nested,
    ⟨shape.kind, Shape.supertypes shape.extended, Shape.supertypes shape.implemented⟩,
    ?_, ?_, ?_, ?_⟩
  · show Header.locate? (Source.dense (String.ofList _).toList) name.name.toList = _
    rw [String.toList_ofList, dense_text, hname, text_node]
    exact Shape.locate?_header shape name _
  · rw [Header.text, split, Shape.trim_header, Shape.ofHeader_header]
  · rw [leftover_split, children_texts, Placed.inside, List.map_map]
    rfl
  · rw [members_split]
    exact entry_split hsettings spelling parent shape name nested id

end Tree

end ClassDiagram
