import ClassDiagram.Proofs.Declaration.Found
import ClassDiagram.Proofs.Diagram.Lines
import ClassDiagram.Proofs.Project.Entry
import ClassDiagram.Proofs.Project.Levels

/-!
# The layout of the preview of a project

The dense form leaves no line feed in the members of a type or in the names of the types that
are found beside it, and the notation of boxes adds none. So only the name of a given file
could break a line. Without line feeds in these names, the lines of a preview are those of its
boxes and edges: one box for each entry, with a row for each name and each member, and one
line for each edge.
-/

namespace ClassDiagram

/-! ## The texts of entries -/

theorem Text.IsToken.lineFeed_not_mem {t : Text} (h : Text.IsToken t) : '\n' ∉ t :=
  h.2.spaced.lineFeed_not_mem

theorem Access.symbol_ne_lineFeed (access : Access) : '\n' ≠ access.symbol := by
  cases access with
  | privateAccess => decide
  | protectedAccess => decide
  | publicAccess => decide

theorem MemberLine.lineFeed_not_mem {line : MemberLine} (h : '\n' ∉ line.text.toList) :
    '\n' ∉ line.boxText := by
  rw [boxText, List.mem_append]
  rintro (htext | hmark)
  · exact h htext
  · split at hmark
    · simp at hmark
    · cases hmark

section Texts

variable {v : Variable} {m : Method} {p : Parameter} {owner : String} {entry : Entry}

theorem Variable.WellFormed.lineFeed_not_mem (h : v.WellFormed) : '\n' ∉ v.line.text.toList := by
  have htype := h.type.lineFeed_not_mem
  have hname := h.name.lineFeed_not_mem
  have hvalue : '\n' ∉ ((v.value.map (" = " ++ ·)).getD "").toList := by
    cases hgiven : v.value with
    | none => simp
    | some value => simpa using (h.value value hgiven).lineFeed_not_mem
  have hfinal : '\n' ∉ (if v.isFinal then " \x7breadOnly\x7d" else "").toList := by
    split
    · decide
    · decide
  have hsymbol := v.access.symbol_ne_lineFeed
  simp [Variable.line, hsymbol, hname, htype, hvalue, hfinal]

theorem Parameter.WellFormed.lineFeed_not_mem (h : p.WellFormed) :
    '\n' ∉ (p.name ++ ":" ++ p.type).toList := by
  have htype := h.type.lineFeed_not_mem
  have hname := h.name.lineFeed_not_mem
  simp [htype, hname]

theorem Method.WellFormed.lineFeed_not_mem (h : m.WellFormed owner) :
    '\n' ∉ m.line.text.toList := by
  have hname := h.name.lineFeed_not_mem
  have htype : '\n' ∉ ((m.type.map (": " ++ ·)).getD "").toList := by
    cases hgiven : m.type with
    | none => simp
    | some type => simpa using (h.type type hgiven).lineFeed_not_mem
  have hparameters : '\n' ∉ ", ".toList.intercalate
      ((m.parameters.map fun p => p.name ++ ":" ++ p.type).map String.toList) := by
    apply Text.not_mem_intercalate
    · decide
    · intro t ht
      obtain ⟨_, hshown, rfl⟩ := List.mem_map.mp ht
      obtain ⟨p, hp, rfl⟩ := List.mem_map.mp hshown
      exact (h.parameters p hp).lineFeed_not_mem
  have hsymbol := m.access.symbol_ne_lineFeed
  simp only [Method.line, String.toList_append, String.toList_intercalate, List.mem_append, not_or]
  refine ⟨⟨⟨⟨⟨⟨?_, ?_⟩, hname⟩, ?_⟩, hparameters⟩, ?_⟩, htype⟩
  · simpa using hsymbol
  · decide
  · decide
  · decide

theorem Kind.lineFeed_not_mem_stereotype (kind : Kind) :
    ∀ name ∈ kind.stereotype?, '\n' ∉ name.toList := by
  cases kind with
  | plainClass => rintro _ ⟨⟩
  | abstractClass => rintro _ ⟨⟩; decide
  | interface => rintro _ ⟨⟩; decide
  | enum => rintro _ ⟨⟩; decide

/-- The name of a type is the only text of its box that can break a line. -/
theorem Entry.WellFormed.unbroken (h : entry.WellFormed) (hname : '\n' ∉ entry.name.toList) :
    ∀ t ∈ entry.node.texts, '\n' ∉ t := by
  intro t ht
  rcases List.mem_append.mp ht with hnames | hmembers
  · obtain ⟨name, hshown, rfl⟩ := List.mem_map.mp hnames
    rcases List.mem_append.mp hshown with hkind | hown
    · exact entry.kind.lineFeed_not_mem_stereotype name (Option.mem_toList.mp hkind)
    · cases List.mem_singleton.mp hown
      exact hname
  · obtain ⟨members, hcompartment, hmember⟩ := List.mem_flatten.mp hmembers
    obtain ⟨lines, hlines, rfl⟩ := List.mem_map.mp hcompartment
    obtain ⟨line, hline, rfl⟩ := List.mem_map.mp hmember
    apply MemberLine.lineFeed_not_mem
    rcases List.mem_append.mp hlines with hfields | hmethods
    · obtain ⟨fields, hgiven, rfl⟩ := Option.map_eq_some_iff.mp (Option.mem_toList.mp hfields)
      obtain ⟨v, hv, rfl⟩ := List.mem_map.mp hline
      exact (h.fields fields hgiven v hv).lineFeed_not_mem
    · obtain ⟨methods, hgiven, rfl⟩ := Option.map_eq_some_iff.mp (Option.mem_toList.mp hmethods)
      obtain ⟨m, hm, rfl⟩ := List.mem_map.mp hline
      exact (h.methods methods hgiven m hm).lineFeed_not_mem

end Texts

/-! ## The names of entries -/

namespace Declaration

/-- The name of a child is the front of a word. -/
theorem token_of_declaredName {block name : Text} (h : declaredName block = .ok name) :
    Text.IsToken name := by
  rw [declaredName] at h
  split at h
  · rename_i keyword words hkeywords
    split at h
    · rename_i found hfound
      cases h
      obtain ⟨hhead, hne⟩ := Option.filter_eq_some_iff.mp hfound
      obtain ⟨word, hword, rfl⟩ := Option.map_eq_some_iff.mp hhead
      obtain ⟨front, first, rest, hwords, heq, -⟩ := exists_of_fromKeywords hkeywords
      cases heq
      have hmem : word ∈ Text.words (block.takeWhile (· != '{')) := by
        rw [hwords]
        have hrest := List.mem_of_head? hword
        simp [hrest]
      refine ⟨by simpa using hne, fun c hc => ?_⟩
      exact (Text.token_of_mem_words hmem).2 c ((List.takeWhile_sublist _).subset hc)
    · cases h
  · cases h

end Declaration

namespace SourceFile

/-- No child has a line feed in its name, wherever it is found. -/
theorem lineFeed_not_mem_children {settings : Settings} {id : Identifier} {file : SourceFile}
    {reading : Reading} (h : file.read settings id = .ok reading) :
    ∀ child ∈ reading.children, '\n' ∉ child.name.toList := by
  intro child hchild
  obtain ⟨header, -, -, -, hchildren, -⟩ := read_eq_ok_iff.mp h
  obtain ⟨block, -, hblock⟩ := Declaration.exists_of_mem_children hchildren child hchild
  obtain ⟨name, hname, rfl⟩ := Declaration.child_eq_ok_iff.mp hblock
  rw [String.toList_ofList]
  exact (Declaration.token_of_declaredName hname).lineFeed_not_mem

end SourceFile

/-! ## Blocks -/

/-- What the block of lines of an entry looks like. A rule and a row for each name are always
there. Anything but an enum has two more rules, with a row for each field and for each method.
All lines are four columns wider than the widest of the texts, with the marks of the static
members. -/
structure Entry.IsBlock (entry : Entry) (block : List Text) : Prop where
  enum : entry.kind = .enum → block.length = 2 + entry.node.name.length
  members : entry.kind ≠ .enum → ∃ fields ∈ entry.fields, ∃ methods ∈ entry.methods,
    block.length = 2 + entry.node.name.length + (2 + fields.length + methods.length)
  width : ∃ widest ∈ entry.node.texts, (∀ t ∈ entry.node.texts, Text.width t ≤ Text.width widest) ∧
    ∀ line ∈ block, Text.width line = Text.width widest + 4

theorem Entry.WellFormed.isBlock {entry : Entry} (h : entry.WellFormed) (style : BoxStyle) :
    entry.IsBlock (entry.node.boxLines style) := by
  constructor
  · intro henum
    rw [Node.length_boxLines]
    simp [Node.compartments, Entry.node, h.fieldless.mpr henum, h.methodless.mpr henum]
  · intro hkind
    obtain ⟨fields, hfields⟩ := Option.ne_none_iff_exists'.mp (mt h.fieldless.mp hkind)
    obtain ⟨methods, hmethods⟩ := Option.ne_none_iff_exists'.mp (mt h.methodless.mp hkind)
    refine ⟨fields, hfields, methods, hmethods, ?_⟩
    rw [Node.length_boxLines]
    simp only [Node.compartments, Entry.node, hfields, hmethods, Option.map_some,
      Option.toList_some, List.singleton_append, List.map_cons, List.map_nil, List.length_map,
      List.flatten_cons, List.flatten_nil, List.length_append, List.length_cons, List.length_nil]
    omega
  · have hnames : entry.node.texts ≠ [] := by
      simp [Node.texts, Node.nameTexts, Entry.node]
    obtain ⟨widest, hwidest, hcolumns⟩ := Text.exists_width_eq_maxWidth hnames
    refine ⟨widest, hwidest, fun t ht => ?_, fun line hline => ?_⟩
    · rw [hcolumns]
      exact Text.width_le_maxWidth ht
    · rw [hcolumns]
      exact Node.width_of_mem_boxLines hline

/-! ## The preview -/

namespace Diagram

theorem sound_complete (settings : Settings) {catalogue : Catalogue}
    (h : (catalogue.map Entry.id).Nodup) : (complete settings catalogue).Sound where
  ids := by
    change ((catalogue.map Entry.node).map Node.id).Nodup
    rw [ids_nodes]
    exact h
  source edge hedge := by
    change edge.source ∈ (catalogue.map Entry.node).map Node.id
    rw [ids_nodes]
    exact (ends_of_mem_derive hedge).1
  target edge hedge := by
    change edge.target ∈ (catalogue.map Entry.node).map Node.id
    rw [ids_nodes]
    exact (ends_of_mem_derive hedge).2

end Diagram

namespace Project

variable {settings : Settings} {supply : Identifier.Supply} {style : BoxStyle}
  {files : List SourceFile}

theorem exists_of_preview {text : Text} (h : preview settings supply style files = .ok text) :
    ∃ entries, catalogue settings supply files = .ok entries ∧ (entries.map Entry.id).Nodup ∧
      text = (Diagram.complete settings entries).preview style := by
  rw [preview, diagram] at h
  cases hentries : catalogue settings supply files with
  | error fault =>
      rw [hentries] at h
      cases h
  | ok entries =>
      rw [hentries] at h
      cases hdiagram : Diagram.ofCatalogue settings entries with
      | error fault =>
          simp only [hdiagram] at h
          cases h
      | ok d =>
          simp only [hdiagram] at h
          cases h
          obtain ⟨hids, rfl⟩ := Diagram.ofCatalogue_eq_ok_iff.mp hdiagram
          exact ⟨entries, rfl, hids, rfl⟩

theorem catalogue_ne_nil {entries : Catalogue}
    (h : catalogue settings supply files = .ok entries) : entries ≠ [] := by
  rw [catalogue] at h
  split at h
  · cases h
  · rename_i hinput
    rintro rfl
    rw [eq_nil_of_readQueue_nil h] at hinput
    cases hinput

/-- Cut into lines, the preview of a project has a block for each entry, in order, with an empty
line between any two blocks. If there are edges, an empty line and one line for each of them
follow. -/
theorem preview_lines {text : Text} (hnames : ∀ file ∈ files, '\n' ∉ file.name.toList)
    (h : preview settings supply style files = .ok text) :
    ∃ entries blocks relations, catalogue settings supply files = .ok entries ∧
      List.Forall₂ Entry.IsBlock entries blocks ∧
      List.Forall₂ (Diagram.complete settings entries).Relates
        (Relation.derive settings entries) relations ∧
      Text.lines text = (blocks.intersperse [[]]).flatten ++
        if Relation.derive settings entries = [] then [] else [] :: relations := by
  obtain ⟨entries, hentries, hids, rfl⟩ := exists_of_preview h
  have hsound := Diagram.sound_complete settings hids
  have hform : ∀ entry ∈ entries, entry.WellFormed ∧ '\n' ∉ entry.name.toList := by
    intro entry hentry
    obtain ⟨file, id, reading, hfile, hread, rfl⟩ := exists_of_mem_catalogue
      (P := fun file => '\n' ∉ file.name.toList)
      (fun _ hread => SourceFile.lineFeed_not_mem_children hread) hnames hentries entry hentry
    refine ⟨SourceFile.wellFormed_of_read hread, ?_⟩
    rw [(SourceFile.entry_of_read hread).1]
    exact hfile
  have hunbroken : (Diagram.complete settings entries).Unbroken := by
    intro node hnode
    obtain ⟨entry, hentry, rfl⟩ := List.mem_map.mp hnode
    obtain ⟨hentryForm, hname⟩ := hform entry hentry
    exact hentryForm.unbroken hname
  have hnodes : (Diagram.complete settings entries).nodes ≠ [] :=
    List.map_eq_nil_iff.not.mpr (catalogue_ne_nil hentries)
  refine ⟨entries, (entries.map Entry.node).map (Node.boxLines style), _, hentries, ?_,
    hsound.relations, hsound.lines_preview hnodes hunbroken⟩
  rw [List.map_map, List.forall₂_map_right_iff, List.forall₂_same]
  intro entry hentry
  exact (hform entry hentry).1.isBlock style

/-- An interface and a class with a static field whose name is two columns wide. -/
def aviary : List SourceFile :=
  [⟨"Bird", "interface Bird { void sing(); }", none⟩,
    ⟨"Owl", "class Owl implements Bird { static int 年 = 3; }", none⟩]

/-- The entry of the interface. -/
def bird : Entry :=
  { id := Identifier.ofNat 0, name := "Bird", kind := .interface, fields := some [],
    methods := some [{ type := some "void", name := "sing" }] }

/-- The entry of the class. -/
def owl : Entry :=
  { id := Identifier.ofNat 1, name := "Owl", kind := .plainClass, implemented := some ["Bird"],
    fields := some [⟨"int", "年", some "3", default, true, false⟩], methods := some [] }

/-- The lines of the preview of the aviary. -/
def aviaryLines : List Text :=
  ["┌────────────────┐",
    "│ <<interface>>  │",
    "│      Bird      │",
    "├────────────────┤",
    "├────────────────┤",
    "│ - sing(): void │",
    "└────────────────┘",
    "",
    "┌────────────────┐",
    "│      Owl       │",
    "├────────────────┤",
    "│ - 年: int = 3$ │",
    "├────────────────┤",
    "└────────────────┘",
    "",
    "Owl ..|> Bird"].map String.toList

theorem preview_lines_aviary :
    preview {} Identifier.ofNat .unicode aviary = .ok (Diagram.joined ['\n'] aviaryLines) ∧
    catalogue {} Identifier.ofNat aviary = .ok [bird, owl] ∧
    ∃ birdBlock owlBlock line, bird.IsBlock birdBlock ∧ owl.IsBlock owlBlock ∧
      (Diagram.complete {} [bird, owl]).Relates ⟨.implementation, owl.id, bird.id⟩ line ∧
      aviaryLines = birdBlock ++ [] :: owlBlock ++ [[], line] := by
  have hpreview : preview {} Identifier.ofNat .unicode aviary =
      .ok (Diagram.joined ['\n'] aviaryLines) := by
    decide +kernel
  have hcatalogue : catalogue {} Identifier.ofNat aviary = .ok [bird, owl] := by
    decide +kernel
  have hlines : Text.lines (Diagram.joined ['\n'] aviaryLines) = aviaryLines := by
    decide +kernel
  have hderived : Relation.derive {} [bird, owl] = [⟨.implementation, owl.id, bird.id⟩] := by
    decide +kernel
  obtain ⟨entries, blocks, relations, hentries, hblocks, hrelations, htext⟩ :=
    preview_lines (by decide) hpreview
  rw [hcatalogue] at hentries
  cases hentries
  rw [hderived] at hrelations htext
  obtain ⟨birdBlock, others, hbird, hothers, rfl⟩ := List.forall₂_cons_left_iff.mp hblocks
  obtain ⟨owlBlock, others, howl, hnone, rfl⟩ := List.forall₂_cons_left_iff.mp hothers
  cases hnone
  obtain ⟨line, others, hline, hnone, rfl⟩ := List.forall₂_cons_left_iff.mp hrelations
  cases hnone
  refine ⟨hpreview, hcatalogue, birdBlock, owlBlock, line, hbird, howl, hline, ?_⟩
  rw [hlines] at htext
  simpa using htext

end Project

end ClassDiagram
