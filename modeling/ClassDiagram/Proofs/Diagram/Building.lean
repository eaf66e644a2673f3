import ClassDiagram.Diagram.Preview
import ClassDiagram.Proofs.Diagram.Mention
import ClassDiagram.Proofs.Project.Worklist
import Mathlib.Data.List.Induction

/-!
# Building diagrams

A diagram refuses a node whose identifier is taken and an edge whose ends are no nodes. The
diagram of a catalogue meets only the first refusal. Its edges are added after all of its
nodes, and every derived edge runs between entries, so none of them can dangle
(`ends_of_mem_derive`).

The entries of a project have the identifiers that are drawn for their places. As long as
these are distinct, a project has a diagram and a preview as soon as it has a catalogue.
-/

namespace ClassDiagram

/-! ## Adding nodes and edges -/

namespace Diagram

section Adding

variable {d : Diagram} {id : Identifier} {node : Node} {edge : Edge}

theorem hasNode_iff : d.hasNode id = true ↔ id ∈ d.nodes.map Node.id := by
  rw [hasNode, node?, List.find?_isSome, List.mem_map]
  constructor
  · rintro ⟨node, hmem, htest⟩
    exact ⟨node, hmem, beq_iff_eq.mp htest⟩
  · rintro ⟨node, hmem, hid⟩
    exact ⟨node, hmem, beq_iff_eq.mpr hid⟩

theorem addNode_of_mem (h : node.id ∈ d.nodes.map Node.id) :
    d.addNode node = .error (.duplicateNode node.id) := by
  rw [addNode, if_pos (hasNode_iff.mpr h)]

theorem addNode_of_not_mem (h : node.id ∉ d.nodes.map Node.id) :
    d.addNode node = .ok { d with nodes := d.nodes ++ [node] } := by
  rw [addNode, if_neg (fun htaken => h (hasNode_iff.mp htaken))]

theorem addEdge_of_mem (hsource : edge.source ∈ d.nodes.map Node.id)
    (htarget : edge.target ∈ d.nodes.map Node.id) :
    d.addEdge edge = .ok { d with edges := d.edges ++ [edge] } := by
  simp [addEdge, hasNode_iff.mpr hsource, hasNode_iff.mpr htarget]

/-- Nodes without a common identifier are added in their order. -/
theorem foldlM_addNode {nodes : List Node} (h : ((d.nodes ++ nodes).map Node.id).Nodup) :
    nodes.foldlM addNode d = .ok { d with nodes := d.nodes ++ nodes } := by
  induction nodes generalizing d with
  | nil =>
      rw [List.append_nil]
      rfl
  | cons node nodes ih =>
      have hnew : node.id ∉ d.nodes.map Node.id := by
        intro hmem
        rw [List.map_append, List.nodup_append] at h
        exact h.2.2 node.id hmem node.id (by simp) rfl
      have hsplit : d.nodes ++ node :: nodes = d.nodes ++ [node] ++ nodes :=
        List.append_cons d.nodes node nodes
      rw [List.foldlM_cons, addNode_of_not_mem hnew, hsplit]
      rw [hsplit] at h
      change nodes.foldlM addNode { d with nodes := d.nodes ++ [node] } = _
      apply ih
      exact h

/-- The first node whose identifier is taken is refused, whatever nodes follow it. -/
theorem foldlM_addNode_repeated {before after : List Node}
    (h : ((d.nodes ++ before).map Node.id).Nodup)
    (hmem : node.id ∈ (d.nodes ++ before).map Node.id) :
    (before ++ node :: after).foldlM addNode d = .error (.duplicateNode node.id) := by
  have hrefused : addNode { d with nodes := d.nodes ++ before } node =
      .error (.duplicateNode node.id) := addNode_of_mem hmem
  rw [List.foldlM_append, foldlM_addNode h]
  change (node :: after).foldlM addNode { d with nodes := d.nodes ++ before } = _
  rw [List.foldlM_cons, hrefused]
  rfl

/-- Edges between nodes are added in their order. -/
theorem foldlM_addEdge {edges : List Edge}
    (h : ∀ edge ∈ edges, edge.source ∈ d.nodes.map Node.id ∧ edge.target ∈ d.nodes.map Node.id) :
    edges.foldlM addEdge d = .ok { d with edges := d.edges ++ edges } := by
  induction edges generalizing d with
  | nil =>
      rw [List.append_nil]
      rfl
  | cons edge edges ih =>
      obtain ⟨hsource, htarget⟩ := h edge (by simp)
      have hsplit : d.edges ++ edge :: edges = d.edges ++ [edge] ++ edges :=
        List.append_cons d.edges edge edges
      rw [List.foldlM_cons, addEdge_of_mem hsource htarget, hsplit]
      change edges.foldlM addEdge { d with edges := d.edges ++ [edge] } = _
      apply ih
      intro other hother
      exact h other (List.mem_cons_of_mem edge hother)

end Adding

/-! ## The diagram of a catalogue -/

/-- The first entry whose identifier an earlier entry has. -/
def FirstRepeated (catalogue : Catalogue) (entry : Entry) : Prop :=
  ∃ before after, catalogue = before ++ entry :: after ∧ (before.map Entry.id).Nodup ∧
    entry.id ∈ before.map Entry.id

/-- The complete diagram of a catalogue: a box for each entry and all of the derived edges. -/
def complete (settings : Settings) (catalogue : Catalogue) : Diagram where
  nodes := catalogue.map Entry.node
  edges := Relation.derive settings catalogue

section Catalogue

variable {catalogue : Catalogue} {entry : Entry}

/-- If identifiers repeat, there is a first entry that repeats one. -/
theorem nodup_or_firstRepeated (catalogue : Catalogue) :
    (catalogue.map Entry.id).Nodup ∨ ∃ entry, FirstRepeated catalogue entry := by
  induction catalogue using List.reverseRecOn with
  | nil => exact .inl List.nodup_nil
  | append_singleton catalogue entry ih =>
      cases ih with
      | inr hrepeated =>
          obtain ⟨first, before, after, rfl, hbefore, hmem⟩ := hrepeated
          exact .inr ⟨first, before, after ++ [entry], by simp, hbefore, hmem⟩
      | inl hids =>
          by_cases hmem : entry.id ∈ catalogue.map Entry.id
          · exact .inr ⟨entry, catalogue, [], rfl, hids, hmem⟩
          · left
            rw [List.map_append, List.map_singleton, ← List.concat_eq_append, List.nodup_concat]
            exact ⟨hmem, hids⟩

/-- Both ends of a derived edge are entries. -/
theorem ends_of_mem_derive {settings : Settings} {edge : Edge}
    (h : edge ∈ Relation.derive settings catalogue) :
    edge.source ∈ catalogue.map Entry.id ∧ edge.target ∈ catalogue.map Entry.id := by
  obtain ⟨source, hsource, _, target, _, htarget, hfrom, hto⟩ := Relation.exists_justifies h
  rw [hfrom, hto]
  exact ⟨List.mem_map_of_mem hsource, List.mem_map_of_mem htarget.mem⟩

/-- The boxes of entries have the identifiers of the entries. -/
theorem ids_nodes (catalogue : Catalogue) :
    (catalogue.map Entry.node).map Node.id = catalogue.map Entry.id := by
  rw [List.map_map]
  rfl

/-- Entries without a common identifier have their complete diagram. -/
theorem ofCatalogue_of_nodup (settings : Settings) (h : (catalogue.map Entry.id).Nodup) :
    ofCatalogue settings catalogue = .ok (complete settings catalogue) := by
  have hnodes : (catalogue.map Entry.node).foldlM addNode empty =
      .ok { nodes := catalogue.map Entry.node } := by
    apply foldlM_addNode
    change ((catalogue.map Entry.node).map Node.id).Nodup
    rw [ids_nodes]
    exact h
  rw [ofCatalogue, hnodes]
  apply foldlM_addEdge
  intro edge hedge
  change edge.source ∈ (catalogue.map Entry.node).map Node.id ∧
    edge.target ∈ (catalogue.map Entry.node).map Node.id
  rw [ids_nodes]
  exact ends_of_mem_derive hedge

/-- The first entry that repeats an identifier is refused. -/
theorem ofCatalogue_of_firstRepeated (settings : Settings) (h : FirstRepeated catalogue entry) :
    ofCatalogue settings catalogue = .error (.duplicateNode entry.id) := by
  obtain ⟨before, after, rfl, hbefore, hmem⟩ := h
  rw [← ids_nodes] at hbefore hmem
  have hrefused : ((before ++ entry :: after).map Entry.node).foldlM addNode empty =
      .error (.duplicateNode entry.id) := by
    rw [List.map_append, List.map_cons]
    exact foldlM_addNode_repeated hbefore hmem
  rw [ofCatalogue, hrefused]
  rfl

theorem ofCatalogue_eq_ok_iff {settings : Settings} {d : Diagram} :
    ofCatalogue settings catalogue = .ok d ↔
      (catalogue.map Entry.id).Nodup ∧ d = complete settings catalogue := by
  constructor
  · intro h
    cases nodup_or_firstRepeated catalogue with
    | inl hids =>
        rw [ofCatalogue_of_nodup settings hids] at h
        cases h
        exact ⟨hids, rfl⟩
    | inr hrepeated =>
        obtain ⟨entry, hentry⟩ := hrepeated
        rw [ofCatalogue_of_firstRepeated settings hentry] at h
        cases h
  · rintro ⟨hids, rfl⟩
    exact ofCatalogue_of_nodup settings hids

theorem ofCatalogue_eq_error_iff {settings : Settings} {fault : DiagramFault} :
    ofCatalogue settings catalogue = .error fault ↔
      ∃ entry, FirstRepeated catalogue entry ∧ fault = .duplicateNode entry.id := by
  constructor
  · intro h
    cases nodup_or_firstRepeated catalogue with
    | inl hids =>
        rw [ofCatalogue_of_nodup settings hids] at h
        cases h
    | inr hrepeated =>
        obtain ⟨entry, hentry⟩ := hrepeated
        rw [ofCatalogue_of_firstRepeated settings hentry] at h
        cases h
        exact ⟨entry, hentry, rfl⟩
  · rintro ⟨entry, hentry, rfl⟩
    exact ofCatalogue_of_firstRepeated settings hentry

end Catalogue

end Diagram

/-! ## The identifiers of a project -/

/-- The identifiers drawn for the first places are distinct. -/
def Identifier.Supply.Distinct (supply : Identifier.Supply) (places : Nat) : Prop :=
  ∀ first < places, ∀ second < places, supply first = supply second → first = second

theorem SourceFile.id_of_read {settings : Settings} {id : Identifier} {file : SourceFile}
    {reading : Reading} (h : file.read settings id = .ok reading) : reading.entry.id = id := by
  rw [read] at h
  split at h
  · cases h
  · split at h
    · cases h
    · split at h
      · cases h
      · cases h
        rfl

namespace Project

section Identifiers

variable {settings : Settings} {supply : Identifier.Supply}

theorem ids_readQueue {number : Nat} {queue : List SourceFile} {entries : Catalogue}
    (h : readQueue (reader settings supply) number queue = .ok entries) :
    entries.map Entry.id = (List.range' number entries.length).map supply := by
  induction entries generalizing number queue with
  | nil => rfl
  | cons entry entries ih =>
      obtain ⟨file, rest, reading, -, hread, rfl, hmore⟩ := exists_of_readQueue_cons h
      rw [List.map_cons, ih hmore, List.length_cons, List.range'_succ, List.map_cons,
        SourceFile.id_of_read hread]

/-- The entries of a catalogue have the identifiers that are drawn for their places. -/
theorem ids_catalogue {files : List SourceFile} {entries : Catalogue}
    (h : catalogue settings supply files = .ok entries) :
    entries.map Entry.id = (List.range' 0 entries.length).map supply := by
  rw [catalogue] at h
  split at h
  · cases h
  · exact ids_readQueue h

theorem nodup_ids_catalogue {files : List SourceFile} {entries : Catalogue}
    (h : catalogue settings supply files = .ok entries)
    (hdrawn : supply.Distinct entries.length) : (entries.map Entry.id).Nodup := by
  rw [ids_catalogue h]
  apply List.Nodup.map_on
  · intro first hfirst second hsecond
    rw [List.mem_range'_1] at hfirst hsecond
    exact hdrawn first (by omega) second (by omega)
  · exact List.nodup_range'

/-- A project with distinct identifiers has the complete diagram of its entries. -/
theorem diagram_of_catalogue {files : List SourceFile} {entries : Catalogue}
    (h : catalogue settings supply files = .ok entries)
    (hdrawn : supply.Distinct entries.length) :
    diagram settings supply files = .ok (.complete settings entries) := by
  rw [diagram, h]
  change (Diagram.ofCatalogue settings entries).mapError _ = _
  rw [Diagram.ofCatalogue_of_nodup settings (nodup_ids_catalogue h hdrawn)]
  rfl

theorem diagram_of_fault {files : List SourceFile} {fault : Fault}
    (h : catalogue settings supply files = .error fault) :
    diagram settings supply files = .error (.reading fault) := by
  rw [diagram, h]

end Identifiers

end Project

/-- A catalogue has a diagram exactly if no two of its entries share an identifier, and then
it is the complete one, with the boxes and the edges in their orders. Otherwise the fault is
the first entry whose identifier an earlier one has, and never an edge. So a project has a
diagram and a preview if it has a catalogue, provided that the identifiers drawn for the
entries are distinct, and if it has none, it fails for the same reason. -/
theorem diagram_iff_distinct (settings : Settings) :
    (∀ (catalogue : Catalogue) (d : Diagram), Diagram.ofCatalogue settings catalogue = .ok d ↔
      (catalogue.map Entry.id).Nodup ∧ d = Diagram.complete settings catalogue) ∧
    (∀ (catalogue : Catalogue) (fault : DiagramFault),
      Diagram.ofCatalogue settings catalogue = .error fault ↔
        ∃ entry, Diagram.FirstRepeated catalogue entry ∧ fault = .duplicateNode entry.id) ∧
    (∀ (supply : Identifier.Supply) (files : List SourceFile) (style : BoxStyle),
      (∀ entries, Project.catalogue settings supply files = .ok entries →
        supply.Distinct entries.length →
          Project.diagram settings supply files = .ok (.complete settings entries) ∧
          Project.preview settings supply style files =
            .ok ((Diagram.complete settings entries).preview style)) ∧
      (∀ fault, Project.catalogue settings supply files = .error fault →
        Project.diagram settings supply files = .error (.reading fault) ∧
        Project.preview settings supply style files = .error (.reading fault))) := by
  refine ⟨fun _ _ => Diagram.ofCatalogue_eq_ok_iff, fun _ _ => Diagram.ofCatalogue_eq_error_iff,
    ?_⟩
  intro supply files style
  constructor
  · intro entries hentries hdrawn
    have hdiagram := Project.diagram_of_catalogue hentries hdrawn
    refine ⟨hdiagram, ?_⟩
    rw [Project.preview, hdiagram]
    rfl
  · intro fault hfault
    have hdiagram := Project.diagram_of_fault hfault
    refine ⟨hdiagram, ?_⟩
    rw [Project.preview, hdiagram]
    rfl

/-- An entry with the identifier of the car. -/
def trailer : Entry := { Relation.vehicle with id := Relation.car.id, name := "Trailer" }

/-- A class that extends the class of another file. -/
def kennel : List SourceFile :=
  [⟨"Dog", "class Dog extends Animal {}", none⟩, ⟨"Animal", "class Animal {}", none⟩]

/-- The trailer is refused beside the car, and the kennel has a diagram and a preview. -/
theorem diagram_iff_distinct_kennel :
    Diagram.FirstRepeated [Relation.car, Relation.engine, trailer] trailer ∧
    Diagram.ofCatalogue {} [Relation.car, Relation.engine, trailer] =
      .error (.duplicateNode trailer.id) ∧
    ∃ entries, Project.catalogue {} Identifier.ofNat kennel = .ok entries ∧
      Identifier.Supply.Distinct Identifier.ofNat entries.length ∧
      Project.diagram {} Identifier.ofNat kennel = .ok (.complete {} entries) ∧
      Project.preview {} Identifier.ofNat .unicode kennel =
        .ok ((Diagram.complete {} entries).preview .unicode) := by
  have hrepeated : Diagram.FirstRepeated [Relation.car, Relation.engine, trailer] trailer :=
    ⟨[Relation.car, Relation.engine], [], rfl, by decide +kernel, by decide +kernel⟩
  have hentries : Project.catalogue {} Identifier.ofNat kennel =
      .ok [{ id := .ofNat 0, name := "Dog", kind := .plainClass, extended := some ["Animal"],
              fields := some [], methods := some [] },
            { id := .ofNat 1, name := "Animal", kind := .plainClass, fields := some [],
              methods := some [] }] := by
    decide +kernel
  have hdrawn : Identifier.Supply.Distinct Identifier.ofNat 2 := by
    unfold Identifier.Supply.Distinct
    decide +kernel
  obtain ⟨-, hrefused, hproject⟩ := diagram_iff_distinct {}
  obtain ⟨hbuilt, -⟩ := hproject Identifier.ofNat kennel .unicode
  exact ⟨hrepeated, (hrefused _ _).mpr ⟨trailer, hrepeated, rfl⟩, _, hentries, hdrawn,
    hbuilt _ hentries hdrawn⟩

end ClassDiagram
