import ClassDiagram.Proofs.Diagram.Mention
import Mathlib.Data.List.Induction

/-!
# Interfaces that extend interfaces

The settings say whether an interface extends other interfaces. The edges between
interfaces are then batched with other edges, and batches stay or go as a whole. Yet they
change nothing else: without them there are the edges of the other setting, in their order.

An edge that joins two interfaces is connected only to such edges. So leaving them out
commutes with every batch in which there are none, and with every batch whose other edges
are all new (`filter_addBatch`). These are the only batches there are (`apart_batches`): an
interface that extends a class has the only edges between the two, as no class extends it.
-/

namespace ClassDiagram.Relation

/-! ## Leaving out edges -/

/-- A batch from which leaving out edges does not change whether the batch goes: nothing is
left out of it, or none of what is left is connected to the edges before. -/
def Apart (keep : Edge → Bool) (edges batch : List Edge) : Prop :=
  (∀ edge ∈ batch, keep edge = true) ∨
    ∀ edge ∈ batch, keep edge = true → isConnected edges edge = false

section Filter

variable {keep : Edge → Bool} {edges batch : List Edge}

/-- An edge that is kept is connected to what is kept as it is to everything, provided that
either direction of an edge is kept with the other. -/
theorem isConnected_filter (hreversed : ∀ edge, keep edge.reversed = keep edge) {edge : Edge}
    (hedge : keep edge = true) : isConnected (edges.filter keep) edge = isConnected edges edge := by
  rw [Bool.eq_iff_iff, isConnected_iff, isConnected_iff, List.mem_filter, List.mem_filter,
    hreversed, hedge]
  simp

theorem filter_addEdge (hreversed : ∀ edge, keep edge.reversed = keep edge) (edges : List Edge)
    (edge : Edge) :
    (addEdge edges edge).filter keep =
      if keep edge then addEdge (edges.filter keep) edge else edges.filter keep := by
  cases hedge : keep edge with
  | true =>
      rw [if_pos rfl, addEdge, addEdge, isConnected_filter hreversed hedge]
      split
      · rfl
      · simp [hedge]
  | false =>
      rw [if_neg (by simp), addEdge]
      split
      · rfl
      · simp [hedge]

theorem filter_foldl_addEdge (hreversed : ∀ edge, keep edge.reversed = keep edge)
    (batch edges : List Edge) :
    (batch.foldl addEdge edges).filter keep =
      (batch.filter keep).foldl addEdge (edges.filter keep) := by
  induction batch generalizing edges with
  | nil => rfl
  | cons edge batch ih =>
      rw [List.foldl_cons, ih, filter_addEdge hreversed]
      cases hedge : keep edge with
      | true => simp [hedge]
      | false => simp [hedge]

/-- Whether a batch of kept edges goes does not depend on the edges that are left out. -/
theorem all_isConnected_filter (hreversed : ∀ edge, keep edge.reversed = keep edge)
    (hkeep : ∀ edge ∈ batch, keep edge = true) :
    batch.all (isConnected (edges.filter keep)) = batch.all (isConnected edges) := by
  rw [Bool.eq_iff_iff, List.all_eq_true, List.all_eq_true]
  constructor
  · intro h edge hedge
    rw [← isConnected_filter hreversed (hkeep edge hedge)]
    exact h edge hedge
  · intro h edge hedge
    rw [isConnected_filter hreversed (hkeep edge hedge)]
    exact h edge hedge

/-- Leaving out edges commutes with adding a batch. -/
theorem filter_addBatch (hreversed : ∀ edge, keep edge.reversed = keep edge) (dedupe : Dedupe)
    (h : Apart keep edges batch) :
    (addBatch dedupe edges batch).filter keep =
      addBatch dedupe (edges.filter keep) (batch.filter keep) := by
  cases dedupe with
  | perEdge => exact filter_foldl_addEdge hreversed batch edges
  | batch =>
      rw [addBatch, addBatch]
      cases h with
      | inl hkeep =>
          rw [List.filter_eq_self.mpr hkeep, all_isConnected_filter hreversed hkeep]
          split
          · rfl
          · rw [List.filter_append, List.filter_eq_self.mpr hkeep]
      | inr hfresh =>
          cases hleft : batch.filter keep with
          | nil =>
              have hnone : (edges ++ batch).filter keep = edges.filter keep := by
                rw [List.filter_append, hleft, List.append_nil]
              rw [List.all_nil, if_pos rfl]
              split
              · rfl
              · exact hnone
          | cons edge rest =>
              -- An edge that is left is new both to all edges and to those that are kept.
              have hmem : edge ∈ batch.filter keep := by simp [hleft]
              obtain ⟨hedge, hkeep⟩ := List.mem_filter.mp hmem
              have hnew := hfresh edge hedge hkeep
              have hnewKept : isConnected (edges.filter keep) edge = false := by
                rw [isConnected_filter hreversed hkeep]
                exact hnew
              have hstays : batch.all (isConnected edges) = false :=
                List.all_eq_false.mpr ⟨edge, hedge, by simp [hnew]⟩
              rw [hstays, List.all_cons, hnewKept]
              change (edges ++ batch).filter keep = edges.filter keep ++ edge :: rest
              rw [List.filter_append, hleft]

/-- A batch that is apart from each of several lists is apart from edges out of them. -/
theorem Apart.of_flatten (lists : List (List Edge))
    (h : ∀ edges ∈ lists, Apart keep edges batch) (hedges : edges ⊆ lists.flatten) :
    Apart keep edges batch := by
  by_cases hkeep : ∀ edge ∈ batch, keep edge = true
  · exact .inl hkeep
  · refine .inr fun edge hedge hkept => ?_
    rw [← Bool.not_eq_true]
    intro hconnected
    have hlist : ∃ list ∈ lists, isConnected list edge = true := by
      cases isConnected_iff.mp hconnected with
      | inl hsame =>
          obtain ⟨list, hlist, hmem⟩ := List.mem_flatten.mp (hedges hsame)
          exact ⟨list, hlist, isConnected_iff.mpr (.inl hmem)⟩
      | inr hopposite =>
          obtain ⟨list, hlist, hmem⟩ := List.mem_flatten.mp (hedges hopposite)
          exact ⟨list, hlist, isConnected_iff.mpr (.inr hmem)⟩
    obtain ⟨list, hlist, hfound⟩ := hlist
    rw [(h list hlist).resolve_left hkeep edge hedge hkept] at hfound
    cases hfound

/-- Leaving out edges commutes with a run over batches of which each is apart from all
before it. -/
theorem filter_foldl_addBatch (hreversed : ∀ edge, keep edge.reversed = keep edge)
    (dedupe : Dedupe) {batches : List (List Edge)} (h : batches.Pairwise (Apart keep)) :
    (batches.foldl (addBatch dedupe) []).filter keep =
      (batches.map (List.filter keep)).foldl (addBatch dedupe) [] := by
  induction batches using List.reverseRecOn with
  | nil => rfl
  | append_singleton batches batch ih =>
      obtain ⟨hbatches, -, hlast⟩ := List.pairwise_append.mp h
      have hapart : Apart keep (batches.foldl (addBatch dedupe) []) batch := by
        apply Apart.of_flatten batches
        · intro edges hedges
          exact hlast edges hedges batch (by simp)
        · have hsublist := foldl_addBatch_sublist dedupe batches []
          rw [List.nil_append] at hsublist
          exact hsublist.subset
      rw [List.foldl_concat, filter_addBatch hreversed dedupe hapart, ih hbatches, List.map_append,
        List.map_singleton, List.foldl_concat]

end Filter

/-! ## Edges between interfaces -/

/-- True of the identifier of an interface. -/
def isInterface (catalogue : Catalogue) (id : Identifier) : Bool :=
  catalogue.any fun entry => entry.id == id && entry.kind == .interface

/-- True of an edge by which one interface extends another. -/
def joinsInterfaces (catalogue : Catalogue) (edge : Edge) : Bool :=
  edge.shape == .extension && isInterface catalogue edge.source &&
    isInterface catalogue edge.target

/-- True of an edge that is there also if interfaces extend no interfaces. -/
def remains (catalogue : Catalogue) (edge : Edge) : Bool := !joinsInterfaces catalogue edge

section Interfaces

variable {settings : Settings} {catalogue : Catalogue} {source target first second : Entry}
variable {name : String} {edge : Edge}

theorem remains_reversed (catalogue : Catalogue) (edge : Edge) :
    remains catalogue edge.reversed = remains catalogue edge := by
  simp only [remains, joinsInterfaces, Edge.reversed, Bool.and_assoc]
  rw [Bool.and_comm (isInterface catalogue edge.target)]

theorem remains_of_shape (h : edge.shape ≠ .extension) : remains catalogue edge = true := by
  simp [remains, joinsInterfaces, h]

/-- An identifier that no two entries share tells the kind of its entry. -/
theorem isInterface_id (hids : (catalogue.map Entry.id).Nodup) (h : source ∈ catalogue) :
    isInterface catalogue source.id = (source.kind == .interface) := by
  rw [Bool.eq_iff_iff, isInterface, List.any_eq_true]
  constructor
  · rintro ⟨entry, hentry, htest⟩
    rw [Bool.and_eq_true, beq_iff_eq] at htest
    rw [← List.inj_on_of_nodup_map hids hentry h htest.1]
    exact htest.2
  · intro hkind
    exact ⟨source, h, by simp [hkind]⟩

/-- An edge to a type that is extended remains if the type is a class. -/
theorem remains_extension (hids : (catalogue.map Entry.id).Nodup) (hsource : source ∈ catalogue)
    (h : StandsFor settings catalogue source .extension name target) :
    remains catalogue ⟨.extension, source.id, target.id⟩ = target.kind.isClassLike := by
  have hjoins : joinsInterfaces catalogue ⟨.extension, source.id, target.id⟩ =
      (source.kind == .interface && target.kind == .interface) := by
    simp [joinsInterfaces, isInterface_id hids hsource, isInterface_id hids h.mem]
  rw [remains, hjoins]
  cases h.acceptable.admits with
  | inl hclass =>
      rw [hclass]
      cases hkind : target.kind with
      | plainClass => simp
      | abstractClass => simp
      | interface =>
          rw [hkind] at hclass
          cases hclass
      | enum =>
          rw [hkind] at hclass
          cases hclass
  | inr hinterfaces =>
      rw [hinterfaces.2.1, hinterfaces.2.2]
      rfl

/-- Without interfaces that extend interfaces a name stands for what it stands for with
them, if that is a class, and otherwise for nothing. -/
theorem target?_extensible (settings : Settings) (hnames : (catalogue.map Entry.name).Nodup)
    (source : Entry) (name : String) :
    target? catalogue source (extensible { settings with interfaceExtends := false } source) name =
      (target? catalogue source (extensible { settings with interfaceExtends := true } source)
        name).filter fun target => target.kind.isClassLike := by
  apply Option.ext
  intro target
  rw [Option.filter_eq_some_iff, target?_eq_some_iff (extensible_iff _ source),
    target?_eq_some_iff (extensible_iff _ source), standsFor_iff_of_nodup hnames,
    standsFor_iff_of_nodup hnames]
  constructor
  · rintro ⟨hmem, hother, hnamed, hadmits⟩
    cases hadmits with
    | inl hclass => exact ⟨⟨hmem, hother, hnamed, .inl hclass⟩, hclass⟩
    | inr hinterfaces => cases hinterfaces.1
  · rintro ⟨⟨hmem, hacceptable⟩, hclass⟩
    exact ⟨hmem, hacceptable.other, hacceptable.named, .inl hclass⟩

/-- The extended types without interfaces that extend interfaces. -/
theorem filter_extensions (settings : Settings) (hnames : (catalogue.map Entry.name).Nodup)
    (hids : (catalogue.map Entry.id).Nodup) (hsource : source ∈ catalogue) :
    (extensions { settings with interfaceExtends := true } catalogue source).filter
        (remains catalogue) =
      extensions { settings with interfaceExtends := false } catalogue source := by
  rw [extensions, extensions]
  split
  · rfl
  · rw [edgesTo, edgesTo, List.filter_filterMap]
    apply List.filterMap_congr
    intro name _
    rw [target?_extensible settings hnames]
    cases htarget : target? catalogue source
        (extensible { settings with interfaceExtends := true } source) name with
    | none => rfl
    | some target =>
        have hremains := remains_extension hids hsource
          ((target?_eq_some_iff (extensible_iff _ source)).mp htarget)
        rw [Option.map_some, Option.filter_some, Option.filter_some, hremains]
        split
        · rfl
        · rfl

/-- Among the edges of an entry only those to the types it extends join interfaces. -/
theorem remains_of_mem
    (h : edge ∈ implementations catalogue source ∨ edge ∈ aggregations catalogue source) :
    remains catalogue edge = true := by
  apply remains_of_shape
  intro hextends
  cases h with
  | inl hmem =>
      have himplements : edge.shape = .implementation ∧ Justifies {} catalogue source edge :=
        mem_implementations.mp hmem
      rw [himplements.1] at hextends
      cases hextends
  | inr hmem =>
      have haggregates : edge.shape = .aggregation ∧ Justifies {} catalogue source edge :=
        mem_aggregations.mp hmem
      rw [haggregates.1] at hextends
      cases hextends

/-- The batches of an entry without interfaces that extend interfaces. -/
theorem filter_batches (settings : Settings) (hnames : (catalogue.map Entry.name).Nodup)
    (hids : (catalogue.map Entry.id).Nodup) (hsource : source ∈ catalogue) :
    (batches { settings with interfaceExtends := true } catalogue source).map
        (List.filter (remains catalogue)) =
      batches { settings with interfaceExtends := false } catalogue source := by
  have himplemented : (implementations catalogue source).filter (remains catalogue) =
      implementations catalogue source :=
    List.filter_eq_self.mpr fun edge hedge => remains_of_mem (.inl hedge)
  have haggregated : (aggregations catalogue source).filter (remains catalogue) =
      aggregations catalogue source :=
    List.filter_eq_self.mpr fun edge hedge => remains_of_mem (.inr hedge)
  simp only [batches, List.map_cons, List.map_nil, himplemented, haggregated,
    filter_extensions settings hnames hids hsource]

/-- An edge of an interface does not remain if another entry accounts for its reverse: only
interfaces extend interfaces. -/
theorem not_remains_of_reversed (hids : (catalogue.map Entry.id).Nodup)
    (hfirst : first ∈ catalogue) (hsecond : second ∈ catalogue)
    (hkind : second.kind = .interface) (hshape : edge.shape = .extension)
    (hfrom : edge.source = second.id) (h : Justifies settings catalogue first edge.reversed) :
    remains catalogue edge = false := by
  obtain ⟨name, target, _, htarget, hback, hto⟩ := h
  have hsame : target = second :=
    List.inj_on_of_nodup_map hids htarget.mem hsecond (hto.symm.trans hfrom)
  have hadmits : Admits settings first .interface .extension := by
    rw [← hkind, ← hsame, ← hshape]
    exact htarget.acceptable.admits
  have hinterface : first.kind = .interface := by
    cases hadmits with
    | inl hclass => cases hclass
    | inr hinterfaces => exact hinterfaces.2.1
  change edge.target = first.id at hback
  simp [remains, joinsInterfaces, hshape, hfrom, hback, isInterface_id hids hfirst,
    isInterface_id hids hsecond, hkind, hinterface]

/-- The edges of an entry to the types it extends are apart from the batches of other
entries. -/
theorem apart_extensions (hids : (catalogue.map Entry.id).Nodup) (hfirst : first ∈ catalogue)
    (hsecond : second ∈ catalogue) (hne : first.id ≠ second.id) {edges : List Edge}
    (hedges : edges ∈ batches settings catalogue first) :
    Apart (remains catalogue) edges (extensions settings catalogue second) := by
  by_cases hkind : second.kind = .interface
  · refine .inr fun edge hedge hkept => ?_
    obtain ⟨hshape, _, _, _, _, hfrom, _⟩ := mem_extensions.mp hedge
    rw [← Bool.not_eq_true, isConnected_iff]
    rintro (hmem | hmem)
    · obtain ⟨_, _, _, _, hfirstFrom, _⟩ := mem_batches.mp ⟨edges, hedges, hmem⟩
      exact hne (hfirstFrom.symm.trans hfrom)
    · rw [not_remains_of_reversed hids hfirst hsecond hkind hshape hfrom
        (mem_batches.mp ⟨edges, hedges, hmem⟩)] at hkept
      cases hkept
  · refine .inl fun edge hedge => ?_
    obtain ⟨_, _, _, _, _, hfrom, _⟩ := mem_extensions.mp hedge
    simp [remains, joinsInterfaces, hfrom, isInterface_id hids hsecond, hkind]

/-- Leaving out the edges between interfaces does not change which batches go. -/
theorem apart_batches (settings : Settings) (hids : (catalogue.map Entry.id).Nodup) :
    (catalogue.flatMap (batches settings catalogue)).Pairwise (Apart (remains catalogue)) := by
  have himplemented : ∀ edges source,
      Apart (remains catalogue) edges (implementations catalogue source) :=
    fun _ _ => .inl fun _ hedge => remains_of_mem (.inl hedge)
  have haggregated : ∀ edges source,
      Apart (remains catalogue) edges (aggregations catalogue source) :=
    fun _ _ => .inl fun _ hedge => remains_of_mem (.inr hedge)
  rw [List.pairwise_flatMap]
  constructor
  · intro source _
    simp [batches, himplemented, haggregated]
  · apply (List.pairwise_map.mp hids).imp_of_mem
    intro first second hfirst hsecond hne edges hedges batch hbatch
    simp only [batches, List.mem_cons, List.not_mem_nil, or_false] at hbatch
    rcases hbatch with rfl | rfl | rfl
    · exact apart_extensions hids hfirst hsecond hne hedges
    · exact himplemented edges second
    · exact haggregated edges second

/-- Interfaces that extend interfaces only add edges. Where entries share neither names nor
identifiers, the edges by which an interface extends another can be left out, and what
remains are the edges of the other setting, in their order and with the same repetitions. -/
theorem derive_without_interfaces (settings : Settings)
    (hnames : (catalogue.map Entry.name).Nodup) (hids : (catalogue.map Entry.id).Nodup) :
    (derive { settings with interfaceExtends := true } catalogue).filter (remains catalogue) =
      derive { settings with interfaceExtends := false } catalogue := by
  have hbatches : (catalogue.flatMap (batches { settings with interfaceExtends := true }
        catalogue)).map (List.filter (remains catalogue)) =
      catalogue.flatMap (batches { settings with interfaceExtends := false } catalogue) := by
    rw [List.map_flatMap]
    exact List.flatMap_congr fun source hsource => filter_batches settings hnames hids hsource
  rw [derive, derive, ← hbatches]
  exact filter_foldl_addBatch (remains_reversed catalogue) settings.dedupe (apart_batches _ hids)

end Interfaces

/-- A pet has a name, and what has a name can be a pet again; pets are animals. -/
def pet : Entry where
  id := .ofNat 0
  name := "Pet"
  kind := .interface
  extended := some ["Named", "Animal"]

def named : Entry where
  id := .ofNat 1
  name := "Named"
  kind := .interface
  extended := some ["Pet"]

def animal : Entry where
  id := .ofNat 2
  name := "Animal"
  kind := .abstractClass

/-- One edge between interfaces is in a batch with an edge to a class, and the one back
would be a batch of its own. -/
theorem derive_without_interfaces_pet :
    ([pet, named, animal].map Entry.name).Nodup ∧ ([pet, named, animal].map Entry.id).Nodup ∧
    derive { interfaceExtends := true } [pet, named, animal] =
      [⟨.extension, pet.id, named.id⟩, ⟨.extension, pet.id, animal.id⟩] ∧
    (derive { interfaceExtends := true } [pet, named, animal]).filter
        (remains [pet, named, animal]) =
      derive {} [pet, named, animal] := by
  have hnames : ([pet, named, animal].map Entry.name).Nodup := by decide +kernel
  have hids : ([pet, named, animal].map Entry.id).Nodup := by decide +kernel
  exact ⟨hnames, hids, by decide +kernel, derive_without_interfaces {} hnames hids⟩

end ClassDiagram.Relation
