import ClassDiagram.Proofs.Diagram.Dedupe
import Mathlib.Data.List.Nodup

/-!
# What the edges stand for

An entry mentions names: those of the types it extends and implements, and the types of
its fields and methods. Inside the entry a name stands for the first other entry that
bears it and is of a kind that the relationship admits.

Every derived edge leads from an entry to what one of its names stands for. Suppression
drops no relationship, because an edge goes only when it or its reverse is there already:
after a batch the same nodes are related as if all of the batch had been kept
(`isConnected_addBatch`), and so they are after a run.
-/

namespace ClassDiagram.Relation

/-! ## Names and what they stand for -/

/-- An entry mentions a name at the other end of a relationship. An enum extends nothing,
and only classes implement interfaces. -/
inductive Mentions (source : Entry) : EdgeShape → String → Prop where
  | extended {names : List String} {name : String} (hkind : source.kind ≠ .enum)
      (hnames : source.extended = some names) (hname : name ∈ names) :
      Mentions source .extension name
  | implemented {names : List String} {name : String} (hkind : source.kind.isClassLike = true)
      (hnames : source.implemented = some names) (hname : name ∈ names) :
      Mentions source .implementation name
  | field {fields : List Variable} {field : Variable}
      (hfields : source.fields = some fields) (hfield : field ∈ fields) :
      Mentions source .aggregation field.type
  | method {methods : List Method} {method : Method} {name : String}
      (hmethods : source.methods = some methods) (hmethod : method ∈ methods)
      (htype : method.type = some name) :
      Mentions source .aggregation name

/-- A relationship of an entry admits types of this kind at its other end. -/
def Admits (settings : Settings) (source : Entry) (kind : Kind) : EdgeShape → Prop
  | .extension =>
    kind.isClassLike = true ∨
      (settings.interfaceExtends = true ∧ source.kind = .interface ∧ kind = .interface)
  | .implementation => kind = .interface
  | .aggregation => True
  | .composition | .association => False

/-- A name inside `source` can stand for this entry. -/
structure Acceptable (settings : Settings) (source : Entry) (shape : EdgeShape) (name : String)
    (entry : Entry) : Prop where
  other : entry.id ≠ source.id
  named : entry.name = name
  admits : Admits settings source entry.kind shape

/-- A name inside `source` stands for the first entry that it can stand for. -/
def StandsFor (settings : Settings) (catalogue : Catalogue) (source : Entry) (shape : EdgeShape)
    (name : String) (target : Entry) : Prop :=
  ∃ before after, catalogue = before ++ target :: after ∧
    Acceptable settings source shape name target ∧
    ∀ earlier ∈ before, ¬ Acceptable settings source shape name earlier

/-- An entry accounts for an edge: the edge leads from it to what a name stands for that
the entry mentions. -/
def Justifies (settings : Settings) (catalogue : Catalogue) (source : Entry) (edge : Edge) : Prop :=
  ∃ name target, Mentions source edge.shape name ∧
    StandsFor settings catalogue source edge.shape name target ∧
    edge.source = source.id ∧ edge.target = target.id

section Targets

variable {settings : Settings} {catalogue : Catalogue} {source target : Entry}
variable {shape : EdgeShape} {name : String} {edge : Edge}

theorem StandsFor.acceptable (h : StandsFor settings catalogue source shape name target) :
    Acceptable settings source shape name target := by
  obtain ⟨_, _, _, hacceptable, _⟩ := h
  exact hacceptable

theorem StandsFor.mem (h : StandsFor settings catalogue source shape name target) :
    target ∈ catalogue := by
  obtain ⟨before, after, rfl, _, _⟩ := h
  simp

/-- A name stands for something as soon as there is an entry that it can stand for. -/
theorem exists_standsFor
    (h : ∃ entry ∈ catalogue, Acceptable settings source shape name entry) :
    ∃ target, StandsFor settings catalogue source shape name target := by
  induction catalogue with
  | nil =>
      obtain ⟨entry, hentry, _⟩ := h
      cases hentry
  | cons first rest ih =>
      by_cases hfirst : Acceptable settings source shape name first
      · exact ⟨first, [], rest, rfl, hfirst, by simp⟩
      · obtain ⟨entry, hentry, hacceptable⟩ := h
        have hrest : entry ∈ rest := by
          cases hentry with
          | head => exact absurd hacceptable hfirst
          | tail _ hmem => exact hmem
        obtain ⟨target, before, after, rfl, htarget, hbefore⟩ := ih ⟨entry, hrest, hacceptable⟩
        refine ⟨target, first :: before, after, rfl, htarget, ?_⟩
        intro earlier hearlier
        cases hearlier with
        | head => exact hfirst
        | tail _ hmem => exact hbefore earlier hmem

/-- Where no two entries share a name, a name stands for the one entry that it can stand
for. -/
theorem standsFor_iff_of_nodup (hnames : (catalogue.map Entry.name).Nodup) :
    StandsFor settings catalogue source shape name target ↔
      target ∈ catalogue ∧ Acceptable settings source shape name target := by
  constructor
  · intro h
    exact ⟨h.mem, h.acceptable⟩
  · rintro ⟨hmem, htarget⟩
    obtain ⟨found, hfound⟩ := exists_standsFor ⟨target, hmem, htarget⟩
    have hsame : found.name = target.name := hfound.acceptable.named.trans htarget.named.symm
    rw [← List.inj_on_of_nodup_map hnames hfound.mem hmem hsame]
    exact hfound

/-- The look-up of a name finds what the name stands for. -/
theorem target?_eq_some_iff {admits : Kind → Bool}
    (hadmits : ∀ kind, admits kind = true ↔ Admits settings source kind shape) :
    target? catalogue source admits name = some target ↔
      StandsFor settings catalogue source shape name target := by
  have htest : ∀ entry : Entry,
      (entry.id != source.id && entry.name == name && admits entry.kind) = true ↔
        Acceptable settings source shape name entry := by
    intro entry
    rw [Bool.and_eq_true, Bool.and_eq_true, bne_iff_ne, beq_iff_eq, hadmits]
    constructor
    · rintro ⟨⟨hother, hnamed⟩, hkind⟩
      exact ⟨hother, hnamed, hkind⟩
    · intro h
      exact ⟨⟨h.other, h.named⟩, h.admits⟩
  rw [target?, List.find?_eq_some_iff_append]
  constructor
  · rintro ⟨htarget, before, after, hsplit, hbefore⟩
    refine ⟨before, after, hsplit, (htest target).mp htarget, ?_⟩
    intro earlier hearlier hacceptable
    have hrejected := hbefore earlier hearlier
    rw [(htest earlier).mpr hacceptable] at hrejected
    cases hrejected
  · rintro ⟨before, after, hsplit, htarget, hbefore⟩
    refine ⟨(htest target).mpr htarget, before, after, hsplit, ?_⟩
    intro earlier hearlier
    rw [Bool.not_eq_true', ← Bool.not_eq_true, htest]
    exact hbefore earlier hearlier

/-- The edges to the names of an entry are those of this shape that the entry accounts
for. -/
theorem mem_edgesTo {admits : Kind → Bool} {names : List String}
    (hadmits : ∀ kind, admits kind = true ↔ Admits settings source kind shape)
    (hnames : ∀ name, name ∈ names ↔ Mentions source shape name) :
    edge ∈ edgesTo shape catalogue source admits names ↔
      edge.shape = shape ∧ Justifies settings catalogue source edge := by
  rw [edgesTo, List.mem_filterMap]
  constructor
  · rintro ⟨name, hname, hedge⟩
    obtain ⟨target, htarget, rfl⟩ := Option.map_eq_some_iff.mp hedge
    exact ⟨rfl, name, target, (hnames name).mp hname, (target?_eq_some_iff hadmits).mp htarget,
      rfl, rfl⟩
  · obtain ⟨_, first, second⟩ := edge
    rintro ⟨rfl, name, target, hname, htarget, rfl, rfl⟩
    refine ⟨name, (hnames name).mpr hname, ?_⟩
    rw [(target?_eq_some_iff hadmits).mpr htarget]
    rfl

theorem mem_getD_nil {α : Type} {given : Option (List α)} {x : α} :
    x ∈ given.getD [] ↔ ∃ xs, given = some xs ∧ x ∈ xs := by
  cases given with
  | none => simp
  | some xs => simp

theorem extensible_iff (settings : Settings) (source : Entry) (kind : Kind) :
    extensible settings source kind = true ↔ Admits settings source kind .extension := by
  simp [extensible, Admits, and_assoc]

theorem mem_extensions :
    edge ∈ extensions settings catalogue source ↔
      edge.shape = .extension ∧ Justifies settings catalogue source edge := by
  rw [extensions]
  split
  · rename_i henum
    constructor
    · intro h
      cases h
    · rintro ⟨hshape, name, target, hname, _⟩
      rw [hshape] at hname
      cases hname with
      | extended hkind => exact absurd henum hkind
  · rename_i hkind
    apply mem_edgesTo (extensible_iff settings source)
    intro name
    rw [mem_getD_nil]
    constructor
    · rintro ⟨names, hnames, hname⟩
      exact .extended hkind hnames hname
    · intro h
      cases h with
      | extended _ hnames hname => exact ⟨_, hnames, hname⟩

theorem mem_implementations :
    edge ∈ implementations catalogue source ↔
      edge.shape = .implementation ∧ Justifies settings catalogue source edge := by
  rw [implementations]
  split
  · rename_i hkind
    apply mem_edgesTo (fun kind => beq_iff_eq)
    intro name
    rw [mem_getD_nil]
    constructor
    · rintro ⟨names, hnames, hname⟩
      exact .implemented hkind hnames hname
    · intro h
      cases h with
      | implemented _ hnames hname => exact ⟨_, hnames, hname⟩
  · rename_i hkind
    constructor
    · intro h
      cases h
    · rintro ⟨hshape, name, target, hname, _⟩
      rw [hshape] at hname
      cases hname with
      | implemented hclass => exact absurd hclass hkind

theorem mem_memberTypes : name ∈ memberTypes source ↔ Mentions source .aggregation name := by
  simp only [memberTypes, List.mem_append, List.mem_map, List.mem_filterMap, mem_getD_nil]
  constructor
  · rintro (⟨field, ⟨fields, hfields, hfield⟩, rfl⟩ | ⟨method, ⟨methods, hmethods, hmethod⟩, htype⟩)
    · exact .field hfields hfield
    · exact .method hmethods hmethod htype
  · intro h
    cases h with
    | field hfields hfield => exact .inl ⟨_, ⟨_, hfields, hfield⟩, rfl⟩
    | method hmethods hmethod htype => exact .inr ⟨_, ⟨_, hmethods, hmethod⟩, htype⟩

theorem mem_aggregations :
    edge ∈ aggregations catalogue source ↔
      edge.shape = .aggregation ∧ Justifies settings catalogue source edge := by
  apply mem_edgesTo
  · intro kind
    simp [Admits]
  · intro name
    exact mem_memberTypes

/-- The batches of an entry hold the edges that the entry accounts for. -/
theorem mem_batches :
    (∃ batch ∈ batches settings catalogue source, edge ∈ batch) ↔
      Justifies settings catalogue source edge := by
  constructor
  · rintro ⟨batch, hbatch, hedge⟩
    simp only [batches, List.mem_cons, List.not_mem_nil, or_false] at hbatch
    rcases hbatch with rfl | rfl | rfl
    · exact (mem_extensions.mp hedge).2
    · exact (mem_implementations.mp hedge).2
    · exact (mem_aggregations.mp hedge).2
  · intro h
    obtain ⟨name, target, hname, _, _, _⟩ := id h
    cases hshape : edge.shape with
    | extension => exact ⟨_, by simp [batches], mem_extensions.mpr ⟨hshape, h⟩⟩
    | implementation => exact ⟨_, by simp [batches], mem_implementations.mpr ⟨hshape, h⟩⟩
    | aggregation => exact ⟨_, by simp [batches], mem_aggregations.mpr ⟨hshape, h⟩⟩
    | composition =>
        rw [hshape] at hname
        cases hname
    | association =>
        rw [hshape] at hname
        cases hname

end Targets

/-! ## What suppression leaves -/

section Suppression

variable {dedupe : Dedupe} {edges batch : List Edge} {edge : Edge}

/-- A batch adds nothing but edges of its own, at the end. -/
theorem addBatch_sublist (dedupe : Dedupe) (edges batch : List Edge) :
    (addBatch dedupe edges batch).Sublist (edges ++ batch) := by
  cases dedupe with
  | batch =>
      rw [addBatch]
      split
      · exact List.sublist_append_left edges batch
      · exact List.Sublist.refl _
  | perEdge =>
      change (batch.foldl addEdge edges).Sublist (edges ++ batch)
      rw [foldl_addEdge]
      exact (thin_sublist edges batch).append_left edges

theorem foldl_addBatch_sublist (dedupe : Dedupe) (batches : List (List Edge)) (edges : List Edge) :
    (batches.foldl (addBatch dedupe) edges).Sublist (edges ++ batches.flatten) := by
  induction batches generalizing edges with
  | nil => simp
  | cons batch batches ih =>
      rw [List.foldl_cons, List.flatten_cons, ← List.append_assoc]
      exact (ih _).trans ((addBatch_sublist dedupe edges batch).append_right batches.flatten)

/-- After a batch the same nodes are related as if all of it had been kept. -/
theorem isConnected_addBatch :
    isConnected (addBatch dedupe edges batch) edge = true ↔
      isConnected (edges ++ batch) edge = true := by
  cases dedupe with
  | batch =>
      rw [addBatch]
      split
      · rename_i hall
        rw [isConnected_append]
        constructor
        · exact .inl
        · rintro (hedges | hbatch)
          · exact hedges
          · -- An edge of the batch, or the reverse of one: that one is connected already.
            rcases isConnected_iff.mp hbatch with hmem | hmem
            · exact List.all_eq_true.mp hall edge hmem
            · exact (isConnected_reversed edges edge).mp (List.all_eq_true.mp hall _ hmem)
      · exact Iff.rfl
  | perEdge =>
      change isConnected (batch.foldl addEdge edges) edge = true ↔ _
      rw [foldl_addEdge]
      exact isConnected_thin edges batch edge

theorem isConnected_foldl_addBatch (batches : List (List Edge)) :
    isConnected (batches.foldl (addBatch dedupe) edges) edge = true ↔
      isConnected (edges ++ batches.flatten) edge = true := by
  induction batches generalizing edges with
  | nil => simp
  | cons batch batches ih =>
      rw [List.foldl_cons, List.flatten_cons, ← List.append_assoc, ih, isConnected_append,
        isConnected_addBatch, ← isConnected_append]

end Suppression

/-! ## The edges of a catalogue -/

section Derived

variable {settings : Settings} {catalogue : Catalogue} {edge : Edge}

theorem mem_flatten_batches :
    edge ∈ (catalogue.flatMap (batches settings catalogue)).flatten ↔
      ∃ source ∈ catalogue, Justifies settings catalogue source edge := by
  rw [List.mem_flatten]
  constructor
  · rintro ⟨batch, hbatch, hedge⟩
    obtain ⟨source, hsource, hmem⟩ := List.mem_flatMap.mp hbatch
    exact ⟨source, hsource, mem_batches.mp ⟨batch, hmem, hedge⟩⟩
  · rintro ⟨source, hsource, h⟩
    obtain ⟨batch, hbatch, hedge⟩ := mem_batches.mpr h
    exact ⟨batch, List.mem_flatMap.mpr ⟨source, hsource, hbatch⟩, hedge⟩

/-- Each derived edge is one that an entry accounts for. -/
theorem exists_justifies (h : edge ∈ derive settings catalogue) :
    ∃ source ∈ catalogue, Justifies settings catalogue source edge :=
  mem_flatten_batches.mp ((foldl_addBatch_sublist settings.dedupe _ []).subset h)

/-- An edge that an entry accounts for is derived, or its reverse is. -/
theorem mem_derive_or_reversed {source : Entry} (hsource : source ∈ catalogue)
    (h : Justifies settings catalogue source edge) :
    edge ∈ derive settings catalogue ∨ edge.reversed ∈ derive settings catalogue := by
  have hmem : edge ∈ (catalogue.flatMap (batches settings catalogue)).flatten :=
    mem_flatten_batches.mpr ⟨source, hsource, h⟩
  apply isConnected_iff.mp
  exact (isConnected_foldl_addBatch _).mpr (isConnected_iff.mpr (.inl hmem))

end Derived

/-- Every derived edge leads from an entry to another one, and for the name of that one:
the first entry that a name stands for which the source mentions in this relationship.
Conversely a name that an entry mentions and that can stand for some entry relates the two
whatever way edges are suppressed: the edge to what it stands for is derived, or its
reverse. -/
theorem derive_sound_and_complete (settings : Settings) (catalogue : Catalogue) :
    (∀ edge ∈ derive settings catalogue,
      ∃ source ∈ catalogue, ∃ target ∈ catalogue, ∃ name,
        edge.source = source.id ∧ edge.target = target.id ∧ source.id ≠ target.id ∧
        Mentions source edge.shape name ∧
        StandsFor settings catalogue source edge.shape name target) ∧
    (∀ source ∈ catalogue, ∀ shape name, Mentions source shape name →
      (∃ entry ∈ catalogue, Acceptable settings source shape name entry) →
        ∃ target, StandsFor settings catalogue source shape name target ∧
          (⟨shape, source.id, target.id⟩ ∈ derive settings catalogue ∨
            (⟨shape, target.id, source.id⟩ : Edge) ∈ derive settings catalogue)) := by
  constructor
  · intro edge hedge
    obtain ⟨source, hsource, name, target, hname, htarget, hfrom, hto⟩ := exists_justifies hedge
    exact ⟨source, hsource, target, htarget.mem, name, hfrom, hto, htarget.acceptable.other.symm,
      hname, htarget⟩
  · intro source hsource shape name hname hentry
    obtain ⟨target, htarget⟩ := exists_standsFor hentry
    refine ⟨target, htarget, ?_⟩
    exact mem_derive_or_reversed hsource ⟨name, target, hname, htarget, rfl, rfl⟩

/-- A car extends a vehicle and has an engine. -/
def car : Entry where
  id := .ofNat 0
  name := "Car"
  kind := .plainClass
  extended := some ["Vehicle"]
  fields := some [{ type := "Engine", name := "engine" }]
  methods := some []

/-- An engine knows the car that it is in. -/
def engine : Entry where
  id := .ofNat 1
  name := "Engine"
  kind := .plainClass
  fields := some []
  methods := some [{ type := some "Car", name := "owner" }]

def vehicle : Entry where
  id := .ofNat 2
  name := "Vehicle"
  kind := .abstractClass
  fields := some []
  methods := some []

/-- The car and its engine mention each other. -/
def garage : Catalogue := [car, engine, vehicle]

/-- The edge from the engine back to the car is suppressed, and the two stay related. -/
theorem derive_sound_and_complete_garage :
    ⟨.extension, car.id, vehicle.id⟩ ∈ derive {} garage ∧
    (∃ source ∈ garage, ∃ target ∈ garage, ∃ name,
      car.id = source.id ∧ vehicle.id = target.id ∧ source.id ≠ target.id ∧
      Mentions source .extension name ∧ StandsFor {} garage source .extension name target) ∧
    Mentions engine .aggregation "Car" ∧
    Acceptable {} engine .aggregation "Car" car ∧
    ⟨.aggregation, engine.id, car.id⟩ ∉ derive {} garage ∧
    (∃ target, StandsFor {} garage engine .aggregation "Car" target ∧
      (⟨.aggregation, engine.id, target.id⟩ ∈ derive {} garage ∨
        (⟨.aggregation, target.id, engine.id⟩ : Edge) ∈ derive {} garage)) := by
  have hedge : ⟨.extension, car.id, vehicle.id⟩ ∈ derive {} garage := by decide +kernel
  have hname : Mentions engine .aggregation "Car" := .method rfl List.mem_cons_self rfl
  have hcar : Acceptable {} engine .aggregation "Car" car := ⟨by decide +kernel, rfl, trivial⟩
  have hmem : car ∈ garage ∧ engine ∈ garage := by decide +kernel
  obtain ⟨hsound, hcomplete⟩ := derive_sound_and_complete {} garage
  exact ⟨hedge, hsound _ hedge, hname, hcar, by decide +kernel,
    hcomplete engine hmem.2 _ _ hname ⟨car, hmem.1, hcar⟩⟩

end ClassDiagram.Relation
