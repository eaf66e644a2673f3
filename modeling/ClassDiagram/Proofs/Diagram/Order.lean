import ClassDiagram.Proofs.Diagram.Mention
import Mathlib.Data.Sym.Sym2

/-!
# The order of the entries

Two orders of the same entries can give different edges: the order decides which of two
edges between the same nodes comes first, and with it which batches go. What the edges say
without their direction is a set of relationships, and these are exactly the relationships
that the entries account for (`mem_relationships`). Where no two entries share a name, it
does not depend on the order what a name stands for, and so the relationships do not.
-/

namespace ClassDiagram

/-- What an edge says without its direction: its shape and the unordered pair of its ends. -/
def Edge.relationship (edge : Edge) : EdgeShape × Sym2 Identifier :=
  (edge.shape, s(edge.source, edge.target))

theorem Edge.relationship_reversed (edge : Edge) :
    edge.reversed.relationship = edge.relationship := by
  rw [Edge.relationship, Edge.relationship, Prod.mk.injEq]
  exact ⟨rfl, Sym2.eq_swap⟩

namespace Relation

/-- The relationships that the edges of a catalogue say. -/
def relationships (settings : Settings) (catalogue : Catalogue) :
    Set (EdgeShape × Sym2 Identifier) :=
  {related | ∃ edge ∈ derive settings catalogue, edge.relationship = related}

section Order

variable {settings : Settings} {catalogue other : Catalogue} {source target : Entry}

/-- The relationships are those of all edges that the entries account for, suppressed or
not. -/
theorem mem_relationships {related : EdgeShape × Sym2 Identifier} :
    related ∈ relationships settings catalogue ↔
      ∃ source ∈ catalogue, ∃ edge, Justifies settings catalogue source edge ∧
        edge.relationship = related := by
  constructor
  · rintro ⟨edge, hedge, hrelated⟩
    obtain ⟨source, hsource, h⟩ := exists_justifies hedge
    exact ⟨source, hsource, edge, h, hrelated⟩
  · rintro ⟨source, hsource, edge, h, hrelated⟩
    cases mem_derive_or_reversed hsource h with
    | inl hedge => exact ⟨edge, hedge, hrelated⟩
    | inr hreversed =>
        exact ⟨edge.reversed, hreversed, (Edge.relationship_reversed edge).trans hrelated⟩

/-- A name stands for the same entry in either order. -/
theorem standsFor_perm (hperm : catalogue.Perm other) (hnames : (catalogue.map Entry.name).Nodup)
    {shape : EdgeShape} {name : String} :
    StandsFor settings catalogue source shape name target ↔
      StandsFor settings other source shape name target := by
  have hother : (other.map Entry.name).Nodup := (hperm.map Entry.name).nodup_iff.mp hnames
  rw [standsFor_iff_of_nodup hnames, standsFor_iff_of_nodup hother, hperm.mem_iff]

theorem justifies_perm (hperm : catalogue.Perm other) (hnames : (catalogue.map Entry.name).Nodup)
    {edge : Edge} :
    Justifies settings catalogue source edge ↔ Justifies settings other source edge := by
  constructor
  · rintro ⟨name, target, hname, htarget, hends⟩
    exact ⟨name, target, hname, (standsFor_perm hperm hnames).mp htarget, hends⟩
  · rintro ⟨name, target, hname, htarget, hends⟩
    exact ⟨name, target, hname, (standsFor_perm hperm hnames).mpr htarget, hends⟩

/-- Entries without a name in common are related in the same way in every order, whatever
way edges are suppressed. Two entries may even share an identifier. -/
theorem relationships_perm (settings : Settings) (hperm : catalogue.Perm other)
    (hnames : (catalogue.map Entry.name).Nodup) :
    relationships settings catalogue = relationships settings other := by
  ext related
  rw [mem_relationships, mem_relationships]
  constructor
  · rintro ⟨source, hsource, edge, h, hrelated⟩
    exact ⟨source, hperm.mem_iff.mp hsource, edge, (justifies_perm hperm hnames).mp h, hrelated⟩
  · rintro ⟨source, hsource, edge, h, hrelated⟩
    exact ⟨source, hperm.mem_iff.mpr hsource, edge, (justifies_perm hperm hnames).mpr h, hrelated⟩

end Order

/-- The car and its engine mention each other, and the one that comes first gets the edge. -/
theorem relationships_perm_garage :
    garage.Perm garage.reverse ∧ (garage.map Entry.name).Nodup ∧
    ⟨.aggregation, car.id, engine.id⟩ ∈ derive {} garage ∧
    ⟨.aggregation, car.id, engine.id⟩ ∉ derive {} garage.reverse ∧
    relationships {} garage = relationships {} garage.reverse := by
  have hperm : garage.Perm garage.reverse := (List.reverse_perm garage).symm
  have hnames : (garage.map Entry.name).Nodup := by decide +kernel
  exact ⟨hperm, hnames, by decide +kernel, by decide +kernel, relationships_perm {} hperm hnames⟩

end Relation

end ClassDiagram
