import ClassDiagram.Proofs.Declaration.Children
import ClassDiagram.Proofs.Member.Content
import ClassDiagram.Proofs.Project.Worklist

/-!
# The form of the entries of a catalogue

Whatever the files of a project hold, the entries that are read from them have one form
(`Entry.WellFormed`). Its parts are established one after the other: the dense form leaves no
blanks but spaces, the header decides which lists of supertypes and members there are, and
the members are cut out of the dense text. Since every entry comes from a file, whether given
or found in another one, all entries of a catalogue have this form.
-/

namespace ClassDiagram

/-! ## Signatures -/

namespace Declaration

/-- What the name of a supertype is like. -/
def IsSupertypeName (name : Text) : Prop := name ≠ [] ∧ '<' ∉ name

theorem isSupertypeName_of_mem_typeNames {list name : Text} (h : name ∈ typeNames list) :
    IsSupertypeName name := by
  obtain ⟨hname, hne⟩ := List.mem_filter.mp h
  obtain ⟨piece, -, rfl⟩ := List.mem_map.mp hname
  constructor
  · intro hnil
    rw [hnil] at hne
    cases hne
  · intro hopen
    have htaken := List.all_eq_true.mp List.all_takeWhile '<' hopen
    cases htaken

/-- What a header can say about its type. -/
structure Signature.WellFormed (s : Signature) : Prop where
  enum : s.kind = .enum → s.extended = none
  unimplementing : s.kind.isClassLike = false → s.implemented = none
  supertypes : ∀ names, names ∈ s.extended ∨ names ∈ s.implemented →
    ∀ name ∈ names, IsSupertypeName name

theorem Signature.wellFormed_of_ofHeader {header : Text} {s : Signature}
    (h : ofHeader header = .ok s) : s.WellFormed := by
  have hlist {keyword : String} {names : List Text}
      (hnames : names ∈ (wordAfter? keyword (topWords header)).map typeNames) :
      ∀ name ∈ names, IsSupertypeName name := by
    obtain ⟨list, -, rfl⟩ := Option.map_eq_some_iff.mp hnames
    exact fun name hname => isSupertypeName_of_mem_typeNames hname
  change (kindOf header (topWords header)).bind _ = _ at h
  cases hkind : kindOf header (topWords header) with
  | error fault =>
      rw [hkind] at h
      cases h
  | ok kind =>
      rw [hkind] at h
      cases h
      constructor
      · intro henum
        exact if_pos henum
      · intro hclass
        apply if_neg
        exact Bool.eq_false_iff.mp hclass
      · rintro names (hnames | hnames)
        · dsimp only at hnames
          split at hnames
          · cases hnames
          · exact hlist hnames
        · dsimp only at hnames
          split at hnames
          · exact hlist hnames
          · cases hnames

end Declaration

/-! ## Entries -/

/-- The form of all entries. Only an enum has no members, and it has no supertypes either. -/
structure Entry.WellFormed (e : Entry) : Prop where
  fieldless : e.fields = none ↔ e.kind = .enum
  methodless : e.methods = none ↔ e.kind = .enum
  enum : e.kind = .enum → e.extended = none
  unimplementing : e.kind.isClassLike = false → e.implemented = none
  supertypes : ∀ names, names ∈ e.extended ∨ names ∈ e.implemented →
    ∀ name ∈ names, Declaration.IsSupertypeName name.toList
  fields : ∀ fields ∈ e.fields, ∀ v ∈ fields, v.WellFormed
  methods : ∀ methods ∈ e.methods, ∀ m ∈ methods, m.WellFormed e.name

namespace SourceFile

section Entry

variable {settings : Settings} {id : Identifier} {file : SourceFile}
  {signature : Declaration.Signature} {members : Text}

theorem wellFormed_entry (hsignature : signature.WellFormed) (hmembers : Text.Spaced members) :
    (file.entry settings id signature members).WellFormed := by
  have hsupertypes {lists : Option (List Text)} {names : List String}
      (hlists : ∀ list ∈ lists, ∀ name ∈ list, Declaration.IsSupertypeName name)
      (hnames : names ∈ lists.map (·.map String.ofList)) :
      ∀ name ∈ names, Declaration.IsSupertypeName name.toList := by
    obtain ⟨list, hlist, rfl⟩ := Option.map_eq_some_iff.mp hnames
    intro name hname
    obtain ⟨text, htext, rfl⟩ := List.mem_map.mp hname
    rw [String.toList_ofList]
    exact hlists list hlist text htext
  constructor
  · simp [entry]
  · simp [entry]
  · intro henum
    exact Option.map_eq_none_iff.mpr (hsignature.enum henum)
  · intro hclass
    exact Option.map_eq_none_iff.mpr (hsignature.unimplementing hclass)
  · rintro names (hnames | hnames)
    · exact hsupertypes (fun list hlist => hsignature.supertypes list (.inl hlist)) hnames
    · exact hsupertypes (fun list hlist => hsignature.supertypes list (.inr hlist)) hnames
  · intro fields hfields v hv
    obtain ⟨-, heq⟩ := Option.ite_none_right_eq_some.mp hfields
    cases heq
    exact Member.wellFormed_of_mem_allFields hmembers hv
  · intro methods hmethods m hm
    obtain ⟨-, heq⟩ := Option.ite_none_right_eq_some.mp hmethods
    cases heq
    exact Member.wellFormed_of_mem_allMethods hmembers hm

/-- The text of the members is cut out of the dense text. -/
theorem wellFormed_of_read {reading : Reading} (h : file.read settings id = .ok reading) :
    reading.entry.WellFormed := by
  obtain ⟨header, signature, hlocate, hsignature, -, hentry⟩ := read_eq_ok_iff.mp h
  have hdense : header.body.members ⊆ Source.dense file.text.toList := by
    have hmembers := header.members_subset
    rwa [Declaration.Header.source_locate? hlocate] at hmembers
  rw [← hentry]
  apply wellFormed_entry
  · exact Declaration.Signature.wellFormed_of_ofHeader hsignature
  · exact (Source.spaced_dense _).mono hdense

end Entry

end SourceFile

/-! ## Catalogues -/

namespace Project

section Entries

variable {settings : Settings} {supply : Identifier.Supply} {P : SourceFile → Prop}

/-- Every entry comes from a file of the queue or from one that is found on the way. A property
of files that passes to what is found in them holds of all these files. -/
theorem exists_of_mem_readQueue
    (hchildren : ∀ {file : SourceFile} {id : Identifier} {reading : Reading},
      P file → file.read settings id = .ok reading → ∀ child ∈ reading.children, P child)
    {number : Nat} {queue : List SourceFile} {entries : Catalogue}
    (hqueue : ∀ file ∈ queue, P file)
    (h : readQueue (reader settings supply) number queue = .ok entries) :
    ∀ entry ∈ entries, ∃ file id reading, P file ∧
      SourceFile.read settings id file = .ok reading ∧ reading.entry = entry := by
  induction entries generalizing number queue with
  | nil =>
      intro entry hentry
      cases hentry
  | cons first entries ih =>
      obtain ⟨file, rest, reading, rfl, hread, rfl, hmore⟩ := exists_of_readQueue_cons h
      obtain ⟨hfile, hrest⟩ := List.forall_mem_cons.mp hqueue
      have hnext : ∀ next ∈ rest ++ reading.children, P next := by
        intro next hnext
        rcases List.mem_append.mp hnext with hold | hfound
        · exact hrest next hold
        · exact hchildren hfile hread next hfound
      intro entry hentry
      rcases List.mem_cons.mp hentry with rfl | hlater
      · exact ⟨file, supply number, reading, hfile, hread, rfl⟩
      · exact ih hnext hmore entry hlater

theorem exists_of_mem_catalogue
    (hchildren : ∀ {file : SourceFile} {id : Identifier} {reading : Reading},
      P file → file.read settings id = .ok reading → ∀ child ∈ reading.children, P child)
    {files : List SourceFile} {entries : Catalogue} (hfiles : ∀ file ∈ files, P file)
    (h : catalogue settings supply files = .ok entries) :
    ∀ entry ∈ entries, ∃ file id reading, P file ∧
      SourceFile.read settings id file = .ok reading ∧ reading.entry = entry := by
  rw [catalogue] at h
  split at h
  · cases h
  · exact exists_of_mem_readQueue hchildren hfiles h

/-- All entries of a catalogue are well formed, those of files that are given and those of
files that are found in others. -/
theorem wellFormed_of_mem_catalogue {files : List SourceFile} {entries : Catalogue}
    (h : catalogue settings supply files = .ok entries) :
    ∀ entry ∈ entries, entry.WellFormed := by
  intro entry hentry
  obtain ⟨file, id, reading, -, hread, rfl⟩ :=
    exists_of_mem_catalogue (P := fun _ => True) (fun _ _ _ _ => trivial) (fun _ _ => trivial) h
      entry hentry
  exact SourceFile.wellFormed_of_read hread

end Entries

/-- A class with a malformed list, statement and parameter, a nested enum, and an interface. -/
def harbour : List SourceFile :=
  [⟨"Ship", "class Ship<T> extends Vessel<T> implements Craft,, Named<T> \x7b\n" ++
      "private static\tint x =\n 1 ;  int = 3;;\n" ++
      "Ship(Map<K, V> cargo, int) {} enum Flag { RED; }" ++ "\n\x7d", none⟩,
    ⟨"Craft", "interface Craft { void sail(int knots,); }", none⟩]

theorem wellFormed_of_mem_catalogue_harbour :
    ∃ ship craft flag, catalogue {} Identifier.ofNat harbour = .ok [ship, craft, flag] ∧
      ship.WellFormed ∧ craft.WellFormed ∧ flag.WellFormed ∧
      ship.implemented = some ["Craft", "Named"] ∧
      ship.fields = some [⟨"int", "x", some "1", .privateAccess, true, false⟩] ∧
      (flag.fields = none ↔ flag.kind = .enum) := by
  have hcatalogue : catalogue {} Identifier.ofNat harbour = .ok
      [{ id := Identifier.ofNat 0, name := "Ship", kind := .plainClass, extended := some ["Vessel"],
          implemented := some ["Craft", "Named"],
          fields := some [⟨"int", "x", some "1", .privateAccess, true, false⟩],
          methods := some [
            { type := none, name := "Ship", isConstructor := true,
              parameters := [⟨"Map<K,V>", "cargo"⟩] }] },
        { id := Identifier.ofNat 1, name := "Craft", kind := .interface, fields := some [],
          methods := some [
            { type := some "void", name := "sail", parameters := [⟨"int", "knots"⟩] }] },
        { id := Identifier.ofNat 2, name := "Flag", kind := .enum, parent := some "Ship" }] := by
    decide +kernel
  have hform := wellFormed_of_mem_catalogue hcatalogue
  exact ⟨_, _, _, hcatalogue, hform _ (by simp), hform _ (by simp), hform _ (by simp), rfl, rfl,
    (hform _ (by simp)).fieldless⟩

end Project

end ClassDiagram
