import ClassDiagram.Proofs.Project.Levels
import ClassDiagram.Proofs.Tree.Body

/-!
# The catalogue of printed trees

The file of a tree gives the files of the trees inside it, so the levels of a project
of printed trees are the generations of the trees. The catalogue has the entry of every
tree at its place, generation after generation.
-/

namespace ClassDiagram

open Project
open Source (Spelling)

namespace Tree

/-! ## Generations -/

theorem height_le_heights {trees : List Tree} {t : Tree} (ht : t ∈ trees) :
    t.height ≤ heights trees := by
  induction trees with
  | nil => cases ht
  | cons u trees ih =>
      rw [heights]
      rcases List.mem_cons.mp ht with rfl | ht
      · exact Nat.le_max_left _ _
      · exact Nat.le_trans (ih ht) (Nat.le_max_right _ _)

theorem height_eq (t : Tree) : t.height = heights t.nested + 1 := by
  obtain ⟨shape, name, nested⟩ := t
  rfl

/-- A tree of some generation is at least as much lower than the highest one. -/
theorem height_of_mem_generation {trees : List Tree} {depth : Nat} {p : Placed}
    (hp : p ∈ generation trees depth) : p.tree.height + depth ≤ heights trees := by
  induction depth generalizing p with
  | zero =>
      obtain ⟨t, ht, rfl⟩ := List.mem_map.mp hp
      exact height_le_heights ht
  | succ depth ih =>
      obtain ⟨q, hq, hinside⟩ := List.mem_flatMap.mp hp
      obtain ⟨t, ht, rfl⟩ := List.mem_map.mp hinside
      have hle := ih hq
      have hlower := height_le_heights ht
      rw [height_eq] at hle
      show t.height + (depth + 1) ≤ heights trees
      omega

/-- There are as many generations as the highest tree has. -/
theorem generation_heights (trees : List Tree) : generation trees (heights trees) = [] := by
  apply List.eq_nil_iff_forall_not_mem.mpr
  intro p hp
  have hle := height_of_mem_generation hp
  rw [height_eq] at hle
  omega

/-! ## Levels -/

section Levels

variable {settings : Settings} (hsettings : settings.decoding = .keyword)

/-- Files and the trees at their places that they hold. -/
def Hold (files : List SourceFile) (ps : List Placed) : Prop :=
  List.Forall₂ (fun file p => ∃ spelling, file = Placed.file spelling p) files ps

theorem hold_files (spelling : Spelling) (ps : List Placed) :
    Hold (ps.map (Placed.file spelling)) ps := by
  induction ps with
  | nil => exact .nil
  | cons p ps ih => exact .cons ⟨spelling, rfl⟩ ih

include hsettings in
theorem childrenOf_file (spelling : Spelling) (p : Placed) :
    (p.file spelling).childrenOf settings = p.inside.map (Placed.file .dense) :=
  SourceFile.childrenOf_eq (read_file hsettings spelling p (Identifier.ofNat 0))

include hsettings in
/-- The files inside files of trees hold the trees inside them. -/
theorem hold_childrenOf {files : List SourceFile} {ps : List Placed} (h : Hold files ps) :
    Hold (files.flatMap (SourceFile.childrenOf settings)) (ps.flatMap Placed.inside) := by
  apply List.rel_flatMap h
  rintro file p ⟨spelling, rfl⟩
  rw [childrenOf_file hsettings]
  exact hold_files .dense p.inside

include hsettings in
/-- Each level of a project holds the generation of the same depth. -/
theorem hold_level {files : List SourceFile} {trees : List Tree}
    (h : Hold files (generation trees 0)) (depth : Nat) :
    Hold (level settings files depth) (generation trees depth) := by
  induction depth with
  | zero => exact h
  | succ depth ih => exact hold_childrenOf hsettings ih

include hsettings in
theorem hold_levels {files : List SourceFile} {trees : List Tree}
    (h : Hold files (generation trees 0)) (depth : Nat) :
    Hold (levels settings files depth) ((List.range depth).flatMap (generation trees)) := by
  apply List.rel_flatMap (List.forall₂_refl (List.range depth) : List.Forall₂ Eq _ _)
  rintro number _ rfl
  exact hold_level hsettings h number

include hsettings in
/-- Files of trees are all read, each with the entry of its tree. -/
theorem readAll_files (supply : Identifier.Supply) {files : List SourceFile} {ps : List Placed}
    (h : Hold files ps) (number : Nat) :
    readAll settings supply number files =
      .ok (ps.mapIdx fun place p => p.entry (supply (number + place))) := by
  induction h generalizing number with
  | nil => rfl
  | @cons file p files ps hfile _ ih =>
      obtain ⟨spelling, rfl⟩ := hfile
      rw [readAll, read_file hsettings, ih, List.mapIdx_cons]
      simp only [Nat.add_assoc, Nat.add_comm 1]
      rfl

end Levels

/-! ## The catalogue -/

theorem hasBlank_file (spelling : Spelling) (p : Placed) : (p.file spelling).hasBlank = false := by
  rw [SourceFile.hasBlank, Placed.file, Word.name, String.toList_ofList, String.toList_ofList,
    p.tree.name.isWord.startsWord.isBlankText_eq, (startsWord_text spelling p.tree).isBlankText_eq]
  rfl

/-- Declaration trees are read back from their printed texts. The catalogue has one
entry for each declaration, the given ones first, then those inside them, then those
inside these, and so on. Each entry says of its declaration what the tree does, and
names the type that the declaration stands in. -/
theorem catalogue_of_printed {settings : Settings} (hsettings : settings.decoding = .keyword)
    (supply : Identifier.Supply) {trees : List Tree} (hne : trees ≠ []) :
    catalogue settings supply (trees.map fun t => Placed.file .printed ⟨none, t⟩) =
      .ok ((breadthFirst trees).mapIdx fun place p => p.entry (supply place)) := by
  have hfiles : (trees.map fun t => Placed.file .printed ⟨none, t⟩) =
      (generation trees 0).map (Placed.file .printed) := by
    rw [generation, List.map_map]
    rfl
  -- Only the given files are printed; the files found inside them are dense.
  have hhold := hold_files .printed (generation trees 0)
  have hlast :
      level settings ((generation trees 0).map (Placed.file .printed)) (heights trees) = [] := by
    have hlevel := hold_level hsettings hhold (heights trees)
    rw [generation_heights] at hlevel
    exact List.forall₂_nil_right_iff.mp hlevel
  have hinput : inputFault? ((generation trees 0).map (Placed.file .printed)) = none := by
    apply inputFault?_eq_none
    · simpa [generation] using hne
    · intro file hfile
      obtain ⟨p, -, rfl⟩ := List.mem_map.mp hfile
      exact hasBlank_file .printed p
  rw [hfiles, catalogue_eq_readAll hinput hlast,
    readAll_files hsettings supply (hold_levels hsettings hhold (heights trees)) 0, breadthFirst]
  simp only [Nat.zero_add]

/-- A shop with a field, a constructor, a method and a list of days inside it. -/
def shop : Tree :=
  let shop : Word := ⟨"Shop".toList, by decide⟩
  let door : Word := ⟨"Door".toList, by decide⟩
  let width : Word := ⟨"width".toList, by decide⟩
  let zero : Word := ⟨"zero".toList, by decide⟩
  let shut : Word := ⟨"shut".toList, by decide⟩
  let void : Word := ⟨"void".toList, by decide⟩
  let day : Word := ⟨"Day".toList, by decide⟩
  .node (.classLike true [] [door]
      [⟨.privateAccess, true, false, door, width, some zero⟩]
      [⟨.publicAccess, false, false, false, none, [(door, width), (day, zero)], true⟩,
        ⟨.protectedAccess, false, false, true, some (void, shut), [], false⟩])
    shop [.node .enum day []]

theorem catalogue_of_printed_shop :
    ({} : Settings).decoding = .keyword ∧ [shop] ≠ [] ∧
      catalogue {} Identifier.ofNat
          [⟨"Shop", "abstract class Shop implements Door \x7b private static Door width = zero; " ++
            "public Shop(Door width, Day zero) \x7b\x7d protected abstract void shut(); " ++
            "enum Day \x7b \x7d \x7d", none⟩] =
        .ok [{ id := Identifier.ofNat 0, name := "Shop", kind := .abstractClass,
                implemented := some ["Door"],
                fields := some [⟨"Door", "width", some "zero", .privateAccess, true, false⟩],
                methods := some
                  [⟨none, "Shop", .publicAccess, false, false, false, true,
                      [⟨"Door", "width"⟩, ⟨"Day", "zero"⟩]⟩,
                    ⟨some "void", "shut", .protectedAccess, false, false, true, false, []⟩] },
              { id := Identifier.ofNat 1, name := "Day", kind := .enum,
                parent := some "Shop" }] := by
  have hsettings : ({} : Settings).decoding = .keyword := rfl
  have hne : [shop] ≠ [] := by simp
  have hcatalogue := catalogue_of_printed hsettings Identifier.ofNat hne
  refine ⟨hsettings, hne, ?_⟩
  refine (congrArg (catalogue {} Identifier.ofNat) ?_).trans
    (hcatalogue.trans (congrArg Except.ok ?_))
  · decide +kernel
  · decide +kernel

end Tree

end ClassDiagram
