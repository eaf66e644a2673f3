import ClassDiagram.Catalogue.File
import Mathlib.Data.List.Forall2

/-!
# The children of a text

Every block of a text becomes one child, in order, and the first block that
declares no type decides the fault. A child has the block as its text and the name
of the file it was found in as its parent. A file is read exactly when its header is
understood and all of its blocks become children.
-/

namespace ClassDiagram.Declaration

/-- Each block gives its own child. -/
theorem mapM_child_eq_ok_iff {parent : String} {bs : List Text} {files : List SourceFile} :
    bs.mapM (child parent) = .ok files ↔
      List.Forall₂ (fun block file => child parent block = .ok file) bs files := by
  induction bs generalizing files with
  | nil =>
      rw [List.mapM_nil, List.forall₂_nil_left_iff]
      constructor
      · intro h
        cases h
        rfl
      · rintro rfl
        rfl
  | cons b bs ih =>
      rw [List.mapM_cons, List.forall₂_cons_left_iff]
      constructor
      · intro h
        cases hb : child parent b with
        | error fault =>
            rw [hb] at h
            cases h
        | ok file =>
            cases hs : bs.mapM (child parent) with
            | error fault =>
                rw [hb, hs] at h
                cases h
            | ok rest =>
                rw [hb, hs] at h
                cases h
                exact ⟨file, rest, rfl, ih.mp hs, rfl⟩
      · rintro ⟨file, rest, hb, hs, rfl⟩
        rw [hb, ih.mpr hs]
        rfl

/-- The first block that gives no child decides the fault. -/
theorem mapM_child_eq_error_iff {parent : String} {bs : List Text} {fault : Fault} :
    bs.mapM (child parent) = .error fault ↔ ∃ before block after, bs = before ++ block :: after ∧
      (∀ b ∈ before, ∃ file, child parent b = .ok file) ∧ child parent block = .error fault := by
  induction bs with
  | nil =>
      rw [List.mapM_nil]
      constructor
      · intro h
        cases h
      · rintro ⟨before, block, after, hsplit, -⟩
        simp at hsplit
  | cons b bs ih =>
      rw [List.mapM_cons]
      constructor
      · intro h
        cases hb : child parent b with
        | error found =>
            rw [hb] at h
            cases h
            exact ⟨[], b, bs, rfl, by simp, hb⟩
        | ok file =>
            cases hs : bs.mapM (child parent) with
            | ok rest =>
                rw [hb, hs] at h
                cases h
            | error found =>
                rw [hb, hs] at h
                cases h
                obtain ⟨before, block, after, rfl, hbefore, hblock⟩ := ih.mp hs
                exact ⟨b :: before, block, after, rfl,
                  List.forall_mem_cons.mpr ⟨⟨file, hb⟩, hbefore⟩, hblock⟩
      · rintro ⟨before, block, after, hsplit, hbefore, hblock⟩
        cases before with
        | nil =>
            obtain ⟨rfl, -⟩ := List.cons.inj hsplit
            rw [hblock]
            rfl
        | cons c before =>
            obtain ⟨rfl, hrest⟩ := List.cons.inj hsplit
            obtain ⟨⟨file, hb⟩, hbefore⟩ := List.forall_mem_cons.mp hbefore
            rw [hb, ih.mpr ⟨before, block, after, hrest, hbefore, hblock⟩]
            rfl

theorem children_eq_ok_iff {parent : String} {t : Text} {files : List SourceFile} :
    children parent t = .ok files ↔
      List.Forall₂ (fun block file => child parent block = .ok file) (blocks t) files :=
  mapM_child_eq_ok_iff

theorem parent_of_child {parent : String} {block : Text} {file : SourceFile}
    (h : child parent block = .ok file) : file.parent = some parent := by
  rw [child] at h
  split at h
  · cases h
    rfl
  · cases h

theorem parent_of_mem_children {parent : String} {t : Text} {files : List SourceFile}
    (h : children parent t = .ok files) : ∀ file ∈ files, file.parent = some parent := by
  have hpairs := children_eq_ok_iff.mp h
  clear h
  generalize blocks t = bs at hpairs
  induction hpairs with
  | nil => simp
  | cons hblock _ ih =>
      intro file hfile
      rcases List.mem_cons.mp hfile with rfl | hrest
      · exact parent_of_child hblock
      · exact ih _ hrest

theorem child_eq_ok_iff {parent : String} {block : Text} {file : SourceFile} :
    child parent block = .ok file ↔ ∃ name, declaredName block = .ok name ∧
      file = ⟨String.ofList name, String.ofList block, some parent⟩ := by
  rw [child]
  constructor
  · intro h
    split at h
    · rename_i name hname
      cases h
      exact ⟨name, hname, rfl⟩
    · cases h
  · rintro ⟨name, hname, rfl⟩
    rw [hname]

theorem child_eq_error_iff {parent : String} {block : Text} {fault : Fault} :
    child parent block = .error fault ↔
      ∃ cause, declaredName block = .error cause ∧ fault = .classSyntax parent cause := by
  rw [child]
  constructor
  · intro h
    split at h
    · cases h
    · rename_i cause hcause
      cases h
      exact ⟨cause, hcause, rfl⟩
  · rintro ⟨cause, hcause, rfl⟩
    rw [hcause]

/-- Every child comes from a block. -/
theorem exists_of_mem_children {parent : String} {t : Text} {files : List SourceFile}
    (h : children parent t = .ok files) :
    ∀ file ∈ files, ∃ block ∈ blocks t, child parent block = .ok file := by
  have hpairs := children_eq_ok_iff.mp h
  clear h
  generalize blocks t = bs at hpairs
  induction hpairs with
  | nil => simp
  | @cons block file bs files hblock _ ih =>
      intro found hfound
      rcases List.mem_cons.mp hfound with rfl | hrest
      · exact ⟨block, List.mem_cons_self, hblock⟩
      · obtain ⟨other, hother, hchild⟩ := ih found hrest
        exact ⟨other, List.mem_cons_of_mem _ hother, hchild⟩

/-- A block that is no declaration is a fault of the file it was found in. -/
theorem classSyntax_of_child {parent : String} {block : Text} {fault : Fault}
    (h : child parent block = .error fault) : ∃ cause, fault = .classSyntax parent cause := by
  rw [child] at h
  split at h
  · cases h
  · cases h
    exact ⟨_, rfl⟩

theorem classSyntax_of_children {parent : String} {t : Text} {fault : Fault}
    (h : children parent t = .error fault) : ∃ cause, fault = .classSyntax parent cause := by
  rw [children] at h
  generalize blocks t = bs at h
  induction bs with
  | nil => cases h
  | cons b bs ih =>
      rw [List.mapM_cons] at h
      cases hb : child parent b with
      | error found =>
          rw [hb] at h
          cases h
          exact classSyntax_of_child hb
      | ok file =>
          cases hs : bs.mapM (child parent) with
          | error found =>
              rw [hb, hs] at h
              cases h
              exact ih hs
          | ok rest =>
              rw [hb, hs] at h
              cases h

/-- A first block that is no declaration is enough for a fault. -/
theorem children_error_of_cons {parent : String} {t block : Text} {rest : List Text} {fault : Fault}
    (ht : blocks t = block :: rest) (hblock : child parent block = .error fault) :
    ∃ found, children parent t = .error found := by
  cases h : children parent t with
  | error found => exact ⟨found, rfl⟩
  | ok files =>
      have hpairs := children_eq_ok_iff.mp h
      rw [ht, List.forall₂_cons_left_iff] at hpairs
      obtain ⟨file, -, hfile, -, -⟩ := hpairs
      rw [hblock] at hfile
      cases hfile

end ClassDiagram.Declaration

namespace ClassDiagram

/-- A file is read when its header is found and understood and every declaration
beside its type is one. -/
theorem SourceFile.read_eq_ok_iff {settings : Settings} {id : Identifier} {file : SourceFile}
    {reading : Reading} :
    file.read settings id = .ok reading ↔
      ∃ header signature,
        Declaration.Header.locate? (Source.dense file.text.toList) file.name.toList = some header ∧
        Declaration.Signature.ofHeader header.text = .ok signature ∧
        Declaration.children file.name header.leftover = .ok reading.children ∧
        file.entry settings id signature header.body.members = reading.entry := by
  constructor
  · intro h
    rw [read] at h
    split at h
    · cases h
    · rename_i header hlocate
      split at h
      · cases h
      · rename_i signature hsignature
        split at h
        · cases h
        · rename_i children hchildren
          cases h
          exact ⟨header, signature, hlocate, hsignature, hchildren, rfl⟩
  · rintro ⟨header, signature, hlocate, hsignature, hchildren, hentry⟩
    rw [read]
    simp only [hlocate, hsignature, hchildren, hentry]

/-- A header or a block that is not understood is a fault of the file. -/
theorem SourceFile.read_eq_classSyntax {settings : Settings} {id : Identifier} {file : SourceFile}
    {header : Declaration.Header}
    (hlocate : Declaration.Header.locate? (Source.dense file.text.toList) file.name.toList =
      some header)
    (h : (∃ fault, Declaration.Signature.ofHeader header.text = .error fault) ∨
      ∃ fault, Declaration.children file.name header.leftover = .error fault) :
    ∃ cause, file.read settings id = .error (.classSyntax file.name cause) := by
  rw [read]
  simp only [hlocate]
  cases hsignature : Declaration.Signature.ofHeader header.text with
  | error fault => exact ⟨fault, rfl⟩
  | ok signature =>
      rcases h with ⟨fault, h⟩ | ⟨fault, h⟩
      · rw [hsignature] at h
        cases h
      · obtain ⟨cause, rfl⟩ := Declaration.classSyntax_of_children h
        simp only [h]
        exact ⟨cause, rfl⟩

end ClassDiagram
