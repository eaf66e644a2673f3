import ClassDiagram.Proofs.Declaration.Children
import ClassDiagram.Proofs.Project.Worklist
import Mathlib.Data.List.Basic

/-!
# The catalogue level by level

The given files are level zero, and the children of a level are the next one. The
queue of a project always holds the rest of one level followed by the first
children of the next (`readQueue_append`). So it reads all levels in their order
(`readQueue_eq_readAll`): the catalogue has the entries of all levels, and the first
file that cannot be read ends everything.
-/

namespace ClassDiagram

namespace SourceFile

/-- True of a file whose name or text holds nothing but blanks. -/
def hasBlank (file : SourceFile) : Bool :=
  Text.isBlankText file.name.toList || Text.isBlankText file.text.toList

theorem inputFault?_eq_none_iff {file : SourceFile} :
    file.inputFault? = none ↔ file.hasBlank = false := by
  rw [inputFault?, hasBlank]
  cases Text.isBlankText file.name.toList with
  | true => simp
  | false =>
      cases Text.isBlankText file.text.toList with
      | true => simp
      | false => simp

/-- The children of a file, none if it cannot be read. -/
def childrenOf (settings : Settings) (file : SourceFile) : List SourceFile :=
  match file.read settings (Identifier.ofNat 0) with
  | .ok reading => reading.children
  | .error _ => []

/-- The identifier goes into the entry and nowhere else. -/
theorem read_withId (settings : Settings) (id other : Identifier) (file : SourceFile) :
    file.read settings other =
      (file.read settings id).map fun reading =>
        { reading with entry := { reading.entry with id := other } } := by
  unfold read
  split
  · rfl
  · split
    · rfl
    · split
      · rfl
      · rfl

theorem childrenOf_eq {settings : Settings} {id : Identifier} {file : SourceFile}
    {reading : Reading} (h : file.read settings id = .ok reading) :
    file.childrenOf settings = reading.children := by
  rw [childrenOf]
  rw [read_withId settings id, h]
  rfl

/-- The entry has the name and the parent of the file. -/
theorem entry_of_read {settings : Settings} {id : Identifier} {file : SourceFile}
    {reading : Reading} (h : file.read settings id = .ok reading) :
    reading.entry.name = file.name ∧ reading.entry.parent = file.parent := by
  rw [read] at h
  split at h
  · cases h
  · split at h
    · cases h
    · split at h
      · cases h
      · cases h
        exact ⟨rfl, rfl⟩

/-- A file that can be read at one place can be read at every place. -/
theorem read_ok_of_ok {settings : Settings} {id : Identifier} {file : SourceFile}
    {reading : Reading} (h : file.read settings id = .ok reading) (other : Identifier) :
    ∃ again, file.read settings other = .ok again := by
  rw [read_withId settings id, h]
  exact ⟨_, rfl⟩

theorem read_error_of_error {settings : Settings} {id : Identifier} {file : SourceFile}
    {fault : Fault} (h : file.read settings id = .error fault) (other : Identifier) :
    file.read settings other = .error fault := by
  rw [read_withId settings id, h]
  rfl

/-- What is found in a text is never a fault of the input as such. -/
theorem not_invalidInput_of_read {settings : Settings} {id : Identifier} {file : SourceFile}
    {fault : Fault} (h : file.read settings id = .error fault) (input : InputFault) :
    fault ≠ .invalidInput input := by
  rintro rfl
  rw [read] at h
  split at h
  · cases h
  · split at h
    · cases h
    · split at h
      · rename_i hc
        cases h
        obtain ⟨cause, hcause⟩ := Declaration.classSyntax_of_children hc
        cases hcause
      · cases h

end SourceFile

/-- Every child of a file has the name of that file as its parent. -/
theorem SourceFile.parent_of_mem_childrenOf {settings : Settings} {file child : SourceFile}
    (h : child ∈ file.childrenOf settings) : child.parent = some file.name := by
  rw [childrenOf] at h
  split at h
  · rename_i reading hr
    rw [read] at hr
    split at hr
    · cases hr
    · split at hr
      · cases hr
      · split at hr
        · cases hr
        · rename_i children hc
          cases hr
          exact Declaration.parent_of_mem_children hc child h
  · cases h

namespace Project

/-- The files of one level: those of level zero are given, and each further level
has the children of the one before it, in order. -/
def level (settings : Settings) (files : List SourceFile) : Nat → List SourceFile
  | 0 => files
  | depth + 1 => (level settings files depth).flatMap (SourceFile.childrenOf settings)

/-- The files of the first levels, level after level. -/
def levels (settings : Settings) (files : List SourceFile) (depth : Nat) : List SourceFile :=
  (List.range depth).flatMap (level settings files)

/-- The entries are those of the files, each read at its place. -/
def EntriesOf (settings : Settings) (supply : Identifier.Supply) (number : Nat)
    (files : List SourceFile) (entries : Catalogue) : Prop :=
  entries.length = files.length ∧
    ∀ place (file : SourceFile), files[place]? = some file →
      ∃ reading, file.read settings (supply (number + place)) = .ok reading ∧
        entries[place]? = some reading.entry

/-- The first of the files that cannot be read has this fault. -/
def FirstFault (settings : Settings) (files : List SourceFile) (fault : Fault) : Prop :=
  ∃ before file after, files = before ++ file :: after ∧
    (∀ earlier ∈ before, ∀ id, ∃ reading, SourceFile.read settings id earlier = .ok reading) ∧
    ∀ id, SourceFile.read settings id file = .error fault

/-- The first of the files with a blank name or text has this fault. -/
def FirstBlank (files : List SourceFile) (fault : InputFault) : Prop :=
  ∃ before file after, files = before ++ file :: after ∧
    (∀ earlier ∈ before, SourceFile.hasBlank earlier = false) ∧
    file.hasBlank = true ∧ file.inputFault? = some fault

/-- The entries of some files, the first of which is at the place `number`. The
first file that cannot be read decides the fault. -/
def readAll (settings : Settings) (supply : Identifier.Supply) (number : Nat) :
    List SourceFile → Except Fault Catalogue
  | [] => .ok []
  | file :: files =>
    match file.read settings (supply number) with
    | .error fault => .error fault
    | .ok reading => (readAll settings supply (number + 1) files).map (reading.entry :: ·)

section Levels

variable {settings : Settings} {supply : Identifier.Supply}

/-- The levels below the first are those of its children. -/
theorem level_succ (files : List SourceFile) (depth : Nat) :
    level settings files (depth + 1) =
      level settings (files.flatMap (SourceFile.childrenOf settings)) depth := by
  induction depth with
  | zero => rfl
  | succ depth ih => rw [level, ih, level]

theorem levels_succ (files : List SourceFile) (depth : Nat) :
    levels settings files (depth + 1) =
      files ++ levels settings (files.flatMap (SourceFile.childrenOf settings)) depth := by
  rw [levels, List.range_succ_eq_map, List.flatMap_cons, List.flatMap_map, levels]
  congr 1
  exact List.flatMap_congr fun depth _ => level_succ files depth

/-- A file that has children at all has more braces than they have. -/
theorem bracesOf_childrenOf (settings : Settings) (file : SourceFile) :
    file.childrenOf settings = [] ∨
      SourceFile.bracesOf (file.childrenOf settings) < file.braces := by
  rw [SourceFile.childrenOf]
  split
  · rename_i reading h
    exact .inr (SourceFile.braces_children h)
  · exact .inl rfl

theorem bracesOf_flatMap_childrenOf (settings : Settings) (files : List SourceFile) :
    files.flatMap (SourceFile.childrenOf settings) = [] ∨
      SourceFile.bracesOf (files.flatMap (SourceFile.childrenOf settings)) <
        SourceFile.bracesOf files := by
  induction files with
  | nil => exact .inl rfl
  | cons file files ih =>
      rw [List.flatMap_cons, SourceFile.bracesOf_append, SourceFile.bracesOf_cons]
      rcases bracesOf_childrenOf settings file with hfile | hfile
      · rw [hfile]
        rcases ih with hfiles | hfiles
        · exact .inl hfiles
        · refine .inr ?_
          change 0 + _ < _
          omega
      · refine .inr ?_
        rcases ih with hfiles | hfiles
        · rw [hfiles]
          change _ + 0 < _
          omega
        · omega

theorem level_nil (settings : Settings) (depth : Nat) : level settings [] depth = [] := by
  induction depth with
  | zero => rfl
  | succ depth ih => rw [level_succ, List.flatMap_nil, ih]

/-- The levels come to an end, since each has fewer opening braces than the one
before it, or nothing. -/
theorem level_eq_nil {files : List SourceFile} {depth : Nat}
    (h : SourceFile.bracesOf files < depth) : level settings files depth = [] := by
  induction depth generalizing files with
  | zero => exact absurd h (Nat.not_lt_zero _)
  | succ depth ih =>
      rw [level_succ]
      rcases bracesOf_flatMap_childrenOf settings files with hchildren | hchildren
      · rw [hchildren, level_nil]
      · exact ih (by omega)

/-! ## The queue reads the levels in order -/

theorem readAll_append (number : Nat) (files others : List SourceFile) :
    readAll settings supply number (files ++ others) =
      (readAll settings supply number files).bind fun entries =>
        (readAll settings supply (number + files.length) others).map (entries ++ ·) := by
  induction files generalizing number with
  | nil =>
      rw [List.nil_append]
      change _ = (readAll settings supply number others).map ([] ++ ·)
      cases readAll settings supply number others with
      | error fault => rfl
      | ok entries => rfl
  | cons file files ih =>
      have hplace : number + (files.length + 1) = number + 1 + files.length := by omega
      rw [List.cons_append, readAll, readAll]
      cases file.read settings (supply number) with
      | error fault => rfl
      | ok reading =>
          simp only [ih, List.length_cons, hplace]
          cases readAll settings supply (number + 1) files with
          | error fault => rfl
          | ok entries =>
              cases readAll settings supply (number + 1 + files.length) others with
              | error fault => rfl
              | ok rest => rfl

/-- The queue with the rest of one level in front and the first children of the
next behind: the rest is read, and its children go to the end. -/
theorem readQueue_append (number : Nat) (files next : List SourceFile) :
    readQueue (reader settings supply) number (files ++ next) =
      (readAll settings supply number files).bind fun entries =>
        (readQueue (reader settings supply) (number + files.length)
          (next ++ files.flatMap (SourceFile.childrenOf settings))).map (entries ++ ·) := by
  induction files generalizing number next with
  | nil =>
      rw [List.flatMap_nil, List.append_nil, List.nil_append]
      change _ = (readQueue (reader settings supply) number next).map ([] ++ ·)
      cases readQueue (reader settings supply) number next with
      | error fault => rfl
      | ok entries => rfl
  | cons file files ih =>
      have hplace : number + (files.length + 1) = number + 1 + files.length := by omega
      rw [List.cons_append, readAll]
      cases hr : file.read settings (supply number) with
      | error fault =>
          have hread : (reader settings supply).read number file = .error fault := hr
          rw [readQueue_cons_error hread]
          rfl
      | ok reading =>
          have hread : (reader settings supply).read number file = .ok reading := hr
          rw [readQueue_cons_ok hread, List.append_assoc, ih, List.flatMap_cons,
            SourceFile.childrenOf_eq hr, List.append_assoc, List.length_cons, hplace]
          cases readAll settings supply (number + 1) files with
          | error fault => rfl
          | ok entries =>
              change Except.map _ (Except.map _ _) = Except.map _ _
              cases readQueue (reader settings supply) _ _ with
              | error fault => rfl
              | ok rest => rfl

/-- The queue reads the levels one after the other. -/
theorem readQueue_eq_readAll {files : List SourceFile} {depth : Nat}
    (h : level settings files depth = []) (number : Nat) :
    readQueue (reader settings supply) number files =
      readAll settings supply number (levels settings files depth) := by
  induction depth generalizing files number with
  | zero =>
      cases (h : files = [])
      rw [readQueue_nil]
      rfl
  | succ depth ih =>
      have hqueue : readQueue (reader settings supply) number (files ++ []) = _ :=
        readQueue_append number files []
      rw [List.append_nil, List.nil_append] at hqueue
      rw [level_succ] at h
      rw [hqueue, levels_succ, readAll_append, ih h]

/-! ## Outcomes -/

/-- All files give their entries, at their places. -/
theorem readAll_eq_ok_iff {number : Nat} {files : List SourceFile} {entries : Catalogue} :
    readAll settings supply number files = .ok entries ↔
      EntriesOf settings supply number files entries := by
  induction files generalizing number entries with
  | nil =>
      rw [readAll]
      constructor
      · intro h
        cases h
        exact ⟨rfl, fun place file hfile => by simp at hfile⟩
      · rintro ⟨hlength, -⟩
        rw [List.length_eq_zero_iff.mp hlength]
  | cons file files ih =>
      rw [readAll]
      constructor
      · intro h
        cases hr : file.read settings (supply number) with
        | error fault =>
            rw [hr] at h
            cases h
        | ok reading =>
            cases hs : readAll settings supply (number + 1) files with
            | error fault =>
                rw [hr, hs] at h
                cases h
            | ok rest =>
                rw [hr, hs] at h
                cases h
                obtain ⟨hlength, hrest⟩ := ih.mp hs
                refine ⟨by rw [List.length_cons, hlength, List.length_cons], ?_⟩
                intro place found hfound
                cases place with
                | zero =>
                    cases hfound
                    exact ⟨reading, hr, rfl⟩
                | succ place =>
                    have hplace : number + (place + 1) = number + 1 + place := by omega
                    rw [hplace]
                    exact hrest place found hfound
      · rintro ⟨hlength, hall⟩
        obtain ⟨reading, hr, hentry⟩ := hall 0 file rfl
        cases entries with
        | nil => cases hentry
        | cons entry entries =>
            cases hentry
            have hrest : readAll settings supply (number + 1) files = .ok entries := by
              refine ih.mpr ⟨Nat.succ.inj hlength, ?_⟩
              intro place found hfound
              have hplace : number + 1 + place = number + (place + 1) := by omega
              rw [hplace]
              exact hall (place + 1) found hfound
            rw [Nat.add_zero] at hr
            rw [hr, hrest]
            rfl

/-- The fault is that of the first file that cannot be read. -/
theorem readAll_eq_error_iff {number : Nat} {files : List SourceFile} {fault : Fault} :
    readAll settings supply number files = .error fault ↔ FirstFault settings files fault := by
  induction files generalizing number with
  | nil =>
      rw [readAll]
      constructor
      · intro h
        cases h
      · rintro ⟨before, file, after, h, -⟩
        cases before <;> cases h
  | cons file files ih =>
      rw [readAll]
      cases hr : file.read settings (supply number) with
      | error found =>
          constructor
          · intro h
            cases h
            exact ⟨[], file, files, rfl, by simp, SourceFile.read_error_of_error hr⟩
          · rintro ⟨before, last, after, h, hbefore, hlast⟩
            cases before with
            | nil =>
                cases h
                rw [hlast] at hr
                cases hr
                rfl
            | cons first before =>
                cases h
                obtain ⟨reading, hok⟩ := hbefore file (by simp) (supply number)
                rw [hok] at hr
                cases hr
      | ok reading =>
          constructor
          · intro h
            cases hs : readAll settings supply (number + 1) files with
            | ok rest =>
                rw [hs] at h
                cases h
            | error found =>
                rw [hs] at h
                cases h
                obtain ⟨before, last, after, rfl, hbefore, hlast⟩ := ih.mp hs
                refine ⟨file :: before, last, after, rfl, ?_, hlast⟩
                intro earlier hearlier
                rcases List.mem_cons.mp hearlier with rfl | hmem
                · exact SourceFile.read_ok_of_ok hr
                · exact hbefore earlier hmem
          · rintro ⟨before, last, after, h, hbefore, hlast⟩
            cases before with
            | nil =>
                cases h
                rw [hlast] at hr
                cases hr
            | cons first before =>
                cases h
                have hrest : readAll settings supply (number + 1) (before ++ last :: after) =
                    .error fault :=
                  ih.mpr ⟨before, last, after, rfl,
                    fun earlier hmem => hbefore earlier (List.mem_cons_of_mem _ hmem), hlast⟩
                change Except.map _
                  (readAll settings supply (number + 1) (before ++ last :: after)) = _
                rw [hrest]
                rfl

/-- Every file below level zero stands behind the file that is its parent. -/
theorem exists_parent_of_levels {files : List SourceFile} {depth place : Nat} {file : SourceFile}
    (hplace : files.length ≤ place) (h : (levels settings files depth)[place]? = some file) :
    ∃ earlier < place, ∃ found, (levels settings files depth)[earlier]? = some found ∧
      file.parent = some found.name := by
  induction depth generalizing files place with
  | zero =>
      rw [show levels settings files 0 = [] from rfl] at h
      cases h
  | succ depth ih =>
      rw [levels_succ] at h ⊢
      rw [List.getElem?_append_right hplace] at h
      by_cases hchild : place - files.length <
          (files.flatMap (SourceFile.childrenOf settings)).length
      · have hmem : file ∈ files.flatMap (SourceFile.childrenOf settings) := by
          cases depth with
          | zero =>
              rw [show levels settings _ 0 = [] from rfl] at h
              cases h
          | succ depth =>
              rw [levels_succ, List.getElem?_append_left hchild] at h
              exact List.mem_of_getElem? h
        obtain ⟨found, hfound, hfile⟩ := List.mem_flatMap.mp hmem
        obtain ⟨earlier, hearlier⟩ := List.mem_iff_getElem?.mp hfound
        have hlt : earlier < files.length := (List.getElem?_eq_some_iff.mp hearlier).1
        refine ⟨earlier, Nat.lt_of_lt_of_le hlt hplace, found, ?_,
          SourceFile.parent_of_mem_childrenOf hfile⟩
        rw [List.getElem?_append_left hlt, hearlier]
      · obtain ⟨earlier, hearlier, found, hfound, hparent⟩ := ih (Nat.le_of_not_lt hchild) h
        refine ⟨files.length + earlier, by omega, found, ?_, hparent⟩
        rw [List.getElem?_append_right (Nat.le_add_right _ _), Nat.add_sub_cancel_left, hfound]

end Levels

/-! ## The catalogue -/

theorem inputFault?_eq_some_iff {files : List SourceFile} {fault : InputFault} :
    inputFault? files = some fault ↔
      (files = [] ∧ fault = .noFiles) ∨ FirstBlank files fault := by
  cases files with
  | nil =>
      constructor
      · intro h
        cases h
        exact .inl ⟨rfl, rfl⟩
      · rintro (⟨-, rfl⟩ | ⟨before, file, after, h, -⟩)
        · rfl
        · cases before <;> cases h
  | cons first files =>
      change (first :: files).findSome? SourceFile.inputFault? = some fault ↔ _
      rw [List.findSome?_eq_some_iff]
      constructor
      · rintro ⟨before, file, after, h, hfault, hbefore⟩
        refine .inr ⟨before, file, after, h, ?_, ?_, hfault⟩
        · intro earlier hearlier
          exact SourceFile.inputFault?_eq_none_iff.mp (hbefore earlier hearlier)
        · by_contra hblank
          rw [Bool.not_eq_true, ← SourceFile.inputFault?_eq_none_iff, hfault] at hblank
          cases hblank
      · rintro (⟨h, -⟩ | ⟨before, file, after, h, hbefore, -, hfault⟩)
        · cases h
        · refine ⟨before, file, after, h, hfault, ?_⟩
          intro earlier hearlier
          exact SourceFile.inputFault?_eq_none_iff.mpr (hbefore earlier hearlier)

theorem inputFault?_eq_none {files : List SourceFile} (hfiles : files ≠ [])
    (hblank : ∀ file ∈ files, file.hasBlank = false) : inputFault? files = none := by
  cases h : inputFault? files with
  | none => rfl
  | some fault =>
      rcases inputFault?_eq_some_iff.mp h with ⟨hnil, -⟩ | ⟨_, file, _, rfl, -, hfile, -⟩
      · exact absurd hnil hfiles
      · rw [hblank file (by simp)] at hfile
        cases hfile

/-- Files that are refused at once are not read, and files that are not are read
level by level. -/
theorem catalogue_eq_readAll {settings : Settings} {supply : Identifier.Supply}
    {files : List SourceFile} (h : inputFault? files = none) {depth : Nat}
    (hdepth : level settings files depth = []) :
    catalogue settings supply files =
      readAll settings supply 0 (levels settings files depth) := by
  rw [catalogue, h]
  exact readQueue_eq_readAll hdepth 0

theorem catalogue_eq_invalidInput_iff {settings : Settings} {supply : Identifier.Supply}
    {files : List SourceFile} {fault : InputFault} :
    catalogue settings supply files = .error (.invalidInput fault) ↔
      inputFault? files = some fault := by
  cases h : inputFault? files with
  | some found =>
      rw [catalogue, h]
      constructor
      · intro hfault
        cases hfault
        rfl
      · intro hfault
        cases hfault
        rfl
  | none =>
      have hdepth : level settings files (SourceFile.bracesOf files + 1) = [] :=
        level_eq_nil (Nat.lt_succ_self _)
      rw [catalogue_eq_readAll h hdepth]
      constructor
      · intro hfault
        obtain ⟨_, file, _, -, -, hread⟩ := readAll_eq_error_iff.mp hfault
        exact absurd rfl (SourceFile.not_invalidInput_of_read (hread (supply 0)) fault)
      · intro hfault
        cases hfault

/-- Behind the given files, each entry has an earlier one as its parent. -/
theorem exists_parent_of_catalogue {settings : Settings} {supply : Identifier.Supply}
    {files : List SourceFile} {entries : Catalogue}
    (h : catalogue settings supply files = .ok entries) {place : Nat} {entry : Entry}
    (hplace : files.length ≤ place) (hentry : entries[place]? = some entry) :
    ∃ earlier < place, ∃ found, entries[earlier]? = some found ∧
      entry.parent = some found.name := by
  have hdepth : level settings files (SourceFile.bracesOf files + 1) = [] :=
    level_eq_nil (Nat.lt_succ_self _)
  have hfault : inputFault? files = none := by
    cases hi : inputFault? files with
    | none => rfl
    | some fault =>
        rw [catalogue_eq_invalidInput_iff.mpr hi] at h
        cases h
  rw [catalogue_eq_readAll hfault hdepth, readAll_eq_ok_iff] at h
  obtain ⟨hlength, hall⟩ := h
  have hlt : place < (levels settings files (SourceFile.bracesOf files + 1)).length := by
    rw [← hlength]
    exact (List.getElem?_eq_some_iff.mp hentry).1
  have hfile := List.getElem?_eq_getElem hlt
  obtain ⟨reading, hread, hreading⟩ := hall place _ hfile
  obtain ⟨earlier, hearlier, found, hfound, hparent⟩ := exists_parent_of_levels hplace hfile
  obtain ⟨other, hother, hotherEntry⟩ := hall earlier found hfound
  rw [hentry] at hreading
  cases hreading
  refine ⟨earlier, hearlier, other.entry, hotherEntry, ?_⟩
  rw [(SourceFile.entry_of_read hread).2, hparent, (SourceFile.entry_of_read hother).1]

/-- A project is refused for want of files or for the first file with a blank name
or text, and for nothing else before its files are read. The given files are level
zero and the children of each level are the next, and there is a last level. The
catalogue has the entries of all levels in order, or the fault of the first file in
that order that cannot be read. Behind the given files, each entry has an earlier
one as its parent. -/
theorem catalogue_level_by_level (settings : Settings) (supply : Identifier.Supply)
    (files : List SourceFile) :
    (∀ fault, catalogue settings supply files = .error (.invalidInput fault) ↔
      (files = [] ∧ fault = .noFiles) ∨ FirstBlank files fault) ∧
    (∃ depth, level settings files depth = []) ∧
    (files ≠ [] → (∀ file ∈ files, file.hasBlank = false) →
      ∀ depth, level settings files depth = [] →
        (∀ entries, catalogue settings supply files = .ok entries ↔
          EntriesOf settings supply 0 (levels settings files depth) entries) ∧
        (∀ fault, catalogue settings supply files = .error fault ↔
          FirstFault settings (levels settings files depth) fault)) ∧
    (∀ entries, catalogue settings supply files = .ok entries →
      ∀ place entry, files.length ≤ place → entries[place]? = some entry →
        ∃ earlier < place, ∃ found, entries[earlier]? = some found ∧
          entry.parent = some found.name) := by
  refine ⟨?_, ⟨_, level_eq_nil (Nat.lt_succ_self _)⟩, ?_, ?_⟩
  · intro fault
    rw [catalogue_eq_invalidInput_iff, inputFault?_eq_some_iff]
  · intro hfiles hblank depth hdepth
    rw [catalogue_eq_readAll (inputFault?_eq_none hfiles hblank) hdepth]
    exact ⟨fun entries => readAll_eq_ok_iff, fun fault => readAll_eq_error_iff⟩
  · intro entries h place entry hplace hentry
    exact exists_parent_of_catalogue h hplace hentry

/-- Two files, and a class inside the first of them: three entries on two levels. -/
theorem catalogue_level_by_level_nestedPair :
    (∀ file ∈ [nestedPair, ⟨"C", "interface C {}", none⟩], file.hasBlank = false) ∧
    level {} [nestedPair, ⟨"C", "interface C {}", none⟩] 1 = [⟨"B", "class B{}", some "A"⟩] ∧
    level {} [nestedPair, ⟨"C", "interface C {}", none⟩] 2 = [] ∧
    ∃ entries, catalogue {} Identifier.ofNat [nestedPair, ⟨"C", "interface C {}", none⟩] =
        .ok entries ∧
      EntriesOf {} Identifier.ofNat 0
        (levels {} [nestedPair, ⟨"C", "interface C {}", none⟩] 2) entries ∧
      ∃ entry, entries[2]? = some entry ∧
        ∃ earlier < 2, ∃ found, entries[earlier]? = some found ∧
          entry.parent = some found.name := by
  have hblank : ∀ file ∈ [nestedPair, ⟨"C", "interface C {}", none⟩], file.hasBlank = false := by
    decide +kernel
  have hone : level {} [nestedPair, ⟨"C", "interface C {}", none⟩] 1 =
      [⟨"B", "class B{}", some "A"⟩] := by
    decide +kernel
  have htwo : level {} [nestedPair, ⟨"C", "interface C {}", none⟩] 2 = [] := by
    decide +kernel
  have hcatalogue : catalogue {} Identifier.ofNat [nestedPair, ⟨"C", "interface C {}", none⟩] =
      .ok [{ id := Identifier.ofNat 0, name := "A", kind := .plainClass, fields := some [],
              methods := some [] },
            { id := Identifier.ofNat 1, name := "C", kind := .interface, fields := some [],
              methods := some [] },
            { id := Identifier.ofNat 2, name := "B", kind := .plainClass, parent := some "A",
              fields := some [], methods := some [] }] := by
    decide +kernel
  obtain ⟨-, -, hread, hparent⟩ := catalogue_level_by_level {} Identifier.ofNat
    [nestedPair, ⟨"C", "interface C {}", none⟩]
  obtain ⟨hentries, -⟩ := hread (by simp) hblank 2 htwo
  exact ⟨hblank, hone, htwo, _, hcatalogue, (hentries _).mp hcatalogue, _, rfl,
    hparent _ hcatalogue 2 _ (by decide) rfl⟩

end Project

end ClassDiagram
