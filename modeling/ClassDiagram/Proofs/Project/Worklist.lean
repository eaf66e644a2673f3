import ClassDiagram.Catalogue.Project
import Mathlib.Control.Monad.Basic

/-!
# The rounds of the queue

The queue of a project grows while it is read: each round takes one file from its
front and puts the declarations found in it at its end. Here the rounds are
counted out, for a reader that promises nothing. The opening braces that wait in
the queue are what every round lessens, so they bound the number of rounds and
the number of entries.
-/

namespace ClassDiagram.Project

/-- What is known between two rounds: the files that wait to be read, and the
entries of the files read so far. -/
structure Worklist where
  waiting : List SourceFile
  entries : Catalogue

/-- What one round comes to. -/
inductive Round where
  | goesOn (next : Worklist)
  | ends (result : Except Fault Catalogue)

namespace Worklist

/-- The braces that wait in the queue. -/
def braces (w : Worklist) : Nat := SourceFile.bracesOf w.waiting

/-- Read the first file that waits, at the next place of the catalogue. -/
def round (read : Nat → SourceFile → Except Fault Reading) (w : Worklist) : Round :=
  match w.waiting with
  | [] => .ends (.ok w.entries)
  | file :: waiting =>
    match read w.entries.length file with
    | .error fault => .ends (.error fault)
    | .ok reading => .goesOn ⟨waiting ++ reading.children, w.entries ++ [reading.entry]⟩

/-- The result after so many rounds, if they are enough. -/
def run (read : Nat → SourceFile → Except Fault Reading) :
    Nat → Worklist → Option (Except Fault Catalogue)
  | 0, _ => none
  | rounds + 1, w =>
    match w.round read with
    | .ends result => some result
    | .goesOn next => run read rounds next

variable {read : Nat → SourceFile → Except Fault Reading} {w next : Worklist}

theorem run_of_ends {result : Except Fault Catalogue} (h : w.round read = .ends result)
    (rounds : Nat) : run read (rounds + 1) w = some result := by
  rw [run, h]

theorem run_of_goesOn (h : w.round read = .goesOn next) (rounds : Nat) :
    run read (rounds + 1) w = run read rounds next := by
  rw [run, h]

/-- A round that goes on has read one file, and has given its children to the
queue. -/
theorem goesOn_cases (h : w.round read = .goesOn next) :
    ∃ file waiting reading, w.waiting = file :: waiting ∧
      read w.entries.length file = .ok reading ∧
      next = ⟨waiting ++ reading.children, w.entries ++ [reading.entry]⟩ := by
  rw [round] at h
  split at h
  · cases h
  · rename_i file waiting hw
    split at h
    · cases h
    · rename_i reading hr
      cases h
      exact ⟨file, waiting, reading, hw, hr, rfl⟩

/-- Every round that goes on lessens the braces that wait. -/
theorem braces_lt_of_goesOn (r : Reader) (h : w.round r.read = .goesOn next) :
    next.braces < w.braces := by
  obtain ⟨file, waiting, reading, hw, hr, rfl⟩ := goesOn_cases h
  have := r.lessens hr
  rw [braces, braces, hw, SourceFile.bracesOf_append, SourceFile.bracesOf_cons]
  omega

end Worklist

/-! ## The queue as a whole -/

@[simp] theorem readQueue_nil (r : Reader) (number : Nat) : readQueue r number [] = .ok [] := by
  rw [readQueue]

theorem readQueue_cons_error {r : Reader} {number : Nat} {file : SourceFile} {fault : Fault}
    (h : r.read number file = .error fault) (queue : List SourceFile) :
    readQueue r number (file :: queue) = .error fault := by
  rw [readQueue]
  split
  · rename_i found hf
    rw [h] at hf
    cases hf
    rfl
  · rename_i reading hf
    rw [h] at hf
    cases hf

theorem readQueue_cons_ok {r : Reader} {number : Nat} {file : SourceFile} {reading : Reading}
    (h : r.read number file = .ok reading) (queue : List SourceFile) :
    readQueue r number (file :: queue) =
      (readQueue r (number + 1) (queue ++ reading.children)).map (reading.entry :: ·) := by
  rw [readQueue]
  split
  · rename_i fault hf
    rw [h] at hf
    cases hf
  · rename_i found hf
    rw [h] at hf
    cases hf
    split
    · rename_i hq
      rw [hq]
      rfl
    · rename_i hq
      rw [hq]
      rfl

/-- A queue is read if its first file is and then the rest with the children of that file. -/
theorem exists_of_readQueue_ok {r : Reader} {number : Nat} {file : SourceFile}
    {queue : List SourceFile} {entries : Catalogue}
    (h : readQueue r number (file :: queue) = .ok entries) :
    ∃ reading others, r.read number file = .ok reading ∧
      readQueue r (number + 1) (queue ++ reading.children) = .ok others ∧
      entries = reading.entry :: others := by
  cases hread : r.read number file with
  | error fault =>
      rw [readQueue_cons_error hread] at h
      cases h
  | ok reading =>
      rw [readQueue_cons_ok hread] at h
      cases hrest : readQueue r (number + 1) (queue ++ reading.children) with
      | error fault =>
          rw [hrest] at h
          cases h
      | ok others =>
          rw [hrest] at h
          cases h
          exact ⟨reading, others, rfl, hrest, rfl⟩

/-- The first entry is that of the first file of the queue. The others are read from the rest
and the children of that file. -/
theorem exists_of_readQueue_cons {r : Reader} {number : Nat} {queue : List SourceFile}
    {entry : Entry} {entries : Catalogue} (h : readQueue r number queue = .ok (entry :: entries)) :
    ∃ file rest reading, queue = file :: rest ∧ r.read number file = .ok reading ∧
      reading.entry = entry ∧
      readQueue r (number + 1) (rest ++ reading.children) = .ok entries := by
  cases queue with
  | nil =>
      rw [readQueue_nil] at h
      cases h
  | cons file rest =>
      obtain ⟨reading, others, hread, hrest, hentries⟩ := exists_of_readQueue_ok h
      cases hentries
      exact ⟨file, rest, reading, rfl, hread, rfl, hrest⟩

/-- Only an empty queue has no entries. -/
theorem eq_nil_of_readQueue_nil {r : Reader} {number : Nat} {queue : List SourceFile}
    (h : readQueue r number queue = .ok []) : queue = [] := by
  cases queue with
  | nil => rfl
  | cons file rest =>
      obtain ⟨reading, others, -, -, hentries⟩ := exists_of_readQueue_ok h
      cases hentries

/-- As many rounds as braces wait, and one more, give what the queue gives. -/
theorem Worklist.run_eq_readQueue (r : Reader) (rounds : Nat) (w : Worklist)
    (h : w.braces < rounds) :
    run r.read rounds w =
      some ((readQueue r w.entries.length w.waiting).map (w.entries ++ ·)) := by
  induction rounds generalizing w with
  | zero => exact absurd h (Nat.not_lt_zero _)
  | succ rounds ih =>
      obtain ⟨waiting, entries⟩ := w
      cases waiting with
      | nil =>
          have hround : round r.read ⟨[], entries⟩ = .ends (.ok entries) := rfl
          rw [run_of_ends hround, readQueue_nil]
          exact congrArg some (congrArg Except.ok (List.append_nil entries).symm)
      | cons file waiting =>
          cases hr : r.read entries.length file with
          | error fault =>
              have hround : round r.read ⟨file :: waiting, entries⟩ = .ends (.error fault) := by
                simp [round, hr]
              rw [run_of_ends hround, readQueue_cons_error hr]
              rfl
          | ok reading =>
              have hround : round r.read ⟨file :: waiting, entries⟩ =
                  .goesOn ⟨waiting ++ reading.children, entries ++ [reading.entry]⟩ := by
                simp [round, hr]
              have hless := braces_lt_of_goesOn r hround
              rw [run_of_goesOn hround, ih _ (by omega), readQueue_cons_ok hr,
                List.length_append, List.length_singleton]
              cases readQueue r (entries.length + 1) (waiting ++ reading.children) with
              | error fault => rfl
              | ok rest =>
                  exact congrArg some (congrArg Except.ok (List.append_assoc _ _ _))

/-- Every entry has taken at least one brace from the queue. -/
theorem length_readQueue_le (r : Reader) {number : Nat} {queue : List SourceFile}
    {entries : Catalogue} (h : readQueue r number queue = .ok entries) :
    entries.length ≤ SourceFile.bracesOf queue := by
  induction entries generalizing number queue with
  | nil => exact Nat.zero_le _
  | cons entry entries ih =>
      obtain ⟨file, rest, reading, rfl, hread, -, hmore⟩ := exists_of_readQueue_cons h
      have hless := r.lessens hread
      have hrest := ih hmore
      rw [SourceFile.bracesOf_append] at hrest
      rw [SourceFile.bracesOf_cons, List.length_cons]
      omega

/-- Reading a file hands on fewer opening braces than it has, so the loop over any
queue of files ends, after one round more than there are braces at the most. A
catalogue has no more entries than the files have braces. -/
theorem queue_ends_within_braces (settings : Settings) (supply : Identifier.Supply) :
    (∀ (id : Identifier) (file : SourceFile) (reading : Reading),
      file.read settings id = .ok reading →
        SourceFile.bracesOf reading.children + 1 ≤ file.braces) ∧
    (∀ files : List SourceFile,
      Worklist.run (reader settings supply).read (SourceFile.bracesOf files + 1) ⟨files, []⟩ =
        some (readQueue (reader settings supply) 0 files)) ∧
    (∀ (files : List SourceFile) (entries : Catalogue),
      catalogue settings supply files = .ok entries →
        entries.length ≤ SourceFile.bracesOf files) := by
  refine ⟨fun id file reading => SourceFile.braces_children, ?_, ?_⟩
  · intro files
    have hrun := Worklist.run_eq_readQueue (reader settings supply)
      (SourceFile.bracesOf files + 1) ⟨files, []⟩ (Nat.lt_succ_self _)
    apply hrun.trans
    change some ((readQueue (reader settings supply) 0 files).map ([] ++ ·)) = _
    cases readQueue (reader settings supply) 0 files with
    | error fault => rfl
    | ok entries => rfl
  · intro files entries h
    rw [catalogue] at h
    split at h
    · cases h
    · exact length_readQueue_le _ h

/-- A class with a class inside: two braces, of which the child keeps one. -/
def nestedPair : SourceFile := ⟨"A", "class A { class B {} }", none⟩

theorem queue_ends_within_braces_nestedPair :
    (∃ reading, nestedPair.read {} (Identifier.ofNat 0) = .ok reading ∧
      reading.children = [⟨"B", "class B{}", some "A"⟩] ∧
      SourceFile.bracesOf reading.children + 1 ≤ nestedPair.braces) ∧
    (∃ entries, catalogue {} Identifier.ofNat [nestedPair] = .ok entries ∧
      entries.map Entry.name = ["A", "B"] ∧
      entries.length ≤ SourceFile.bracesOf [nestedPair]) := by
  have hread : nestedPair.read {} (Identifier.ofNat 0) =
      .ok ⟨{ id := Identifier.ofNat 0, name := "A", kind := .plainClass, fields := some [],
              methods := some [] }, [⟨"B", "class B{}", some "A"⟩]⟩ := by
    decide +kernel
  have hcatalogue : catalogue {} Identifier.ofNat [nestedPair] =
      .ok [{ id := Identifier.ofNat 0, name := "A", kind := .plainClass, fields := some [],
              methods := some [] },
            { id := Identifier.ofNat 1, name := "B", kind := .plainClass, parent := some "A",
              fields := some [], methods := some [] }] := by
    decide +kernel
  obtain ⟨hbraces, -, hlength⟩ := queue_ends_within_braces {} Identifier.ofNat
  exact ⟨⟨_, hread, rfl, hbraces _ _ _ hread⟩, _, hcatalogue, rfl, hlength _ _ hcatalogue⟩

end ClassDiagram.Project
