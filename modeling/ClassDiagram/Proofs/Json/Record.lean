import ClassDiagram.Json.Record
import ClassDiagram.Json.Storable
import ClassDiagram.Proofs.Json.Value

/-!
# Reading records back

Fields that have names of their own are found again in the record that they are written to,
and a field that is left out is found to be missing (`Value.fields?_record`). So a record is
read back as soon as each of its fields is. Texts, identifiers and choices are, and so are
lists and optional fields of what is (`Faithful`).
-/

namespace ClassDiagram.Json

/-! ## Fields -/

section Fields

variable {fields : List (String × Option Value)} {names : List String} {name : String}
  {value : Option Value}

/-- The members of a record. -/
def recordMembers (fields : List (String × Option Value)) : List (Option Text × Value) :=
  fields.filterMap fun (name, value?) => value?.map fun value => (some name.toList, value)

theorem mem_recordMembers {key : Option Text} {v : Value} :
    (key, v) ∈ recordMembers fields ↔
      ∃ name, key = some name.toList ∧ (name, some v) ∈ fields := by
  rw [recordMembers, List.mem_filterMap]
  constructor
  · rintro ⟨⟨name, value⟩, hfield, heq⟩
    obtain ⟨found, rfl, hmember⟩ := Option.map_eq_some_iff.mp heq
    cases hmember
    exact ⟨name, rfl, hfield⟩
  · rintro ⟨name, rfl, hfield⟩
    exact ⟨_, hfield, rfl⟩

/-- A name that no field has is the key of no member. -/
theorem filter_recordMembers_of_not_mem (h : name ∉ fields.map Prod.fst) :
    ((recordMembers fields).filter fun (key, _) => key == some name.toList) = [] := by
  rw [List.filter_eq_nil_iff]
  rintro ⟨key, v⟩ hmember hkey
  obtain ⟨other, rfl, hfield⟩ := mem_recordMembers.mp hmember
  have hname : other.toList = name.toList := by simpa using hkey
  rw [String.toList_inj.mp hname] at hfield
  exact h (List.mem_map_of_mem hfield)

/-- The name of a field is the key of its value alone. -/
theorem filter_recordMembers (hnames : (fields.map Prod.fst).Nodup) (h : (name, value) ∈ fields) :
    ((recordMembers fields).filter fun (key, _) => key == some name.toList) =
      value.toList.map fun v => (some name.toList, v) := by
  induction fields with
  | nil => cases h
  | cons field fields ih =>
      obtain ⟨other, found⟩ := field
      obtain ⟨hnew, hrest⟩ := List.nodup_cons.mp hnames
      have hsplit : recordMembers ((other, found) :: fields) =
          (found.toList.map fun v => (some other.toList, v)) ++ recordMembers fields := by
        cases found with
        | none => rfl
        | some v => rfl
      rw [hsplit, List.filter_append]
      rcases List.mem_cons.mp h with heq | hlater
      · cases heq
        rw [filter_recordMembers_of_not_mem hnew, List.append_nil, List.filter_eq_self]
        intro member hmember
        obtain ⟨v, -, rfl⟩ := List.mem_map.mp hmember
        exact beq_self_eq_true _
      · have hne : name ≠ other := by
          rintro rfl
          exact hnew (List.mem_map.mpr ⟨_, hlater, rfl⟩)
        have hnone : ((found.toList.map fun v => (some other.toList, v)).filter
            fun (key, _) => key == some name.toList) = [] := by
          rw [List.filter_eq_nil_iff]
          intro member hmember hkey
          obtain ⟨v, -, rfl⟩ := List.mem_map.mp hmember
          have hname : other.toList = name.toList := by simpa using hkey
          exact hne (String.toList_inj.mp hname).symm
        rw [hnone, List.nil_append, ih hrest hlater]

theorem member?_recordMembers (hnames : (fields.map Prod.fst).Nodup) (h : (name, value) ∈ fields) :
    Value.member? (recordMembers fields) name = some value := by
  rw [Value.member?, filter_recordMembers hnames h]
  cases value with
  | none => rfl
  | some v => rfl

/-- The fields of a record are found again, those that are left out as missing. -/
theorem Value.fields?_record (hnames : names.Nodup) (hfields : fields.map Prod.fst = names) :
    (Value.record fields).fields? names = some (fields.map Prod.snd) := by
  subst hfields
  have hkeys : ((recordMembers fields).all fun (key, _) => key.isSome) = true := by
    rw [List.all_eq_true]
    rintro ⟨key, v⟩ hmember
    obtain ⟨name, rfl, -⟩ := mem_recordMembers.mp hmember
    rfl
  have hfound : ∀ found ⊆ fields, (found.map Prod.fst).mapM (Value.member? (recordMembers fields)) =
      some (found.map Prod.snd) := by
    intro found hsubset
    induction found with
    | nil => rfl
    | cons field found ih =>
        obtain ⟨hfield, hrest⟩ := List.cons_subset.mp hsubset
        rw [List.map_cons, List.mapM_cons, member?_recordMembers hnames hfield, ih hrest]
        rfl
  change (if (recordMembers fields).all fun (key, _) => key.isSome then
    (fields.map Prod.fst).mapM (Value.member? (recordMembers fields)) else none) = _
  rw [if_pos hkeys, hfound fields (List.Subset.refl _)]

/-- The strings of a record are those of its fields, beside the names. -/
theorem Value.textual_record (h : ∀ field ∈ fields, ∀ v ∈ field.2, v.Textual) :
    (Value.record fields).Textual := by
  change Value.Textual (.object (recordMembers fields))
  apply Value.Textual.object
  · rintro ⟨key, v⟩ hmember
    obtain ⟨name, rfl, -⟩ := mem_recordMembers.mp hmember
    rfl
  · rintro ⟨key, v⟩ hmember
    obtain ⟨name, rfl, hfield⟩ := mem_recordMembers.mp hmember
    exact h _ hfield v rfl

end Fields

/-! ## What is read back -/

/-- Reading takes back what is written: values that are never null, without numbers, and whose
strings denote texts. -/
structure Faithful {α : Type} (write : α → Value) (read : Value → Option α) : Prop where
  read_write : ∀ x, read (write x) = some x
  ne_null : ∀ x, write x ≠ .null
  textual : ∀ x, (write x).Textual

section Faithful

variable {α : Type} {write : α → Value} {read : Value → Option α}

theorem faithful_text : Faithful Value.text Value.asText? where
  read_write s := congrArg some String.ofList_toList
  ne_null s := by rintro ⟨⟩
  textual s := .string s.toList

theorem faithful_bool : Faithful Value.bool Value.asBool? where
  read_write b := rfl
  ne_null b := by rintro ⟨⟩
  textual b := .bool b

theorem faithful_identifier :
    Faithful (fun id : Identifier => .string (some id.text)) Value.asIdentifier? where
  read_write id := id.ofText?_text
  ne_null id := by rintro ⟨⟩
  textual id := .string id.text

/-- One of several choices is read back if no two of them have the same name. -/
theorem faithful_choice {choices : List α} {name : α → String} (hall : ∀ x, x ∈ choices)
    (hnames : ∀ x ∈ choices, ∀ y ∈ choices, name x = name y → x = y) :
    Faithful (fun x => .text (name x)) (Value.asChoice? choices name) where
  read_write x := by
    change choices.find? (fun choice => (name choice).toList == (name x).toList) = some x
    have hsome : (choices.find? fun choice => (name choice).toList == (name x).toList).isSome := by
      rw [List.find?_isSome]
      exact ⟨x, hall x, beq_self_eq_true _⟩
    obtain ⟨found, hfound⟩ := Option.isSome_iff_exists.mp hsome
    have hname := List.find?_some hfound
    rw [beq_iff_eq, String.toList_inj] at hname
    rw [hfound, hnames found (hall found) x (hall x) hname]
  ne_null x := by rintro ⟨⟩
  textual x := .string (name x).toList

theorem Faithful.list (h : Faithful write read) :
    Faithful (Value.list write) (Value.asList? read) where
  read_write items := by
    change (items.map write).mapM read = some items
    induction items with
    | nil => rfl
    | cons x items ih =>
        rw [List.map_cons, List.mapM_cons, h.read_write x, ih]
        rfl
  ne_null items := by rintro ⟨⟩
  textual items := by
    apply Value.Textual.array
    intro item hitem
    obtain ⟨x, -, rfl⟩ := List.mem_map.mp hitem
    exact h.textual x

theorem Faithful.optional (h : Faithful write read) (field : Option α) :
    Field.optional read (field.map write) = some field := by
  cases field with
  | none => rfl
  | some x =>
      rw [Option.map_some, Field.optional, h.read_write]
      · rfl
      · exact h.ne_null x

theorem orElse_flag (set : Bool) :
    Field.orElse false Value.asBool? (Value.flag? set) = some set := by
  cases set with
  | true => rfl
  | false => rfl

theorem textual_flag (set : Bool) : ∀ v ∈ Value.flag? set, v.Textual := by
  cases set with
  | true =>
      rintro _ ⟨⟩
      exact .bool true
  | false => rintro _ ⟨⟩

/-- An empty list that is left out is read back by its default. -/
theorem Faithful.orElse_list (h : Faithful write read) (items : List α) :
    Field.orElse [] (Value.asList? read)
      (if items.isEmpty then none else some (.list write items)) = some items := by
  cases items with
  | nil => rfl
  | cons x items => exact h.list.read_write (x :: items)

/-- A record is read back if its fields have names of their own and are read back together. -/
theorem faithful_record {fields : α → List (String × Option Value)} {names : List String}
    {decode : List (Option Value) → Option α} (hnames : names.Nodup)
    (hfields : ∀ x, (fields x).map Prod.fst = names)
    (hdecode : ∀ x, decode ((fields x).map Prod.snd) = some x)
    (htextual : ∀ x, ∀ field ∈ fields x, ∀ v ∈ field.2, v.Textual) :
    Faithful (fun x => .record (fields x)) (fun v => (v.fields? names).bind decode) where
  read_write x := by
    rw [Value.fields?_record hnames (hfields x)]
    exact hdecode x
  ne_null x := by rintro ⟨⟩
  textual x := Value.textual_record (htextual x)

end Faithful

/-! ## Depth -/

section Depth

variable {room : Nat}

theorem isStorable_record {fields : List (String × Option Value)}
    (h : ∀ field ∈ fields, ∀ v ∈ field.2, v.isStorable room = true) :
    (Value.record fields).isStorable (room + 1) = true := by
  have hmembers : ∀ members ⊆ recordMembers fields,
      Value.areStorableMembers room members = true := by
    intro members hsubset
    induction members with
    | nil => rfl
    | cons member members ih =>
        obtain ⟨hmember, hrest⟩ := List.cons_subset.mp hsubset
        obtain ⟨key, v⟩ := member
        obtain ⟨name, rfl, hfield⟩ := mem_recordMembers.mp hmember
        simp only [Value.areStorableMembers, Option.isSome_some, h _ hfield v rfl, ih hrest,
          Bool.and_self]
  simp only [Value.record, Value.isStorable, Nat.zero_lt_succ, decide_true, Bool.true_and]
  exact hmembers _ (List.Subset.refl _)

theorem isStorable_list {α : Type} {write : α → Value}
    (h : ∀ x, (write x).isStorable room = true) (items : List α) :
    (Value.list write items).isStorable (room + 1) = true := by
  have hitems : Value.areStorable room (items.map write) = true := by
    induction items with
    | nil => rfl
    | cons x items ih => simp only [List.map_cons, Value.areStorable, h, ih, Bool.and_self]
  simp only [Value.list, Value.isStorable, Nat.zero_lt_succ, decide_true, Bool.true_and]
  exact hitems

theorem isStorable_text (s : String) (room : Nat) : (Value.text s).isStorable room = true := rfl

end Depth

end ClassDiagram.Json
