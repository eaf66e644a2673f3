import ClassDiagram.Json.Reader
import ClassDiagram.Proofs.Json.Token

/-!
# Reading values back

A value without numbers is read back from either of its forms, provided that its strings and
keys denote texts (`Value.read?_write`). Its form is read as tokens that lead the machine from
waiting for a value to having completed this one, whatever is still open around it (`Spells`).
The items and members of a value are taken one after the other, each with the mark that parts
it from the next one or ends them all.
-/

namespace ClassDiagram.Json

/-! ## Runs of the machine -/

/-- The tokens lead the machine from one state to another. -/
def Leads (tokens : List Token) (s s' : State) : Prop := tokens.foldlM State.step? s = some s'

section Leads

variable {tokens more : List Token} {token : Token} {s s' s'' : State} {stack : List Frame}

theorem Leads.append (h : Leads tokens s s') (hmore : Leads more s' s'') :
    Leads (tokens ++ more) s s'' := by
  rw [Leads, List.foldlM_append, h]
  exact hmore

theorem Leads.cons (h : s.step? token = some s') (hmore : Leads more s' s'') :
    Leads (token :: more) s s'' := by
  rw [Leads, List.foldlM_cons, h]
  exact hmore

theorem leads_singleton (h : s.step? token = some s') : Leads [token] s s' := Leads.cons h rfl

/-- In front of the first item of an array, a value is read as in front of any other one. -/
theorem Leads.firstItem {v : Value}
    (h : Leads tokens (.value (.items [] :: stack)) (.complete v (.items [] :: stack))) :
    Leads tokens (.firstItem stack) (.complete v (.items [] :: stack)) := by
  cases tokens with
  | nil => cases h
  | cons token tokens =>
      cases token with
      | closeArray => cases h
      | _ => exact h

end Leads

/-! ## Values -/

/-- The text is the form of a value: it is read on its own, as this value. -/
def Spells (t : Text) (v : Value) : Prop :=
  ∃ tokens, Reads t tokens ∧ ∀ stack, Leads tokens (.value stack) (.complete v stack)

/-- Values without numbers whose strings and keys denote texts. -/
inductive Value.Textual : Value → Prop where
  | null : Textual .null
  | bool (b : Bool) : Textual (.bool b)
  | string (content : Text) : Textual (.string (some content))
  | array {items : List Value} (hitems : ∀ item ∈ items, Textual item) : Textual (.array items)
  | object {members : List (Option Text × Value)} (hkeys : ∀ member ∈ members, member.1.isSome)
    (hvalues : ∀ member ∈ members, Textual member.2) : Textual (.object members)

section Layout

variable (layout : Layout)

theorem reads_lineBreak : Reads layout.lineBreak [] := by
  apply reads_spaces
  cases layout with
  | compact => simp [Layout.lineBreak]
  | pretty level =>
      intro c hc
      rcases List.mem_cons.mp hc with rfl | hblank
      · rfl
      · rw [List.eq_of_mem_replicate hblank]
        rfl

theorem reads_colon : Reads layout.colon [.colon] := by
  cases layout with
  | compact => exact reads_mark rfl
  | pretty level =>
      have hspace : Reads [' '] [] := reads_spaces (List.forall_mem_singleton.mpr rfl)
      exact (reads_mark (c := ':') rfl).append hspace

end Layout

section Nested

variable (layout : Layout)

/-- The further items of an array and its end. -/
theorem spells_items {items : List Value}
    (h : ∀ item ∈ items, Spells (item.write layout.nested) item) :
    ∃ tokens, Reads (writeItems layout.nested items ++ layout.lineBreak ++ [']']) tokens ∧
      ∀ v before stack, Leads tokens (.complete v (.items before :: stack))
        (.complete (.array ((v :: before).reverse ++ items)) stack) := by
  induction items with
  | nil =>
      refine ⟨[.closeArray], ?_, fun v before stack => ?_⟩
      · exact (reads_lineBreak layout).append (reads_mark rfl)
      · rw [List.append_nil]
        exact leads_singleton rfl
  | cons item items ih =>
      obtain ⟨hitem, hitems⟩ := List.forall_mem_cons.mp h
      obtain ⟨first, hfirst, hvalue⟩ := hitem
      obtain ⟨others, hothers, hrest⟩ := ih hitems
      refine ⟨[.comma] ++ ([] ++ (first ++ others)), ?_, fun v before stack => ?_⟩
      · have hreads := (reads_mark (c := ',') rfl).append
          ((reads_lineBreak layout.nested).append (hfirst.append hothers))
        simpa [writeItems] using hreads
      · have hmore := hrest item (v :: before) stack
        rw [List.reverse_cons, List.append_assoc, List.singleton_append] at hmore
        exact Leads.cons rfl ((hvalue _).append hmore)

/-- The further members of an object and its end. -/
theorem spells_members {members : List (Option Text × Value)}
    (hkeys : ∀ member ∈ members, member.1.isSome)
    (h : ∀ member ∈ members, Spells (member.2.write layout.nested) member.2) :
    ∃ tokens, Reads (writeMembers layout.nested members ++ layout.lineBreak ++ ['}']) tokens ∧
      ∀ v before key stack, Leads tokens (.complete v (.member before key :: stack))
        (.complete (.object (((key, v) :: before).reverse ++ members)) stack) := by
  induction members with
  | nil =>
      refine ⟨[.closeObject], ?_, fun v before key stack => ?_⟩
      · exact (reads_lineBreak layout).append (reads_mark rfl)
      · rw [List.append_nil]
        exact leads_singleton rfl
  | cons member members ih =>
      obtain ⟨hkey, hnames⟩ := List.forall_mem_cons.mp hkeys
      obtain ⟨hmember, hmembers⟩ := List.forall_mem_cons.mp h
      obtain ⟨key, value⟩ := member
      obtain ⟨name, rfl⟩ := Option.isSome_iff_exists.mp hkey
      obtain ⟨first, hfirst, hvalue⟩ := hmember
      obtain ⟨others, hothers, hrest⟩ := ih hnames hmembers
      refine ⟨[.comma] ++ ([] ++ ([.string (some name)] ++ ([.colon] ++ (first ++ others)))), ?_,
        fun v before key stack => ?_⟩
      · have hreads := (reads_mark (c := ',') rfl).append ((reads_lineBreak layout.nested).append
          ((reads_writeString name).append ((reads_colon layout.nested).append
            (hfirst.append hothers))))
        simpa [writeMembers] using hreads
      · have hmore := hrest value ((key, v) :: before) (some name) stack
        rw [List.reverse_cons, List.append_assoc, List.singleton_append] at hmore
        exact Leads.cons rfl (Leads.cons rfl (Leads.cons rfl ((hvalue _).append hmore)))

end Nested

/-- Either form of a value spells it. -/
theorem Value.Textual.spells {v : Value} (h : v.Textual) (layout : Layout) :
    Spells (v.write layout) v := by
  induction h generalizing layout with
  | null => exact ⟨_, reads_null, fun stack => leads_singleton rfl⟩
  | bool b =>
      cases b with
      | true => exact ⟨_, reads_bool true, fun stack => leads_singleton rfl⟩
      | false => exact ⟨_, reads_bool false, fun stack => leads_singleton rfl⟩
  | string content => exact ⟨_, reads_writeString content, fun stack => leads_singleton rfl⟩
  | @array items hitems ih =>
      have hopen : Reads ['['] [.openArray] := reads_mark rfl
      cases items with
      | nil => exact ⟨_, hopen.append (reads_mark (c := ']') rfl), fun stack => rfl⟩
      | cons item items =>
          obtain ⟨hitem, hothers⟩ := List.forall_mem_cons.mp ih
          obtain ⟨first, hfirst, hvalue⟩ := hitem layout.nested
          obtain ⟨others, hreads, hrest⟩ :=
            spells_items layout fun item hitem => hothers item hitem layout.nested
          refine ⟨[.openArray] ++ ([] ++ (first ++ others)), ?_, fun stack => ?_⟩
          · have hall := hopen.append
              ((reads_lineBreak layout.nested).append (hfirst.append hreads))
            simpa [Value.write] using hall
          · exact Leads.cons rfl ((hvalue _).firstItem.append (hrest item [] stack))
  | @object members hkeys hvalues ih =>
      have hopen : Reads ['{'] [.openObject] := reads_mark rfl
      cases members with
      | nil => exact ⟨_, hopen.append (reads_mark (c := '}') rfl), fun stack => rfl⟩
      | cons member members =>
          obtain ⟨hkey, hnames⟩ := List.forall_mem_cons.mp hkeys
          obtain ⟨hmember, hothers⟩ := List.forall_mem_cons.mp ih
          obtain ⟨key, value⟩ := member
          obtain ⟨name, rfl⟩ := Option.isSome_iff_exists.mp hkey
          obtain ⟨first, hfirst, hvalue⟩ := hmember layout.nested
          obtain ⟨others, hreads, hrest⟩ := spells_members layout hnames
            fun member hmember => hothers member hmember layout.nested
          refine
            ⟨[.openObject] ++ ([] ++ ([.string (some name)] ++ ([.colon] ++ (first ++ others)))),
              ?_, fun stack => ?_⟩
          · have hall := hopen.append ((reads_lineBreak layout.nested).append
              ((reads_writeString name).append ((reads_colon layout).append
                (hfirst.append hreads))))
            simpa [Value.write] using hall
          · exact Leads.cons rfl (Leads.cons rfl
              (Leads.cons rfl ((hvalue _).append (hrest value [] (some name) stack))))

/-- A value is read back from either of its forms, whatever blanks stand behind it. -/
theorem Value.Textual.read?_write_append {v : Value} (h : v.Textual) (layout : Layout)
    {blanks : Text}
    (hblanks : ∀ c ∈ blanks, isSpace c = true) :
    Value.read? (v.write layout ++ blanks) = some v := by
  obtain ⟨tokens, hreads, hleads⟩ := h.spells layout
  have htokens : tokens? (v.write layout ++ blanks) = some tokens := by
    have hall := (hreads.append (reads_spaces hblanks)) []
    rw [List.append_nil, List.append_nil] at hall
    simpa [tokens?] using hall
  have hstate : tokens.foldlM State.step? (.value []) = some (.complete v []) := hleads []
  rw [Value.read?, htokens]
  change Value.ofTokens? tokens = some v
  rw [Value.ofTokens?, hstate]
  rfl

/-- A value is read back from either of its forms. -/
theorem Value.read?_write {v : Value} (h : v.Textual) (layout : Layout) :
    Value.read? (v.write layout) = some v := by
  rw [← List.append_nil (v.write layout)]
  exact h.read?_write_append layout (List.forall_mem_nil _)

end ClassDiagram.Json
