import ClassDiagram.Proofs.Literal.Byte
import ClassDiagram.Proofs.Offset.Carve
import ClassDiagram.Proofs.Offset.Comment
import ClassDiagram.Proofs.Offset.Decode
import ClassDiagram.Proofs.Offset.Record

/-!
# Reading a file at byte offsets

A file is read in stages, and each of them cuts its text at offsets that it has computed, or that a
stage before it has. A slice exists exactly between two places at which the text may be cut
(`Text.exists_slice?_iff`). All that the stages ask for exist, whatever characters the file holds
and whatever name it has, so reading a file never fails for want of one (`slices_exist`).
-/

namespace ClassDiagram

open Declaration

namespace Offset

/-! ## Literals -/

section Literals

variable {t : Text} {offset : Nat} {span : Span}

/-- A text may be cut at a quote. -/
theorem isCut_of_quote {quote : Quote} (h : t.bytes[offset]? = some quote.byte) :
    t.IsCut offset := by
  have hoffset : offset < t.size := by
    rw [← Text.length_bytes]
    exact (List.getElem?_eq_some_iff.mp h).1
  obtain ⟨s, c, u, k, rfl, rfl, hk⟩ := Text.exists_char_at hoffset
  rw [Text.getElem?_bytes hk] at h
  have hsize := Span.utf8Size_of_ofChar? (Quote.byte_mem_iff.mp (List.mem_of_getElem? h))
  obtain rfl : k = 0 := by omega
  exact Text.isCut_append s (c :: u)

/-- A text may be cut at both ends of its literals. -/
theorem isCut_span (h : span ∈ t.spans) :
    t.IsCut span.start ∧ t.IsCut span.stop ∧ span.start < span.stop := by
  have hliteral := Text.isLiteral_of_mem_spans h
  refine ⟨isCut_of_quote hliteral.starts, ?_, hliteral.start_lt_stop⟩
  rcases hliteral.stops with hstop | hstop
  · exact isCut_of_quote hstop
  · rw [hstop, Text.length_bytes]
    exact t.isCut_size

end Literals

/-! ## The place of a type -/

section Place

variable {t name : Text} {h : Header}

/-- The text up to the brace of a header, and the text behind it. -/
theorem source_behind (hlocate : Header.locate? t name = some h) :
    t = (h.before ++ h.run ++ ['{']) ++ h.behind ∧
      Text.size (h.before ++ h.run ++ ['{']) = h.brace + 1 := by
  refine ⟨?_, Text.size_append _ _⟩
  rw [← Header.source_locate? hlocate, Header.source, List.append_assoc _ ['{'],
    List.singleton_append]

/-- A text may be cut where a header begins, at its brace and where the body behind it ends, and
these places come in this order. -/
theorem isCut_header (hlocate : Header.locate? t name = some h) :
    t.IsCut h.start ∧ t.IsCut h.brace ∧ t.IsCut ((Body.atBrace t h.brace).stop t) ∧
      h.start ≤ h.brace ∧ h.brace < (Body.atBrace t h.brace).stop t := by
  obtain ⟨htext, hsize⟩ := source_behind hlocate
  obtain ⟨inner, last, hbehind, hstop, -⟩ := exists_stop htext hsize
  refine ⟨?_, ?_, ?_, ?_, ?_⟩
  · rw [← Header.source_locate? hlocate, source_lead]
    exact Text.isCut_append _ _
  · rw [← Header.source_locate? hlocate, source_brace]
    exact Text.isCut_append _ _
  · rw [hstop, htext, hbehind, ← List.append_assoc]
    exact Text.isCut_append _ _
  · rw [brace_eq]
    exact Nat.le_add_right _ _
  · rw [hstop, Text.size_append, hsize]
    omega

/-- The text behind the brace that closes a body. -/
def behind? (t : Text) (stop : Nat) : Option Text :=
  if stop < t.size then t.sliceFrom? (stop + 1) else some []

/-- The text of all declarations beside a type, given the place of its header and its body. -/
def leftover? (t : Text) (place : Place) (body : Extract) : Option Text := do
  let front ← t.slice? 0 place.start
  let behind ← behind? t body.stop
  return front ++ body.nested.flatten ++ behind

theorem body?_located (hlocate : Header.locate? t name = some h) :
    body? t h.brace = some ⟨h.body.members, h.body.nested, h.body.stop t⟩ := by
  obtain ⟨htext, hsize⟩ := source_behind hlocate
  have hcut : t.IsCut (h.brace + 1) := ⟨_, _, htext, hsize⟩
  rw [body?_eq hcut, Header.atBrace_eq hlocate]

theorem behind?_eq (hlocate : Header.locate? t name = some h) :
    behind? t (h.body.stop t) = some ((h.body.behind.map Glyph.chars).getD []) := by
  obtain ⟨htext, hsize⟩ := source_behind hlocate
  obtain ⟨inner, last, hbehind, hstop, hlast⟩ := exists_stop htext hsize
  rw [Header.atBrace_eq hlocate] at hstop hlast
  rw [hbehind, ← List.append_assoc] at htext
  rcases hlast with ⟨hnone, rfl⟩ | ⟨c, gs, hsome, rfl, hc⟩
  · rw [List.append_nil] at htext
    rw [behind?, hnone, hstop, ← htext, if_neg (Nat.lt_irrefl _)]
    rfl
  · have hlt : h.body.stop t < t.size := by
      rw [hstop, htext, Text.size_append _ (c :: _), Text.size_cons, hc]
      omega
    rw [behind?, hsome, if_pos hlt, hstop, htext, List.append_cons]
    exact Text.sliceFrom?_part _ _ (by rw [Text.size_append _ [c], Text.size_cons, hc]; rfl)

theorem leftover?_eq (hlocate : Header.locate? t name = some h) :
    leftover? t ⟨h.text, h.start, h.brace⟩ ⟨h.body.members, h.body.nested, h.body.stop t⟩ =
      some h.leftover := by
  have hlead : t.slice? 0 h.start = some h.lead := by
    rw [← Header.source_locate? hlocate, source_lead]
    exact Text.slice?_part [] _ _ rfl (Nat.zero_add _)
  simp only [leftover?, hlead, behind?_eq hlocate, Option.bind_eq_bind, Option.bind_some]
  rfl

end Place

/-! ## Files -/

/-- The entry of a type. An enum has no members. -/
def entryOf? (settings : Settings) (id : Identifier) (file : SourceFile) (signature : Signature)
    (members : Text) : Option Entry := do
  let entry : Entry := {
    id
    name := file.name
    kind := signature.kind
    extended := signature.extended.map (·.map String.ofList)
    implemented := signature.implemented.map (·.map String.ofList)
    parent := file.parent }
  if signature.kind = .enum then return entry
  else
    let records ← records? members
    let (fields, methods) ← members? settings.decoding file.name.toList records
    return { entry with fields := some fields, methods := some methods }

/-- Read a file. -/
def read? (settings : Settings) (id : Identifier) (file : SourceFile) :
    Option (Except Fault Reading) := do
  let bare ← stripComments? file.text.toList
  let t := Source.normalize bare
  match ← header? t file.name.toList with
  | none => return .error (.headerNotFound file.name)
  | some place =>
    match ← signature? place.text with
    | .error fault => return .error (.classSyntax file.name fault)
    | .ok signature =>
      let body ← body? t place.brace
      let beside ← leftover? t place body
      match ← children? file.name beside with
      | .error fault => return .error fault
      | .ok children =>
        let entry ← entryOf? settings id file signature body.members
        return .ok ⟨entry, children⟩

section File

variable (settings : Settings) (id : Identifier) (file : SourceFile)

theorem entryOf?_eq (signature : Signature) (members : Text) :
    entryOf? settings id file signature members =
      some (file.entry settings id signature members) := by
  rw [entryOf?, SourceFile.entry]
  simp only [records?_eq, members?_eq, Option.bind_eq_bind, Option.bind_some]
  cases signature.kind <;> rfl

/-- Reading a file never fails. -/
theorem read?_eq : read? settings id file = some (file.read settings id) := by
  rw [read?, stripComments?_eq, SourceFile.read, Source.dense]
  dsimp only [Option.bind_eq_bind, Option.bind_some]
  generalize Source.normalize (Source.stripComments file.text.toList) = t
  rw [header?_eq, Option.bind_some]
  cases hlocate : Header.locate? t file.name.toList with
  | none => rfl
  | some h =>
      simp only [Option.map_some, signature?_eq, Option.bind_some]
      cases Signature.ofHeader h.text with
      | error fault => rfl
      | ok signature =>
          simp only [body?_located hlocate, leftover?_eq hlocate, children?_eq, Option.bind_some]
          cases Declaration.children file.name h.leftover with
          | error fault => rfl
          | ok children =>
              simp only [entryOf?_eq, Option.bind_some]
              rfl

end File

/-- A slice exists exactly between two cuts of a text in their order, and all that are needed to
read a file do. The literals of a text begin and end at cuts. So does a header, at its first
character and at its brace, and the body behind it ends at one. No slice fails by which a header, a
body, the declarations beside a type, the members of a type, the text behind annotations, the types
of a list, a field, a method or its parameters are cut out of any text, and none fails that is
needed to read any file. -/
theorem slices_exist :
    (∀ (t : Text) (start stop : Nat),
      (∃ u, t.slice? start stop = some u) ↔ t.IsCut start ∧ t.IsCut stop ∧ start ≤ stop) ∧
    (∀ t : Text, ∀ span ∈ t.spans,
      t.IsCut span.start ∧ t.IsCut span.stop ∧ span.start < span.stop) ∧
    (∀ t name : Text, header? t name =
      some ((Header.locate? t name).map fun h => ⟨h.text, h.start, h.brace⟩)) ∧
    (∀ (t name : Text) (h : Header), Header.locate? t name = some h →
      let body := Body.atBrace t h.brace
      t.IsCut h.start ∧ t.IsCut h.brace ∧ t.IsCut (body.stop t) ∧ h.start ≤ h.brace ∧
        h.brace < body.stop t ∧ body.stop t ≤ t.size ∧
        body? t h.brace = some ⟨body.members, body.nested, body.stop t⟩) ∧
    (∀ (parent : String) (t : Text), children? parent t = some (children parent t)) ∧
    (∀ t : Text, records? t = some (Member.records t)) ∧
    (∀ t : Text, dropAnnotations? t = some (Member.dropAnnotations t)) ∧
    (∀ list : Text, typeNames? list = some (typeNames list)) ∧
    (∀ (decoding : Decoding) (record : Text),
      fields? decoding record = some (Member.fields decoding record)) ∧
    (∀ (decoding : Decoding) (owner record : Text),
      method? decoding owner record = some (Member.method? decoding owner record)) ∧
    (∀ list : Text, parameters? list = some (Member.parameters list)) ∧
    ∀ (settings : Settings) (id : Identifier) (file : SourceFile),
      read? settings id file = some (file.read settings id) := by
  refine ⟨fun t start stop => Text.exists_slice?_iff, fun t span => isCut_span, header?_eq,
    fun t name h hlocate => ?_, children?_eq, records?_eq, dropAnnotations?_eq, typeNames?_eq,
    fields?_eq, method?_eq, parameters?_eq, read?_eq⟩
  obtain ⟨hstart, hbrace, hstop, hle, hlt⟩ := isCut_header hlocate
  have hbody := body?_located hlocate
  rw [← Header.atBrace_eq hlocate] at hbody
  exact ⟨hstart, hbrace, hstop, hle, hlt, hstop.le_size, hbody⟩

/-- A type with letters of two bytes around its header and its body, and in a literal. -/
theorem slices_exist_umlauts :
    let t : Text := "é;class Ä\x7bString s = \"ß\";\x7dö".toList
    ∃ h : Header, Header.locate? t "Ä".toList = some h ∧ h.start = 3 ∧ h.brace = 11 ∧
      (Body.atBrace t h.brace).stop t = 28 ∧ t.IsCut h.start ∧ t.IsCut h.brace ∧
      ⟨.quotation, 23, 26⟩ ∈ t.spans ∧ t.IsCut 23 ∧ t.IsCut 26 ∧ ¬t.IsCut 25 ∧
      body? t h.brace = some ⟨"String s = \"ß\";".toList, [], 28⟩ := by
  obtain ⟨-, hspans, -, hheader, -⟩ := slices_exist
  have hlocate : Header.locate? "é;class Ä\x7bString s = \"ß\";\x7dö".toList "Ä".toList =
      some ⟨"é;".toList, "class Ä".toList, "String s = \"ß\";\x7dö".toList⟩ := by
    decide +kernel
  have hspan : (⟨.quotation, 23, 26⟩ : Span) ∈
      Text.spans "é;class Ä\x7bString s = \"ß\";\x7dö".toList := by
    decide +kernel
  obtain ⟨hopen, hclose, -⟩ := hspans _ _ hspan
  obtain ⟨hstart, hbrace, -, -, -, -, hbody⟩ := hheader _ _ _ hlocate
  refine ⟨_, hlocate, by decide +kernel, by decide +kernel, by decide +kernel, hstart, hbrace,
    hspan, hopen, hclose, by decide +kernel, hbody.trans ?_⟩
  decide +kernel

end Offset

end ClassDiagram
