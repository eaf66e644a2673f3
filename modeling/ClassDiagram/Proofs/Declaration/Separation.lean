import ClassDiagram.Proofs.Declaration.Found
import ClassDiagram.Proofs.Declaration.Inside
import ClassDiagram.Proofs.Source.Blank

/-!
# Taking every block of a text once

A block at the top level of a text ends at a closing brace behind which no brace is open, and
it begins behind the last block or statement before it (`TopBlock.StandsIn`). The search for blocks
only remembers a depth and some characters, so its run is compared with the glyphs it has read:
those up to the last cut, and the stretch behind it. It takes every block once, in order
(`exists_topBlocks`). A block becomes a child under the name behind its only keyword, and the first
block without such a name decides the fault (`children_separated`).
-/

namespace ClassDiagram

namespace Declaration

/-! ## Cuts between blocks -/

/-- The number of open braces after one more glyph. A closing brace too many counts for
nothing. -/
def braceStep (depth : Nat) (g : Glyph) : Nat :=
  match g.role with
  | .openBrace => depth + 1
  | .closeBrace => depth - 1
  | _ => depth

/-- The number of open braces behind glyphs. -/
def braceDepth (gs : List Glyph) : Nat := gs.foldl braceStep 0

theorem braceDepth_concat (gs : List Glyph) (g : Glyph) :
    braceDepth (gs ++ [g]) = braceStep (braceDepth gs) g := by
  rw [braceDepth, List.foldl_concat, braceDepth]

/-- The glyph closes the only brace that is open behind the glyphs before it. -/
def ClosesBlock (front : List Glyph) (g : Glyph) : Prop :=
  g.role = .closeBrace ∧ braceDepth front = 1

/-- The glyph is a semicolon outside all braces. -/
def EndsStatement (front : List Glyph) (g : Glyph) : Prop :=
  g.role = .semicolon ∧ braceDepth front = 0

/-- A block or a statement ends at the glyph. -/
def Cuts (front : List Glyph) (g : Glyph) : Prop := ClosesBlock front g ∨ EndsStatement front g

/-- Behind the glyphs a block may begin. -/
def AtCut (front : List Glyph) : Prop := front = [] ∨ ∃ s g, front = s ++ [g] ∧ Cuts s g

/-- No block and no statement ends in a stretch. -/
def Uncut (front stretch : List Glyph) : Prop :=
  ∀ s g u, stretch = s ++ g :: u → ¬Cuts (front ++ s) g

/-- At this offset of the text a brace is closed and no brace is open behind it. -/
def ReturnsAt (t : Text) (offset : Nat) : Prop :=
  ∃ front g behind, t.glyphs = front ++ g :: behind ∧ ClosesBlock front g ∧
    Text.size (Glyph.chars front) = offset

theorem Cuts.braceDepth_eq {front : List Glyph} {g : Glyph} (h : Cuts front g) :
    braceDepth (front ++ [g]) = 0 := by
  rw [braceDepth_concat]
  rcases h with ⟨hrole, hdepth⟩ | ⟨hrole, hdepth⟩
  · simp only [braceStep, hrole, hdepth]
  · simp only [braceStep, hrole, hdepth]

theorem size_chars_concat {g : Glyph} (h : g.role = .closeBrace) (gs : List Glyph) :
    Text.size (Glyph.chars (gs ++ [g])) = Text.size (Glyph.chars gs) + 1 := by
  have hsize : Text.size ['}'] = 1 := rfl
  rw [eq_of_role_closeBrace h]
  simpa using hsize

theorem Uncut.nil (front : List Glyph) : Uncut front [] := by
  intro s g u h
  simp at h

theorem Uncut.concat {front stretch : List Glyph} {g : Glyph} (h : Uncut front stretch)
    (hg : ¬Cuts (front ++ stretch) g) : Uncut front (stretch ++ [g]) := by
  intro s d u hsplit
  rcases List.eq_nil_or_concat u with rfl | ⟨u, e, rfl⟩
  · obtain ⟨rfl, hd⟩ := List.append_inj' hsplit rfl
    cases hd
    exact hg
  · rw [List.concat_eq_append, ← List.cons_append, ← List.append_assoc] at hsplit
    exact h s d u (List.append_inj' hsplit rfl).1

section Step

variable {front : List Glyph} {g : Glyph}

theorem blockStep_of_closesBlock (h : ClosesBlock front g) (seen : Text) :
    blockStep (braceDepth front, seen) g = ((0, []), some (g.char :: seen).reverse) := by
  rw [h.2, blockStep_close_block h.1]

theorem blockStep_of_endsStatement (h : EndsStatement front g) (seen : Text) :
    blockStep (braceDepth front, seen) g = ((0, []), none) := by
  rw [h.2, blockStep_semicolon h.1]

/-- Where there is no cut the search only remembers the glyph. -/
theorem blockStep_of_not_cuts (h : ¬Cuts front g) (seen : Text) :
    blockStep (braceDepth front, seen) g = ((braceDepth (front ++ [g]), g.char :: seen), none) := by
  obtain ⟨hblock, hstatement⟩ := not_or.mp h
  rw [braceDepth_concat]
  cases hrole : g.role with
  | openBrace => simp only [blockStep, braceStep, hrole]
  | closeBrace =>
      have hdepth : braceDepth front ≠ 1 := fun hone => hblock ⟨hrole, hone⟩
      generalize braceDepth front = depth at hdepth
      obtain _ | _ | depth := depth
      · simp only [blockStep, braceStep, hrole]
      · exact absurd rfl hdepth
      · simp only [blockStep, braceStep, hrole]
        rfl
  | semicolon =>
      have hdepth : braceDepth front ≠ 0 := fun hzero => hstatement ⟨hrole, hzero⟩
      generalize braceDepth front = depth at hdepth
      cases depth with
      | zero => exact absurd rfl hdepth
      | succ depth => simp only [blockStep, braceStep, hrole]
  | openParen => simp only [blockStep, braceStep, hrole]
  | closeParen => simp only [blockStep, braceStep, hrole]
  | plain => simp only [blockStep, braceStep, hrole]

end Step

/-! ## Where the blocks stand -/

/-- A block at the top level of a text, between the glyphs that stand in front of it and
behind it. -/
structure TopBlock where
  front : List Glyph
  gap : List Glyph
  body : List Glyph
  closing : Glyph
  behind : List Glyph

namespace TopBlock

/-- The text of a block, without the blanks in front of it. -/
def text (b : TopBlock) : Text := Glyph.chars (b.body ++ [b.closing])

/-- The offset of the first character of a block. -/
def start (b : TopBlock) : Nat := Text.size (Glyph.chars (b.front ++ b.gap))

/-- The offset behind the closing brace of a block. -/
def stop (b : TopBlock) : Nat := b.start + Text.size b.text

/-- A block stands in a text: it reaches from a cut, but for blanks, to the brace that returns
the depth to zero, and there is no other cut in between. -/
structure StandsIn (b : TopBlock) (t : Text) : Prop where
  source : t.glyphs = b.front ++ (b.gap ++ (b.body ++ b.closing :: b.behind))
  cut : AtCut b.front
  uncut : Uncut b.front (b.gap ++ b.body)
  closes : ClosesBlock (b.front ++ (b.gap ++ b.body)) b.closing
  blank : ∀ g ∈ b.gap, Text.isBlank g.char = true
  trimmed : Text.trim b.text = b.text

variable {b : TopBlock} {t : Text}

/-- A block ends behind the brace that closes it. -/
theorem StandsIn.stop_eq (h : b.StandsIn t) :
    b.stop = Text.size (Glyph.chars (b.front ++ (b.gap ++ b.body))) + 1 := by
  rw [← size_chars_concat h.closes.1, stop, start, text]
  simp only [Glyph.chars_append, Text.size_append]
  omega

theorem StandsIn.start_lt_stop (h : b.StandsIn t) : b.start < b.stop := by
  rw [h.stop_eq, start]
  simp only [Glyph.chars_append, Text.size_append]
  omega

theorem StandsIn.returnsAt (h : b.StandsIn t) : ∃ offset, b.stop = offset + 1 ∧
    ReturnsAt t offset :=
  ⟨_, h.stop_eq, _, b.closing, b.behind, by simpa using h.source, h.closes, rfl⟩

end TopBlock

/-! ## The search and the blocks -/

/-- A text read up to a rest: `front` ends at the last cut, and `stretch` stands behind it. -/
structure ReadUpTo (t : Text) (front stretch rest : List Glyph) : Prop where
  source : t.glyphs = front ++ (stretch ++ rest)
  cut : AtCut front
  uncut : Uncut front stretch

/-- Each brace of the rest that returns the depth to zero ends one of the blocks. -/
def EndsEach (bs : List TopBlock) (front rest : List Glyph) : Prop :=
  ∀ s g u, rest = s ++ g :: u → ClosesBlock (front ++ s) g →
    ∃ b ∈ bs, b.stop = Text.size (Glyph.chars (front ++ s)) + 1

/-- The blocks that the search takes from the rest on. -/
structure Takes (t : Text) (front stretch rest : List Glyph) (bs : List TopBlock) : Prop where
  texts : bs.map TopBlock.text = (blocksFrom (braceDepth (front ++ stretch))
    (Glyph.chars stretch).reverse rest).map Text.trim
  standsIn : ∀ b ∈ bs, b.StandsIn t
  later : ∀ b ∈ bs, Text.size (Glyph.chars front) ≤ b.start
  apart : bs.Pairwise fun b c => b.stop ≤ c.start
  ends : EndsEach bs (front ++ stretch) rest

section Search

variable {t : Text} {front stretch rest : List Glyph} {g : Glyph} {bs : List TopBlock}

theorem ReadUpTo.of_cuts (h : ReadUpTo t front stretch (g :: rest))
    (hg : Cuts (front ++ stretch) g) : ReadUpTo t (front ++ (stretch ++ [g])) [] rest :=
  ⟨by simpa using h.source, .inr ⟨front ++ stretch, g, by simp, hg⟩, .nil _⟩

theorem ReadUpTo.of_not_cuts (h : ReadUpTo t front stretch (g :: rest))
    (hg : ¬Cuts (front ++ stretch) g) : ReadUpTo t front (stretch ++ [g]) rest :=
  ⟨by simpa using h.source, h.cut, h.uncut.concat hg⟩

/-- A stretch behind a cut is a block with the brace that closes it. -/
theorem ReadUpTo.exists_topBlock (h : ReadUpTo t front stretch (g :: rest))
    (hg : ClosesBlock (front ++ stretch) g) :
    ∃ b : TopBlock, b.StandsIn t ∧ b.text = Text.trim (Glyph.chars (stretch ++ [g])) ∧
      Text.size (Glyph.chars front) ≤ b.start ∧
      b.stop = Text.size (Glyph.chars (front ++ (stretch ++ [g]))) := by
  obtain ⟨hsource, hcut, huncut⟩ := h
  have hsplit : stretch.takeWhile (Text.isBlank ·.char) ++ stretch.dropWhile (Text.isBlank ·.char) =
      stretch := List.takeWhile_append_dropWhile
  have hblank : ∀ d ∈ stretch.takeWhile (Text.isBlank ·.char), Text.isBlank d.char = true :=
    List.all_eq_true.mp List.all_takeWhile
  have hfirst := List.head?_dropWhile_not (Text.isBlank ·.char) stretch
  generalize stretch.takeWhile (Text.isBlank ·.char) = gap at hsplit hblank
  generalize stretch.dropWhile (Text.isBlank ·.char) = body at hsplit hfirst
  subst hsplit
  have hbrace : g = ⟨'}', false⟩ := eq_of_role_closeBrace hg.1
  have hself : Text.trim (Glyph.chars (body ++ [g])) = Glyph.chars (body ++ [g]) := by
    apply Text.trim_of_ends
    · cases body with
      | nil =>
          rw [hbrace]
          rfl
      | cons c body => simpa using hfirst
    · rw [Glyph.chars_append, Glyph.chars_cons, Glyph.chars_nil, List.getLast?_concat, hbrace]
      rfl
  have htrim : Text.trim (Glyph.chars (gap ++ body ++ [g])) = Glyph.chars (body ++ [g]) := by
    rw [List.append_assoc, Glyph.chars_append, Text.trim_append_of_blank _ _, hself]
    simpa [Glyph.chars] using hblank
  refine ⟨⟨front, gap, body, g, rest⟩, ⟨by simpa using hsource, hcut, huncut, hg, hblank, hself⟩,
    htrim.symm, ?_, ?_⟩
  · simp [TopBlock.start]
  · simp only [TopBlock.stop, TopBlock.start, TopBlock.text, Glyph.chars_append, Text.size_append]
    omega

theorem EndsEach.cons (h : EndsEach bs (front ++ [g]) rest)
    (hg : ClosesBlock front g → ∃ b ∈ bs, b.stop = Text.size (Glyph.chars front) + 1) :
    EndsEach bs front (g :: rest) := by
  intro s d u hsplit hd
  cases s with
  | nil =>
      obtain ⟨rfl, -⟩ := List.cons.inj hsplit
      rw [List.append_nil] at hd ⊢
      exact hg hd
  | cons e s =>
      obtain ⟨rfl, hrest⟩ := List.cons.inj hsplit
      simpa using h s d u hrest (by simpa using hd)

theorem EndsEach.of_cons (h : EndsEach bs front rest) (b : TopBlock) :
    EndsEach (b :: bs) front rest := by
  intro s d u hsplit hd
  obtain ⟨c, hc, hstop⟩ := h s d u hsplit hd
  exact ⟨c, List.mem_cons_of_mem _ hc, hstop⟩

theorem Takes.nil : Takes t front stretch [] [] where
  texts := rfl
  standsIn := by simp
  later := by simp
  apart := .nil
  ends _ _ _ h := by simp at h

/-- Behind a cut the search begins anew. -/
theorem Takes.of_cuts (hg : Cuts (front ++ stretch) g)
    (hbs : Takes t (front ++ (stretch ++ [g])) [] rest bs) :
    bs.map TopBlock.text = (blocksFrom 0 [] rest).map Text.trim ∧
      EndsEach bs (front ++ stretch ++ [g]) rest := by
  obtain ⟨htexts, -, -, -, hends⟩ := hbs
  rw [List.append_nil, ← List.append_assoc] at htexts hends
  rw [hg.braceDepth_eq] at htexts
  exact ⟨htexts, hends⟩

/-- A block is taken at the brace that closes it. -/
theorem Takes.of_closesBlock (h : ReadUpTo t front stretch (g :: rest))
    (hg : ClosesBlock (front ++ stretch) g) (hbs : Takes t (front ++ (stretch ++ [g])) [] rest bs) :
    ∃ b, Takes t front stretch (g :: rest) (b :: bs) := by
  obtain ⟨b, hb, htext, hstart, hstop⟩ := h.exists_topBlock hg
  obtain ⟨htexts, hends⟩ := hbs.of_cuts (.inl hg)
  have hlater : ∀ c ∈ bs, b.stop ≤ c.start := fun c hc =>
    Nat.le_trans (Nat.le_of_eq hstop) (hbs.later c hc)
  refine ⟨b, ?_, List.forall_mem_cons.mpr ⟨hb, hbs.standsIn⟩,
    List.forall_mem_cons.mpr ⟨hstart, fun c hc => ?_⟩, List.pairwise_cons.mpr ⟨hlater, hbs.apart⟩,
    (hends.of_cons b).cons fun _ => ⟨b, List.mem_cons_self, ?_⟩⟩
  · rw [blocksFrom_cons, blockStep_of_closesBlock hg, List.map_cons, htexts, htext]
    simp
  · exact Nat.le_trans (by simp) (hbs.later c hc)
  · rw [hstop, ← List.append_assoc, size_chars_concat hg.1]

/-- Nothing is taken up to a semicolon outside all braces. -/
theorem Takes.of_endsStatement (hg : EndsStatement (front ++ stretch) g)
    (hbs : Takes t (front ++ (stretch ++ [g])) [] rest bs) :
    Takes t front stretch (g :: rest) bs := by
  obtain ⟨htexts, hends⟩ := hbs.of_cuts (.inr hg)
  refine ⟨?_, hbs.standsIn, fun c hc => Nat.le_trans (by simp) (hbs.later c hc), hbs.apart,
    hends.cons fun hcloses => ?_⟩
  · rw [blocksFrom_cons, blockStep_of_endsStatement hg, htexts]
    rfl
  · have hrole := hcloses.1
    rw [hg.1] at hrole
    cases hrole

/-- Any other glyph waits with the stretch. -/
theorem Takes.of_not_cuts (hg : ¬Cuts (front ++ stretch) g)
    (hbs : Takes t front (stretch ++ [g]) rest bs) : Takes t front stretch (g :: rest) bs := by
  obtain ⟨htexts, hstands, hlater, hapart, hends⟩ := hbs
  rw [← List.append_assoc] at htexts hends
  refine ⟨?_, hstands, hlater, hapart, hends.cons fun hcloses => absurd (.inl hcloses) hg⟩
  rw [blocksFrom_cons, blockStep_of_not_cuts hg, htexts]
  simp

/-- The search takes blocks up to the end of the text. -/
theorem exists_takes (h : ReadUpTo t front stretch rest) : ∃ bs, Takes t front stretch rest bs := by
  induction rest generalizing front stretch with
  | nil => exact ⟨[], .nil⟩
  | cons g rest ih =>
      by_cases hcuts : Cuts (front ++ stretch) g
      · obtain ⟨bs, hbs⟩ := ih (h.of_cuts hcuts)
        rcases hcuts with hcloses | hends
        · obtain ⟨b, hb⟩ := Takes.of_closesBlock h hcloses hbs
          exact ⟨b :: bs, hb⟩
        · exact ⟨bs, .of_endsStatement hends hbs⟩
      · obtain ⟨bs, hbs⟩ := ih (h.of_not_cuts hcuts)
        exact ⟨bs, .of_not_cuts hcuts hbs⟩

end Search

/-- Blocks in order that end at the same place are the same. -/
theorem eq_of_stop_eq {bs : List TopBlock} (hpairs : bs.Pairwise fun b c => b.stop ≤ c.start)
    (hbs : ∀ b ∈ bs, b.start < b.stop) {b c : TopBlock} (hb : b ∈ bs) (hc : c ∈ bs)
    (hstop : b.stop = c.stop) : b = c := by
  induction hpairs with
  | nil => cases hb
  | @cons d bs hlater _ ih =>
      obtain ⟨-, hrest⟩ := List.forall_mem_cons.mp hbs
      rcases List.mem_cons.mp hb with rfl | hb'
      · rcases List.mem_cons.mp hc with rfl | hc'
        · rfl
        · have := hlater c hc'
          have := hrest c hc'
          omega
      · rcases List.mem_cons.mp hc with rfl | hc'
        · have := hlater b hb'
          have := hrest b hb'
          omega
        · exact ih hrest hb' hc'

/-- The blocks of a text stand in it one after the other, and each brace that returns the depth
to zero ends one of them. -/
theorem exists_topBlocks (t : Text) :
    ∃ bs : List TopBlock, bs.map TopBlock.text = blocks t ∧ (∀ b ∈ bs, b.StandsIn t) ∧
      bs.Pairwise (fun b c => b.stop ≤ c.start) ∧
      ∀ offset, ReturnsAt t offset ↔ ∃! b, b ∈ bs ∧ b.stop = offset + 1 := by
  obtain ⟨bs, hbs⟩ : ∃ bs, Takes t [] [] t.glyphs bs := exists_takes ⟨rfl, .inl rfl, .nil _⟩
  refine ⟨bs, hbs.texts, hbs.standsIn, hbs.apart, fun offset => ⟨?_, ?_⟩⟩
  · rintro ⟨front, g, behind, hsplit, hcloses, rfl⟩
    obtain ⟨b, hb, hstop⟩ := hbs.ends front g behind hsplit hcloses
    refine ⟨b, ⟨hb, hstop⟩, fun c ⟨hc, hcstop⟩ => ?_⟩
    exact eq_of_stop_eq hbs.apart (fun d hd => (hbs.standsIn d hd).start_lt_stop) hc hb
      (hcstop.trans hstop.symm)
  · rintro ⟨b, ⟨hb, hstop⟩, -⟩
    obtain ⟨found, hfound, hreturn⟩ := (hbs.standsIn b hb).returnsAt
    obtain rfl : found = offset := by omega
    exact hreturn

/-! ## The name of a block -/

/-- How many words in front of the first brace of a block are keywords of a type. -/
def keywordCount (block : Text) : Nat :=
  (Text.words (headerText block)).countP typeKeywords.contains

/-- A block names its type: of the words in front of its first brace one is a keyword, and the
next word is the name up to its first angle bracket. -/
structure NamesType (block name : Text) : Prop where
  once : keywordCount block = 1
  behindKeyword : ∃ front keyword tail more,
    Text.words (headerText block) = front ++ keyword :: (name ++ tail) :: more ∧
      keyword ∈ typeKeywords ∧ tail.head?.all (· == '<') = true
  bare : '<' ∉ name
  ne_nil : name ≠ []
  solid : Text.Solid name

/-- Why a block names no type: it has not one keyword, or no name behind it. -/
inductive NamesNone (block : Text) : SyntaxFault → Prop where
  | ambiguous (h : keywordCount block ≠ 1) :
      NamesNone block (.ambiguousDeclaration (String.ofList (headerText block)))
  | unnamed {front more : List Text} {keyword : Text} (once : keywordCount block = 1)
      (hwords : Text.words (headerText block) = front ++ keyword :: more)
      (hkeyword : keyword ∈ typeKeywords) (hmore : ∀ word ∈ more.head?, word.head? = some '<') :
      NamesNone block (.unnamedDeclaration (String.ofList (headerText block)))

section Name

variable {block name : Text} {front more : List Text} {keyword : Text}

theorem length_fromKeywords (ws : List Text) :
    (fromKeywords ws).length = ws.countP typeKeywords.contains := by
  induction ws with
  | nil => rfl
  | cons w ws ih =>
      rw [fromKeywords, List.countP_cons]
      split
      · rw [List.length_cons, ih]
      · exact ih

/-- The only keyword among words, and the words behind it. -/
theorem fromKeywords_eq_singleton {ws : List Text}
    (hcount : ws.countP typeKeywords.contains = 1) (hwords : ws = front ++ keyword :: more)
    (hkeyword : keyword ∈ typeKeywords) : fromKeywords ws = [keyword :: more] := by
  have hcontains : typeKeywords.contains keyword = true := List.contains_iff_mem.mpr hkeyword
  rw [hwords, List.countP_append, List.countP_cons_of_pos hcontains] at hcount
  have hfront : ∀ w ∈ front, w ∉ typeKeywords := by
    have hzero : front.countP typeKeywords.contains = 0 := by omega
    simpa using List.countP_eq_zero.mp hzero
  have hmore : fromKeywords more = [] := by
    apply List.eq_nil_of_length_eq_zero
    rw [length_fromKeywords]
    omega
  rw [hwords, fromKeywords_append hfront, fromKeywords, if_pos hcontains, hmore]

theorem exists_of_keywordCount (h : keywordCount block = 1) :
    ∃ front keyword more, Text.words (headerText block) = front ++ keyword :: more ∧
      keyword ∈ typeKeywords := by
  rw [keywordCount, ← length_fromKeywords] at h
  obtain ⟨words, hwords⟩ := List.length_eq_one_iff.mp h
  obtain ⟨front, keyword, more, hsplit, -, hkeyword⟩ := exists_of_fromKeywords hwords
  exact ⟨front, keyword, more, hsplit, hkeyword⟩

theorem declaredName_of_ambiguous (h : keywordCount block ≠ 1) :
    declaredName block = .error (.ambiguousDeclaration (String.ofList (headerText block))) := by
  rw [keywordCount, ← length_fromKeywords] at h
  rw [declaredName, ← headerText]
  split
  · rename_i hwords
    rw [hwords] at h
    exact absurd rfl h
  · rfl

theorem declaredName_of_named {word : Text} (once : keywordCount block = 1)
    (hwords : Text.words (headerText block) = front ++ keyword :: word :: more)
    (hkeyword : keyword ∈ typeKeywords) (hne : bareName word ≠ []) :
    declaredName block = .ok (bareName word) := by
  have hname : ((word :: more).head?.map bareName).filter (fun name => !name.isEmpty) =
      some (bareName word) :=
    Option.filter_some_pos (by simpa using hne)
  rw [declaredName, ← headerText, fromKeywords_eq_singleton once hwords hkeyword]
  simp only [hname]

theorem declaredName_of_unnamed (once : keywordCount block = 1)
    (hwords : Text.words (headerText block) = front ++ keyword :: more)
    (hkeyword : keyword ∈ typeKeywords) (hmore : ∀ word ∈ more.head?, bareName word = []) :
    declaredName block = .error (.unnamedDeclaration (String.ofList (headerText block))) := by
  have hname : (more.head?.map bareName).filter (fun name => !name.isEmpty) = none := by
    cases more with
    | nil => rfl
    | cons word more =>
        have hnil : bareName word = [] := hmore word rfl
        rw [List.head?_cons, Option.map_some, hnil]
        rfl
  rw [declaredName, ← headerText, fromKeywords_eq_singleton once hwords hkeyword]
  simp only [hname]

/-- A bare name is what stands in front of the first angle bracket. -/
theorem bareName_append {tail : Text} (hname : '<' ∉ name)
    (htail : tail.head?.all (· == '<') = true) : bareName (name ++ tail) = name := by
  refine Text.takeWhile_stretch (fun c hc => bne_iff_ne.mpr fun heq => hname (heq ▸ hc)) ?_
  cases tail with
  | nil => rfl
  | cons c tail =>
      have hc : c = '<' := by simpa using htail
      rw [hc]
      rfl

theorem exists_bareName (word : Text) :
    ∃ tail, word = bareName word ++ tail ∧ '<' ∉ bareName word ∧
      tail.head?.all (· == '<') = true := by
  have hbare : ∀ c ∈ bareName word, (c != '<') = true := List.all_eq_true.mp List.all_takeWhile
  refine ⟨word.dropWhile (· != '<'), List.takeWhile_append_dropWhile.symm,
    fun hmem => absurd (hbare '<' hmem) (by decide), ?_⟩
  have hhead := List.head?_dropWhile_not (· != '<') word
  cases hdrop : word.dropWhile (· != '<') with
  | nil => rfl
  | cons c tail =>
      rw [hdrop] at hhead
      simpa using hhead

theorem NamesType.declaredName_eq (h : NamesType block name) : declaredName block = .ok name := by
  obtain ⟨front, keyword, tail, more, hwords, hkeyword, htail⟩ := h.behindKeyword
  have hname : bareName (name ++ tail) = name := bareName_append h.bare htail
  have hdeclared := declaredName_of_named h.once hwords hkeyword (by simpa [hname] using h.ne_nil)
  rwa [hname] at hdeclared

theorem NamesNone.declaredName_eq {cause : SyntaxFault} (h : NamesNone block cause) :
    declaredName block = .error cause := by
  cases h with
  | ambiguous h => exact declaredName_of_ambiguous h
  | unnamed once hwords hkeyword hmore =>
      refine declaredName_of_unnamed once hwords hkeyword fun word hword => ?_
      obtain ⟨tail, rfl⟩ := List.head?_eq_some_iff.mp (hmore word hword)
      exact bareName_append List.not_mem_nil rfl

/-- A block names a type, or there is a cause that it names none. -/
theorem namesType_or_namesNone (block : Text) :
    (∃ name, NamesType block name) ∨ ∃ cause, NamesNone block cause := by
  by_cases once : keywordCount block = 1
  · obtain ⟨front, keyword, more, hwords, hkeyword⟩ := exists_of_keywordCount once
    cases more with
    | nil => exact .inr ⟨_, .unnamed once hwords hkeyword (by simp)⟩
    | cons word more =>
        obtain ⟨tail, hword, hbare, htail⟩ := exists_bareName word
        have hmem : word ∈ Text.words (headerText block) := by simp [hwords]
        obtain ⟨hne, hsolid⟩ := Text.token_of_mem_words hmem
        by_cases hnil : bareName word = []
        · refine .inr ⟨_, .unnamed once hwords hkeyword fun found hfound => ?_⟩
          cases hfound
          rw [hnil, List.nil_append] at hword
          subst hword
          obtain ⟨c, rest, rfl⟩ := List.exists_cons_of_ne_nil hne
          simpa using htail
        · refine .inl ⟨bareName word, once, ⟨front, keyword, tail, more, ?_, hkeyword, htail⟩,
            hbare, hnil, fun c hc => hsolid c ?_⟩
          · rw [← hword, hwords]
          · rw [hword]
            exact List.mem_append_left _ hc
  · exact .inr ⟨_, .ambiguous once⟩

theorem declaredName_eq_ok_iff : declaredName block = .ok name ↔ NamesType block name := by
  refine ⟨fun h => ?_, NamesType.declaredName_eq⟩
  rcases namesType_or_namesNone block with ⟨found, hfound⟩ | ⟨cause, hcause⟩
  · rw [hfound.declaredName_eq] at h
    cases h
    exact hfound
  · rw [hcause.declaredName_eq] at h
    cases h

theorem declaredName_eq_error_iff {cause : SyntaxFault} :
    declaredName block = .error cause ↔ NamesNone block cause := by
  refine ⟨fun h => ?_, NamesNone.declaredName_eq⟩
  rcases namesType_or_namesNone block with ⟨name, hname⟩ | ⟨found, hfound⟩
  · rw [hname.declaredName_eq] at h
    cases h
  · rw [hfound.declaredName_eq] at h
    cases h
    exact hfound

end Name

/-! ## The children of a text -/

/-- The blocks at the top level of a text stand in it in order and apart from each other, and each
brace that returns the depth to zero ends exactly one of them. If every block names a type, they
become the children, each with its trimmed text, its name and the given parent. Otherwise the first
block that names none decides the fault. -/
theorem children_separated (parent : String) (t : Text) :
    ∃ bs : List TopBlock, (∀ b ∈ bs, b.StandsIn t) ∧ bs.Pairwise (fun b c => b.stop ≤ c.start) ∧
      (∀ offset, ReturnsAt t offset ↔ ∃! b, b ∈ bs ∧ b.stop = offset + 1) ∧
      (∀ files, children parent t = .ok files ↔
        List.Forall₂ (fun b file => ∃ name, NamesType b.text name ∧
          file = ⟨String.ofList name, String.ofList b.text, some parent⟩) bs files) ∧
      ∀ fault, children parent t = .error fault ↔ ∃ before b after cause,
        bs = before ++ b :: after ∧ (∀ c ∈ before, ∃ name, NamesType c.text name) ∧
          NamesNone b.text cause ∧ fault = .classSyntax parent cause := by
  obtain ⟨bs, htexts, hstands, hapart, hreturns⟩ := exists_topBlocks t
  refine ⟨bs, hstands, hapart, hreturns, fun files => ?_, fun fault => ?_⟩
  · rw [children_eq_ok_iff, ← htexts, List.forall₂_map_left_iff]
    simp only [child_eq_ok_iff, declaredName_eq_ok_iff]
  · rw [children, ← htexts, mapM_child_eq_error_iff]
    constructor
    · rintro ⟨before, block, after, hsplit, hbefore, hblock⟩
      obtain ⟨front, rest, rfl, rfl, hrest⟩ := List.map_eq_append_iff.mp hsplit
      obtain ⟨b, behind, rfl, rfl, rfl⟩ := List.map_eq_cons_iff.mp hrest
      obtain ⟨cause, hcause, hfault⟩ := child_eq_error_iff.mp hblock
      refine ⟨front, b, behind, cause, rfl, fun c hc => ?_,
        declaredName_eq_error_iff.mp hcause, hfault⟩
      obtain ⟨file, hfile⟩ := hbefore c.text (List.mem_map_of_mem hc)
      obtain ⟨name, hname, -⟩ := child_eq_ok_iff.mp hfile
      exact ⟨name, declaredName_eq_ok_iff.mp hname⟩
    · rintro ⟨before, b, after, cause, rfl, hbefore, hcause, hfault⟩
      refine ⟨before.map TopBlock.text, b.text, after.map TopBlock.text, by simp, ?_,
        child_eq_error_iff.mpr ⟨cause, hcause.declaredName_eq, hfault⟩⟩
      intro block hblock
      obtain ⟨c, hc, rfl⟩ := List.mem_map.mp hblock
      obtain ⟨name, hname⟩ := hbefore c hc
      exact ⟨_, child_eq_ok_iff.mpr ⟨name, hname.declaredName_eq, rfl⟩⟩

example : children "Main" "stray;\x7d class Helper\x7bint x;\x7dinterface Greeter<T>{}".toList =
    .ok [⟨"Helper", "\x7d class Helper\x7bint x;\x7d", some "Main"⟩,
      ⟨"Greeter", "interface Greeter<T>{}", some "Main"⟩] := by
  decide +kernel

end Declaration

end ClassDiagram
