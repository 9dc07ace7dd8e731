import FiniteAutomata.Format.Writer
import FiniteAutomata.Proofs.Parsing

/-! Writing documents. A document that the format can hold has words for symbols, a field for each symbol on
every line, and numerals for states. What is written for it is one of its texts. Every document that is parsed
is of this kind, so a document is parsed from its own file exactly when the format can hold it. -/

namespace FiniteAutomata.Format

open Text

variable {d : Document} {q : StateId} {targets : List StateId} {line : StateLine} {words : List (List Char)}

section Words

theorem isWord_append_cons {word rest : List Char} {c : Char} (hword : IsWord word) (hc : isBlank c = false)
    (hrest : IsWord rest) : IsWord (word ++ c :: rest) := by
  refine ⟨by simp, fun b hb => ?_⟩
  rcases List.mem_append.1 hb with hb | hb
  · exact hword.2 b hb
  rcases List.mem_cons.1 hb with rfl | hb
  · exact hc
  · exact hrest.2 b hb

theorem isWord_intercalate {c : Char} (hc : isBlank c = false) (hne : words ≠ [])
    (h : ∀ word ∈ words, IsWord word) : IsWord ([c].intercalate words) := by
  induction words with
  | nil => exact absurd rfl hne
  | cons word words ih =>
      obtain ⟨hword, hwords⟩ := List.forall_mem_cons.1 h
      cases words with
      | nil =>
          rwa [List.intercalate_singleton]
      | cons next words =>
          rw [List.intercalate_cons_cons, List.append_assoc]
          exact isWord_append_cons hword hc (ih (List.cons_ne_nil _ _) hwords)

theorem lineFeed_not_mem_word {word : List Char} (h : IsWord word) : '\n' ∉ word :=
  fun hmem => absurd (h.2 '\n' hmem) (by decide)

theorem lineFeed_not_mem_spaces (h : ∀ word ∈ words, IsWord word) : '\n' ∉ words.flatMap (' ' :: ·) := by
  intro hmem
  obtain ⟨word, hword, hmem⟩ := List.mem_flatMap.1 hmem
  rcases List.mem_cons.1 hmem with heq | hmem
  · exact absurd heq (by decide)
  · exact lineFeed_not_mem_word (h word hword) hmem

theorem isNumeral_render (h : q ≤ StateId.largest) : IsNumeral (Decimal.render q) q :=
  parse?_eq_some_iff.1 (Decimal.parse?_render h)

theorem IsNumeral.isWord {numeral : List Char} (h : IsNumeral numeral q) : IsWord numeral :=
  ⟨h.nonempty, fun c hc => isBlank_eq_false_of_isDigit (h.digits c hc)⟩

theorem forall₂_isNumeral_render (h : ∀ q ∈ targets, q ≤ StateId.largest) :
    List.Forall₂ IsNumeral (targets.map Decimal.render) targets := by
  rw [List.forall₂_map_left_iff, List.forall₂_same]
  exact fun q hq => isNumeral_render (h q hq)

theorem isField_renderField (h : ∀ q ∈ targets, q ≤ StateId.largest) :
    IsField (renderField targets) targets := by
  rw [renderField]
  cases targets with
  | nil => exact .hyphen
  | cons q targets => exact .targets (List.cons_ne_nil _ _) (forall₂_isNumeral_render h)

theorem isWord_renderField (h : ∀ q ∈ targets, q ≤ StateId.largest) : IsWord (renderField targets) := by
  rw [renderField]
  split
  · decide
  · next hne =>
    refine isWord_intercalate rfl (by simpa using hne) fun numeral hmem => ?_
    obtain ⟨q, hq, rfl⟩ := List.mem_map.1 hmem
    exact (isNumeral_render (h q hq)).isWord

end Words

section Documents

/-- The format has a text for the document: words for the symbols, each of them once, a field for each symbol on
every line, and numerals for the states. -/
structure Document.Fits (d : Document) : Prop where
  words : ∀ s ∈ d.header.symbols, IsWord s.toList
  distinct : d.header.symbols.Nodup
  width : ∀ line ∈ d.lines, line.targets.length = d.header.symbols.length
  states : ∀ q, d.HasState q → q ≤ StateId.largest

/-- The line of a header, without its end. -/
def Header.text (h : Header) : List Char := h.kind.name.toList ++ (h.symbols.map (·.toList)).flatMap (' ' :: ·)

def StateLine.text (l : StateLine) : List Char :=
  renderMarker l.isInitial l.isFinal ++ [' '] ++ Decimal.render l.state ++
    (l.targets.map renderField).flatMap (' ' :: ·)

theorem render_header (h : Header) : h.render = h.text ++ ['\n'] := by
  rw [Header.render, Header.text, List.flatMap_map]

theorem render_line (l : StateLine) : l.render = l.text ++ ['\n'] := by
  rw [StateLine.render, StateLine.text, List.flatMap_map, List.append_assoc _ [' ']]
  rfl

theorem render_document (d : Document) :
    d.render.toList = (d.header.text :: d.lines.map StateLine.text).flatMap (· ++ ['\n']) := by
  rw [Document.render, String.toList_ofList, render_header, funext render_line, List.flatMap_cons,
    List.flatMap_map]

namespace Document.Fits

theorem isWord_symbols (h : d.Fits) : ∀ word ∈ d.header.symbols.map (·.toList), IsWord word := by
  intro word hmem
  obtain ⟨s, hs, rfl⟩ := List.mem_map.1 hmem
  exact h.words s hs

theorem targets_le (h : d.Fits) (hline : line ∈ d.lines) :
    ∀ targets ∈ line.targets, ∀ q ∈ targets, q ≤ StateId.largest :=
  fun targets hmem q hq => h.states q ⟨line, hline, .inr ⟨targets, hmem, hq⟩⟩

theorem isNumeral_state (h : d.Fits) (hline : line ∈ d.lines) :
    IsNumeral (Decimal.render line.state) line.state :=
  isNumeral_render (h.states line.state ⟨line, hline, .inl rfl⟩)

theorem isWord_fields (h : d.Fits) (hline : line ∈ d.lines) :
    ∀ word ∈ line.targets.map renderField, IsWord word := by
  intro word hmem
  obtain ⟨targets, htargets, rfl⟩ := List.mem_map.1 hmem
  exact isWord_renderField (h.targets_le hline targets htargets)

end Document.Fits

theorem isWord_kind (kind : Kind) : IsWord kind.name.toList := by
  cases kind <;> decide

theorem isHeader_text (h : d.Fits) : IsHeader d.header.text d.header :=
  ⟨.cons gap_nil (isWord_kind _) (endsWord_spaces _) (.of_spaces h.isWord_symbols), h.distinct⟩

theorem exists_renderMarker_eq (i f : Bool) : ∃ before marker,
    renderMarker i f = before ++ marker ∧ Gap before ∧ IsMarker marker i f := by
  have hspace : Gap [' '] := gap_cons.2 ⟨rfl, gap_nil⟩
  have hspaces : Gap [' ', ' '] := gap_cons.2 ⟨rfl, hspace⟩
  cases i with
  | true =>
      cases f with
      | true => exact ⟨[], _, rfl, gap_nil, .finalInitial⟩
      | false => exact ⟨[' '], _, rfl, hspace, .initial⟩
  | false =>
      cases f with
      | true => exact ⟨[' '], _, rfl, hspace, .final⟩
      | false => exact ⟨[' ', ' '], _, rfl, hspaces, .neither⟩

theorem isStateLine_text (h : d.Fits) (hline : line ∈ d.lines) :
    IsStateLine d.header.symbols.length line.text line := by
  have hfields : List.Forall₂ IsField (line.targets.map renderField) line.targets := by
    rw [List.forall₂_map_left_iff, List.forall₂_same]
    exact fun targets hmem => isField_renderField (h.targets_le hline targets hmem)
  have hwidth : (line.targets.map renderField).length = d.header.symbols.length := by
    rw [List.length_map, h.width line hline]
  obtain ⟨before, marker, hrender, hbefore, hmarker⟩ := exists_renderMarker_eq line.isInitial line.isFinal
  rw [StateLine.text, hrender]
  exact .mk hbefore hmarker (gap_cons.2 ⟨rfl, gap_nil⟩) (h.isNumeral_state hline) (endsWord_spaces _)
    (.of_spaces (h.isWord_fields hline)) hwidth hfields

/-- The empty piece behind the last line feed is one more blank line. -/
theorem areStateLines_text {width : Nat} {lines : List StateLine}
    (h : ∀ line ∈ lines, IsStateLine width line.text line) : AreStateLines width (lines.map StateLine.text ++ [[]]) lines := by
  induction lines with
  | nil => exact .blank gap_nil .nil
  | cons line lines ih =>
      obtain ⟨hline, hlines⟩ := List.forall_mem_cons.1 h
      exact .line hline (ih hlines)

/-- Lines that hold no line feed are found again between the line feeds behind them. -/
theorem splitOn_lines {texts : List (List Char)} (h : ∀ text ∈ texts, '\n' ∉ text) :
    (texts.flatMap (· ++ ['\n'])).splitOn '\n' = texts ++ [[]] := by
  induction texts with
  | nil => rfl
  | cons text texts ih =>
      obtain ⟨htext, htexts⟩ := List.forall_mem_cons.1 h
      rw [List.flatMap_cons, List.append_assoc, List.singleton_append,
        List.splitOn_append_cons_self_of_not_mem htext, ih htexts, List.cons_append]

theorem lineFeed_not_mem_header (h : d.Fits) : '\n' ∉ d.header.text := by
  rw [Header.text, List.mem_append, not_or]
  exact ⟨lineFeed_not_mem_word (isWord_kind _), lineFeed_not_mem_spaces h.isWord_symbols⟩

theorem lineFeed_not_mem_line (h : d.Fits) (hline : line ∈ d.lines) : '\n' ∉ line.text := by
  have hmarker : '\n' ∉ renderMarker line.isInitial line.isFinal ++ [' '] := by
    cases line.isInitial <;> cases line.isFinal <;> decide
  rw [StateLine.text, List.mem_append, List.mem_append, not_or, not_or]
  exact ⟨⟨hmarker, lineFeed_not_mem_word (h.isNumeral_state hline).isWord⟩,
    lineFeed_not_mem_spaces (h.isWord_fields hline)⟩

/-- What is written for a document that the format can hold is a text for this document. -/
theorem isFile_render (h : d.Fits) : IsFile d.render.toList d := by
  have hlines : ∀ text ∈ d.header.text :: d.lines.map StateLine.text, '\n' ∉ text := by
    refine List.forall_mem_cons.2 ⟨lineFeed_not_mem_header h, fun text hmem => ?_⟩
    obtain ⟨line, hline, rfl⟩ := List.mem_map.1 hmem
    exact lineFeed_not_mem_line h hline
  rw [IsFile, render_document, splitOn_lines hlines, List.cons_append]
  exact .mk (isHeader_text h) (areStateLines_text fun line => isStateLine_text h)

theorem forall_mem_of_forall₂ {α β : Type} {R : α → β → Prop} {P : β → Prop} {l : List α} {l' : List β}
    (h : List.Forall₂ R l l') (hR : ∀ a b, R a b → P b) : ∀ b ∈ l', P b := by
  induction h with
  | nil => exact fun _ hb => absurd hb List.not_mem_nil
  | cons hab _ ih => exact List.forall_mem_cons.2 ⟨hR _ _ hab, ih⟩

theorem IsField.targets_le {field : List Char} (h : IsField field targets) :
    ∀ q ∈ targets, q ≤ StateId.largest := by
  cases h with
  | hyphen => exact fun _ hq => absurd hq List.not_mem_nil
  | targets _ h => exact forall_mem_of_forall₂ h fun _ _ hq => hq.fits

theorem IsStateLine.fits {width : Nat} {text : List Char} (h : IsStateLine width text line) :
    line.targets.length = width ∧ line.state ≤ StateId.largest ∧
      ∀ targets ∈ line.targets, ∀ q ∈ targets, q ≤ StateId.largest := by
  obtain ⟨_, _, _, hq, _, _, hwidth, hfields⟩ := h
  exact ⟨hfields.length_eq ▸ hwidth, hq.fits, forall_mem_of_forall₂ hfields fun _ _ hfield => hfield.targets_le⟩

theorem AreStateLines.exists_text {width : Nat} {texts : List (List Char)} {lines : List StateLine}
    (h : AreStateLines width texts lines) : ∀ line ∈ lines, ∃ text, IsStateLine width text line := by
  induction h with
  | nil => exact fun _ hline => absurd hline List.not_mem_nil
  | blank _ _ ih => exact ih
  | line hline _ ih => exact List.forall_mem_cons.2 ⟨⟨_, hline⟩, ih⟩

theorem AreLines.fits {texts : List (List Char)} (h : AreLines texts d) : d.Fits := by
  obtain ⟨hheader, hlines⟩ := h
  refine ⟨fun s hs => ?_, hheader.distinct, fun line hline => ?_, fun q hq => ?_⟩
  · exact hheader.words.isWord (List.mem_cons_of_mem _ (List.mem_map_of_mem hs))
  · obtain ⟨text, hline⟩ := hlines.exists_text line hline
    exact hline.fits.1
  · obtain ⟨line, hline, hq⟩ := hq
    obtain ⟨text, hline⟩ := hlines.exists_text line hline
    obtain ⟨_, hstate, htargets⟩ := hline.fits
    rcases hq with rfl | ⟨targets, hmem, hq⟩
    · exact hstate
    · exact htargets targets hmem q hq

/-- The format can hold every document that is parsed. -/
theorem fits_of_parse {stream : LineStream} (h : Document.parse stream = .ok d) : d.Fits :=
  (Document.parse_eq_ok.1 h).2.fits

/-- A document is read back from what is written for it exactly when the format can hold it. -/
theorem parse_render_iff : Document.parse (.ofSource (.ofString d.render)) = .ok d ↔ d.Fits := by
  refine ⟨fits_of_parse, fun h => ?_⟩
  exact parse_ofString_eq_ok.2 (isFile_render h)

end Documents

end FiniteAutomata.Format
