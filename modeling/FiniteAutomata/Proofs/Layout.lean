import FiniteAutomata.Proofs.Columns
import Mathlib.Logic.Relation

/-! What does not matter in a file. The lines behind the header are a collection of statements about states: their
order, blank lines, the ends of lines, the blanks between words, the order of the two marks in a marker, the way
in which the statements about one state are spread over several lines and the order of the columns make no
difference to what is read, nor to whether anything is read. Each change is shown to turn the document of a file
into one that says the same, and so does any sequence of changes and of their reversals. -/

namespace FiniteAutomata.Format

open Text

variable {σ : Equiv.Perm Nat} {width : Nat} {first text text' : List Char}
  {before after texts texts' pieces pieces' : List (List Char)} {line : StateLine}
  {lines parts parts' : List StateLine} {d : Document} {a : Automaton}

section Changes

/-- Some blanks between words are replaced by others. -/
inductive Respaces : List Char → List Char → Prop where
  | mk {left gap gap' right : List Char} : Gap gap → gap ≠ [] → Gap gap' → gap' ≠ [] →
    Respaces (left ++ gap ++ right) (left ++ gap' ++ right)

/-- The marks of a marker at the start of a line change places. -/
inductive SwapsMarker : List Char → List Char → Prop where
  | mk {gap rest : List Char} : Gap gap → SwapsMarker (gap ++ '<' :: '>' :: rest) (gap ++ '>' :: '<' :: rest)

/-- Lines about the state of one line which together have its marks and, column by column, its targets. -/
structure StateLine.Splits (line : StateLine) (parts : List StateLine) : Prop where
  nonempty : parts ≠ []
  state : ∀ part ∈ parts, part.state = line.state
  width : ∀ part ∈ parts, part.targets.length = line.targets.length
  initial : line.isInitial = true ↔ ∃ part ∈ parts, part.isInitial = true
  final : line.isFinal = true ↔ ∃ part ∈ parts, part.isFinal = true
  targets : ∀ (i : Nat) (q : StateId), (∃ column, line.targets[i]? = some column ∧ q ∈ column) ↔
    ∃ part ∈ parts, ∃ column, part.targets[i]? = some column ∧ q ∈ column

/-- One change to the lines of a file, each of them without its line feed. The header takes part in the changes
to the ends of lines, to blanks and to columns. A line that ends the text without a line feed may get a carriage
return as well. -/
inductive Change : List (List Char) → List (List Char) → Prop where
  | permute {first : List Char} {texts texts' : List (List Char)} :
    texts.Perm texts' → Change (first :: texts) (first :: texts')
  | blank {first gap : List Char} {before after : List (List Char)} :
    Gap gap → Change (first :: (before ++ after)) (first :: (before ++ gap :: after))
  | lineEnds {pieces pieces' : List (List Char)} :
    List.Forall₂ (Relation.ReflGen fun text text' => text' = text ++ ['\r']) pieces pieces' → Change pieces pieces'
  | markers {first : List Char} {texts texts' : List (List Char)} :
    List.Forall₂ (Relation.ReflGen SwapsMarker) texts texts' → Change (first :: texts) (first :: texts')
  | blanks {pieces pieces' : List (List Char)} :
    List.Forall₂ (Relation.ReflGen Respaces) pieces pieces' → Change pieces pieces'
  | split {first text : List Char} {before texts after : List (List Char)} {line : StateLine}
    {parts : List StateLine} : Says text line → List.Forall₂ Says texts parts → line.Splits parts →
    Change (first :: (before ++ [text] ++ after)) (first :: (before ++ texts ++ after))
  | columns {σ : Equiv.Perm Nat} {first first' kind : List Char}
    {symbols symbols' texts texts' : List (List Char)} :
    HasWords first (kind :: symbols) → Rearranges σ symbols symbols' → HasWords first' (kind :: symbols') →
    List.Forall₂ (MovesFields σ symbols.length) texts texts' → Change (first :: texts) (first' :: texts')

/-- One text is the other one with one change. -/
def Relaid (text text' : String) : Prop := Change (text.toList.splitOn '\n') (text'.toList.splitOn '\n')

end Changes

section Reading

/-- The lines of one file say what those of the other one say. -/
def Simulates (pieces pieces' : List (List Char)) : Prop :=
  ∀ d, AreLines pieces d → ∃ d', AreLines pieces' d' ∧ d.Similar d'

theorem read_ofString_eq_ok {text : String} : read (.ofString text) = .ok a ↔
    (∃ d, AreLines (text.toList.splitOn '\n') d ∧ d.Denotes a) ∧ a.Valid := by
  rw [read_eq_ok]
  simp only [parse_ofString_eq_ok]
  refine ⟨?_, ?_⟩
  · rintro ⟨d, hfile, hdeterministic, hdenotes⟩
    exact ⟨⟨d, hfile, hdenotes⟩, hdenotes.valid_iff.2 hdeterministic⟩
  · rintro ⟨⟨d, hfile, hdenotes⟩, hvalid⟩
    exact ⟨d, hfile, hdenotes.valid_iff.1 hvalid, hdenotes⟩

theorem Simulates.read {text text' : String} (h : Simulates (text.toList.splitOn '\n') (text'.toList.splitOn '\n'))
    (hread : read (.ofString text) = .ok a) : read (.ofString text') = .ok a := by
  obtain ⟨⟨d, hlines, hdenotes⟩, hvalid⟩ := read_ofString_eq_ok.1 hread
  obtain ⟨d', hlines', hsimilar⟩ := h d hlines
  exact read_ofString_eq_ok.2 ⟨⟨d', hlines', hsimilar.denotes hdenotes⟩, hvalid⟩

theorem simulates_of_iff (h : ∀ d, AreLines pieces d ↔ AreLines pieces' d) :
    Simulates pieces pieces' ∧ Simulates pieces' pieces :=
  ⟨fun d hlines => ⟨d, (h d).1 hlines, .refl d⟩, fun d hlines => ⟨d, (h d).2 hlines, .refl d⟩⟩

end Reading

section Words

theorem areStateLines_congr
    (h : List.Forall₂ (fun text text' => (Gap text ↔ Gap text') ∧
      ∀ line, IsStateLine width text line ↔ IsStateLine width text' line) texts texts') :
    AreStateLines width texts lines ↔ AreStateLines width texts' lines := by
  induction h generalizing lines with
  | nil => exact Iff.rfl
  | cons htext _ ih => simp only [areStateLines_cons, htext.1, htext.2, ih]

/-- Only the words of the lines matter. -/
theorem areLines_congr (h : List.Forall₂ (fun text text' => tokens text = tokens text') pieces pieces') :
    AreLines pieces d ↔ AreLines pieces' d := by
  cases h with
  | nil => exact Iff.rfl
  | cons hfirst hrest =>
      rw [areLines_cons, areLines_cons, isHeader_congr hfirst, areStateLines_congr]
      exact hrest.imp fun _ _ htokens => ⟨gap_congr htokens, fun _ => isStateLine_congr htokens⟩

theorem Respaces.tokens_eq (h : Respaces text text') : tokens text = tokens text' := by
  obtain ⟨hgap, hne, hgap', hne'⟩ := h
  rw [tokens_append_gap_append hgap hne, tokens_append_gap_append hgap' hne']

/-- Behind the blanks both markers stand for the same two marks. -/
theorem SwapsMarker.parse_eq (h : SwapsMarker text text') :
    StateLine.parse width 0 text = StateLine.parse width 0 text' := by
  obtain ⟨hgap⟩ := h
  rw [StateLine.parse, StateLine.parse, trimStart_gap_append hgap, trimStart_gap_append hgap]
  rfl

theorem SwapsMarker.not_gap (h : SwapsMarker text text') : ¬ Gap text ∧ ¬ Gap text' := by
  obtain ⟨_⟩ := h
  refine ⟨fun hgap => ?_, fun hgap => ?_⟩ <;> exact absurd (hgap '<' (by simp)) (by decide)

end Words

section Lines

theorem areStateLines_insert_gap {gap : List Char} (hgap : Gap gap) :
    AreStateLines width (before ++ gap :: after) lines ↔ AreStateLines width (before ++ after) lines := by
  induction before generalizing lines with
  | nil =>
      rw [List.nil_append, List.nil_append, areStateLines_cons]
      refine ⟨?_, fun h => .inl ⟨hgap, h⟩⟩
      rintro (⟨_, h⟩ | ⟨line, rest, hline, _, _⟩)
      · exact h
      · exact absurd hgap hline.not_gap
  | cons text before ih => simp only [List.cons_append, areStateLines_cons, ih]

theorem areStateLines_append : AreStateLines width (texts ++ texts') lines ↔
    ∃ l l', AreStateLines width texts l ∧ AreStateLines width texts' l' ∧ lines = l ++ l' := by
  induction texts generalizing lines with
  | nil =>
      refine ⟨fun h => ⟨[], lines, .nil, h, rfl⟩, ?_⟩
      rintro ⟨_, l', ⟨⟩, h, rfl⟩
      exact h
  | cons text texts ih =>
      rw [List.cons_append, areStateLines_cons]
      refine ⟨?_, ?_⟩
      · rintro (⟨hgap, h⟩ | ⟨line, rest, hline, h, rfl⟩)
        · obtain ⟨l, l', hl, hl', rfl⟩ := ih.1 h
          exact ⟨l, l', .blank hgap hl, hl', rfl⟩
        · obtain ⟨l, l', hl, hl', rfl⟩ := ih.1 h
          exact ⟨line :: l, l', .line hline hl, hl', rfl⟩
      · rintro ⟨l, l', hl, hl', rfl⟩
        cases hl with
        | blank hgap hl => exact .inl ⟨hgap, ih.2 ⟨l, l', hl, hl', rfl⟩⟩
        | @line _ _ line rest hline hl => exact .inr ⟨line, rest ++ l', hline, ih.2 ⟨rest, l', hl, hl', rfl⟩, rfl⟩

theorem AreStateLines.exists_perm (h : AreStateLines width texts lines) (hperm : texts.Perm texts') :
    ∃ lines', AreStateLines width texts' lines' ∧ lines.Perm lines' := by
  induction hperm generalizing lines with
  | nil => exact ⟨lines, h, .refl lines⟩
  | cons text _ ih =>
      cases h with
      | blank hgap h =>
          obtain ⟨lines', hlines', hperm⟩ := ih h
          exact ⟨lines', .blank hgap hlines', hperm⟩
      | @line _ _ line _ hline h =>
          obtain ⟨lines', hlines', hperm⟩ := ih h
          exact ⟨line :: lines', .line hline hlines', hperm.cons line⟩
  | swap =>
      cases h with
      | blank hgap h =>
          cases h with
          | blank hgap' h => exact ⟨lines, .blank hgap' (.blank hgap h), .refl lines⟩
          | line hline h => exact ⟨_, .line hline (.blank hgap h), .refl _⟩
      | line hline h =>
          cases h with
          | blank hgap h => exact ⟨_, .blank hgap (.line hline h), .refl _⟩
          | line hline' h => exact ⟨_, .line hline' (.line hline h), .swap _ _ _⟩
  | trans _ _ ih₁ ih₂ =>
      obtain ⟨lines₁, hlines₁, hperm₁⟩ := ih₁ h
      obtain ⟨lines₂, hlines₂, hperm₂⟩ := ih₂ hlines₁
      exact ⟨lines₂, hlines₂, hperm₁.trans hperm₂⟩

theorem says_of_parse {number : Nat} (h : StateLine.parse width number text = .ok line) : Says text line :=
  (isStateLine_iff.1 (StateLine.parse_eq_ok.1 h)).1

/-- Lines with known contents are state lines when the contents fit. -/
theorem areStateLines_iff_of_said (h : List.Forall₂ Says texts parts) :
    AreStateLines width texts lines ↔ (∀ part ∈ parts, part.Fits width) ∧ lines = parts := by
  induction h generalizing lines with
  | nil =>
      refine ⟨?_, ?_⟩
      · rintro ⟨⟩
        exact ⟨List.forall_mem_nil _, rfl⟩
      · rintro ⟨_, rfl⟩
        exact .nil
  | @cons text part texts parts hsaid _ ih =>
      rw [areStateLines_cons, List.forall_mem_cons]
      refine ⟨?_, ?_⟩
      · rintro (⟨hgap, _⟩ | ⟨line, rest, hline, hrest, rfl⟩)
        · obtain ⟨_, _, hshape, _⟩ := hsaid
          exact absurd hgap hshape.not_gap
        · obtain ⟨hsaid', hfits⟩ := isStateLine_iff.1 hline
          obtain rfl := hsaid.unique hsaid'
          obtain ⟨hall, rfl⟩ := ih.1 hrest
          exact ⟨⟨hfits, hall⟩, rfl⟩
      · rintro ⟨⟨hfits, hall⟩, rfl⟩
        exact .inr ⟨part, parts, isStateLine_iff.2 ⟨hsaid, hfits⟩, ih.2 ⟨hall, rfl⟩, rfl⟩

end Lines

section Documents

/-- What is said somewhere is said before, within or behind a part of the lines. -/
theorem exists_mem_append_congr {P : StateLine → Prop} (h : (∃ x ∈ parts, P x) ↔ ∃ x ∈ parts', P x)
    (l l' : List StateLine) : (∃ x ∈ l ++ parts ++ l', P x) ↔ ∃ x ∈ l ++ parts' ++ l', P x := by
  simp only [List.mem_append, or_and_right, exists_or, h]

theorem similar_of_perm {header : Header} {lines' : List StateLine} (h : lines.Perm lines') :
    Document.Similar ⟨header, lines⟩ ⟨header, lines'⟩ := by
  have hexists (P : StateLine → Prop) : (∃ line ∈ lines, P line) ↔ ∃ line ∈ lines', P line := by
    simp only [h.mem_iff]
  exact ⟨rfl, fun _ => Iff.rfl, fun q => hexists _, fun q => hexists _, fun q => hexists _, fun p s q => hexists _⟩

/-- Every column has a position. -/
theorem exists_column_iff {q : StateId} : (∃ column ∈ line.targets, q ∈ column) ↔
    ∃ (i : Nat) (column : List StateId), line.targets[i]? = some column ∧ q ∈ column := by
  refine ⟨?_, ?_⟩
  · rintro ⟨column, hcolumn, hq⟩
    obtain ⟨i, hi⟩ := List.mem_iff_getElem?.1 hcolumn
    exact ⟨i, column, hi, hq⟩
  · rintro ⟨i, column, hi, hq⟩
    exact ⟨column, List.mem_of_getElem? hi, hq⟩

namespace StateLine.Splits

variable (h : line.Splits parts)

include h

theorem exists_mentioned_iff (q : StateId) : (q = line.state ∨ ∃ column ∈ line.targets, q ∈ column) ↔
    ∃ part ∈ parts, q = part.state ∨ ∃ column ∈ part.targets, q ∈ column := by
  simp only [exists_column_iff]
  refine ⟨?_, ?_⟩
  · rintro (rfl | ⟨i, htarget⟩)
    · obtain ⟨part, hpart⟩ := List.exists_mem_of_ne_nil parts h.nonempty
      exact ⟨part, hpart, .inl (h.state part hpart).symm⟩
    · obtain ⟨part, hpart, htarget⟩ := (h.targets i q).1 htarget
      exact ⟨part, hpart, .inr ⟨i, htarget⟩⟩
  · rintro ⟨part, hpart, rfl | ⟨i, htarget⟩⟩
    · exact .inl (h.state part hpart)
    · exact .inr ⟨i, (h.targets i q).2 ⟨part, hpart, htarget⟩⟩

theorem exists_mark_iff {mark : StateLine → Bool} (hmark : mark line = true ↔ ∃ part ∈ parts, mark part = true)
    (q : StateId) : (mark line = true ∧ line.state = q) ↔ ∃ part ∈ parts, mark part = true ∧ part.state = q := by
  rw [hmark]
  refine ⟨?_, ?_⟩
  · rintro ⟨⟨part, hpart, hmarked⟩, rfl⟩
    exact ⟨part, hpart, hmarked, h.state part hpart⟩
  · rintro ⟨part, hpart, hmarked, rfl⟩
    exact ⟨⟨part, hpart, hmarked⟩, (h.state part hpart).symm⟩

theorem exists_edge_iff (symbols : List Symbol) (p : StateId) (s : Symbol) (q : StateId) :
    (line.state = p ∧ ∃ (i : Nat) (column : List StateId),
      symbols[i]? = some s ∧ line.targets[i]? = some column ∧ q ∈ column) ↔
    ∃ part ∈ parts, part.state = p ∧ ∃ (i : Nat) (column : List StateId),
      symbols[i]? = some s ∧ part.targets[i]? = some column ∧ q ∈ column := by
  refine ⟨?_, ?_⟩
  · rintro ⟨rfl, i, column, hsymbol, htarget⟩
    obtain ⟨part, hpart, column, htarget⟩ := (h.targets i q).1 ⟨column, htarget⟩
    exact ⟨part, hpart, h.state part hpart, i, column, hsymbol, htarget⟩
  · rintro ⟨part, hpart, rfl, i, column, hsymbol, htarget⟩
    obtain ⟨column, htarget⟩ := (h.targets i q).2 ⟨part, hpart, column, htarget⟩
    exact ⟨(h.state part hpart).symm, i, column, hsymbol, htarget⟩

/-- A line says what its parts say together. -/
theorem similar (header : Header) (l l' : List StateLine) :
    Document.Similar ⟨header, l ++ [line] ++ l'⟩ ⟨header, l ++ parts ++ l'⟩ := by
  have hline {P : StateLine → Prop} (hP : P line ↔ ∃ part ∈ parts, P part) :
      (∃ x ∈ l ++ [line] ++ l', P x) ↔ ∃ x ∈ l ++ parts ++ l', P x :=
    exists_mem_append_congr (by simpa using hP) l l'
  exact ⟨rfl, fun _ => Iff.rfl, fun q => hline (h.exists_mentioned_iff q),
    fun q => hline (h.exists_mark_iff h.initial q), fun q => hline (h.exists_mark_iff h.final q),
    fun p s q => hline (h.exists_edge_iff header.symbols p s q)⟩

theorem fits_iff : line.Fits width ↔ ∀ part ∈ parts, part.Fits width := by
  refine ⟨fun hfits part hpart => ?_, fun hfits => ?_⟩
  · refine ⟨(h.width part hpart).trans hfits.1, fun q hq => hfits.2 q ?_⟩
    rw [mem_mentioned] at hq ⊢
    exact (h.exists_mentioned_iff q).2 ⟨part, hpart, hq⟩
  · obtain ⟨part, hpart⟩ := List.exists_mem_of_ne_nil parts h.nonempty
    refine ⟨(h.width part hpart).symm.trans (hfits part hpart).1, fun q hq => ?_⟩
    rw [mem_mentioned] at hq
    obtain ⟨part, hpart, hq⟩ := (h.exists_mentioned_iff q).1 hq
    exact (hfits part hpart).2 q (mem_mentioned.2 hq)

end StateLine.Splits

end Documents

section Steps

theorem simulates_of_perm (h : texts.Perm texts') : Simulates (first :: texts) (first :: texts') := by
  intro d hlines
  obtain ⟨hheader, hlines⟩ := areLines_cons.1 hlines
  obtain ⟨lines', hlines', hperm⟩ := hlines.exists_perm h
  exact ⟨⟨d.header, lines'⟩, .mk hheader hlines', similar_of_perm hperm⟩

/-- Lines with known contents may be replaced by others whose contents fit as well and say the same. -/
theorem simulates_of_said (hsaid : List.Forall₂ Says texts parts) (hsaid' : List.Forall₂ Says texts' parts')
    (hfits : ∀ width, (∀ part ∈ parts, part.Fits width) → ∀ part ∈ parts', part.Fits width)
    (hsimilar : ∀ header l l', Document.Similar ⟨header, l ++ parts ++ l'⟩ ⟨header, l ++ parts' ++ l'⟩) :
    Simulates (first :: (before ++ texts ++ after)) (first :: (before ++ texts' ++ after)) := by
  rintro ⟨header, lines⟩ hlines
  obtain ⟨hheader, hlines⟩ := areLines_cons.1 hlines
  obtain ⟨_, l', hlines, hl', rfl⟩ := areStateLines_append.1 hlines
  obtain ⟨l, _, hl, hlines, rfl⟩ := areStateLines_append.1 hlines
  obtain ⟨hfit, rfl⟩ := (areStateLines_iff_of_said hsaid).1 hlines
  have hlines' := (areStateLines_iff_of_said hsaid').2 ⟨hfits _ hfit, rfl⟩
  refine ⟨⟨header, l ++ parts' ++ l'⟩, .mk hheader ?_, hsimilar header l l'⟩
  exact areStateLines_append.2 ⟨_, l', areStateLines_append.2 ⟨l, parts', hl, hlines', rfl⟩, hl', rfl⟩

theorem StateLine.Splits.simulates (h : line.Splits parts) (hline : Says text line)
    (hparts : List.Forall₂ Says texts parts) :
    Simulates (first :: (before ++ [text] ++ after)) (first :: (before ++ texts ++ after)) ∧
      Simulates (first :: (before ++ texts ++ after)) (first :: (before ++ [text] ++ after)) := by
  have hsingle : List.Forall₂ Says [text] [line] := .cons hline .nil
  refine ⟨simulates_of_said hsingle hparts (fun width hfits => ?_) fun header l l' => ?_,
    simulates_of_said hparts hsingle (fun width hfits => ?_) fun header l l' => ?_⟩
  · exact h.fits_iff.1 (List.forall_mem_singleton.1 hfits)
  · exact h.similar header l l'
  · exact List.forall_mem_singleton.2 (h.fits_iff.2 hfits)
  · exact (h.similar header l l').symm

theorem simulates_of_moved {first' kind : List Char} {symbols symbols' : List (List Char)}
    (hfirst : HasWords first (kind :: symbols)) (hsymbols : Rearranges σ symbols symbols')
    (hfirst' : HasWords first' (kind :: symbols'))
    (htexts : List.Forall₂ (MovesFields σ symbols.length) texts texts') :
    Simulates (first :: texts) (first' :: texts') := by
  rintro ⟨header, lines⟩ hlines
  obtain ⟨⟨hwords, hdistinct⟩, hlines⟩ := areLines_cons.1 hlines
  obtain ⟨rfl, rfl⟩ := List.cons.inj (hfirst.tokens_eq.symm.trans hwords.tokens_eq)
  rw [List.length_map] at htexts
  obtain ⟨lines', hlines', hmoved⟩ := hlines.exists_moved htexts
  have hold : (header.symbols.map (·.toList)).map String.ofList = header.symbols := map_ofList_eq_iff.2 rfl
  have hnew : symbols' = (symbols'.map String.ofList).map (·.toList) := map_ofList_eq_iff.1 rfl
  have hnames := hsymbols.map String.ofList
  rw [hold] at hnames
  refine ⟨⟨⟨header.kind, symbols'.map String.ofList⟩, lines'⟩, .mk ⟨?_, hnames.nodup hdistinct⟩ ?_,
    similar_of_moved rfl hnames hmoved⟩
  · rwa [← hnew]
  · rwa [hnames.length_eq]

/-- One change: the documents of the two texts say the same. -/
theorem Change.simulates (h : Change pieces pieces') : Simulates pieces pieces' ∧ Simulates pieces' pieces := by
  cases h with
  | permute hperm => exact ⟨simulates_of_perm hperm, simulates_of_perm hperm.symm⟩
  | blank hgap =>
      refine simulates_of_iff fun d => ?_
      rw [areLines_cons, areLines_cons, areStateLines_insert_gap hgap]
  | lineEnds htexts =>
      refine simulates_of_iff fun d => areLines_congr (htexts.imp fun text text' h => ?_)
      rcases h with _ | rfl
      · rfl
      · exact (tokens_concat_blank rfl).symm
  | markers htexts =>
      refine simulates_of_iff fun d => ?_
      rw [areLines_cons, areLines_cons]
      refine and_congr_right fun _ => areStateLines_congr (htexts.imp fun text text' h => ?_)
      rcases h with _ | h
      · exact ⟨Iff.rfl, fun _ => Iff.rfl⟩
      · refine ⟨iff_of_false h.not_gap.1 h.not_gap.2, fun line => ?_⟩
        rw [← StateLine.parse_eq_ok, ← StateLine.parse_eq_ok, h.parse_eq]
  | blanks htexts =>
      refine simulates_of_iff fun d => areLines_congr (htexts.imp fun text text' h => ?_)
      rcases h with _ | h
      · rfl
      · exact h.tokens_eq
  | split hline hparts hsplits => exact hsplits.simulates hline hparts
  | columns hfirst hsymbols hfirst' htexts =>
      refine ⟨simulates_of_moved hfirst hsymbols hfirst' htexts, ?_⟩
      apply simulates_of_moved hfirst' hsymbols.symm hfirst
      rw [hsymbols.length_eq]
      exact htexts.flip.imp fun _ _ h => h.symm

/-- Reading does not depend on the layout: after any number of changes, made or taken back, a text is read as the
same automaton, or it is not read either. -/
theorem read_relaid {text text' : String} (h : Relation.EqvGen Relaid text text') (a : Automaton) :
    read (.ofString text) = .ok a ↔ read (.ofString text') = .ok a := by
  induction h with
  | rel text text' h =>
      obtain ⟨hto, hback⟩ := Change.simulates h
      exact ⟨hto.read, hback.read⟩
  | refl => exact Iff.rfl
  | symm _ _ _ ih => exact ih.symm
  | trans _ _ _ _ _ ih₁ ih₂ => exact ih₁.trans ih₂

/-- One line about each state. -/
def compact : String := "NFA a b\n<>0 1|2 -\n1 - 0"

/-- Two lines about the state 0, the lines and the columns in another order, and other ends of lines. -/
def loose : String := "NFA b a\r\n1 0 -\r\n>0 - 1\r\n<0 - 2|1"

def compactAutomaton : Automaton :=
  { kind := .nfa
    states := .ofList [0, 1, 2]
    alphabet := .ofList ["a", "b"]
    initial := .ofList [0]
    final := .ofList [0]
    table := .ofEdges [⟨0, "a", 1⟩, ⟨0, "a", 2⟩, ⟨1, "b", 0⟩] }

theorem read_relaid_compact : Relation.EqvGen Relaid compact loose ∧
    read (.ofString compact) = .ok compactAutomaton ∧ read (.ofString loose) = .ok compactAutomaton := by
  have hcompact : compact.toList.splitOn '\n' = ["NFA a b".toList, "<>0 1|2 -".toList, "1 - 0".toList] := by
    decide +kernel
  have hspread : "NFA a b\n>0 1 -\n<0 2|1 -\n1 - 0".toList.splitOn '\n' =
      ["NFA a b".toList, ">0 1 -".toList, "<0 2|1 -".toList, "1 - 0".toList] := by decide +kernel
  have hmixed : "NFA a b\n1 - 0\n>0 1 -\n<0 2|1 -".toList.splitOn '\n' =
      ["NFA a b".toList, "1 - 0".toList, ">0 1 -".toList, "<0 2|1 -".toList] := by decide +kernel
  have hmoved : "NFA b a\n1 0 -\n>0 - 1\n<0 - 2|1".toList.splitOn '\n' =
      ["NFA b a".toList, "1 0 -".toList, ">0 - 1".toList, "<0 - 2|1".toList] := by decide +kernel
  have hloose : loose.toList.splitOn '\n' =
      ["NFA b a\r".toList, "1 0 -\r".toList, ">0 - 1\r".toList, "<0 - 2|1".toList] := by decide +kernel
  have hsplit : Relaid compact "NFA a b\n>0 1 -\n<0 2|1 -\n1 - 0" := by
    have hline : Says "<>0 1|2 -".toList ⟨true, true, 0, [[1, 2], []]⟩ :=
      says_of_parse (show StateLine.parse 2 2 _ = _ by decide +kernel)
    have hinitial : Says ">0 1 -".toList ⟨true, false, 0, [[1], []]⟩ :=
      says_of_parse (show StateLine.parse 2 2 _ = _ by decide +kernel)
    have hfinal : Says "<0 2|1 -".toList ⟨false, true, 0, [[2, 1], []]⟩ :=
      says_of_parse (show StateLine.parse 2 3 _ = _ by decide +kernel)
    rw [Relaid, hcompact, hspread]
    apply @Change.split _ _ [] _ _ _ _ hline (.cons hinitial (.cons hfinal .nil))
    refine ⟨by decide, by decide, by decide, by decide, by decide, fun i q => ?_⟩
    rcases i with _ | _ | i
    · simp [or_comm]
    · simp
    · simp
  have hpermute : Relaid "NFA a b\n>0 1 -\n<0 2|1 -\n1 - 0" "NFA a b\n1 - 0\n>0 1 -\n<0 2|1 -" := by
    rw [Relaid, hspread, hmixed]
    exact .permute (by decide)
  have hcolumns : Relaid "NFA a b\n1 - 0\n>0 1 -\n<0 2|1 -" "NFA b a\n1 0 -\n>0 - 1\n<0 - 2|1" := by
    have hswap (l r : List Char) : Rearranges (Equiv.swap 0 1) [l, r] [r, l] := by
      refine ⟨rfl, fun i => ?_⟩
      rcases i with _ | _ | i
      · rfl
      · rfl
      · rw [Equiv.swap_apply_of_ne_of_ne (by omega) (by omega)]
        rfl
    have hmoves {marker : List Char} {i f : Bool} (hmarker : IsMarker marker i f) (digits l r : List Char)
        (hdigits : IsDigits digits) {text text' : List Char} (htokens : tokens text = [marker ++ digits, l, r])
        (htokens' : tokens text' = [marker ++ digits, r, l]) : MovesFields (Equiv.swap 0 1) 2 text text' :=
      .moved (hasShape_iff_words.2 ⟨hdigits, marker, hmarker, .inl (tokens_eq_iff.1 htokens)⟩) rfl (hswap l r)
        (hasShape_iff_words.2 ⟨hdigits, marker, hmarker, .inl (tokens_eq_iff.1 htokens')⟩)
    have hfirst : HasWords "NFA a b".toList ["NFA".toList, ['a'], ['b']] := tokens_eq_iff.1 (by decide +kernel)
    have hfirst' : HasWords "NFA b a".toList ["NFA".toList, ['b'], ['a']] := tokens_eq_iff.1 (by decide +kernel)
    unfold Relaid
    rw [hmixed, hmoved]
    refine .columns hfirst (hswap _ _) hfirst' (.cons ?_ (.cons ?_ (.cons ?_ .nil)))
    · exact hmoves .neither ['1'] ['-'] ['0'] (isDigits_iff.2 rfl) (by decide +kernel) (by decide +kernel)
    · exact hmoves .initial ['0'] ['1'] ['-'] (isDigits_iff.2 rfl) (by decide +kernel) (by decide +kernel)
    · exact hmoves .final ['0'] "2|1".toList ['-'] (isDigits_iff.2 rfl) (by decide +kernel) (by decide +kernel)
  have hends : Relaid "NFA b a\n1 0 -\n>0 - 1\n<0 - 2|1" loose := by
    unfold Relaid
    rw [hmoved, hloose]
    refine .lineEnds (.cons (.single ?_) (.cons (.single ?_) (.cons (.single ?_) (.cons .refl .nil)))) <;>
      decide +kernel
  have hrelaid : Relation.EqvGen Relaid compact loose :=
    ((Relation.EqvGen.rel _ _ hsplit).trans _ _ _ (.rel _ _ hpermute)).trans _ _ _
      ((Relation.EqvGen.rel _ _ hcolumns).trans _ _ _ (.rel _ _ hends))
  have hread : read (.ofString compact) = .ok compactAutomaton := by decide +kernel
  exact ⟨hrelaid, hread, (read_relaid hrelaid compactAutomaton).1 hread⟩

end Steps

end FiniteAutomata.Format
