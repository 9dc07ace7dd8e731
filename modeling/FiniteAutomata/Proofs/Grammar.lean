import FiniteAutomata.Format.Document
import FiniteAutomata.Proofs.Construction
import FiniteAutomata.Proofs.Tokens
import Mathlib.Data.List.Forall2

/-! The grammar of automaton files and what a file says. The grammar is a relation between a text and a
document, and it does not say how a text is read: a header of words, then lines which are blank or describe
one state each. Several lines may describe a state, and the automaton that a document denotes has what any
of them says. -/

namespace FiniteAutomata.Format

open Text

/-- One decimal digit or more, for a number that a state can have. Leading zeros count for nothing. -/
structure IsNumeral (cs : List Char) (q : StateId) : Prop where
  nonempty : cs ≠ []
  digits : ∀ c ∈ cs, c.isDigit = true
  value : Nat.ofDigitChars 10 cs 0 = q
  fits : q ≤ StateId.largest

/-- A field is a hyphen, for no target, or it lists numerals of targets with bars between them. -/
inductive IsField : List Char → List StateId → Prop where
  | hyphen : IsField ['-'] []
  | targets {numerals : List (List Char)} {targets : List StateId} :
    numerals ≠ [] → List.Forall₂ IsNumeral numerals targets → IsField (['|'].intercalate numerals) targets

/-- A marker and whether it marks a state as initial and as final. -/
inductive IsMarker : List Char → Bool → Bool → Prop where
  | neither : IsMarker [] false false
  | initial : IsMarker ['>'] true false
  | final : IsMarker ['<'] false true
  | finalInitial : IsMarker ['<', '>'] true true
  | initialFinal : IsMarker ['>', '<'] true true

/-- A line about a state: a marker, which may be absent, a numeral and `width` fields. There may be blanks
before and behind the marker, and there are blanks between the numeral and the fields. -/
inductive IsStateLine (width : Nat) : List Char → StateLine → Prop where
  | mk {before marker gap numeral rest : List Char} {fields : List (List Char)} {line : StateLine} :
    Gap before → IsMarker marker line.isInitial line.isFinal → Gap gap → IsNumeral numeral line.state →
    EndsWord rest → HasWords rest fields → fields.length = width → List.Forall₂ IsField fields line.targets →
    IsStateLine width (before ++ marker ++ gap ++ numeral ++ rest) line

/-- The lines behind the header, of which the blank ones say nothing. -/
inductive AreStateLines (width : Nat) : List (List Char) → List StateLine → Prop where
  | nil : AreStateLines width [] []
  | blank {text : List Char} {texts : List (List Char)} {lines : List StateLine} :
    Gap text → AreStateLines width texts lines → AreStateLines width (text :: texts) lines
  | line {text : List Char} {texts : List (List Char)} {line : StateLine} {lines : List StateLine} :
    IsStateLine width text line → AreStateLines width texts lines →
    AreStateLines width (text :: texts) (line :: lines)

/-- The words of the header are the kind and then the symbols, no two of which are equal. -/
structure IsHeader (text : List Char) (header : Header) : Prop where
  words : HasWords text (header.kind.name.toList :: header.symbols.map (·.toList))
  distinct : header.symbols.Nodup

/-- The first line is a header, and all other lines fit to it. -/
inductive AreLines : List (List Char) → Document → Prop where
  | mk {first : List Char} {texts : List (List Char)} {d : Document} :
    IsHeader first d.header → AreStateLines d.header.symbols.length texts d.lines → AreLines (first :: texts) d

/-- The text is a file of the document. -/
def IsFile (text : List Char) (d : Document) : Prop := AreLines (text.splitOn '\n') d

section Lines

variable {width : Nat} {c : Char} {text : List Char} {texts : List (List Char)} {line : StateLine}
  {lines : List StateLine} {header : Header} {d : Document}

theorem IsStateLine.not_gap (h : IsStateLine width text line) : ¬ Gap text := by
  obtain ⟨_, _, _, hq, _, _, _, _⟩ := h
  intro hgap
  obtain ⟨c, hc⟩ := List.exists_mem_of_ne_nil _ hq.nonempty
  have hblank := hgap c (by simp [hc])
  rw [isBlank_eq_false_of_isDigit (hq.digits c hc)] at hblank
  exact Bool.false_ne_true hblank

theorem areStateLines_cons : AreStateLines width (text :: texts) lines ↔
    Gap text ∧ AreStateLines width texts lines ∨
      ∃ line rest, IsStateLine width text line ∧ AreStateLines width texts rest ∧ lines = line :: rest := by
  refine ⟨?_, ?_⟩
  · intro h
    cases h with
    | blank hgap h => exact .inl ⟨hgap, h⟩
    | line hline h => exact .inr ⟨_, _, hline, h, rfl⟩
  · rintro (⟨hgap, h⟩ | ⟨line, rest, hline, h, rfl⟩)
    · exact .blank hgap h
    · exact .line hline h

theorem areLines_cons : AreLines (text :: texts) d ↔
    IsHeader text d.header ∧ AreStateLines d.header.symbols.length texts d.lines := by
  refine ⟨?_, ?_⟩
  · rintro ⟨hheader, hlines⟩
    exact ⟨hheader, hlines⟩
  · rintro ⟨hheader, hlines⟩
    exact .mk hheader hlines

theorem not_isHeader_nil : ¬ IsHeader [] header := fun h => nomatch h.words.tokens_eq

theorem isHeader_concat_blank (hc : isBlank c = true) :
    IsHeader (text ++ [c]) header ↔ IsHeader text header := by
  refine ⟨?_, ?_⟩
  · intro h
    exact ⟨(hasWords_concat_blank hc).1 h.words, h.distinct⟩
  · intro h
    exact ⟨(hasWords_concat_blank hc).2 h.words, h.distinct⟩

/-- A state line ends with a numeral, with a field or with blanks, and one more blank changes nothing. -/
theorem isStateLine_concat_blank (hc : isBlank c = true) :
    IsStateLine width (text ++ [c]) line ↔ IsStateLine width text line := by
  refine ⟨?_, ?_⟩
  · generalize htext : text ++ [c] = whole
    rintro @⟨before, marker, gap, numeral, rest, fields, _, hbefore, hmarker, hgap, hq, hrest, hwords, hwidth,
      htargets⟩
    rcases List.eq_nil_or_concat rest with rfl | ⟨rest, b, rfl⟩
    -- The last character of a numeral is a digit and no blank, so the blank stands behind it.
    · obtain ⟨digits, d, rfl⟩ := (List.eq_nil_or_concat numeral).resolve_left hq.nonempty
      rw [List.append_nil, List.concat_eq_append, ← List.append_assoc] at htext
      obtain ⟨_, heq⟩ := List.append_inj' htext rfl
      obtain rfl : c = d := List.head_eq_of_cons_eq heq
      rw [isBlank_eq_false_of_isDigit (hq.digits c (by simp))] at hc
      exact absurd hc Bool.false_ne_true
    · rw [List.concat_eq_append] at hrest hwords htext
      rw [← List.append_assoc] at htext
      obtain ⟨rfl, heq⟩ := List.append_inj' htext rfl
      obtain rfl : c = b := List.head_eq_of_cons_eq heq
      exact .mk hbefore hmarker hgap hq ((endsWord_concat_blank hc).1 hrest)
        ((hasWords_concat_blank hc).1 hwords) hwidth htargets
  · rintro ⟨hbefore, hmarker, hgap, hq, hrest, hwords, hwidth, htargets⟩
    rw [List.append_assoc]
    exact .mk hbefore hmarker hgap hq ((endsWord_concat_blank hc).2 hrest) (hwords.concat_blank hc) hwidth
      htargets

end Lines

namespace Document

variable (d : Document)

/-- A number is a state when a line describes it or has it among its targets. -/
def HasState (q : StateId) : Prop := ∃ line ∈ d.lines, q = line.state ∨ ∃ targets ∈ line.targets, q ∈ targets

/-- Some line about the state has the mark. -/
def HasMark (mark : StateLine → Bool) (q : StateId) : Prop :=
  ∃ line ∈ d.lines, mark line = true ∧ line.state = q

/-- A line about `p` has `q` in the column of the symbol. -/
def HasEdge (p : StateId) (s : Symbol) (q : StateId) : Prop :=
  ∃ line ∈ d.lines, line.state = p ∧ ∃ (i : Nat) (targets : List StateId),
    d.header.symbols[i]? = some s ∧ line.targets[i]? = some targets ∧ q ∈ targets

/-- All lines together mark one state as initial, and name at most one target for each state and symbol; epsilon
is not a symbol. -/
structure IsDeterministic : Prop where
  one_initial : ∃ q, ∀ p, d.HasMark (·.isInitial) p ↔ p = q
  epsilon_not_mem : epsilon ∉ d.header.symbols
  functional : ∀ p s q r, d.HasEdge p s q → d.HasEdge p s r → q = r

/-- The automaton has what the document says, and nothing else. It is one that can be built, which leaves no
choice for the rows of its table. -/
structure Denotes (a : Automaton) : Prop where
  kind : a.kind = d.header.kind
  alphabet : ∀ s, s ∈ a.alphabet ↔ s ∈ d.header.symbols
  states : ∀ q, q ∈ a.states ↔ d.HasState q
  initial : ∀ q, q ∈ a.initial ↔ d.HasMark (·.isInitial) q
  final : ∀ q, q ∈ a.final ↔ d.HasMark (·.isFinal) q
  edges : ∀ p s q, a.HasEdge p s q ↔ d.HasEdge p s q
  built : a.Built

end Document

end FiniteAutomata.Format
