import FiniteAutomata.Proofs.Parsing
import FiniteAutomata.Proofs.Validity

/-! What is read from a text. A text of the grammar is read as the automaton that its document denotes, with
what all of its lines say together, and no other text is read. A document without the claim to be
deterministic is always accepted; one with it is accepted when it is deterministic. -/

namespace FiniteAutomata.Format

open Text

variable {d : Document} {a b : Automaton} {p q : StateId} {s : Symbol} {line : StateLine}

theorem mem_mentioned : q ∈ line.mentioned ↔ q = line.state ∨ ∃ targets ∈ line.targets, q ∈ targets := by
  rw [StateLine.mentioned, List.mem_cons, List.mem_flatten]

/-- The targets in a column are those under the symbol of the column. -/
theorem mem_lineEdges {symbols : List Symbol} : ⟨p, s, q⟩ ∈ line.edges symbols ↔
    line.state = p ∧ ∃ (i : Nat) (targets : List StateId),
      symbols[i]? = some s ∧ line.targets[i]? = some targets ∧ q ∈ targets := by
  rw [StateLine.edges, List.mem_flatMap]
  refine ⟨?_, ?_⟩
  · rintro ⟨⟨t, targets⟩, hcolumn, hmem⟩
    obtain ⟨r, hr, heq⟩ := List.mem_map.1 hmem
    cases heq
    obtain ⟨i, hi⟩ := List.mem_iff_getElem?.1 hcolumn
    obtain ⟨hsymbol, htargets⟩ := List.getElem?_zip_eq_some.1 hi
    exact ⟨rfl, i, targets, hsymbol, htargets, hr⟩
  · rintro ⟨rfl, i, targets, hsymbol, htargets, hq⟩
    have hcolumn : (symbols.zip line.targets)[i]? = some (s, targets) :=
      List.getElem?_zip_eq_some.2 ⟨hsymbol, htargets⟩
    exact ⟨(s, targets), List.mem_of_getElem? hcolumn, List.mem_map.2 ⟨q, hq, rfl⟩⟩

namespace Document

section Denotation

theorem HasMark.hasState {mark : StateLine → Bool} (h : d.HasMark mark q) : d.HasState q := by
  obtain ⟨line, hline, _, rfl⟩ := h
  exact ⟨line, hline, .inl rfl⟩

theorem HasEdge.source_hasState (h : d.HasEdge p s q) : d.HasState p := by
  obtain ⟨line, hline, rfl, _⟩ := h
  exact ⟨line, hline, .inl rfl⟩

theorem HasEdge.target_hasState (h : d.HasEdge p s q) : d.HasState q := by
  obtain ⟨line, hline, _, i, targets, _, htargets, hq⟩ := h
  exact ⟨line, hline, .inr ⟨targets, List.mem_of_getElem? htargets, hq⟩⟩

theorem HasEdge.symbol_mem (h : d.HasEdge p s q) : s ∈ d.header.symbols := by
  obtain ⟨_, _, _, i, _, hsymbol, _⟩ := h
  exact List.mem_of_getElem? hsymbol

theorem denotes_automaton (d : Document) : d.Denotes d.automaton := by
  have hstates (q) : q ∈ d.automaton.states ↔ d.HasState q := by
    simp only [automaton, SortedSet.mem_ofList, List.mem_flatMap, mem_mentioned]
    rfl
  have hmarks (mark : StateLine → Bool) (q) :
      q ∈ SortedSet.ofList ((d.lines.filter mark).map (·.state)) ↔ d.HasMark mark q := by
    simp only [SortedSet.mem_ofList, List.mem_map, List.mem_filter, and_assoc]
    rfl
  refine ⟨rfl, fun _ => SortedSet.mem_ofList, hstates, hmarks _, hmarks _, ?_, ?_⟩
  · intro p s q
    rw [Automaton.HasEdge, automaton, TransitionTable.mem_ofEdges, List.mem_flatMap]
    simp only [mem_lineEdges]
    rfl
  · refine Automaton.built_iff.2 ⟨?_, ?_, TransitionTable.noEmptyRow_ofEdges _⟩
    · intro q hq
      exact (hstates q).2 ((hmarks _ q).1 hq).hasState
    · intro q hq
      exact (hstates q).2 ((hmarks _ q).1 hq).hasState

/-- A document denotes one automaton. -/
theorem Denotes.unique (ha : d.Denotes a) (hb : d.Denotes b) : a = b := by
  refine Automaton.ext (ha.kind.trans hb.kind.symm) (fun q => (ha.states q).trans (hb.states q).symm)
    (fun s => (ha.alphabet s).trans (hb.alphabet s).symm) (fun q => (ha.initial q).trans (hb.initial q).symm)
    (fun q => (ha.final q).trans (hb.final q).symm) ?_
  refine TransitionTable.ext_of_edges ha.built.noEmptyRow hb.built.noEmptyRow ?_
  rintro ⟨p, s, q⟩
  exact (ha.edges p s q).trans (hb.edges p s q).symm

theorem denotes_iff : d.Denotes a ↔ a = d.automaton := by
  refine ⟨fun h => h.unique d.denotes_automaton, ?_⟩
  rintro rfl
  exact d.denotes_automaton

end Denotation

section Validity

theorem size_eq_one_iff {set : SortedSet StateId} : set.size = 1 ↔ ∃ q, ∀ p, p ∈ set ↔ p = q := by
  rw [SortedSet.size, List.length_eq_one_iff]
  refine exists_congr fun q => ⟨?_, ?_⟩
  · intro h p
    rw [← SortedSet.mem_toList, h, List.mem_singleton]
  · intro h
    exact SortedSet.toList_eq (List.pairwise_singleton _ q) fun p => (h p).trans List.mem_singleton.symm

theorem Denotes.deterministic_iff (h : d.Denotes a) : a.Deterministic ↔ d.IsDeterministic := by
  have hinitial : a.initial.size = 1 ↔ ∃ q, ∀ p, d.HasMark (·.isInitial) p ↔ p = q := by
    simp only [size_eq_one_iff, h.initial]
  have hepsilon : epsilon ∉ a.alphabet ↔ epsilon ∉ d.header.symbols := not_congr (h.alphabet epsilon)
  refine ⟨?_, ?_⟩
  · intro ha
    refine ⟨hinitial.1 ha.one_initial, hepsilon.1 ha.epsilon_not_mem, fun p s q r hq hr => ?_⟩
    exact ha.functional p s q r ((h.edges p s q).2 hq) ((h.edges p s r).2 hr)
  · intro hd
    refine ⟨hinitial.2 hd.one_initial, hepsilon.2 hd.epsilon_not_mem, fun p q hedge => ?_,
      fun p s q r hq hr => ?_⟩
    · exact hd.epsilon_not_mem ((h.edges p epsilon q).1 hedge).symbol_mem
    · exact hd.functional p s q r ((h.edges p s q).1 hq) ((h.edges p s r).1 hr)

/-- All marks and edges of a document stay inside its states and symbols. -/
theorem Denotes.valid_iff (h : d.Denotes a) : a.Valid ↔ (d.header.kind = .dfa → d.IsDeterministic) := by
  rw [← h.deterministic_iff, ← h.kind]
  refine ⟨Automaton.Valid.deterministic, fun hdeterministic => ?_⟩
  obtain ⟨hinitial, hfinal⟩ := h.built.marks_mem
  refine ⟨hinitial, hfinal, ?_, ?_, ?_, hdeterministic⟩
  · intro p s q hedge
    exact (h.states p).2 ((h.edges p s q).1 hedge).source_hasState
  · intro p s q hedge
    exact (h.states q).2 ((h.edges p s q).1 hedge).target_hasState
  · intro p s q hedge
    exact .inr ((h.alphabet s).2 ((h.edges p s q).1 hedge).symbol_mem)

end Validity

end Document

section Faults

variable {α β : Type} {x : Except Error α} {g : α → Except Error β} {width number : Nat} {cs : List Char}

/-- Every failure is a fault of the text, and none is one of a validated automaton. -/
def BlamesText (x : Except Error α) : Prop := ∀ fault, x ≠ .error (.invalid fault)

theorem BlamesText.ok (a : α) : BlamesText (.ok a) := fun _ h => nomatch h

theorem BlamesText.bind (hx : BlamesText x) (hg : ∀ a, BlamesText (g a)) : BlamesText (x >>= g) := by
  intro fault h
  rcases bind_eq_error.1 h with h | ⟨a, _, h⟩
  · exact hx fault h
  · exact hg a fault h

theorem BlamesText.mapM (hg : ∀ a, BlamesText (g a)) (l : List α) : BlamesText (l.mapM g) := by
  induction l with
  | nil => exact .ok _
  | cons a l ih =>
      rw [List.mapM_cons]
      exact (hg a).bind fun b => ih.bind fun l' => .ok _

theorem blamesText_parseIndex : BlamesText (parseIndex number cs) := by
  intro fault h
  rw [parseIndex] at h
  split at h <;> cases h

theorem blamesText_parseField : BlamesText (parseField number cs) := by
  rw [parseField]
  split
  · exact .ok _
  dsimp only
  split
  · exact .mapM (fun _ => blamesText_parseIndex) _
  · intro fault h
    cases h

theorem StateLine.blamesText_parse : BlamesText (StateLine.parse width number text) := by
  rw [StateLine.parse]
  dsimp only
  split
  · intro fault h
    cases h
  refine blamesText_parseIndex.bind fun q => ?_
  split
  · intro fault h
    cases h
  · exact (BlamesText.mapM (fun _ => blamesText_parseField) _).bind fun targets => .ok _

theorem blamesText_parseLines {texts : List String} : BlamesText (parseLines width number texts) := by
  induction texts generalizing number with
  | nil => exact .ok _
  | cons text texts ih =>
      rw [parseLines]
      split
      · exact ih
      · exact StateLine.blamesText_parse.bind fun line => ih.bind fun lines => .ok _

theorem Header.blamesText_parse {text : String} : BlamesText (Header.parse text) := by
  intro fault h
  rw [Header.parse] at h
  repeat' split at h
  all_goals cases h

theorem Document.blamesText_parse {stream : LineStream} : BlamesText (Document.parse stream) := by
  obtain ⟨texts, stop⟩ := stream
  cases texts with
  | nil =>
      intro fault h
      cases stop <;> cases h
  | cons first texts =>
      refine Header.blamesText_parse.bind fun header => blamesText_parseLines.bind fun lines => ?_
      cases stop with
      | none => exact .ok _
      | some stop =>
          intro fault h
          cases h

end Faults

section Reading

/-- Reading goes through a document, and validation decides whether it is accepted. -/
theorem read_of_parse {source : ByteSource} (h : Document.parse (.ofSource source) = .ok d) :
    (∀ a, read source = .ok a ↔ (d.header.kind = .dfa → d.IsDeterministic) ∧ d.Denotes a) ∧
      ((∃ fault, read source = .error (.invalid fault)) ↔ d.header.kind = .dfa ∧ ¬ d.IsDeterministic) := by
  have hvalid := Automaton.validate_eq_ok_iff.trans d.denotes_automaton.valid_iff
  have hread : read source = (d.automaton.validate.map fun _ => d.automaton).mapError .invalid := by
    rw [read, h]
    cases hresult : d.automaton.validate <;> simp only [bind, Except.bind, hresult] <;> rfl
  rw [hread]
  simp only [Document.denotes_iff]
  cases hresult : d.automaton.validate with
  | ok u =>
      have haccepted := hvalid.1 hresult
      refine ⟨fun a => ⟨?_, ?_⟩, ?_⟩
      · intro heq
        cases heq
        exact ⟨haccepted, rfl⟩
      · rintro ⟨_, rfl⟩
        rfl
      · exact iff_of_false (fun h => nomatch h) fun h => h.2 (haccepted h.1)
  | error fault =>
      have hrejected : ¬ (d.header.kind = .dfa → d.IsDeterministic) := by
        rw [← hvalid, hresult]
        exact fun h => nomatch h
      refine ⟨fun a => iff_of_false (fun h => nomatch h) fun h => hrejected h.1, ?_⟩
      exact iff_of_true ⟨fault, rfl⟩ (Classical.not_imp.1 hrejected)

theorem read_eq_ok {source : ByteSource} : read source = .ok a ↔
    ∃ d, Document.parse (.ofSource source) = .ok d ∧ (d.header.kind = .dfa → d.IsDeterministic) ∧ d.Denotes a := by
  refine ⟨?_, ?_⟩
  · intro hread
    obtain ⟨d, hparse, _⟩ := bind_eq_ok.1 hread
    exact ⟨d, hparse, ((read_of_parse hparse).1 a).1 hread⟩
  · rintro ⟨d, hparse, hdenotes⟩
    exact ((read_of_parse hparse).1 a).2 hdenotes

/-- The reader accepts exactly the texts of the format, with what they denote, and validation rejects no text
but those of automata that claim to be deterministic and are not. -/
theorem read_ofString_iff (text : String) :
    ((∃ a, read (.ofString text) = .ok a) ↔
      ∃ d, IsFile text.toList d ∧ (d.header.kind = .dfa → d.IsDeterministic)) ∧
    (∀ d, IsFile text.toList d → ∀ a, read (.ofString text) = .ok a ↔
      (d.header.kind = .dfa → d.IsDeterministic) ∧ d.Denotes a) ∧
    ((∃ fault, read (.ofString text) = .error (.invalid fault)) ↔
      ∃ d, IsFile text.toList d ∧ d.header.kind = .dfa ∧ ¬ d.IsDeterministic) := by
  refine ⟨⟨?_, ?_⟩, ?_, ⟨?_, ?_⟩⟩
  · rintro ⟨a, hread⟩
    obtain ⟨d, hparse, hdeterministic, _⟩ := read_eq_ok.1 hread
    exact ⟨d, parse_ofString_eq_ok.1 hparse, hdeterministic⟩
  · rintro ⟨d, hfile, hdeterministic⟩
    exact ⟨d.automaton, read_eq_ok.2 ⟨d, parse_ofString_eq_ok.2 hfile, hdeterministic, d.denotes_automaton⟩⟩
  · intro d hfile
    exact (read_of_parse (parse_ofString_eq_ok.2 hfile)).1
  · rintro ⟨fault, hread⟩
    rcases bind_eq_error.1 hread with hparse | ⟨d, hparse, _⟩
    · exact absurd hparse (Document.blamesText_parse fault)
    · exact ⟨d, parse_ofString_eq_ok.1 hparse, (read_of_parse hparse).2.1 ⟨fault, hread⟩⟩
  · rintro ⟨d, hfile, hkind⟩
    exact (read_of_parse (parse_ofString_eq_ok.2 hfile)).2.2 hkind

/-- Two lines about the state 0, one for each of its marks. -/
def twoLines : String := "DFA a\r\n> 0 1\n\n<0 -\n\t1 -"

def twoLinesAutomaton : Automaton :=
  { kind := .dfa
    states := .ofList [0, 1]
    alphabet := .ofList ["a"]
    initial := .ofList [0]
    final := .ofList [0]
    table := .ofEdges [⟨0, "a", 1⟩] }

theorem read_ofString_iff_twoLines :
    (∃ d, IsFile twoLines.toList d ∧ d.IsDeterministic ∧ d.Denotes twoLinesAutomaton) ∧
      ∃ d, IsFile "DFA a\n> 0 0|1".toList d ∧ ¬ d.IsDeterministic := by
  have hread : read (.ofString twoLines) = .ok twoLinesAutomaton := by decide +kernel
  have hrejected : read (.ofString "DFA a\n> 0 0|1") = .error (.invalid (.nondeterministic 0 "a")) := by
    decide +kernel
  obtain ⟨haccepted, hdenoted, _⟩ := read_ofString_iff twoLines
  obtain ⟨d, hfile, hdeterministic⟩ := haccepted.1 ⟨_, hread⟩
  have hdenotes := ((hdenoted d hfile _).1 hread).2
  refine ⟨⟨d, hfile, hdeterministic hdenotes.kind.symm, hdenotes⟩, ?_⟩
  obtain ⟨d', hfile', _, hnot⟩ := (read_ofString_iff "DFA a\n> 0 0|1").2.2.1 ⟨_, hrejected⟩
  exact ⟨d', hfile', hnot⟩

end Reading

end FiniteAutomata.Format
