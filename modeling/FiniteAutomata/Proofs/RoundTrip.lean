import FiniteAutomata.Proofs.Combination
import FiniteAutomata.Proofs.Reading
import FiniteAutomata.Proofs.Writing

/-! Writing an automaton and reading it back. The document of an automaton has columns for the symbols of the
alphabet only, so it denotes the automaton unless there are epsilon edges and epsilon has no column, and the
format can hold it unless a symbol is no word. Nothing else stands in the way, and an automaton that was read
has neither such edges nor such symbols. -/

namespace FiniteAutomata.Format

open Automaton Text

variable {a : Automaton} {p q : StateId} {s : Symbol} {line : StateLine}

namespace Document

theorem mem_lines_ofAutomaton : line ∈ (ofAutomaton a).lines ↔ ∃ q ∈ a.states, lineOf a q = line := by
  rw [ofAutomaton, List.mem_map]
  rfl

theorem hasEdge_ofAutomaton :
    (ofAutomaton a).HasEdge p s q ↔ p ∈ a.states ∧ s ∈ a.alphabet ∧ a.HasEdge p s q := by
  refine ⟨?_, ?_⟩
  · rintro ⟨line, hline, rfl, i, targets, hsymbol, htargets, hq⟩
    obtain ⟨p, hp, rfl⟩ := mem_lines_ofAutomaton.1 hline
    have hcolumn : (a.alphabet.toList.map (a.successors p))[i]? = some targets := htargets
    have hs : a.alphabet.toList[i]? = some s := hsymbol
    rw [List.getElem?_map, hs, Option.map_some, Option.some.injEq] at hcolumn
    subst hcolumn
    exact ⟨hp, List.mem_of_getElem? hs, mem_successors.1 hq⟩
  · rintro ⟨hp, hs, hedge⟩
    obtain ⟨i, hi⟩ := List.mem_iff_getElem?.1 hs
    have hcolumn : (a.alphabet.toList.map (a.successors p))[i]? = some (a.successors p s) := by
      rw [List.getElem?_map, hi, Option.map_some]
    exact ⟨lineOf a p, mem_lines_ofAutomaton.2 ⟨p, hp, rfl⟩, rfl, i, _, hi, hcolumn,
      mem_successors.2 hedge⟩

theorem hasState_ofAutomaton (hvalid : a.Valid) : (ofAutomaton a).HasState q ↔ q ∈ a.states := by
  refine ⟨?_, ?_⟩
  · rintro ⟨line, hline, hq⟩
    obtain ⟨p, hp, rfl⟩ := mem_lines_ofAutomaton.1 hline
    rcases hq with rfl | ⟨targets, hmem, hq⟩
    · exact hp
    · obtain ⟨s, _, rfl⟩ := List.mem_map.1 hmem
      exact hvalid.target_mem p s q (mem_successors.1 hq)
  · intro hq
    exact ⟨lineOf a q, mem_lines_ofAutomaton.2 ⟨q, hq, rfl⟩, .inl rfl⟩

theorem hasMark_ofAutomaton {mark : StateLine → Bool} :
    (ofAutomaton a).HasMark mark q ↔ q ∈ a.states ∧ mark (lineOf a q) = true := by
  refine ⟨?_, ?_⟩
  · rintro ⟨line, hline, hmark, rfl⟩
    obtain ⟨q, hq, rfl⟩ := mem_lines_ofAutomaton.1 hline
    exact ⟨hq, hmark⟩
  · rintro ⟨hq, hmark⟩
    exact ⟨lineOf a q, mem_lines_ofAutomaton.2 ⟨q, hq, rfl⟩, hmark, rfl⟩

/-- Edges under epsilon are all that the document can leave out. -/
theorem denotes_ofAutomaton (hbuilt : a.Built) (hvalid : a.Valid)
    (hepsilon : (∃ p q, a.HasEdge p epsilon q) → epsilon ∈ a.alphabet) : (ofAutomaton a).Denotes a := by
  refine ⟨rfl, fun s => Iff.rfl, fun q => (hasState_ofAutomaton hvalid).symm, fun q => ?_, fun q => ?_,
    fun p s q => ?_, hbuilt⟩
  · rw [hasMark_ofAutomaton, lineOf, decide_eq_true_iff]
    exact (and_iff_right_of_imp (hvalid.initial_mem q)).symm
  · rw [hasMark_ofAutomaton, lineOf, decide_eq_true_iff]
    exact (and_iff_right_of_imp (hvalid.final_mem q)).symm
  · rw [hasEdge_ofAutomaton]
    refine ⟨fun hedge => ⟨hvalid.source_mem p s q hedge, ?_, hedge⟩, fun hedge => hedge.2.2⟩
    rcases hvalid.symbol_mem p s q hedge with rfl | hs
    · exact hepsilon ⟨p, q, hedge⟩
    · exact hs

theorem fits_ofAutomaton (hvalid : a.Valid) (hstates : ∀ q ∈ a.states, q ≤ StateId.largest)
    (hwords : ∀ s ∈ a.alphabet, IsWord s.toList) : (ofAutomaton a).Fits := by
  refine ⟨hwords, SortedSet.nodup_toList a.alphabet, fun line hline => ?_, fun q hq => ?_⟩
  · obtain ⟨q, _, rfl⟩ := mem_lines_ofAutomaton.1 hline
    exact List.length_map _
  · exact hstates q ((hasState_ofAutomaton hvalid).1 hq)

end Document

theorem read_write (hbuilt : a.Built) (hvalid : a.Valid) (hstates : ∀ q ∈ a.states, q ≤ StateId.largest)
    (hwords : ∀ s ∈ a.alphabet, IsWord s.toList)
    (hepsilon : (∃ p q, a.HasEdge p epsilon q) → epsilon ∈ a.alphabet) : read (.ofString (write a)) = .ok a := by
  have hdenotes := Document.denotes_ofAutomaton hbuilt hvalid hepsilon
  have hfits := Document.fits_ofAutomaton hvalid hstates hwords
  exact read_eq_ok.2 ⟨Document.ofAutomaton a, parse_render_iff.2 hfits, hdenotes.valid_iff.1 hvalid, hdenotes⟩

/-- The conditions for an automaton to be read back hold of every automaton that was read. -/
theorem words_and_columns_of_read {source : ByteSource} (h : read source = .ok a) :
    (∀ s ∈ a.alphabet, IsWord s.toList) ∧ ((∃ p q, a.HasEdge p epsilon q) → epsilon ∈ a.alphabet) := by
  obtain ⟨d, hparse, _, hdenotes⟩ := read_eq_ok.1 h
  refine ⟨fun s hs => (fits_of_parse hparse).words s ((hdenotes.alphabet s).1 hs), ?_⟩
  rintro ⟨p, q, hedge⟩
  exact (hdenotes.alphabet epsilon).2 ((hdenotes.edges p epsilon q).1 hedge).symbol_mem

theorem read_write_of_read {source : ByteSource} (h : read source = .ok a) :
    read (.ofString (write a)) = .ok a := by
  obtain ⟨hwords, hepsilon⟩ := words_and_columns_of_read h
  obtain ⟨d, hparse, hdeterministic, hdenotes⟩ := read_eq_ok.1 h
  refine read_write hdenotes.built (hdenotes.valid_iff.2 hdeterministic) (fun q hq => ?_) hwords hepsilon
  exact (fits_of_parse hparse).states q ((hdenotes.states q).1 hq)

/-- An automaton is read back from its file exactly when its symbols are words and its epsilon edges, if there
are any, have a column. So is every automaton that was read, and writing it again gives the same file. -/
theorem write_read_roundTrip :
    (∀ a : Automaton, a.Built → (∀ q ∈ a.states, q ≤ StateId.largest) → a.validate = .ok () →
      (read (.ofString (write a)) = .ok a ↔
        (∀ s ∈ a.alphabet, IsWord s.toList) ∧ ((∀ p q, ¬ a.HasEdge p epsilon q) ∨ epsilon ∈ a.alphabet))) ∧
    ∀ (source : ByteSource) (a : Automaton), read source = .ok a →
      read (.ofString (write a)) = .ok a ∧ (read (.ofString (write a))).map write = .ok (write a) := by
  refine ⟨?_, ?_⟩
  · intro a hbuilt hstates hvalidate
    have hcolumn : ((∀ p q, ¬ a.HasEdge p epsilon q) ∨ epsilon ∈ a.alphabet) ↔
        ((∃ p q, a.HasEdge p epsilon q) → epsilon ∈ a.alphabet) := by
      rw [imp_iff_not_or, not_exists]
      simp only [not_exists]
    rw [hcolumn]
    refine ⟨words_and_columns_of_read, ?_⟩
    rintro ⟨hwords, hepsilon⟩
    exact read_write hbuilt (validate_eq_ok_iff.1 hvalidate) hstates hwords hepsilon
  · intro source a h
    have hread := read_write_of_read h
    refine ⟨hread, ?_⟩
    rw [hread]
    rfl

/-- An epsilon edge is lost in the file, until epsilon has a column. -/
theorem write_read_roundTrip_optionalA :
    optionalA.Built ∧ (∀ q ∈ optionalA.states, q ≤ StateId.largest) ∧ optionalA.validate = .ok () ∧
      read (.ofString (write optionalA)) ≠ .ok optionalA ∧
      (optionalA.addSymbol epsilon).validate = .ok () ∧
      read (.ofString (write (optionalA.addSymbol epsilon))) = .ok (optionalA.addSymbol epsilon) := by
  have hstates : ∀ q ∈ optionalA.states.toList, q ≤ StateId.largest := by decide +kernel
  have hvalidate : optionalA.validate = .ok () := by decide +kernel
  have hvalidate' : (optionalA.addSymbol epsilon).validate = .ok () := by decide +kernel
  have hedge : optionalA.HasEdge 0 epsilon 2 := by decide +kernel
  have hcolumn : epsilon ∉ optionalA.alphabet := by decide +kernel
  have hwords : ∀ s ∈ (optionalA.addSymbol epsilon).alphabet.toList, IsWord s.toList := by decide +kernel
  have hlost := write_read_roundTrip.1 optionalA built_optionalA hstates hvalidate
  have hkept := write_read_roundTrip.1 _ (built_optionalA.addSymbol epsilon) hstates hvalidate'
  refine ⟨built_optionalA, hstates, hvalidate, ?_, hvalidate', hkept.2 ⟨hwords, .inr ?_⟩⟩
  · rw [ne_eq, hlost]
    rintro ⟨_, hnone | hmem⟩
    · exact hnone 0 2 hedge
    · exact hcolumn hmem
  · exact SortedSet.mem_insert.2 (.inl rfl)

end FiniteAutomata.Format
