import FiniteAutomata.Proofs.Failures

/-! Automata that are edited. An edit is one operation on an automaton, and a renumbering in place may fail. Every
sequence of edits, from an automaton without states or from the one that accepts no word, keeps the marks on the
states and leaves no source without a transition, though a renumbering may send several sources to one. So an
edited automaton has no content besides its kind, its sets and its edges. -/

namespace FiniteAutomata.Automaton

variable {a : Automaton}

/-- What can be done to an automaton. -/
inductive Edit where
  | addState (q : StateId)
  | addSymbol (s : Symbol)
  | addInitial (q : StateId)
  | addFinal (q : StateId)
  | addEdge (e : Edge)
  | setKind (kind : Kind)
  | renumber (start : StateId)
  | clear

def Edit.apply (a : Automaton) : Edit → Automaton
  | addState q => a.addState q
  | addSymbol s => a.addSymbol s
  | addInitial q => a.addInitial q
  | addFinal q => a.addFinal q
  | addEdge e => a.addEdge e
  | setKind kind => a.withKind kind
  | renumber start => ((renumberInPlace start).run.run a).2
  | clear => a.clear

/-- The automata from which edits begin. -/
inductive Origin where
  | empty (kind : Kind)
  | emptyLanguage (alphabet : SortedSet Symbol)

def Origin.automaton : Origin → Automaton
  | empty kind => .empty kind
  | emptyLanguage alphabet => .emptyLanguage alphabet

/-- The automaton after some edits, the first of which is done first. -/
def edited (o : Origin) (edits : List Edit) : Automaton := edits.foldl Edit.apply o.automaton

theorem edited_concat (o : Origin) (edits : List Edit) (edit : Edit) :
    edited o (edits ++ [edit]) = edit.apply (edited o edits) := by
  rw [edited, List.foldl_append]
  rfl

theorem Origin.built (o : Origin) : o.automaton.Built := by
  cases o with
  | empty kind => exact .empty kind
  | emptyLanguage alphabet => exact .emptyLanguage alphabet

theorem Built.apply (h : a.Built) (edit : Edit) : (edit.apply a).Built := by
  cases edit with
  | addState q => exact h.addState q
  | addSymbol s => exact h.addSymbol s
  | addInitial q => exact h.addInitial q
  | addFinal q => exact h.addFinal q
  | addEdge e => exact h.addEdge e
  | setKind kind => exact h.withKind kind
  | renumber start =>
      rw [Edit.apply]
      cases hresult : a.renumber start with
      | ok b =>
          rw [run_renumberInPlace_of_ok hresult]
          exact h.renumber hresult
      | error fault =>
          rw [run_renumberInPlace_of_error hresult]
          exact h
  | clear => exact h.clear

theorem built_edited (o : Origin) (edits : List Edit) : (edited o edits).Built := by
  induction edits using List.reverseRecOn with
  | nil => exact o.built
  | append_singleton edits edit ih =>
      rw [edited_concat]
      exact ih.apply edit

/-- The automata that can be built are those that edits lead to. -/
theorem built_iff_exists_edited : a.Built ↔ ∃ o edits, edited o edits = a := by
  refine ⟨fun h => ?_, ?_⟩
  · have hedit : ∀ {a b : Automaton} (edit : Edit), (∃ o edits, edited o edits = a) → edit.apply a = b →
        ∃ o edits, edited o edits = b := by
      rintro _ _ edit ⟨o, edits, rfl⟩ rfl
      exact ⟨o, edits ++ [edit], edited_concat o edits edit⟩
    induction h with
    | empty kind => exact ⟨.empty kind, [], rfl⟩
    | emptyLanguage alphabet => exact ⟨.emptyLanguage alphabet, [], rfl⟩
    | withKind _ kind ih => exact hedit (.setKind kind) ih rfl
    | addState _ q ih => exact hedit (.addState q) ih rfl
    | addSymbol _ s ih => exact hedit (.addSymbol s) ih rfl
    | addInitial _ q ih => exact hedit (.addInitial q) ih rfl
    | addFinal _ q ih => exact hedit (.addFinal q) ih rfl
    | addEdge _ e ih => exact hedit (.addEdge e) ih rfl
    | @renumber _ _ start _ hb ih => exact hedit (.renumber start) ih (by rw [Edit.apply, run_renumberInPlace_of_ok hb])
    | clear _ ih => exact hedit .clear ih rfl
  · rintro ⟨o, edits, rfl⟩
    exact built_edited o edits

/-- What can be built is determined by its kind, its sets and its edges. -/
theorem Built.eq_iff {b : Automaton} (ha : a.Built) (hb : b.Built) : a = b ↔
    a.kind = b.kind ∧ a.alphabet = b.alphabet ∧ a.states = b.states ∧ a.initial = b.initial ∧
      a.final = b.final ∧ ∀ p s q, a.HasEdge p s q ↔ b.HasEdge p s q := by
  refine ⟨?_, ?_⟩
  · rintro rfl
    exact ⟨rfl, rfl, rfl, rfl, rfl, fun _ _ _ => Iff.rfl⟩
  · rintro ⟨hkind, halphabet, hstates, hinitial, hfinal, hedges⟩
    have htable : a.table = b.table :=
      TransitionTable.ext_of_edges ha.noEmptyRow hb.noEmptyRow fun e => hedges e.source e.symbol e.target
    exact Automaton.ext hkind (fun q => hstates ▸ Iff.rfl) (fun s => halphabet ▸ Iff.rfl)
      (fun q => hinitial ▸ Iff.rfl) (fun q => hfinal ▸ Iff.rfl) htable

/-- After any edits, all marks are on states and every source that is listed has a transition. Validation never
finds a mark on something else, and two edited automata are equal exactly when they have the same kind, the same
sets and the same edges. -/
theorem edited_invariant :
    (∀ (o : Origin) (edits : List Edit),
      (∀ q ∈ (edited o edits).initial, q ∈ (edited o edits).states) ∧
      (∀ q ∈ (edited o edits).final, q ∈ (edited o edits).states) ∧
      (∀ p row, (edited o edits).table.rows.find? p = some row → row ≠ ∅) ∧
      ∀ q, (edited o edits).validate ≠ .error (.unknownState q)) ∧
    ∀ (o o' : Origin) (edits edits' : List Edit), edited o edits = edited o' edits' ↔
      (edited o edits).kind = (edited o' edits').kind ∧
      (edited o edits).alphabet = (edited o' edits').alphabet ∧
      (edited o edits).states = (edited o' edits').states ∧
      (edited o edits).initial = (edited o' edits').initial ∧
      (edited o edits).final = (edited o' edits').final ∧
      ∀ p s q, (edited o edits).HasEdge p s q ↔ (edited o' edits').HasEdge p s q := by
  refine ⟨fun o edits => ?_, fun o o' edits edits' => ?_⟩
  · have hbuilt := built_edited o edits
    exact ⟨hbuilt.marks_mem.1, hbuilt.marks_mem.2, hbuilt.noEmptyRow, fun q => hbuilt.validate_ne_unknownState⟩
  · exact (built_edited o edits).eq_iff (built_edited o' edits')

/-- Two sources become one when 0 is renumbered to 1, where a transition of no state begins; the row of the
larger source is kept. -/
example : (edited (.empty .nfa)
    [.addInitial 0, .addEdge ⟨0, "a", 0⟩, .addEdge ⟨1, "b", 0⟩, .renumber 1, .renumber StateId.largest,
      .renumber (StateId.largest + 1)]).edges = [⟨StateId.largest, "b", StateId.largest⟩] := by
  decide +kernel

end FiniteAutomata.Automaton
