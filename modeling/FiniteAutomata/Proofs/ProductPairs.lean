import FiniteAutomata.Proofs.Acceptance
import FiniteAutomata.Proofs.Product
import FiniteAutomata.Proofs.Tours
import Mathlib.Data.List.ProdSigma

/-! The states of the product. The loop that builds it gives out numbers while it goes through its queue, always the
next one that is free, and it ends once no pair is left. By then it has met exactly the pairs to which some word leads
the two automata together, and each of them has one number. -/

namespace FiniteAutomata.Product

open Automaton

variable {a b : Automaton} {pair first : StateId × StateId}

def bothFinal (a b : Automaton) (pair : StateId × StateId) : Bool :=
  decide (pair.1 ∈ a.final) && decide (pair.2 ∈ b.final)

/-- The states of `c` are the positions in `pairs`, a list of the pairs to which some word leads `a` and `b` together
from the pair `first`. -/
structure Enumerates (a b : Automaton) (first : StateId × StateId) (pairs : List (StateId × StateId))
    (c : Automaton) : Prop where
  nodup : pairs.Nodup
  mem_pairs : ∀ p q, (p, q) ∈ pairs ↔ ∃ w, a.follow? first.1 w = some p ∧ b.follow? first.2 w = some q
  mem_states : ∀ i, i ∈ c.states ↔ i < pairs.length
  mem_initial : ∀ i, i ∈ c.initial ↔ pairs[i]? = some first
  mem_final : ∀ i p q, pairs[i]? = some (p, q) → (i ∈ c.final ↔ p ∈ a.final ∧ q ∈ b.final)
  hasEdge : ∀ i j s p q p' q', pairs[i]? = some (p, q) → pairs[j]? = some (p', q') →
    (c.HasEdge i s j ↔ a.HasEdge p s p' ∧ b.HasEdge q s q')

section Words

variable (ha : a.Valid) (hadet : a.Deterministic) (hbdet : b.Deterministic)

include ha hadet hbdet

/-- The pairs that follow each other along the rows are those to which words lead. Towards the words the induction
is on the pairs, and back it is on the word. -/
theorem leads_iff_follow? : Search.Leads (fun pair => (row a b pair).map (·.2)) first pair ↔
    ∃ w, a.follow? first.1 w = some pair.1 ∧ b.follow? first.2 w = some pair.2 := by
  have hmoves : ∀ {pair next : StateId × StateId}, next ∈ (row a b pair).map (·.2) ↔
      ∃ s, a.successor? pair.1 s = some next.1 ∧ b.successor? pair.2 s = some next.2 := by
    intro pair next
    simp only [List.mem_map, Prod.exists, exists_eq_right, mem_row_iff_hasEdge ha hadet hbdet,
      hadet.successor?_eq_some_iff, hbdet.successor?_eq_some_iff]
  constructor
  · intro hleads
    induction hleads using Relation.ReflTransGen.head_induction_on with
    | refl => exact ⟨[], rfl, rfl⟩
    | head hnext _ ih =>
        obtain ⟨s, hp, hq⟩ := hmoves.1 hnext
        obtain ⟨w, hleft, hright⟩ := ih
        exact ⟨s :: w, Option.bind_eq_some_iff.2 ⟨_, hp, hleft⟩, Option.bind_eq_some_iff.2 ⟨_, hq, hright⟩⟩
  · rintro ⟨w, hleft, hright⟩
    induction w generalizing first with
    | nil =>
        have heq : first = pair := Prod.ext (Option.some.inj hleft) (Option.some.inj hright)
        exact heq ▸ .refl
    | cons s w ih =>
        obtain ⟨p, hp, hleft⟩ := Option.bind_eq_some_iff.1 hleft
        obtain ⟨q, hq, hright⟩ := Option.bind_eq_some_iff.1 hright
        have hnext : (p, q) ∈ (row a b first).map (·.2) := hmoves.2 ⟨s, hp, hq⟩
        exact .head hnext (ih hleft hright)

theorem mem_pairs_iff_follow? : pair ∈ pairs a b first ↔
    ∃ w, a.follow? first.1 w = some pair.1 ∧ b.follow? first.2 w = some pair.2 := by
  rw [pairs, Search.mem_reach_iff (bounded_pairs a b first)]
  simp only [List.mem_singleton, exists_eq_left]
  exact leads_iff_follow? ha hadet hbdet

/-- No pair is lost, and none gets two numbers. -/
theorem enumerates_automaton (hp : a.initialState? = some first.1) (hq : b.initialState? = some first.2) :
    Enumerates a b first (pairs a b first) (automaton a b) := by
  rw [automaton_eq_ofSearch hp hq]
  refine ⟨Search.nodup_reach _ _ _, ?_, fun i => mem_states_ofSearch, ?_, ?_, ?_⟩
  · exact fun p q => mem_pairs_iff_follow? ha hadet hbdet
  · intro i
    rw [mem_initial_ofSearch]
    constructor
    · rintro rfl
      obtain ⟨rest, hrest⟩ := Search.reach_singleton (fun pair => (row a b pair).map (·.2)) _ first
      rw [pairs, hrest]
      rfl
    · intro hi
      rw [← position_of_getElem? hi, position_first]
  · intro i p q hi
    have hmem := List.mem_of_getElem? hi
    rw [← position_of_getElem? hi, mem_final_position hmem, Bool.and_eq_true, decide_eq_true_eq, decide_eq_true_eq]
  · intro i j s p q p' q' hi hj
    rw [← position_of_getElem? hi, ← position_of_getElem? hj,
      hasEdge_positions (List.mem_of_getElem? hi) (List.mem_of_getElem? hj), mem_row_iff_hasEdge ha hadet hbdet]

end Words

/-- Both states of a pair are states of the automata, since words do not lead out of them. -/
theorem length_pairs_le (ha : a.Valid) (hb : b.Valid) (hadet : a.Deterministic) (hbdet : b.Deterministic)
    (hp : first.1 ∈ a.states) (hq : first.2 ∈ b.states) :
    (pairs a b first).length ≤ a.stateCount * b.stateCount := by
  have hsubset : pairs a b first ⊆ a.states.toList ×ˢ b.states.toList := by
    rintro ⟨p, q⟩ hpair
    obtain ⟨w, hleft, hright⟩ := (mem_pairs_iff_follow? ha hadet hbdet).1 hpair
    have hp' := ha.mem_states_of_path hp (hadet.path_iff_follow?.2 hleft)
    have hq' := hb.mem_states_of_path hq (hbdet.path_iff_follow?.2 hright)
    exact List.mem_product.2 ⟨hp', hq'⟩
  calc (pairs a b first).length ≤ (a.states.toList ×ˢ b.states.toList).length :=
        (List.subperm_of_subset (Search.nodup_reach _ _ _) hsubset).length_le
    _ = a.stateCount * b.stateCount := List.length_product _ _

/-- For two well-formed deterministic automata the loop ends, after a turn for each pair to which some word leads both
of them. The product has these pairs for its states, so there are no more than all pairs of states. It is a
well-formed deterministic automaton over the symbols of both. -/
theorem automaton_enumerates_pairs (hakind : a.kind = .dfa) (ha : a.validate = .ok ()) (hbkind : b.kind = .dfa)
    (hb : b.validate = .ok ()) :
    ∃ first pairs, a.initialState? = some first.1 ∧ b.initialState? = some first.2 ∧
      Loop.Ends (Tour.turn (row a b) (fun _ => false) (bothFinal a b)) pairs.length
        (.start (bothFinal a b) (a.alphabet ∪ b.alphabet) first) ⟨pairs.zipIdx, [], automaton a b⟩ ∧
      Enumerates a b first pairs (automaton a b) ∧
      (automaton a b).stateCount = pairs.length ∧ pairs.length ≤ a.stateCount * b.stateCount ∧
      (automaton a b).kind = .dfa ∧ (automaton a b).validate = .ok () ∧
      (automaton a b).alphabet = a.alphabet ∪ b.alphabet := by
  have havalid := validate_eq_ok_iff.1 ha
  have hbvalid := validate_eq_ok_iff.1 hb
  have hadet := havalid.deterministic hakind
  have hbdet := hbvalid.deterministic hbkind
  obtain ⟨p, hp⟩ := hadet.exists_initial
  obtain ⟨q, hq⟩ := hbdet.exists_initial
  have hp' := initialState?_of_initial hp
  have hq' := initialState?_of_initial hq
  obtain ⟨hkind, hvalid⟩ := valid_automaton hadet hbdet
  have hproduct := automaton_eq_ofSearch hp' hq'
  refine ⟨(p, q), pairs a b (p, q), hp', hq', ?_, enumerates_automaton havalid hadet hbdet hp' hq', ?_, ?_, hkind,
    validate_eq_ok_iff.2 hvalid, alphabet_automaton a b⟩
  · rw [hproduct]
    exact Tour.ends_start (rows_product a b (p, q))
  · rw [hproduct]
    exact stateCount_ofSearch
  · apply length_pairs_le havalid hbvalid hadet hbdet
    · exact havalid.initial_mem p ((mem_initial_of_singleton hp).2 rfl)
    · exact hbvalid.initial_mem q ((mem_initial_of_singleton hq).2 rfl)

/-- After `ab` the states are paired in another way than before. -/
theorem automaton_enumerates_pairs_unrolled :
    alternating.validate = .ok () ∧ unrolled.validate = .ok () ∧
      ∃ pairs, Enumerates alternating unrolled (0, 7) pairs (automaton alternating unrolled) ∧ (0, 5) ∈ pairs ∧
        pairs.length = 3 := by
  have hvalidate : alternating.validate = .ok () := by decide +kernel
  have hvalidate' : unrolled.validate = .ok () := by decide +kernel
  obtain ⟨⟨p, q⟩, pairs, hp, hq, _, henumerates, hcount, _⟩ := automaton_enumerates_pairs rfl hvalidate rfl hvalidate'
  have hleft : alternating.initialState? = some 0 := by decide +kernel
  have hright : unrolled.initialState? = some 7 := by decide +kernel
  obtain rfl : p = 0 := Option.some.inj (hp.symm.trans hleft)
  obtain rfl : q = 7 := Option.some.inj (hq.symm.trans hright)
  have hmem : (0, 5) ∈ pairs := (henumerates.mem_pairs 0 5).2 ⟨["a", "b"], by decide +kernel, by decide +kernel⟩
  refine ⟨hvalidate, hvalidate', pairs, henumerates, hmem, ?_⟩
  rw [← hcount]
  decide +kernel

end FiniteAutomata.Product
