import FiniteAutomata.Proofs.Refinement
import Mathlib.Data.Setoid.Basic
import Mathlib.SetTheory.Cardinal.Finite

/-! Refining all classes at once. A round separates two states of a class unless they have edges under the same
symbols and these lead into the same classes. A pass over the table of pairs reads marks that it has changed itself,
and what it leaves need not be an equivalence; a round makes an equivalence out of an equivalence. So its classes can
be counted: a round that separates states makes one more class, and there are fewer such rounds than states. -/

namespace FiniteAutomata.Automaton

variable {a : Automaton} {classes finer : Setoid StateId} {p q : StateId} {k : Nat}

section Counting

/-- A state of the automaton. -/
abbrev State (a : Automaton) : Type := { q : StateId // q ∈ a.states }

instance (a : Automaton) : Finite a.State := (List.finite_toSet a.states.toList).to_subtype

theorem card_state (a : Automaton) : Nat.card a.State = a.stateCount := by
  have hmem : ∀ q, q ∈ a.states.toList.toFinset ↔ q ∈ a.states := fun q => List.mem_toFinset
  rw [Nat.subtype_card _ hmem, List.toFinset_card_of_nodup (SortedSet.nodup_toList a.states)]
  rfl

/-- The number of classes that have a state. -/
noncomputable def classCount (a : Automaton) (classes : Setoid StateId) : Nat :=
  Nat.card (Quotient (classes.comap (Subtype.val : a.State → StateId)))

theorem classCount_le (a : Automaton) (classes : Setoid StateId) : a.classCount classes ≤ a.stateCount := by
  rw [← card_state]
  exact Nat.card_le_card_of_surjective _ Quotient.mk'_surjective

theorem classCount_pos (hq : q ∈ a.states) (classes : Setoid StateId) : 0 < a.classCount classes := by
  have : Nonempty (Quotient (classes.comap (Subtype.val : a.State → StateId))) := ⟨Quotient.mk _ ⟨q, hq⟩⟩
  exact Nat.card_pos

/-- Classes that are divided become more. -/
theorem classCount_lt (hle : finer ≤ classes) (hp : p ∈ a.states) (hq : q ∈ a.states) (hrelated : classes p q)
    (hseparated : ¬ finer p q) : a.classCount classes < a.classCount finer := by
  have hle' : finer.comap (Subtype.val : a.State → StateId) ≤ classes.comap Subtype.val := fun _ _ h => hle h
  have hsurjective : Function.Surjective (Setoid.map_of_le hle') :=
    fun c => Quotient.inductionOn' c fun x => ⟨Quotient.mk _ x, rfl⟩
  by_contra hcount
  have hinjective := (hsurjective.bijective_of_nat_card_le (Nat.le_of_not_lt hcount)).1
  have htogether : finer.comap (Subtype.val : a.State → StateId) ⟨p, hp⟩ ⟨q, hq⟩ :=
    Quotient.exact (hinjective (Quotient.sound hrelated))
  exact hseparated htogether

end Counting

section Rounds

/-- The final states and the others. -/
def finality (a : Automaton) : Setoid StateId := .ker fun q => decide (q ∈ a.final)

variable (h : a.Deterministic)

/-- Two states stay together when their edges lead to states that are together. -/
def Deterministic.round (h : a.Deterministic) (classes : Setoid StateId) : Setoid StateId where
  r p q := classes p q ∧ a.Matching classes p q
  iseqv :=
    { refl := fun p => ⟨classes.refl' p, fun _ => Iff.rfl, fun s p' q' hp hq =>
        h.functional p s p' q' hp hq ▸ classes.refl' p'⟩
      symm := fun hpq => ⟨classes.symm' hpq.1, fun s => (hpq.2.1 s).symm, fun s q' p' hq hp =>
        classes.symm' (hpq.2.2 s p' q' hp hq)⟩
      trans := by
        rintro p q r ⟨hpq, hsymbols, htargets⟩ ⟨hqr, hsymbols', htargets'⟩
        refine ⟨classes.trans' hpq hqr, fun s => (hsymbols s).trans (hsymbols' s), fun s p' r' hp hr => ?_⟩
        obtain ⟨q', hq⟩ := (hsymbols s).1 ⟨p', hp⟩
        exact classes.trans' (htargets s p' q' hp hq) (htargets' s q' r' hq hr) }

/-- The classes that some rounds make of the final and the other states. -/
def Deterministic.rounds (h : a.Deterministic) (k : Nat) : Setoid StateId := h.round^[k] a.finality

theorem Deterministic.rounds_succ (k : Nat) : h.rounds (k + 1) = h.round (h.rounds k) :=
  Function.iterate_succ_apply' _ _ _

theorem Deterministic.rounds_succ_le (k : Nat) : h.rounds (k + 1) ≤ h.rounds k := by
  rw [h.rounds_succ]
  exact fun _ _ hpq => hpq.1

theorem Deterministic.rounds_le_finality (k : Nat) : h.rounds k ≤ a.finality := by
  induction k with
  | zero => exact le_refl _
  | succ k ih => exact (h.rounds_succ_le k).trans ih

/-- There are fewer rounds that separate states than there are states. -/
theorem Deterministic.exists_stable_round (hq : q ∈ a.states) :
    ∃ k < a.stateCount, ∀ p ∈ a.states, ∀ q ∈ a.states, h.rounds k p q → h.rounds (k + 1) p q := by
  by_contra hnone
  -- The first classes are one at least, and each round makes one more: too many after as many rounds as states.
  have hmore : ∀ k ≤ a.stateCount, k < a.classCount (h.rounds k) := by
    intro k
    induction k with
    | zero => exact fun _ => classCount_pos hq _
    | succ k ih =>
        intro hk
        have hseparates : ¬ ∀ p ∈ a.states, ∀ q ∈ a.states, h.rounds k p q → h.rounds (k + 1) p q :=
          fun hstable => hnone ⟨k, hk, hstable⟩
        push Not at hseparates
        obtain ⟨p, hp, q, hq, hrelated, hseparated⟩ := hseparates
        have hlt := classCount_lt (h.rounds_succ_le k) hp hq hrelated hseparated
        have hle := ih (Nat.le_of_succ_le hk)
        omega
  exact absurd (hmore _ le_rfl) (Nat.not_lt.2 (a.classCount_le _))

/-- Some round, before there are as many as states, has only states with the same future in its classes. -/
theorem Deterministic.exists_round_sameFuture (hvalid : a.Valid) (hq : q ∈ a.states) :
    ∃ k < a.stateCount, ∀ p ∈ a.states, ∀ q ∈ a.states, h.rounds k p q → SameFuture a a p q := by
  obtain ⟨k, hk, hstable⟩ := h.exists_stable_round hq
  refine ⟨k, hk, fun p hp q hq => sameFuture_of_matching hvalid h.epsilonFree ?_ ?_ hp hq⟩
  · intro p q hpq
    exact decide_eq_decide.1 (h.rounds_le_finality k hpq)
  · intro p hp q hq hpq
    have hround := hstable p hp q hq hpq
    rw [h.rounds_succ] at hround
    exact hround.2

end Rounds

end FiniteAutomata.Automaton
