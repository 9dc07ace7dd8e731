import FiniteAutomata.Proofs.Acceptance
import FiniteAutomata.Proofs.EpsilonRemoval

/-! The closure of a state under silent edges, and what replaces these edges. The closure is collected by a loop over
a stack that has no bound. Every element is on the stack once, at the turn that finds it, so the loop ends after as
many turns as the closure has elements, on cycles too, and the elements it has found are those that the start leads
to. An automaton whose edges are those of the closures, without the silent ones, accepts the same words from every
state. -/

namespace FiniteAutomata

open Std

namespace Search

/-- The variables of a loop that collects what follows: the elements found, and those among them whose followers are
still to be looked at, the last one found first. -/
structure Worklist (α : Type) [Ord α] where
  found : SortedSet α := ∅
  stack : List α := []

namespace Worklist

variable {α : Type} [Ord α] [TransOrd α] [LawfulEqOrd α] [DecidableEq α] {next : α → List α} {start : List α}
  {l l' : Worklist α} {elements : List α} {a b : α} {n : Nat}

/-- An element is put on the stack when it is found for the first time. -/
def push (l : Worklist α) (a : α) : Worklist α :=
  if a ∈ l.found then l else { found := l.found.insert a, stack := a :: l.stack }

def pushAll (l : Worklist α) (elements : List α) : Worklist α := elements.foldl push l

/-- One turn: an element is taken off the stack, and what follows it is pushed. On an empty stack there is none. -/
def turn? (next : α → List α) (l : Worklist α) : Option (Worklist α) :=
  match l.stack with
  | [] => none
  | a :: stack => some ({ l with stack }.pushAll (next a))

/-- The variables after some turns, if the loop makes so many. -/
def after? (next : α → List α) (start : List α) : Nat → Option (Worklist α)
  | 0 => some (pushAll {} start)
  | n + 1 => (after? next start n).bind (turn? next)

section Push

theorem mem_found_pushAll : b ∈ (l.pushAll elements).found ↔ b ∈ l.found ∨ b ∈ elements := by
  induction elements generalizing l with
  | nil => simp [pushAll]
  | cons a elements ih =>
      have hpush : b ∈ (l.push a).found ↔ b ∈ l.found ∨ b = a := by
        rw [push]
        split
        · next hold => exact (or_iff_left_of_imp fun heq => heq ▸ hold).symm
        · exact SortedSet.mem_insert.trans or_comm
      rw [pushAll, List.foldl_cons, ← pushAll, ih, hpush, List.mem_cons, or_assoc]

/-- The stack grows by the elements that were not found before. -/
theorem stack_pushAll : (l.pushAll elements).stack = (fresh l.found.toList elements).reverse ++ l.stack := by
  induction elements generalizing l with
  | nil => rfl
  | cons a elements ih =>
      rw [pushAll, List.foldl_cons, ← pushAll, ih, push, fresh]
      split
      · next hold => rw [if_pos (SortedSet.mem_toList.2 hold)]
      · next hnew =>
          have hseen : fresh (l.found.insert a).toList elements = fresh (a :: l.found.toList) elements := by
            apply fresh_congr
            intro b
            rw [SortedSet.mem_toList, SortedSet.mem_insert, List.mem_cons, SortedSet.mem_toList]
          rw [if_neg (mt SortedSet.mem_toList.1 hnew), hseen]
          simp

theorem mem_stack_pushAll :
    b ∈ (l.pushAll elements).stack ↔ b ∈ l.stack ∨ b ∈ elements ∧ b ∉ l.found := by
  rw [stack_pushAll, List.mem_append, List.mem_reverse, mem_fresh, SortedSet.mem_toList, or_comm]

/-- The stack and the set grow together. -/
theorem size_found_pushAll (l : Worklist α) (elements : List α) :
    (l.pushAll elements).found.size + l.stack.length = l.found.size + (l.pushAll elements).stack.length := by
  induction elements generalizing l with
  | nil => rfl
  | cons a elements ih =>
      rw [pushAll, List.foldl_cons, ← pushAll]
      have hpush : (l.push a).found.size + l.stack.length = l.found.size + (l.push a).stack.length := by
        rw [push]
        split
        · rfl
        · next hnew =>
            rw [SortedSet.size_insert hnew, List.length_cons]
            omega
      have hrest := ih (l.push a)
      omega

end Push

/-- The invariant of the loop. What follows an element has been found once the element is off the stack, and as many
elements are off the stack as turns have been made. -/
structure Collects (next : α → List α) (start : List α) (turns : Nat) (l : Worklist α) : Prop where
  sound : ∀ b ∈ l.found, ∃ a ∈ start, Leads next a b
  start : ∀ a ∈ start, a ∈ l.found
  stack : ∀ a ∈ l.stack, a ∈ l.found
  closed : ∀ a ∈ l.found, a ∉ l.stack → ∀ b ∈ next a, b ∈ l.found
  count : turns + l.stack.length = l.found.size

theorem Collects.init : Collects next start 0 (pushAll {} start) where
  sound b hb := by
    rw [mem_found_pushAll, or_iff_right (SortedSet.not_mem_empty b)] at hb
    exact ⟨b, hb, .refl⟩
  start a ha := mem_found_pushAll.2 (.inr ha)
  stack a ha := by
    rw [mem_stack_pushAll, or_iff_right List.not_mem_nil] at ha
    exact mem_found_pushAll.2 (.inr ha.1)
  closed a ha hstack := by
    rw [mem_found_pushAll, or_iff_right (SortedSet.not_mem_empty a)] at ha
    exact absurd (mem_stack_pushAll.2 (.inr ⟨ha, SortedSet.not_mem_empty a⟩)) hstack
  count := (size_found_pushAll {} start).symm

theorem Collects.turn (h : Collects next start n l) (hturn : l.turn? next = some l') :
    Collects next start (n + 1) l' := by
  rw [turn?] at hturn
  split at hturn
  · cases hturn
  · next c stack hstack =>
      cases hturn
      have hc : c ∈ l.found := h.stack c (by simp [hstack])
      refine ⟨?_, ?_, ?_, ?_, ?_⟩
      · intro b hb
        rcases mem_found_pushAll.1 hb with hb | hb
        · exact h.sound b hb
        · obtain ⟨a, ha, hac⟩ := h.sound c hc
          exact ⟨a, ha, hac.tail hb⟩
      · exact fun a ha => mem_found_pushAll.2 (.inl (h.start a ha))
      · intro a ha
        rcases mem_stack_pushAll.1 ha with ha | ⟨ha, _⟩
        · exact mem_found_pushAll.2 (.inl (h.stack a (by simp_all)))
        · exact mem_found_pushAll.2 (.inr ha)
      · -- An element that is off the stack is the one just taken off, or it was found before and off the old stack.
        intro a ha hoff b hb
        rw [mem_stack_pushAll, not_or, not_and_not_right] at hoff
        have hold : a ∈ l.found := (mem_found_pushAll.1 ha).elim id hoff.2
        by_cases hac : a = c
        · rw [hac] at hb
          exact mem_found_pushAll.2 (.inr hb)
        · have hoffold : a ∉ l.stack := by simp_all
          exact mem_found_pushAll.2 (.inl (h.closed a hold hoffold b hb))
      · have hcount := h.count
        have hsize := size_found_pushAll { l with stack } (next c)
        rw [hstack, List.length_cons] at hcount
        dsimp only at hsize ⊢
        omega

omit [TransOrd α] [LawfulEqOrd α] [DecidableEq α] in
/-- On an empty stack everything has been found. -/
theorem Collects.mem_found_iff (h : Collects next start n l) (hend : l.stack = []) :
    b ∈ l.found ↔ ∃ a ∈ start, Leads next a b := by
  refine ⟨h.sound b, ?_⟩
  rintro ⟨a, ha, hleads⟩
  induction hleads with
  | refl => exact h.start a ha
  | tail _ hb ih => exact h.closed _ ih (by simp [hend]) _ hb

section Ends

variable {all : SortedSet α} (hall : ∀ b, b ∈ all ↔ ∃ a ∈ start, Leads next a b)

include hall

/-- As long as not so many turns have been made as there are elements, there is one on the stack. -/
theorem exists_after? (hn : n ≤ all.size) : ∃ l, after? next start n = some l ∧ Collects next start n l := by
  induction n with
  | zero => exact ⟨_, rfl, .init⟩
  | succ n ih =>
      obtain ⟨l, hl, hcollects⟩ := ih (Nat.le_of_succ_le hn)
      cases hstack : l.stack with
      | nil =>
          have hfound : l.found = all := SortedSet.ext fun b => (hcollects.mem_found_iff hstack).trans (hall b).symm
          have hcount := hcollects.count
          rw [hstack, hfound, List.length_nil] at hcount
          omega
      | cons a stack =>
          have hturn : l.turn? next = some ({ l with stack }.pushAll (next a)) := by rw [turn?, hstack]
          exact ⟨_, by rw [after?, hl, Option.bind_some, hturn], hcollects.turn hturn⟩

/-- The loop ends with everything found, after a turn for each element. -/
theorem after?_size : after? next start all.size = some { found := all, stack := [] } := by
  obtain ⟨l, hl, hcollects⟩ := exists_after? hall le_rfl
  have hsubset : ∀ b ∈ l.found, b ∈ all := fun b hb => (hall b).2 (hcollects.sound b hb)
  have hsize : l.found.size ≤ all.size :=
    (List.subperm_of_subset (SortedSet.nodup_toList l.found) hsubset).length_le
  have hstack : l.stack = [] := by
    have hcount := hcollects.count
    exact List.length_eq_zero_iff.1 (by omega)
  have hfound : l.found = all := SortedSet.ext fun b => (hcollects.mem_found_iff hstack).trans (hall b).symm
  rw [hl, ← hfound, ← hstack]

end Ends

end Worklist

end Search

namespace Automaton

open Search

/-- The loop over silent edges ends with the closure. -/
theorem after?_closure (a : Automaton) (start : List StateId) :
    Worklist.after? (fun p => a.successors p epsilon) start (a.closure start).size =
      some { found := a.closure start, stack := [] } := by
  apply Worklist.after?_size
  intro q
  simp only [mem_closure, path_nil_iff, Leads, mem_successors]

/-- On every graph of silent edges the loop over a stack ends, and the closure that it has found is what zero or more
silent edges lead to. With the other edges of their closures in place of the silent ones, and final when their closure
is, the states of a well-formed automaton accept the same words as before. -/
theorem eliminateEpsilon_statewise :
    (∀ (a : Automaton) (p : StateId),
      Worklist.after? (fun p => a.successors p epsilon) [p] (a.closure [p]).size =
        some { found := a.closure [p], stack := [] } ∧
      ∀ q, q ∈ a.closure [p] ↔ Relation.ReflTransGen (fun p q => a.HasEdge p epsilon q) p q) ∧
    ∀ a : Automaton, a.validate = .ok () →
      a.eliminateEpsilon.validate = .ok () ∧
      a.eliminateEpsilon.states = a.states ∧ a.eliminateEpsilon.initial = a.initial ∧
      (∀ s, s ∈ a.eliminateEpsilon.alphabet ↔ s ∈ a.alphabet ∧ s ≠ epsilon) ∧
      (∀ p q, ¬ a.eliminateEpsilon.HasEdge p epsilon q) ∧
      ∀ q ∈ a.states,
        (q ∈ a.eliminateEpsilon.final ↔ ∃ r ∈ a.closure [q], r ∈ a.final) ∧
        ∀ w, epsilon ∉ w → (a.eliminateEpsilon.startedAt q).accepts w = (a.startedAt q).accepts w := by
  refine ⟨fun a p => ⟨a.after?_closure [p], fun q => ?_⟩, fun a hvalidate => ?_⟩
  · simp only [mem_closure, List.mem_singleton, exists_eq_left, path_nil_iff]
  · have h := validate_eq_ok_iff.1 hvalidate
    refine ⟨validate_eq_ok_iff.2 h.eliminateEpsilon, rfl, rfl, fun s => SortedSet.mem_erase,
      epsilonFree_eliminateEpsilon, fun q hq => ⟨?_, fun w hw => ?_⟩⟩
    · rw [mem_final_eliminateEpsilon, and_iff_right hq]
      simp only [mem_closure, List.mem_singleton, exists_eq_left]
      exact exists_congr fun r => and_comm
    · rw [Bool.eq_iff_iff, accepts_startedAt, accepts_startedAt, acceptsFrom_eliminateEpsilon h hq hw]

/-- Two states lie on a silent cycle, so each of them is on the stack once, and the edge that leaves the second leaves
the first as well. -/
theorem eliminateEpsilon_statewise_silentCycle :
    Worklist.after? (fun p => silentCycle.successors p epsilon) [0] 2 =
      some { found := silentCycle.closure [0], stack := [] } ∧
    silentCycle.validate = .ok () ∧ 0 ∈ silentCycle.states ∧ epsilon ∉ ["a", "b", "a"] ∧
    silentCycle.eliminateEpsilon.edges = [⟨0, "a", 2⟩, ⟨1, "a", 2⟩, ⟨2, "b", 0⟩] ∧
    (silentCycle.eliminateEpsilon.startedAt 0).accepts ["a", "b", "a"] =
      (silentCycle.startedAt 0).accepts ["a", "b", "a"] := by
  obtain ⟨hclosure, hvalid⟩ := eliminateEpsilon_statewise
  have hvalidate : silentCycle.validate = .ok () := by decide +kernel
  have hstate : 0 ∈ silentCycle.states := by decide +kernel
  have hw : epsilon ∉ ["a", "b", "a"] := by decide
  have hsize : (silentCycle.closure [0]).size = 2 := by decide +kernel
  obtain ⟨_, _, _, _, _, hstates⟩ := hvalid silentCycle hvalidate
  have hloop := (hclosure silentCycle 0).1
  rw [hsize] at hloop
  exact ⟨hloop, hvalidate, hstate, hw, by decide +kernel, (hstates 0 hstate).2 _ hw⟩

end Automaton

end FiniteAutomata
