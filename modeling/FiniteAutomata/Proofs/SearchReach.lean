import FiniteAutomata.Search
import Mathlib.Data.List.Nodup
import Mathlib.Data.List.Perm.Subperm
import Mathlib.Logic.Relation

/-! What a breadth-first search finds. A search whose fuel bounds the number of elements that it can
meet ends with an empty queue, so it finds exactly the elements that the start leads to. What it
finds, and in which order, does not depend on spare fuel, and a one-to-one renaming of the elements
renames the result. -/

namespace FiniteAutomata.Search

variable {α β : Type} [DecidableEq α] [DecidableEq β]

/-- Following `next` a number of times leads from one element to another. -/
def Leads (next : α → List α) : α → α → Prop := Relation.ReflTransGen fun a b => b ∈ next a

/-- A search cannot leave `inside`, of which no more than `bound` elements can be listed. -/
structure Bounded (next : α → List α) (bound : Nat) (start : List α) (inside : α → Prop) : Prop where
  start : ∀ a ∈ start, inside a
  next : ∀ a, inside a → ∀ b ∈ next a, inside b
  length_le : ∀ l : List α, l.Nodup → (∀ a ∈ l, inside a) → l.length ≤ bound

/-- Only what is listed as seen matters, not its order. -/
theorem fresh_congr {seen seen' l : List α} (h : ∀ a, a ∈ seen ↔ a ∈ seen') : fresh seen l = fresh seen' l := by
  induction l generalizing seen seen' with
  | nil => rfl
  | cons b l ih =>
      have htail : fresh (b :: seen) l = fresh (b :: seen') l := by
        apply ih
        intro a
        rw [List.mem_cons, List.mem_cons, h]
      by_cases hb : b ∈ seen
      · rw [fresh, fresh, if_pos hb, if_pos ((h b).1 hb), ih h]
      · rw [fresh, fresh, if_neg hb, if_neg (mt (h b).2 hb), htail]

/-- The invariant of a search: everything is listed once, and what follows the elements that have
been visited has been found. -/
structure Frontier (next : α → List α) (done queue : List α) : Prop where
  nodup : (done ++ queue).Nodup
  closed : ∀ a ∈ done, ∀ b ∈ next a, b ∈ done ++ queue

theorem Frontier.init (next : α → List α) (start : List α) : Frontier next [] (fresh [] start) :=
  ⟨nodup_fresh [] start, fun _ ha => absurd ha List.not_mem_nil⟩

theorem Frontier.visit {next : α → List α} {done queue : List α} {a : α}
    (h : Frontier next done (a :: queue)) :
    Frontier next (done ++ [a]) (queue ++ fresh (done ++ a :: queue) (next a)) := by
  refine ⟨?_, ?_⟩
  · exact nodup_visit next h.nodup
  · intro x hx b hb
    rw [visit_append]
    rcases List.mem_append.1 hx with hx | hx
    · exact List.mem_append_left _ (h.closed x hx b hb)
    · rw [List.mem_singleton.1 hx] at hb
      by_cases hold : b ∈ done ++ a :: queue
      · exact List.mem_append_left _ hold
      · exact List.mem_append_right _ (mem_fresh.2 ⟨hb, hold⟩)

theorem reach_singleton (next : α → List α) (bound : Nat) (a : α) :
    ∃ rest, reach next bound [a] = a :: rest := by
  obtain ⟨rest, hrest⟩ := prefix_explore next bound [] (fresh [] [a])
  exact ⟨rest, hrest.symm⟩

theorem explore_sound (next : α → List α) (fuel : Nat) (done queue : List α) :
    ∀ b ∈ explore next fuel done queue, ∃ a ∈ done ++ queue, Leads next a b := by
  induction fuel generalizing done queue with
  | zero => exact fun b hb => ⟨b, hb, .refl⟩
  | succ fuel ih =>
      cases queue with
      | nil => exact fun b hb => ⟨b, by simpa [explore] using hb, .refl⟩
      | cons c queue =>
          intro b hb
          obtain ⟨a, ha, hab⟩ := ih _ _ b hb
          rw [visit_append] at ha
          rcases List.mem_append.1 ha with ha | ha
          · exact ⟨a, ha, hab⟩
          · exact ⟨c, by simp, .head (mem_fresh.1 ha).1 hab⟩

section Bounds

variable {next : α → List α} {bound : Nat} {start : List α} {inside : α → Prop}

omit [DecidableEq α] in
/-- A search that meets elements of one list only is bounded by the length of the list. -/
theorem Bounded.of_list {all : List α} (hstart : ∀ a ∈ start, a ∈ all)
    (hnext : ∀ a, ∀ b ∈ next a, b ∈ all) (hlength : all.length = bound) :
    Bounded next bound start (· ∈ all) where
  start := hstart
  next a _ := hnext a
  length_le l hnodup hl := by
    rw [← hlength]
    exact (List.subperm_of_subset hnodup hl).length_le

theorem Bounded.visit (h : Bounded next bound start inside) {done queue : List α} {a : α}
    (hinside : ∀ b ∈ done ++ a :: queue, inside b) :
    ∀ b ∈ done ++ [a] ++ (queue ++ fresh (done ++ a :: queue) (next a)), inside b := by
  intro b hb
  rw [visit_append] at hb
  rcases List.mem_append.1 hb with hb | hb
  · exact hinside b hb
  · exact h.next a (hinside a (by simp)) b (mem_fresh.1 hb).1

omit [DecidableEq α] in
/-- Without fuel nothing is left to be visited. -/
theorem Bounded.queue_eq_nil (h : Bounded next bound start inside) {done queue : List α}
    (hfrontier : Frontier next done queue) (hinside : ∀ a ∈ done ++ queue, inside a)
    (hfuel : bound ≤ done.length) : queue = [] := by
  have hlength := h.length_le _ hfrontier.nodup hinside
  rw [List.length_append] at hlength
  exact List.length_eq_zero_iff.1 (by omega)

/-- Induction along a search whose fuel is enough: either nothing is left to be visited, or one element is
visited and the search goes on. -/
theorem Bounded.induction (h : Bounded next bound start inside) {motive : Nat → List α → List α → Prop}
    (finished : ∀ fuel done, Frontier next done [] → motive fuel done [])
    (visit : ∀ fuel done a queue,
      motive fuel (done ++ [a]) (queue ++ fresh (done ++ a :: queue) (next a)) → motive (fuel + 1) done (a :: queue))
    (fuel : Nat) {done queue : List α} (hfrontier : Frontier next done queue)
    (hinside : ∀ a ∈ done ++ queue, inside a) (hfuel : bound ≤ done.length + fuel) : motive fuel done queue := by
  induction fuel generalizing done queue with
  | zero =>
      obtain rfl := h.queue_eq_nil hfrontier hinside hfuel
      exact finished 0 done hfrontier
  | succ fuel ih =>
      cases queue with
      | nil => exact finished _ done hfrontier
      | cons a queue =>
          apply visit fuel done a queue
          apply ih hfrontier.visit (h.visit hinside)
          rw [List.length_append, List.length_singleton]
          omega

theorem explore_nil (next : α → List α) (fuel : Nat) (done : List α) : explore next fuel done [] = done := by
  cases fuel with
  | zero => exact List.append_nil done
  | succ fuel => rfl

theorem explore_closed (h : Bounded next bound start inside) (fuel : Nat) {done queue : List α}
    (hfrontier : Frontier next done queue) (hinside : ∀ a ∈ done ++ queue, inside a)
    (hfuel : bound ≤ done.length + fuel) :
    ∀ a ∈ explore next fuel done queue, ∀ b ∈ next a, b ∈ explore next fuel done queue := by
  refine h.induction (motive := fun fuel done queue =>
    ∀ a ∈ explore next fuel done queue, ∀ b ∈ next a, b ∈ explore next fuel done queue) ?_ ?_ fuel hfrontier
    hinside hfuel
  · intro fuel done hfrontier
    rw [explore_nil]
    simpa using hfrontier.closed
  · exact fun fuel done a queue hrest => hrest

/-- More fuel than the bound changes nothing. -/
theorem explore_fuel (h : Bounded next bound start inside) (fuel fuel' : Nat) {done queue : List α}
    (hfrontier : Frontier next done queue) (hinside : ∀ a ∈ done ++ queue, inside a)
    (hfuel : bound ≤ done.length + fuel) (hfuel' : bound ≤ done.length + fuel') :
    explore next fuel done queue = explore next fuel' done queue := by
  induction fuel generalizing fuel' done queue with
  | zero =>
      obtain rfl := h.queue_eq_nil hfrontier hinside hfuel
      cases fuel' <;> simp [explore]
  | succ fuel ih =>
      cases queue with
      | nil => cases fuel' <;> simp [explore]
      | cons a queue =>
          cases fuel' with
          | zero => exact absurd (h.queue_eq_nil hfrontier hinside hfuel') (List.cons_ne_nil _ _)
          | succ fuel' =>
              refine ih fuel' hfrontier.visit (h.visit hinside) ?_ ?_ <;>
                rw [List.length_append, List.length_singleton] <;> omega

theorem inside_of_fresh (h : Bounded next bound start inside) :
    ∀ a ∈ [] ++ fresh [] start, inside a :=
  fun a ha => h.start a (mem_fresh.1 ha).1

theorem reach_closed (h : Bounded next bound start inside) {a b : α} (ha : a ∈ reach next bound start)
    (hb : b ∈ next a) : b ∈ reach next bound start :=
  explore_closed h bound (.init next start) (inside_of_fresh h) (by simp) a ha b hb

theorem mem_reach_iff (h : Bounded next bound start inside) {b : α} :
    b ∈ reach next bound start ↔ ∃ a ∈ start, Leads next a b := by
  refine ⟨?_, ?_⟩
  · intro hb
    obtain ⟨a, ha, hab⟩ := explore_sound next bound _ _ b hb
    exact ⟨a, (mem_fresh.1 ha).1, hab⟩
  · intro hleads
    obtain ⟨a, ha, hab⟩ := hleads
    induction hab with
    | refl => exact mem_reach_of_mem ha
    | tail _ hcb ih => exact reach_closed h ih hcb

theorem inside_of_mem_reach (h : Bounded next bound start inside) {b : α}
    (hb : b ∈ reach next bound start) : inside b := by
  obtain ⟨a, ha, hab⟩ := (mem_reach_iff h).1 hb
  induction hab with
  | refl => exact h.start a ha
  | tail hac hcb ih => exact h.next _ (ih ((mem_reach_iff h).2 ⟨a, ha, hac⟩)) _ hcb

/-- What is reached is itself a bound for the search. -/
theorem Bounded.reached (h : Bounded next bound start inside) :
    Bounded next bound start (· ∈ reach next bound start) :=
  ⟨fun _ ha => mem_reach_of_mem ha, fun _ ha _ hb => reach_closed h ha hb,
    fun l hnodup hl => h.length_le l hnodup fun a ha => inside_of_mem_reach h (hl a ha)⟩

theorem reach_eq_of_le (h : Bounded next bound start inside) {bound' : Nat} (hle : bound ≤ bound') :
    reach next bound start = reach next bound' start :=
  explore_fuel h bound bound' (.init next start) (inside_of_fresh h) (by simp) (by simpa using hle)

end Bounds

section Renaming

variable {next : α → List α} {next' : β → List β} {inside : α → Prop} {R : α → α → Prop} (f : α → β)

section Discoveries

variable (hfresh : ∀ a seen, inside a → (∀ b ∈ seen, inside b) → (fresh seen (next a)).Pairwise R →
  fresh (seen.map f) (next' (f a)) = (fresh seen (next a)).map f)

include hfresh

/-- Only what is discovered matters: when all that is found stands in the order `R`, the next elements need
correspond to each other only as far as they are new and stand in this order. -/
theorem explore_map_of_fresh (hclosed : ∀ a, inside a → ∀ b ∈ next a, inside b) (fuel : Nat)
    {done queue : List α} (hinside : ∀ a ∈ done ++ queue, inside a)
    (hordered : (explore next fuel done queue).Pairwise R) :
    explore next' fuel (done.map f) (queue.map f) = (explore next fuel done queue).map f := by
  induction fuel generalizing done queue with
  | zero => simp [explore]
  | succ fuel ih =>
      cases queue with
      | nil => simp [explore]
      | cons a queue =>
          have ha : inside a := hinside a (by simp)
          have hvisit := prefix_explore next fuel (done ++ [a]) (queue ++ fresh (done ++ a :: queue) (next a))
          have hnew : (fresh (done ++ a :: queue) (next a)).Pairwise R := by
            apply List.Pairwise.sublist _ hordered
            rw [visit_append] at hvisit
            exact (List.sublist_append_right _ _).trans hvisit.sublist
          have hstep := hfresh a (done ++ a :: queue) ha hinside hnew
          rw [List.map_append, List.map_cons] at hstep
          rw [explore] at hordered
          rw [List.map_cons, explore, explore, ← ih _ hordered, hstep]
          · simp
          · intro b hb
            rw [visit_append] at hb
            rcases List.mem_append.1 hb with hb | hb
            · exact hinside b hb
            · exact hclosed a ha b (mem_fresh.1 hb).1

/-- The same for all that is reached. -/
theorem reach_map_of_fresh {bound bound' : Nat} {start : List α} {start' : List β} {inside' : β → Prop}
    (h : Bounded next bound start inside) (h' : Bounded next' bound' start' inside')
    (hstart : fresh [] start' = (fresh [] start).map f) (hordered : (reach next bound start).Pairwise R) :
    reach next' bound' start' = (reach next bound start).map f := by
  rw [reach_eq_of_le h (Nat.le_max_left bound bound')] at hordered ⊢
  rw [reach_eq_of_le h' (Nat.le_max_right bound bound'), reach, hstart]
  exact explore_map_of_fresh f hfresh h.next _ (inside_of_fresh h) hordered

end Discoveries

variable (hinj : ∀ a b, inside a → inside b → f a = f b → a = b)

include hinj

omit [DecidableEq α] [DecidableEq β] in
theorem mem_map_of_inside {l : List α} (hl : ∀ a ∈ l, inside a) {a : α} (ha : inside a) :
    f a ∈ l.map f ↔ a ∈ l := by
  refine ⟨?_, ?_⟩
  · intro h
    obtain ⟨b, hb, hba⟩ := List.mem_map.1 h
    rwa [← hinj b a (hl b hb) ha hba]
  · exact List.mem_map_of_mem

theorem fresh_map {seen l : List α} (hseen : ∀ a ∈ seen, inside a) (hl : ∀ a ∈ l, inside a) :
    fresh (seen.map f) (l.map f) = (fresh seen l).map f := by
  induction l generalizing seen with
  | nil => rfl
  | cons a l ih =>
      obtain ⟨ha, hl⟩ := List.forall_mem_cons.1 hl
      rw [List.map_cons, fresh, fresh]
      by_cases hmem : a ∈ seen
      · rw [if_pos hmem, if_pos (List.mem_map_of_mem hmem), ih hseen hl]
      · rw [if_neg hmem, if_neg (mt (mem_map_of_inside f hinj hseen ha).1 hmem), List.map_cons,
          ← ih (List.forall_mem_cons.2 ⟨ha, hseen⟩) hl, List.map_cons]

/-- Renaming the elements renames what is reached, in the same order. -/
theorem reach_map {bound bound' : Nat} {start : List α} {inside' : β → Prop}
    (h : Bounded next bound start inside) (h' : Bounded next' bound' (start.map f) inside')
    (hnext : ∀ a, inside a → next' (f a) = (next a).map f) :
    reach next' bound' (start.map f) = (reach next bound start).map f := by
  have hordered : (reach next bound start).Pairwise fun _ _ => True := List.pairwise_of_forall fun _ _ => trivial
  refine reach_map_of_fresh f ?_ h h' ?_ hordered
  · intro a seen ha hseen _
    rw [hnext a ha]
    exact fresh_map f hinj hseen (h.next a ha)
  · exact fresh_map f hinj (List.forall_mem_nil inside) h.start

end Renaming

theorem reach_congr {next next' : α → List α} {bound bound' : Nat} {start : List α}
    {inside inside' : α → Prop} (h : Bounded next bound start inside)
    (h' : Bounded next' bound' start inside') (hnext : ∀ a ∈ reach next bound start, next' a = next a) :
    reach next' bound' start = reach next bound start := by
  have hstart : Bounded next' bound' (start.map id) inside' := by rwa [List.map_id]
  have hmap := reach_map id (fun _ _ _ _ heq => heq) h.reached hstart fun a ha => by
    rw [List.map_id]
    exact hnext a ha
  rwa [List.map_id, List.map_id] at hmap

omit [DecidableEq α] in
/-- What is listed once is counted by its positions. -/
theorem map_idxOf_eq_range [BEq α] [LawfulBEq α] {l : List α} (h : l.Nodup) :
    l.map l.idxOf = List.range l.length := by
  apply List.ext_getElem
  · rw [List.length_map, List.length_range]
  · intro i _ _
    rw [List.getElem_map, List.getElem_range, h.idxOf_getElem]

omit [DecidableEq α] [DecidableEq β] in
/-- An element has the position of its image, when all images are different. -/
theorem idxOf_map [BEq α] [LawfulBEq α] [BEq β] [LawfulBEq β] {f : α → β} {l : List α} {a : α}
    (h : (l.map f).Nodup) (ha : a ∈ l) : (l.map f).idxOf (f a) = l.idxOf a := by
  have hlt : l.idxOf a < (l.map f).length := by
    rw [List.length_map]
    exact List.idxOf_lt_length_iff.2 ha
  have hplace : (l.map f)[l.idxOf a] = f a := by
    rw [List.getElem_map, List.getElem_idxOf]
  rw [← hplace, h.idxOf_getElem]

end FiniteAutomata.Search
