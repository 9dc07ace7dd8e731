/-!
Breadth-first search. `explore` lists what it finds in the order of discovery; the elements still
to be visited are always the last ones of that list.
-/

namespace FiniteAutomata.Search

variable {α : Type} [DecidableEq α]

/-- The elements of a list that are not in `seen`, each once, in the order of their first
occurrences. -/
def fresh (seen : List α) : List α → List α
  | [] => []
  | a :: l => if a ∈ seen then fresh seen l else a :: fresh (a :: seen) l

theorem mem_fresh {seen l : List α} {a : α} : a ∈ fresh seen l ↔ a ∈ l ∧ a ∉ seen := by
  induction l generalizing seen with
  | nil => simp [fresh]
  | cons b l ih =>
    unfold fresh
    split
    · rw [ih, List.mem_cons]
      constructor
      · exact fun h => ⟨.inr h.1, h.2⟩
      · rintro ⟨rfl | h, hs⟩
        · contradiction
        · exact ⟨h, hs⟩
    · rw [List.mem_cons, ih, List.mem_cons, List.mem_cons]
      by_cases hab : a = b <;> simp_all

theorem nodup_fresh (seen l : List α) : (fresh seen l).Nodup := by
  induction l generalizing seen with
  | nil => exact List.nodup_nil
  | cons b l ih =>
    unfold fresh
    split
    · exact ih seen
    · exact List.nodup_cons.2 ⟨fun h => (mem_fresh.1 h).2 List.mem_cons_self, ih _⟩

/-- Visits the elements of `queue` in order, appending the new successors of each one to the queue.
The answer is `done`, then the queue, then all that is discovered; at most `fuel` elements are
visited. -/
def explore (next : α → List α) : (fuel : Nat) → (done queue : List α) → List α
  | 0, done, queue => done ++ queue
  | _ + 1, done, [] => done
  | fuel + 1, done, a :: queue =>
    explore next fuel (done ++ [a]) (queue ++ fresh (done ++ a :: queue) (next a))

/-- The elements reached from `start` through `next` in breadth-first order, when at most `bound`
elements are reached. -/
def reach (next : α → List α) (bound : Nat) (start : List α) : List α :=
  explore next bound [] (fresh [] start)

theorem visit_append (next : α → List α) (done queue : List α) (a : α) :
    done ++ [a] ++ (queue ++ fresh (done ++ a :: queue) (next a)) =
      (done ++ a :: queue) ++ fresh (done ++ a :: queue) (next a) := by simp

theorem nodup_visit (next : α → List α) {done queue : List α} {a : α}
    (h : (done ++ a :: queue).Nodup) :
    (done ++ [a] ++ (queue ++ fresh (done ++ a :: queue) (next a))).Nodup := by
  rw [visit_append]
  refine List.nodup_append.2 ⟨h, nodup_fresh _ _, fun x hx y hy hxy => ?_⟩
  rw [hxy] at hx
  exact (mem_fresh.1 hy).2 hx

/-- What has been found stays at its place. -/
theorem prefix_explore (next : α → List α) (fuel : Nat) (done queue : List α) :
    done ++ queue <+: explore next fuel done queue := by
  induction fuel generalizing done queue with
  | zero => exact List.prefix_rfl
  | succ fuel ih =>
      cases queue with
      | nil => simp [explore]
      | cons a queue =>
          have htail := ih (done ++ [a]) (queue ++ fresh (done ++ a :: queue) (next a))
          rw [visit_append] at htail
          exact (List.prefix_append _ _).trans htail

theorem nodup_explore (next : α → List α) (fuel : Nat) {done queue : List α}
    (h : (done ++ queue).Nodup) : (explore next fuel done queue).Nodup := by
  induction fuel generalizing done queue with
  | zero => exact h
  | succ fuel ih =>
      cases queue with
      | nil => simpa [explore] using h
      | cons a queue => exact ih (nodup_visit next h)

theorem nodup_reach (next : α → List α) (bound : Nat) (start : List α) :
    (reach next bound start).Nodup :=
  nodup_explore next bound (by simpa using nodup_fresh [] start)

theorem mem_reach_of_mem {next : α → List α} {bound : Nat} {start : List α} {a : α}
    (h : a ∈ start) : a ∈ reach next bound start :=
  (prefix_explore next bound _ _).subset (by simpa [mem_fresh] using h)

end FiniteAutomata.Search
