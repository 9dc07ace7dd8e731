import FiniteAutomata.CommandLine.Arguments
import Mathlib.Data.List.Nodup

/-! The order of the jobs on a command line. Only the uses of one operation are recorded together, and an index is
recorded for each operand. When the indices grow along the command line, they say enough to bring the jobs of all
operations back into its order. -/

namespace FiniteAutomata.CommandLine

/-- A use of an operation on a command line, with its operands and their indices. -/
structure Use where
  operation : Operation
  operands : List (Nat × String)

namespace Use

def indices (u : Use) : List Nat := u.operands.map (·.1)

def values (u : Use) : List String := u.operands.map (·.2)

/-- The job that the use asks for, if it has as many operands as its operation takes. -/
def job? (u : Use) : Option Job := Job.ofOperands? u.operation u.values

/-- The job with the index of its first operand. -/
def indexedJob? (u : Use) : Option (Nat × Job) := u.job?.map fun job => (u.indices.head?.getD 0, job)

end Use

/-- What is recorded of a command line with some uses of operations: their operands, operation by operation, and an
index for each of them, growing from left to right over all of the line. -/
structure Records (m : Matches) (line : List Use) : Prop where
  groups : ∀ operation, (m.uses operation).groups = (line.filter (·.operation = operation)).map Use.values
  indices : ∀ operation, (m.uses operation).indices = (line.filter (·.operation = operation)).flatMap Use.indices
  increasing : (line.flatMap Use.indices).Pairwise (· < ·)

variable {m : Matches} {line : List Use}

section Indices

theorem exists_mem_indices {u : Use} {e : Nat × Job} (h : e ∈ u.indexedJob?) : e.1 ∈ u.indices := by
  obtain ⟨operation, operands⟩ := u
  cases operands with
  | nil => cases operation <;> simp [Use.indexedJob?, Use.job?, Use.values, Job.ofOperands?] at h
  | cons operand operands =>
      obtain ⟨job, _, rfl⟩ := Option.map_eq_some_iff.1 h
      exact List.mem_cons_self

/-- A use finds the index of its first operand behind the indices of the uses before it. -/
theorem filterMap_located (operation : Operation) (before : List Nat) (uses : List Use)
    (huses : ∀ u ∈ uses, u.operation = operation) :
    ((Occurrences.located (before ++ uses.flatMap Use.indices) before.length (uses.map Use.values)).filterMap fun use =>
      (Job.ofOperands? operation use.2).map fun job => (use.1, job)) = uses.filterMap Use.indexedJob? := by
  induction uses generalizing before with
  | nil => rfl
  | cons u uses ih =>
      have hlength : before.length + u.values.length = (before ++ u.indices).length := by
        simp [Use.values, Use.indices]
      have hindices : before ++ (u :: uses).flatMap Use.indices =
          before ++ u.indices ++ uses.flatMap Use.indices := by
        simp
      have hrest := ih (before ++ u.indices) fun v hv => huses v (List.mem_cons_of_mem _ hv)
      have hfirst : ((Job.ofOperands? operation u.values).map fun job =>
          ((before ++ u.indices ++ uses.flatMap Use.indices)[before.length]?.getD 0, job)) = u.indexedJob? := by
        rw [← huses u List.mem_cons_self]
        obtain ⟨o, operands⟩ := u
        cases operands with
        | nil => cases o <;> rfl
        | cons operand operands => simp [Use.indexedJob?, Use.job?, Use.indices]
      rw [List.map_cons, Occurrences.located, hlength, hindices, List.filterMap_cons, List.filterMap_cons, hrest,
        hfirst]

theorem Records.indexedJobs (h : Records m line) (operation : Operation) :
    m.indexedJobs operation = (line.filter (·.operation = operation)).filterMap Use.indexedJob? := by
  have huses : ∀ u ∈ line.filter (·.operation = operation), u.operation = operation := by
    intro u hu
    simpa using (List.mem_filter.1 hu).2
  rw [Matches.indexedJobs, h.groups, h.indices]
  exact filterMap_located operation [] _ huses

end Indices

section Order

/-- A list is made of its elements with one key, with another one, and so on. -/
theorem flatMap_filter_perm {α κ : Type} [DecidableEq κ] {key : α → κ} {keys : List κ} (hkeys : keys.Nodup)
    {l : List α} (h : ∀ a ∈ l, key a ∈ keys) : (keys.flatMap fun k => l.filter (key · = k)).Perm l := by
  induction keys generalizing l with
  | nil =>
      obtain rfl : l = [] := List.eq_nil_iff_forall_not_mem.2 fun a ha => List.not_mem_nil (h a ha)
      exact .nil
  | cons k keys ih =>
      obtain ⟨hk, hkeys⟩ := List.nodup_cons.1 hkeys
      have hother : ∀ a ∈ l.filter (fun a => !decide (key a = k)), key a ∈ keys := by
        intro a ha
        obtain ⟨hmem, hne⟩ := List.mem_filter.1 ha
        exact (List.mem_cons.1 (h a hmem)).resolve_left (by simpa using hne)
      have hrest : keys.flatMap (fun j => l.filter (key · = j)) =
          keys.flatMap fun j => (l.filter fun a => !decide (key a = k)).filter (key · = j) := by
        refine List.flatMap_congr fun j hj => ?_
        rw [List.filter_filter]
        refine List.filter_congr fun a _ => ?_
        by_cases heq : key a = j
        · have hne : ¬ j = k := fun hjk => hk (hjk ▸ hj)
          simp [heq, hne]
        · simp [heq]
      rw [List.flatMap_cons, hrest]
      exact ((ih hkeys hother).append_left _).trans (List.filter_append_perm _ l)

/-- Sorting finds what is in strict order already. -/
theorem mergeSort_eq_of_perm {β : Type} {l l' : List (Nat × β)} (hperm : l.Perm l')
    (h : l'.Pairwise fun a b => a.1 < b.1) : (l.mergeSort fun a b => decide (a.1 ≤ b.1)) = l' := by
  have hsorted : (l.mergeSort fun a b => decide (a.1 ≤ b.1)).Pairwise fun a b => a.1 ≤ b.1 := by
    refine List.Pairwise.imp of_decide_eq_true (List.pairwise_mergeSort ?_ ?_ l)
    · intro a b c hab hbc
      simp only [decide_eq_true_eq] at *
      omega
    · intro a b
      simp only [Bool.or_eq_true, decide_eq_true_eq]
      omega
  have hperm' := (List.mergeSort_perm l fun a b => decide (a.1 ≤ b.1)).trans hperm
  refine hperm'.eq_of_pairwise ?_ hsorted (h.imp Nat.le_of_lt)
  intro a b ha hb hab hba
  have hinjective : (l'.map (·.1)).Nodup := (List.pairwise_map.2 h).imp Nat.ne_of_lt
  exact List.inj_on_of_nodup_map hinjective (hperm'.mem_iff.1 ha) hb (Nat.le_antisymm hab hba)

theorem Records.pairwise_indexedJob (h : Records m line) :
    (line.filterMap Use.indexedJob?).Pairwise fun a b => a.1 < b.1 := by
  rw [List.pairwise_filterMap]
  refine (List.pairwise_flatMap.1 h.increasing).2.imp fun hlt a ha b hb => ?_
  exact hlt _ (exists_mem_indices ha) _ (exists_mem_indices hb)

theorem Operation.mem_all (operation : Operation) : operation ∈ Operation.all := by
  rcases operation with (_ | _ | _) | (_ | _) <;> decide

/-- The jobs come in the order of the command line. -/
theorem Records.jobsInOrder_eq (h : Records m line) : m.jobsInOrder = line.filterMap Use.job? := by
  have hperm : (Operation.all.flatMap m.indexedJobs).Perm (line.filterMap Use.indexedJob?) := by
    rw [funext h.indexedJobs, ← List.filterMap_flatMap]
    exact (flatMap_filter_perm (by decide) fun u _ => u.operation.mem_all).filterMap _
  rw [Matches.jobsInOrder, mergeSort_eq_of_perm hperm h.pairwise_indexedJob, List.map_filterMap]
  refine List.filterMap_congr fun u _ => ?_
  rw [Use.indexedJob?, Option.map_map]
  exact Option.map_id'

end Order

end FiniteAutomata.CommandLine
