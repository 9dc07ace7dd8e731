import FiniteAutomata.Proofs.SubsetSearch
import FiniteAutomata.Proofs.Tours

/-! The loop that discovers the sets of the subset construction. It visits a set by putting the targets of all edges
that leave it together by their symbols; then it goes through the symbols in ascending order, discovers what is new
under each of them as far as the limit allows, and records the move. Where the limit does not stop it, it ends after a
turn for each set that is reached. -/

namespace FiniteAutomata

variable {a : Automaton} {limit : Option Nat}

namespace Automaton

section Collected

variable {q : StateId} {s : Symbol} {set set' : SortedSet StateId}

/-- The row with one target more under its symbol. -/
def collectTarget (row : SortedMap Symbol (SortedSet StateId)) (τ : Transition) :
    SortedMap Symbol (SortedSet StateId) :=
  row.insert τ.symbol (((row.find? τ.symbol).getD ∅).insert τ.target)

/-- The targets of the edges that leave a set, put together by their symbols. -/
def collectedRow (a : Automaton) (set : SortedSet StateId) : SortedMap Symbol (SortedSet StateId) :=
  set.toList.foldl (fun row q => (a.row q).toList.foldl collectTarget row) ∅

/-- Collecting adds the targets under a symbol to those that are there. -/
theorem mem_foldl_collectTarget (moves : List Transition) (row : SortedMap Symbol (SortedSet StateId)) :
    q ∈ ((moves.foldl collectTarget row).find? s).getD ∅ ↔ q ∈ (row.find? s).getD ∅ ∨ ⟨s, q⟩ ∈ moves := by
  induction moves generalizing row with
  | nil => simp
  | cons τ moves ih =>
      obtain ⟨t, p⟩ := τ
      rw [List.foldl_cons, ih, collectTarget, SortedMap.find?_insert, List.mem_cons, Transition.mk.injEq]
      by_cases hs : s = t
      · subst hs
        simp only [if_true, Option.getD_some, SortedSet.mem_insert, true_and, or_assoc, or_left_comm]
      · rw [if_neg hs]
        simp only [hs, false_and, false_or]

/-- No symbol is collected without a target. -/
theorem exists_mem_foldl_collectTarget (moves : List Transition) {row : SortedMap Symbol (SortedSet StateId)}
    (hrow : ∀ s set, row.find? s = some set → ∃ q, q ∈ set) :
    ∀ s set, (moves.foldl collectTarget row).find? s = some set → ∃ q, q ∈ set := by
  induction moves generalizing row with
  | nil => exact hrow
  | cons τ moves ih =>
      apply ih
      intro s set hfound
      rw [collectTarget, SortedMap.find?_insert] at hfound
      split at hfound
      · cases hfound
        exact ⟨τ.target, SortedSet.mem_insert.2 (.inl rfl)⟩
      · exact hrow s set hfound

theorem find?_collectedRow : (a.collectedRow set).find? s = some set' ↔ (s, set') ∈ a.subsetRow set := by
  have hflat : a.collectedRow set = (set.toList.flatMap fun q => (a.row q).toList).foldl collectTarget ∅ :=
    List.foldl_flatMap.symm
  have hmem : ∀ q, q ∈ ((a.collectedRow set).find? s).getD ∅ ↔ q ∈ a.targetSet set s := by
    intro q
    rw [hflat, mem_foldl_collectTarget, mem_targetSet]
    simp only [SortedMap.find?_empty, Option.getD_none, SortedSet.not_mem_empty, false_or, List.mem_flatMap,
      SortedSet.mem_toList, hasEdge_iff_mem_row]
  rw [mem_subsetRow]
  constructor
  · intro hfound
    rw [hfound] at hmem
    refine ⟨SortedSet.ext hmem, ?_⟩
    rw [hflat] at hfound
    refine exists_mem_foldl_collectTarget _ ?_ s set' hfound
    intro t found hfound
    cases hfound
  · rintro ⟨rfl, q, hq⟩
    cases hfound : (a.collectedRow set).find? s with
    | none =>
        rw [hfound] at hmem
        exact absurd ((hmem q).2 hq) (SortedSet.not_mem_empty q)
    | some found =>
        rw [hfound] at hmem
        exact congrArg some (SortedSet.ext hmem)

/-- What is collected is the row of the set. -/
theorem entries_collectedRow (a : Automaton) (set : SortedSet StateId) :
    (a.collectedRow set).entries = a.subsetRow set := by
  have hascending : (a.subsetRow set).Pairwise fun σ τ => compare σ.1 τ.1 = .lt :=
    List.pairwise_map.2 (a.leavingSymbols set).ascending
  have hrow : a.collectedRow set = ⟨a.subsetRow set, hascending⟩ := by
    apply SortedMap.ext
    intro s
    apply Option.ext
    intro set'
    rw [find?_collectedRow, ← SortedMap.mem_entries_iff]
  rw [hrow]

end Collected

end Automaton

/-- The sets that have been discovered, those of them that are still to be visited, and the table so far. -/
structure SubsetSearch where
  discovered : List (SortedSet StateId)
  queue : List (SortedSet StateId)
  memo : SubsetMemo

namespace SubsetSearch

/-- The search before its first visit. The first set counts against the limit as well. -/
def start (a : Automaton) (limit : Option Nat) : Except OperationFailure SubsetSearch := do
  SubsetMemo.checkLimit limit 1
  return ⟨[a.initial], [a.initial], ∅⟩

/-- Puts a set into the queue when it is new and the limit allows one more. -/
def discover (limit : Option Nat) (search : SubsetSearch) (set : SortedSet StateId) :
    Except OperationFailure SubsetSearch :=
  if search.discovered.contains set then return search
  else do
    SubsetMemo.checkLimit limit (search.discovered.length + 1)
    return { search with discovered := search.discovered ++ [set], queue := search.queue ++ [set] }

/-- Goes along a move from a set and records it. -/
def follow (limit : Option Nat) (source : SortedSet StateId) (search : SubsetSearch)
    (move : Symbol × SortedSet StateId) : Except OperationFailure SubsetSearch := do
  let search ← search.discover limit move.2
  return { search with memo := search.memo.record source [move] }

/-- Visits the first set of the queue. -/
def turn (a : Automaton) (limit : Option Nat) : SubsetSearch → Except OperationFailure (Option SubsetSearch)
  | ⟨_, [], _⟩ => return none
  | ⟨discovered, set :: queue, memo⟩ => do
    let search ← (a.collectedRow set).entries.foldlM (follow limit set) ⟨discovered, queue, memo⟩
    return some search

variable {discovered visited queue new : List (SortedSet StateId)} {set : SortedSet StateId}
  {move : Symbol × SortedSet StateId} {m m' : SubsetMemo}

theorem follow_known (hknown : move.2 ∈ discovered) :
    follow limit set ⟨discovered, queue, m⟩ move = .ok ⟨discovered, queue, m.record set [move]⟩ := by
  rw [follow, discover, if_pos (List.contains_iff_mem.2 hknown)]
  rfl

theorem follow_new (hnew : move.2 ∉ discovered)
    (hlimit : SubsetMemo.checkLimit limit (discovered.length + 1) = .ok ()) :
    follow limit set ⟨discovered, queue, m⟩ move =
      .ok ⟨discovered ++ [move.2], queue ++ [move.2], m.record set [move]⟩ := by
  rw [follow, discover, if_neg (mt List.contains_iff_mem.1 hnew), hlimit]
  rfl

/-- Neither the order of what has been found matters nor how it is repeated, only how much it is. -/
theorem discover_congr {found found' : List (SortedSet StateId)} (sets : List (SortedSet StateId))
    (hmem : ∀ set, set ∈ found ↔ set ∈ found') (hlength : found.length = found'.length) :
    SubsetMemo.discover limit found sets = SubsetMemo.discover limit found' sets := by
  induction sets generalizing found found' with
  | nil => rfl
  | cons set sets ih =>
      have hrest : SubsetMemo.discover limit (set :: found) sets = SubsetMemo.discover limit (set :: found') sets := by
        apply ih
        · intro other
          rw [List.mem_cons, List.mem_cons, hmem]
        · rw [List.length_cons, List.length_cons, hlength]
      rw [SubsetMemo.discover, SubsetMemo.discover, ih hmem hlength, hrest, hlength]
      simp only [hmem]

/-- Following the moves of a set one by one discovers what is new among all of them and records them all. The
induction is on the moves. -/
theorem foldlM_follow (moves : List (Symbol × SortedSet StateId))
    (hnew : SubsetMemo.discover limit discovered (moves.map (·.2)) = .ok new) :
    moves.foldlM (follow limit set) ⟨discovered, queue, m⟩ =
      .ok ⟨discovered ++ new, queue ++ new, m.record set moves⟩ := by
  induction moves generalizing discovered queue m new with
  | nil =>
      cases hnew
      simp [SubsetMemo.record, pure, Except.pure]
  | cons move moves ih =>
      have hrecord : (m.record set [move]).record set moves = m.record set (move :: moves) := by
        simp [SubsetMemo.record]
      rw [List.map_cons, SubsetMemo.discover] at hnew
      rw [List.foldlM_cons, ← hrecord]
      split at hnew
      · next hknown =>
          rw [follow_known hknown]
          exact ih hnew
      · next hfresh =>
          obtain ⟨_, hlimit, hnew⟩ := bind_eq_ok.1 hnew
          obtain ⟨rest, hrest, hnew⟩ := bind_eq_ok.1 hnew
          cases hnew
          have hrest' : SubsetMemo.discover limit (discovered ++ [move.2]) (moves.map (·.2)) = .ok rest := by
            rw [← hrest]
            exact discover_congr _ (fun other => by simp [or_comm]) (by simp)
          rw [follow_new hfresh hlimit, List.append_cons discovered _ rest, List.append_cons queue _ rest]
          exact ih hrest'

theorem turn_visit (hnew : SubsetMemo.discover limit (visited ++ set :: queue) (a.followingSets set) = .ok new) :
    turn a limit ⟨visited ++ set :: queue, set :: queue, m⟩ =
      .ok (some ⟨visited ++ set :: queue ++ new, queue ++ new, m.record set (a.subsetRow set)⟩) := by
  rw [turn, a.entries_collectedRow, foldlM_follow (a.subsetRow set) hnew]
  rfl

/-- A search that the limit does not stop ends, with the table of `SubsetMemo.explore`. The induction is along the
search. -/
theorem ends_of_explore {bound : Nat} {start : List (SortedSet StateId)} {inside : SortedSet StateId → Prop}
    (h : Search.Bounded a.followingSets bound start inside) (fuel : Nat)
    (hfrontier : Search.Frontier a.followingSets visited queue) (hinside : ∀ set ∈ visited ++ queue, inside set)
    (hfuel : bound ≤ visited.length + fuel) (hok : SubsetMemo.explore a limit fuel visited queue m = .ok m') :
    ∃ turns, visited.length + turns = (Search.explore a.followingSets fuel visited queue).length ∧
      Loop.Ends (turn a limit) turns ⟨visited ++ queue, queue, m⟩
        ⟨Search.explore a.followingSets fuel visited queue, [], m'⟩ := by
  refine h.induction (motive := fun fuel visited queue => ∀ m,
    SubsetMemo.explore a limit fuel visited queue m = .ok m' → ∃ turns,
      visited.length + turns = (Search.explore a.followingSets fuel visited queue).length ∧
      Loop.Ends (turn a limit) turns ⟨visited ++ queue, queue, m⟩
        ⟨Search.explore a.followingSets fuel visited queue, [], m'⟩) ?_ ?_ fuel hfrontier hinside hfuel m hok
  · intro fuel visited _ m hok
    obtain rfl : m = m' := by cases fuel <;> cases hok <;> rfl
    rw [Search.explore_nil, List.append_nil]
    exact ⟨0, rfl, .ended rfl⟩
  · intro fuel visited set queue hrest m hok
    obtain ⟨new, hnew, hok⟩ := bind_eq_ok.1 hok
    obtain rfl := SubsetMemo.discover_eq_ok hnew
    obtain ⟨turns, hlength, hends⟩ := hrest _ hok
    refine ⟨turns + 1, ?_, .again (turn_visit hnew) ?_⟩
    · rw [Search.explore, ← hlength, List.length_append, List.length_singleton]
      omega
    · rw [Search.visit_append] at hends
      exact hends

/-- The loop ends with the sets that are reached, in the order of their discovery, and with the table. -/
theorem ends_of_build (h : a.Valid) (hok : SubsetMemo.build a limit = .ok m) :
    ∃ first, start a limit = .ok first ∧
      Loop.Ends (turn a limit) a.reachedSets.length first ⟨a.reachedSets, [], m⟩ := by
  obtain ⟨_, hlimit, hok⟩ := bind_eq_ok.1 hok
  have hbounded := Automaton.bounded_sets h.initial_mem h.target_mem
  obtain ⟨turns, hturns, hends⟩ := ends_of_explore hbounded _ (.init a.followingSets [a.initial])
    (Search.inside_of_fresh hbounded) (Nat.le_add_left _ _) hok
  rw [List.length_nil, Nat.zero_add] at hturns
  exact ⟨_, bind_eq_ok.2 ⟨_, hlimit, rfl⟩, hturns ▸ hends⟩

end SubsetSearch

end FiniteAutomata
