import FiniteAutomata.Proofs.SearchAutomaton

/-! The loop that numbers what it finds: breadth first, it gives the next number to everything that it meets for the
first time, and builds the automaton on the way. A loop is taken turn by turn, with no bound on the turns. This one
always ends. It takes a turn for each element that it finds, and by then the numbers are the positions in the order
of discovery and the automaton is the one of the search. -/

namespace FiniteAutomata

variable {α β : Type}

/-- From `s` a loop takes so many turns and ends in `t`. A turn answers with the next state, or with nothing when the
loop is over, and it may also fail; then there is no end. -/
inductive Loop.Ends {m : Type → Type} [Pure m] {σ : Type} (turn : σ → m (Option σ)) : Nat → σ → σ → Prop where
  | ended {s : σ} : turn s = pure none → Ends turn 0 s s
  | again {n : Nat} {s s' t : σ} : turn s = pure (some s') → Ends turn n s' t → Ends turn (n + 1) s t

/-- Nothing is found for an element that is not listed. -/
theorem lookup_graph_eq_none [BEq α] [LawfulBEq α] {f : α → β} {l : List α} {x : α} (hx : x ∉ l) :
    (l.map fun x => (x, f x)).lookup x = none := by
  rw [List.lookup_eq_none_iff]
  intro entry hentry
  obtain ⟨y, hy, rfl⟩ := List.mem_map.1 hentry
  rw [bne_iff_ne]
  rintro rfl
  exact hx hy

/-- A search that numbers what it finds: the numbers given so far, what is to be visited, and the automaton
built so far. -/
structure Tour (α : Type) where
  numbers : List (α × StateId)
  queue : List α
  result : Automaton

namespace Tour

section Definitions

variable [BEq α] (row : α → List (Symbol × α)) (atVisit atDiscovery : α → Bool)

/-- The automaton in which a state is final when it has to be. -/
def mark (final : Bool) (q : StateId) (a : Automaton) : Automaton := if final then a.addFinal q else a

/-- The search before its first visit. -/
def start (alphabet : SortedSet Symbol) (first : α) : Tour α where
  numbers := [(first, 0)]
  queue := [first]
  result := mark (atDiscovery first) 0 ({ Automaton.empty .dfa with alphabet }.addInitial 0)

/-- The search with the edge of a move. The element at its end gets the next number, unless it has one. -/
def follow (source : StateId) (tour : Tour α) (move : Symbol × α) : Tour α :=
  match tour.numbers.lookup move.2 with
  | some target => { tour with result := tour.result.addEdge ⟨source, move.1, target⟩ }
  | none =>
    let target := tour.numbers.length
    { numbers := tour.numbers ++ [(move.2, target)]
      queue := tour.queue ++ [move.2]
      result := (mark (atDiscovery move.2) target (tour.result.addState target)).addEdge
        ⟨source, move.1, target⟩ }

/-- Visits the first element of the queue, which has to have a number. -/
def turn : Tour α → Option (Option (Tour α))
  | ⟨_, [], _⟩ => some none
  | ⟨numbers, x :: queue, result⟩ => do
    let source ← numbers.lookup x
    return some ((row x).foldl (follow atDiscovery source) ⟨numbers, queue, mark (atVisit x) source result⟩)

/-- Visits what is in the queue until it is empty. What is visited has to have a number, and no more than
`fuel` elements may be visited. -/
def run : (fuel : Nat) → Tour α → Option Automaton
  | _, ⟨_, [], result⟩ => some result
  | 0, ⟨_, _ :: _, _⟩ => none
  | fuel + 1, ⟨numbers, x :: queue, result⟩ => do
    let source ← numbers.lookup x
    run fuel ((row x).foldl (follow atDiscovery source) ⟨numbers, queue, mark (atVisit x) source result⟩)

end Definitions

section Mark

variable {final : Bool} {q : StateId} {a b : Automaton}

/-- A mark changes the states and the final states only. -/
theorem mark_eq (hsame : { b with states := a.states, final := a.final } = a)
    (hstates : ∀ p, p ∈ b.states ↔ p = q ∧ final = true ∨ p ∈ a.states)
    (hfinal : ∀ p, p ∈ b.final ↔ p = q ∧ final = true ∨ p ∈ a.final) : mark final q a = b := by
  have hmarked : { b with states := (mark final q a).states, final := (mark final q a).final } =
      mark final q a := by
    rw [← hsame]
    cases final <;> rfl
  rw [← hmarked]
  refine Automaton.ext rfl (fun p => ?_) (fun _ => Iff.rfl) (fun _ => Iff.rfl) (fun p => ?_) rfl
  · rw [hstates]
    cases final <;> simp [mark, Automaton.addFinal]
  · rw [hfinal]
    cases final <;> simp [mark, Automaton.addFinal]

end Mark

variable [BEq α] {row : α → List (Symbol × α)} {atVisit atDiscovery : α → Bool}
  {alphabet : SortedSet Symbol} {order visited known queue : List α} {edges : List Edge} {x : α}
  {move : Symbol × α} {source : StateId}

section Built

/-- The automaton when the elements of `known` have been numbered by their positions in `order`, those of
`visited` have been visited and `edges` have been added. -/
def built (atVisit atDiscovery : α → Bool) (alphabet : SortedSet Symbol) (order visited known : List α)
    (edges : List Edge) : Automaton :=
  { kind := .dfa
    states := .ofList (List.range known.length)
    alphabet
    initial := .ofList [0]
    final := .ofList ((visited.filter atVisit ++ known.filter atDiscovery).map order.idxOf)
    table := .ofEdges edges }

theorem addEdge_built (e : Edge) :
    (built atVisit atDiscovery alphabet order visited known edges).addEdge e =
      built atVisit atDiscovery alphabet order visited known (edges ++ [e]) := by
  have htable : TransitionTable.ofEdges (edges ++ [e]) = (TransitionTable.ofEdges edges).insert e := by
    rw [TransitionTable.ofEdges, TransitionTable.insertAll, List.foldl_append]
    rfl
  rw [built, built, htable]
  rfl

theorem mark_built_discovered (hnext : order.idxOf x = known.length) :
    mark (atDiscovery x) known.length
        ((built atVisit atDiscovery alphabet order visited known edges).addState known.length) =
      built atVisit atDiscovery alphabet order visited (known ++ [x]) edges := by
  refine mark_eq rfl (fun p => ?_) (fun p => ?_)
  · simp only [built, Automaton.addState, SortedSet.mem_insert, SortedSet.mem_ofList, List.mem_range,
      List.length_append, List.length_singleton, Nat.lt_succ_iff_lt_or_eq]
    tauto
  · simp only [built, Automaton.addState, SortedSet.mem_ofList, List.map_append, List.filter_append,
      List.mem_append, List.mem_map, List.mem_filter, List.mem_singleton]
    grind

theorem mark_built_visited (hx : order.idxOf x < known.length) :
    mark (atVisit x) (order.idxOf x) (built atVisit atDiscovery alphabet order visited known edges) =
      built atVisit atDiscovery alphabet order (visited ++ [x]) known edges := by
  refine mark_eq rfl (fun p => ?_) (fun p => ?_)
  · simp only [built, SortedSet.mem_ofList, List.mem_range]
    refine (or_iff_right_of_imp ?_).symm
    rintro ⟨rfl, _⟩
    exact hx
  · simp only [built, SortedSet.mem_ofList, List.map_append, List.filter_append, List.mem_append,
      List.mem_map, List.mem_filter, List.mem_singleton]
    grind

/-- Before the first visit one element is known. -/
theorem mark_built_first (hfirst : order.idxOf x = 0) :
    mark (atDiscovery x) 0 ({ Automaton.empty .dfa with alphabet }.addInitial 0) =
      built atVisit atDiscovery alphabet order [] [x] [] := by
  refine mark_eq rfl (fun p => ?_) (fun p => ?_)
  · simp only [built, Automaton.empty, Automaton.addInitial, SortedSet.mem_ofList, List.length_singleton,
      List.mem_range, Nat.lt_one_iff, SortedSet.mem_insert, SortedSet.not_mem_empty, or_false]
    exact (or_iff_right_of_imp And.left).symm
  · simp only [built, Automaton.empty, Automaton.addInitial, SortedSet.mem_ofList, List.filter_nil, List.nil_append,
      List.mem_map, List.mem_filter, List.mem_singleton, SortedSet.not_mem_empty]
    grind

end Built

/-- The search at that point, with what is left to be visited. -/
def after (atVisit atDiscovery : α → Bool) (alphabet : SortedSet Symbol) (order visited known queue : List α)
    (edges : List Edge) : Tour α where
  numbers := known.map fun x => (x, order.idxOf x)
  queue
  result := built atVisit atDiscovery alphabet order visited known edges

variable [LawfulBEq α]

theorem follow_known (hknown : move.2 ∈ known) :
    follow atDiscovery source (after atVisit atDiscovery alphabet order visited known queue edges) move =
      after atVisit atDiscovery alphabet order visited known queue
        (edges ++ [⟨source, move.1, order.idxOf move.2⟩]) := by
  have hfound : (known.map fun x => (x, order.idxOf x)).lookup move.2 = some (order.idxOf move.2) :=
    List.lookup_graph _ hknown
  simp only [follow, after, hfound, addEdge_built]

theorem follow_new (hnew : move.2 ∉ known) (hnext : order.idxOf move.2 = known.length) :
    follow atDiscovery source (after atVisit atDiscovery alphabet order visited known queue edges) move =
      after atVisit atDiscovery alphabet order visited (known ++ [move.2]) (queue ++ [move.2])
        (edges ++ [⟨source, move.1, order.idxOf move.2⟩]) := by
  have hnone : (known.map fun x => (x, order.idxOf x)).lookup move.2 = none := lookup_graph_eq_none hnew
  simp only [follow, after, hnone, List.length_map, mark_built_discovered hnext, addEdge_built, List.map_append,
    List.map_cons, List.map_nil, hnext]

/-- The number of an element that is taken from the queue is there, since it has been given when the element
was found. -/
theorem turn_visit (hx : x ∈ known) (hwithin : known <+: order) :
    turn row atVisit atDiscovery (after atVisit atDiscovery alphabet order visited known (x :: queue) edges) =
      some (some ((row x).foldl (follow atDiscovery (order.idxOf x))
        (after atVisit atDiscovery alphabet order (visited ++ [x]) known queue edges))) := by
  have hnumber : (known.map fun x => (x, order.idxOf x)).lookup x = some (order.idxOf x) := List.lookup_graph _ hx
  have hlt : order.idxOf x < known.length := by
    obtain ⟨rest, rfl⟩ := hwithin
    rw [List.idxOf_append_of_mem hx]
    exact List.idxOf_lt_length_iff.2 hx
  rw [after, after, ← mark_built_visited hlt, turn, hnumber]
  rfl

variable [DecidableEq α]

open Search in
/-- Following the moves of an element numbers what is new among their targets, in the order in which it is
met. The induction is on the moves. -/
theorem foldl_follow (moves : List (Symbol × α)) (hwithin : known ++ fresh known (moves.map (·.2)) <+: order) :
    moves.foldl (follow atDiscovery source) (after atVisit atDiscovery alphabet order visited known queue edges) =
      after atVisit atDiscovery alphabet order visited (known ++ fresh known (moves.map (·.2)))
        (queue ++ fresh known (moves.map (·.2)))
        (edges ++ moves.map fun move => ⟨source, move.1, order.idxOf move.2⟩) := by
  induction moves generalizing known queue edges with
  | nil => simp [fresh]
  | cons move moves ih =>
      rw [List.map_cons, fresh] at hwithin ⊢
      rw [List.foldl_cons, List.map_cons, List.append_cons edges]
      by_cases hknown : move.2 ∈ known
      · rw [if_pos hknown] at hwithin ⊢
        rw [follow_known hknown, ih hwithin]
      · have hfresh : fresh (move.2 :: known) (moves.map (·.2)) = fresh (known ++ [move.2]) (moves.map (·.2)) := by
          apply fresh_congr
          intro x
          rw [List.mem_cons, List.mem_append, List.mem_singleton, or_comm]
        rw [if_neg hknown, hfresh, List.append_cons known] at hwithin ⊢
        have hnext : order.idxOf move.2 = known.length := by
          obtain ⟨rest, rfl⟩ := (List.prefix_append _ _).trans hwithin
          simp [List.idxOf_append, hknown]
        rw [List.append_cons queue, follow_new hknown hnext, ih hwithin]

/-- The edges of the moves from some elements. -/
def edgesFrom (row : α → List (Symbol × α)) (order visited : List α) : List Edge :=
  visited.flatMap fun x => (row x).map fun move => ⟨order.idxOf x, move.1, order.idxOf move.2⟩

/-- The elements that follow an element. -/
def targets (row : α → List (Symbol × α)) (x : α) : List α := (row x).map (·.2)

open Search in
/-- A turn for each element that is still to be visited, or still to be found, leads to the end. The induction is
along the search. -/
theorem ends_after {bound : Nat} {start : List α} {inside : α → Prop}
    (h : Bounded (targets row) bound start inside) (fuel : Nat) (hfrontier : Frontier (targets row) visited queue)
    (hinside : ∀ x ∈ visited ++ queue, inside x) (hfuel : bound ≤ visited.length + fuel)
    (horder : explore (targets row) fuel visited queue = order) :
    ∃ turns, visited.length + turns = order.length ∧ Loop.Ends (turn row atVisit atDiscovery) turns
      (after atVisit atDiscovery alphabet order visited (visited ++ queue) queue (edgesFrom row order visited))
      (after atVisit atDiscovery alphabet order order order [] (edgesFrom row order order)) := by
  refine h.induction (motive := fun fuel visited queue => explore (targets row) fuel visited queue = order →
    ∃ turns, visited.length + turns = order.length ∧ Loop.Ends (turn row atVisit atDiscovery) turns
      (after atVisit atDiscovery alphabet order visited (visited ++ queue) queue (edgesFrom row order visited))
      (after atVisit atDiscovery alphabet order order order [] (edgesFrom row order order))) ?_ ?_ fuel hfrontier
    hinside hfuel horder
  · intro fuel visited _ horder
    rw [explore_nil] at horder
    subst horder
    rw [List.append_nil]
    exact ⟨0, rfl, .ended rfl⟩
  · intro fuel visited x queue hrest horder
    rw [explore] at horder
    obtain ⟨turns, hlength, hends⟩ := hrest horder
    have hwithin : visited ++ x :: queue ++ fresh (visited ++ x :: queue) (targets row x) <+: order := by
      rw [← visit_append (targets row), ← horder]
      exact prefix_explore _ _ _ _
    have hx : x ∈ visited ++ x :: queue := List.mem_append_right _ List.mem_cons_self
    refine ⟨turns + 1, ?_, .again (turn_visit hx ((List.prefix_append _ _).trans hwithin)) ?_⟩
    · rw [List.length_append, List.length_singleton] at hlength
      omega
    · rw [visit_append, edgesFrom, List.flatMap_append, List.flatMap_singleton] at hends
      rw [foldl_follow (row x) hwithin]
      exact hends

omit [LawfulBEq α] in
/-- In the end all that is found has been visited. -/
theorem built_found (bound : Nat) (first : α) :
    built atVisit atDiscovery alphabet (Automaton.found row bound first) (Automaton.found row bound first)
        (Automaton.found row bound first)
        (edgesFrom row (Automaton.found row bound first) (Automaton.found row bound first)) =
      Automaton.ofSearch row bound first (fun x => atVisit x || atDiscovery x) alphabet := by
  refine Automaton.ext rfl (fun _ => Iff.rfl) (fun _ => Iff.rfl) (fun _ => Iff.rfl) (fun q => ?_) rfl
  rw [Automaton.mem_final_ofSearch, built, SortedSet.mem_ofList]
  simp only [List.mem_map, List.mem_append, List.mem_filter, Bool.or_eq_true, ← and_or_left, and_assoc]
  rfl

omit [DecidableEq α] in
/-- What is listed once has its positions for numbers. -/
theorem numbers_eq_zipIdx (h : order.Nodup) : (order.map fun x => (x, order.idxOf x)) = order.zipIdx := by
  apply List.ext_getElem
  · rw [List.length_map, List.length_zipIdx]
  · intro i _ _
    rw [List.getElem_map, List.getElem_zipIdx, h.idxOf_getElem, Nat.zero_add]

/-- From one element the loop visits all that is found, and it ends with the automaton of the search. -/
theorem ends_start {bound : Nat} {first : α} {symbols : SortedSet Symbol}
    (h : Automaton.Rows row bound first symbols) :
    Loop.Ends (turn row atVisit atDiscovery) (Automaton.found row bound first).length
      (start atDiscovery alphabet first)
      ⟨(Automaton.found row bound first).zipIdx, [],
        Automaton.ofSearch row bound first (fun x => atVisit x || atDiscovery x) alphabet⟩ := by
  obtain ⟨inside, hbounded⟩ := h.bounded
  have hfirst : (Automaton.found row bound first).idxOf first = 0 := Automaton.position_first
  have hstart : start atDiscovery alphabet first =
      after atVisit atDiscovery alphabet (Automaton.found row bound first) [] [first] [first] [] := by
    rw [start, after, ← mark_built_first hfirst, List.map_singleton, hfirst]
  have hnodup : (Automaton.found row bound first).Nodup := Search.nodup_reach _ _ _
  rw [← numbers_eq_zipIdx hnodup, ← built_found, hstart]
  obtain ⟨turns, hturns, hends⟩ := ends_after hbounded bound (.init (targets row) [first])
    (Search.inside_of_fresh hbounded) (Nat.le_add_left _ _) rfl
  rw [List.length_nil, Nat.zero_add] at hturns
  exact hturns ▸ hends

section Fuel

omit [LawfulBEq α] [DecidableEq α]

/-- A turn costs one unit of fuel. -/
theorem run_of_turn {fuel : Nat} {tour next : Tour α} (hturn : turn row atVisit atDiscovery tour = some (some next)) :
    run row atVisit atDiscovery (fuel + 1) tour = run row atVisit atDiscovery fuel next := by
  obtain ⟨numbers, _ | ⟨x, queue⟩, result⟩ := tour
  · cases hturn
  · obtain ⟨source, hsource, hnext⟩ := Option.bind_eq_some_iff.1 hturn
    cases hnext
    rw [run, hsource]
    rfl

theorem run_of_ends {turns fuel : Nat} {tour last : Tour α}
    (hends : Loop.Ends (turn row atVisit atDiscovery) turns tour last) (hfuel : turns ≤ fuel) :
    run row atVisit atDiscovery fuel tour = some last.result := by
  induction hends generalizing fuel with
  | @ended tour hended =>
      obtain ⟨numbers, _ | ⟨x, queue⟩, result⟩ := tour
      · cases fuel <;> rfl
      · obtain ⟨source, _, hnone⟩ := Option.bind_eq_some_iff.1 hended
        cases hnone
  | again hturn _ ih =>
      obtain ⟨fuel, rfl⟩ := Nat.exists_eq_add_of_le' (Nat.one_le_of_lt hfuel)
      rw [run_of_turn hturn]
      exact ih (Nat.le_of_succ_le_succ hfuel)

end Fuel

/-- The search from one element builds what `ofSearch` describes, so everything that it needs is defined. -/
theorem run_start {bound : Nat} {first : α} {symbols : SortedSet Symbol}
    (h : Automaton.Rows row bound first symbols) :
    run row atVisit atDiscovery bound (start atDiscovery alphabet first) =
      some (Automaton.ofSearch row bound first (fun x => atVisit x || atDiscovery x) alphabet) := by
  obtain ⟨inside, hbounded⟩ := h.bounded
  exact run_of_ends (ends_start h)
    (hbounded.length_le _ (Search.nodup_reach _ _ _) fun _ => Search.inside_of_mem_reach hbounded)

end Tour

end FiniteAutomata
