import FiniteAutomata.Proofs.Draws
import FiniteAutomata.Proofs.Validity
import FiniteAutomata.Random.Generation

/-! Generated automata. Whatever words the stream holds, all that generating an automaton looks up and adds up is
defined, and only so many words are taken. A sketch says what the states, the marks and the edges that are there
already have in common; every addition keeps it, and a sketch with its initial states is well-formed. -/

namespace FiniteAutomata.Random

open CheckedDraw

section Letters

/-- A sum of 32 bits, which is not defined when it is too large. -/
def checkedAddHalf (m n : Nat) : Option Nat := if m + n < Draw.halfWords then some (m + n) else none

/-- The digit of a value in a base of at most 36, in lower case. -/
def digit? (base value : Nat) : Option Char :=
  if base ≤ value then none
  else if value < 10 then some (Char.ofNat ('0'.toNat + value))
  else some (Char.ofNat ('a'.toNat + (value - 10)))

/-- `letters` as the digits in base 36 from the value 10 on, of which there are `n` unless they come to an end. -/
def lettersChecked (n : Nat) : Option (List Symbol) := do
  let values ← (List.range n).mapM fun i => checkedAddHalf i 10
  return (values.filterMap (digit? 36)).map String.singleton

variable {n : Nat}

theorem filterMap_digit? (n : Nat) : ((List.range n).map (· + 10)).filterMap (digit? 36) =
    (List.range (min n 26)).map fun i => Char.ofNat ('a'.toNat + i) := by
  induction n with
  | zero => rfl
  | succ n ih =>
      rw [List.range_succ, List.map_append, List.filterMap_append, ih]
      by_cases hn : n < 26
      · have hdigit : digit? 36 (n + 10) = some (Char.ofNat ('a'.toNat + n)) := by
          rw [digit?, if_neg (by omega), if_neg (by omega), Nat.add_sub_cancel]
        rw [Nat.min_eq_left (Nat.le_of_lt hn), Nat.min_eq_left hn, List.range_succ, List.map_append]
        simp [hdigit]
      · have hdigit : digit? 36 (n + 10) = none := if_pos (by omega)
        rw [Nat.min_eq_right (Nat.not_lt.1 hn), Nat.min_eq_right (by omega)]
        simp [hdigit]

/-- Past the last letter nothing is added, as long as the values fit into 32 bits. -/
theorem lettersChecked_eq (hn : n ≤ Draw.halfWords - 10) : lettersChecked n = some (letters n) := by
  have hhalf : Draw.halfWords = 4294967296 := rfl
  have hvalues : (List.range n).mapM (fun i => checkedAddHalf i 10) = some ((List.range n).map (· + 10)) := by
    refine Checked.mapM_eq_some fun i hi => if_pos ?_
    have hlt : i < n := List.mem_range.1 hi
    omega
  rw [lettersChecked, hvalues]
  show some ((((List.range n).map (· + 10)).filterMap (digit? 36)).map String.singleton) = _
  rw [filterMap_digit?, List.map_map]
  rfl

theorem letters_eq_take (n : Nat) :
    letters n = ("abcdefghijklmnopqrstuvwxyz".toList.take n).map String.singleton := by
  have hall : (List.range 26).map (fun i => String.singleton (Char.ofNat ('a'.toNat + i))) =
      "abcdefghijklmnopqrstuvwxyz".toList.map String.singleton := by decide +kernel
  rw [List.map_take, ← hall, ← List.map_take, List.take_range, letters]

theorem pairwise_letters (n : Nat) : (letters n).Pairwise fun s t => compare s t = .lt := by
  have hall : ("abcdefghijklmnopqrstuvwxyz".toList.map String.singleton).Pairwise
      fun s t => compare s t = .lt := by decide +kernel
  rw [letters_eq_take, List.map_take]
  exact hall.sublist (List.take_sublist _ _)

theorem epsilon_not_mem_letters (n : Nat) : epsilon ∉ letters n := by
  have hall : epsilon ∉ "abcdefghijklmnopqrstuvwxyz".toList.map String.singleton := by decide +kernel
  rw [letters_eq_take, List.map_take]
  exact fun h => hall (List.mem_of_mem_take h)

/-- The letters are in alphabetical order already. -/
theorem toList_ofList_letters (n : Nat) : (SortedSet.ofList (letters n)).toList = letters n :=
  SortedSet.toList_eq (pairwise_letters n) fun _ => SortedSet.mem_ofList

end Letters

section Sketches

variable {kind : Kind} {symbols : List Symbol} {initial : SortedSet StateId} {count : Nat} {room room' : StateId → Nat}
  {a : Automaton} {p q : StateId} {s : Symbol}

/-- What is there of an automaton whose states are the numbers below `count`, with at most `room p` edges from the
state `p`. -/
structure Sketch (kind : Kind) (symbols : List Symbol) (initial : SortedSet StateId) (count : Nat)
    (room : StateId → Nat) (a : Automaton) : Prop where
  kind_eq : a.kind = kind
  alphabet_eq : a.alphabet = .ofList symbols
  initial_eq : a.initial = initial
  mem_states : ∀ q, q ∈ a.states ↔ q < count
  final_lt : ∀ q ∈ a.final, q < count
  edge_inside : ∀ p s q, a.HasEdge p s q → p < count ∧ q < count ∧ (s ∈ symbols ∨ kind = .nfa ∧ s = epsilon)
  functional : kind = .dfa → ∀ p s q r, a.HasEdge p s q → a.HasEdge p s r → q = r
  size_row_le : ∀ p, (a.row p).size ≤ room p

/-- The room once all edges of the states below `p` and `made` edges of `p` are drawn. -/
def rowRoom (outdegree p made q : Nat) : Nat := if q < p then outdegree else if q = p then made else 0

theorem rowRoom_succ (outdegree p made q : Nat) :
    rowRoom outdegree p made q + (if q = p then 1 else 0) ≤ rowRoom outdegree p (made + 1) q := by
  unfold rowRoom
  split_ifs <;> omega

/-- What is drawn for `p` leaves nothing for later states. -/
theorem rowRoom_le {outdegree p made : Nat} (hmade : made ≤ outdegree) (q : Nat) :
    rowRoom outdegree p made q ≤ rowRoom outdegree (p + 1) 0 q := by
  unfold rowRoom
  split_ifs <;> omega

theorem rowRoom_le_outdegree (outdegree p q : Nat) : rowRoom outdegree p 0 q ≤ outdegree := by
  unfold rowRoom
  split_ifs <;> omega

/-- The sets of initial states that are chosen from: a deterministic automaton starts from 0. -/
def MayStart (kind : Kind) (count : Nat) (initial : SortedSet StateId) : Prop :=
  initial = .ofList [0] ∨ kind = .nfa ∧ ∃ q < count, initial = .ofList [0, q]

namespace Sketch

/-- Nothing is there at first. -/
theorem blank (kind : Kind) (symbols : List Symbol) :
    Sketch kind symbols ∅ 0 (fun _ => 0) { kind, alphabet := .ofList symbols } where
  kind_eq := rfl
  alphabet_eq := rfl
  initial_eq := rfl
  mem_states q := by simp
  final_lt q hq := absurd hq (SortedSet.not_mem_empty q)
  edge_inside p s q h := absurd h (TransitionTable.not_mem_empty _)
  functional _ p s q r h := absurd h (TransitionTable.not_mem_empty _)
  size_row_le _ := Nat.le_refl 0

theorem mono_room (h : Sketch kind symbols initial count room a) (hroom : ∀ p, room p ≤ room' p) :
    Sketch kind symbols initial count room' a :=
  { h with size_row_le := fun p => Nat.le_trans (h.size_row_le p) (hroom p) }

/-- The next number is made a state. -/
theorem addState (h : Sketch kind symbols initial count room a) :
    Sketch kind symbols initial (count + 1) room (a.addState count) where
  kind_eq := h.kind_eq
  alphabet_eq := h.alphabet_eq
  initial_eq := h.initial_eq
  mem_states q := by
    show q ∈ a.states.insert count ↔ q < count + 1
    rw [SortedSet.mem_insert, h.mem_states q, Nat.lt_succ_iff_lt_or_eq, or_comm]
  final_lt q hq := Nat.lt_succ_of_lt (h.final_lt q hq)
  edge_inside p s q hedge :=
    (h.edge_inside p s q hedge).imp Nat.lt_succ_of_lt fun hinside => hinside.imp_left Nat.lt_succ_of_lt
  functional := h.functional
  size_row_le := h.size_row_le

theorem kind_eq_nfa (h : Sketch kind symbols initial count room a) (hkind : ¬ a.isDeterministic = true) :
    kind = .nfa := by
  rw [Automaton.isDeterministic, beq_iff_eq, h.kind_eq] at hkind
  cases kind with
  | nfa => rfl
  | dfa => exact absurd rfl hkind

theorem insert_state (h : Sketch kind symbols initial count room a) (hq : q < count) :
    ∀ r, r ∈ a.states.insert q ↔ r < count := by
  intro r
  rw [SortedSet.mem_insert, h.mem_states r]
  constructor
  · rintro (rfl | hr)
    · exact hq
    · exact hr
  · exact Or.inr

theorem addFinal (h : Sketch kind symbols initial count room a) (hq : q < count) :
    Sketch kind symbols initial count room (a.addFinal q) where
  __ := h
  mem_states := h.insert_state hq
  final_lt r hr := by
    rcases SortedSet.mem_insert.1 hr with rfl | hr
    · exact hq
    · exact h.final_lt r hr

theorem addInitial (h : Sketch kind symbols initial count room a) (hq : q < count) :
    Sketch kind symbols (initial.insert q) count room (a.addInitial q) where
  __ := h
  initial_eq := congrArg (SortedSet.insert · q) h.initial_eq
  mem_states := h.insert_state hq

/-- An edge takes room for one. In a deterministic automaton there must not be an edge under the symbol yet. -/
theorem addEdge (h : Sketch kind symbols initial count room a) (hp : p < count) (hq : q < count)
    (hs : s ∈ symbols ∨ kind = .nfa ∧ s = epsilon) (hfree : kind = .dfa → ∀ r, ¬ a.HasEdge p s r)
    (hroom : ∀ r, room r + (if r = p then 1 else 0) ≤ room' r) :
    Sketch kind symbols initial count room' (a.addEdge ⟨p, s, q⟩) where
  __ := h
  edge_inside p' s' q' hedge := by
    rcases Automaton.hasEdge_addEdge.1 hedge with heq | hedge
    · cases heq
      exact ⟨hp, hq, hs⟩
    · exact h.edge_inside p' s' q' hedge
  functional hkind p' s' q' r' hedge hedge' := by
    rcases Automaton.hasEdge_addEdge.1 hedge with heq | hedge <;>
      rcases Automaton.hasEdge_addEdge.1 hedge' with heq' | hedge'
    · cases heq
      cases heq'
      rfl
    · cases heq
      exact absurd hedge' (hfree hkind r')
    · cases heq'
      exact absurd hedge (hfree hkind q')
    · exact h.functional hkind p' s' q' r' hedge hedge'
  size_row_le r := by
    refine Nat.le_trans ?_ (hroom r)
    show (((a.table.insert ⟨p, s, q⟩).row r).size) ≤ _
    rw [TransitionTable.row_insert]
    by_cases hr : r = p
    · subst hr
      rw [if_pos rfl, if_pos rfl]
      exact Nat.le_trans (SortedSet.size_insert_le _ _) (Nat.succ_le_succ (h.size_row_le r))
    · rw [if_neg hr, if_neg hr]
      exact h.size_row_le r

/-- With its initial states, what is there is well-formed. -/
theorem valid (h : Sketch kind symbols initial count room a) (hcount : 0 < count)
    (hinitial : MayStart kind count initial) (hepsilon : epsilon ∉ symbols) : a.Valid where
  initial_mem q hq := by
    rw [h.initial_eq] at hq
    rw [h.mem_states]
    rcases hinitial with rfl | ⟨-, r, hr, rfl⟩
    · obtain rfl : q = 0 := by simpa using hq
      exact hcount
    · obtain rfl | rfl : q = 0 ∨ q = r := by simpa using hq
      · exact hcount
      · exact hr
  final_mem q hq := (h.mem_states q).2 (h.final_lt q hq)
  source_mem p s q hedge := (h.mem_states p).2 (h.edge_inside p s q hedge).1
  target_mem p s q hedge := (h.mem_states q).2 (h.edge_inside p s q hedge).2.1
  symbol_mem p s q hedge := by
    rw [h.alphabet_eq, SortedSet.mem_ofList]
    exact (h.edge_inside p s q hedge).2.2.symm.imp_left And.right
  deterministic hkind := by
    rw [h.kind_eq] at hkind
    have hsymbols : ∀ p s q, a.HasEdge p s q → s ∈ symbols := fun p s q hedge =>
      (h.edge_inside p s q hedge).2.2.resolve_right fun hnfa => absurd (hkind.symm.trans hnfa.1) (by decide)
    constructor
    · rw [h.initial_eq]
      rcases hinitial with rfl | ⟨hnfa, -⟩
      · rfl
      · exact absurd (hkind.symm.trans hnfa) (by decide)
    · rwa [h.alphabet_eq, SortedSet.mem_ofList]
    · exact fun p q hedge => hepsilon (hsymbols p epsilon q hedge)
    · exact h.functional hkind

end Sketch

end Sketches

namespace CheckedDraw

section Generate

variable {kind : Kind} {symbols : List Symbol} {initial : SortedSet StateId} {count outdegree : Nat}
  {room room' : StateId → Nat} {a : Automaton} {p : StateId} {s : Symbol}

def addStates (count : Nat) (a : Automaton) : CheckedDraw Automaton :=
  (List.range count).foldlM (fun a q => do
    let isFinal ← total threeInTen
    return if isFinal then (a.addState q).addFinal q else a.addState q) a

def addInitial (count : Nat) (a : Automaton) : CheckedDraw Automaton := do
  let a := a.addInitial 0
  if a.isDeterministic then return a
  if ← total threeInTen then
    let q ← below count
    return a.addInitial q
  return a

/-- `Random.anySymbol` with a position that has to be inside the list. -/
def anySymbol (symbols : List Symbol) : CheckedDraw Symbol := do
  let i ← below symbols.length
  symbols[i]?

def addEdge (count : Nat) (symbols : List Symbol) (p : StateId) (a : Automaton) : CheckedDraw Automaton := do
  let q ← below count
  if a.isDeterministic then
    let s ← anySymbol symbols
    return if (a.successor? p s).isNone then a.addEdge ⟨p, s, q⟩ else a
  if ← total oneInFive then
    return a.addEdge ⟨p, epsilon, q⟩
  let s ← anySymbol symbols
  return a.addEdge ⟨p, s, q⟩

def addEdgesFrom (count : Nat) (symbols : List Symbol) (outdegree : Nat) (a : Automaton) (p : StateId) :
    CheckedDraw Automaton := do
  let edges ← below (← checkedAdd outdegree 1)
  (List.range edges).foldlM (fun a _ => addEdge count symbols p a) a

/-- `Random.generate` with all that it looks up, adds up and multiplies. -/
def generate (kind : Kind) (count symbolCount outdegree : Nat) : CheckedDraw Automaton := do
  let symbols ← lettersChecked symbolCount
  let a ← addStates count { kind, alphabet := .ofList symbols }
  if count = 0 then return a
  let a ← addInitial count a
  if symbols.isEmpty then return a
  (List.range count).foldlM (addEdgesFrom count symbols outdegree) a

theorem runs_addStates (kind : Kind) (symbols : List Symbol) (count : Nat) :
    Runs (addStates count { kind, alphabet := .ofList symbols })
      (Random.addStates count { kind, alphabet := .ofList symbols }) (count * 1)
      (Sketch kind symbols ∅ count fun _ => 0) := by
  refine Runs.foldlM_range (I := fun q => Sketch kind symbols ∅ q fun _ => 0) ?_ (.blank kind symbols)
  intro q _ a ha
  refine (runs_isBelow _).bind (n := 0) fun isFinal _ => .pure ?_
  cases isFinal with
  | false => exact ha.addState
  | true => exact ha.addState.addFinal (Nat.lt_succ_self q)

theorem runs_addInitial (ha : Sketch kind symbols ∅ count room a) (hpos : 0 < count)
    (hcount : count < Draw.halfWords) :
    Runs (addInitial count a) (Random.addInitial count a) (1 + 2)
      fun b => ∃ initial, MayStart kind count initial ∧ Sketch kind symbols initial count room b := by
  have hfirst := ha.addInitial hpos
  rw [addInitial, Random.addInitial]
  refine .ite (fun _ => ?_) fun hkind => ?_
  · exact .pure ⟨_, .inl rfl, hfirst⟩
  · have hnfa : kind = .nfa := hfirst.kind_eq_nfa hkind
    refine (runs_isBelow _).bind fun again _ => .ite (fun _ => ?_) fun _ => ?_
    · refine (runs_below hpos hcount).bind (n := 0) fun q hq => .pure ?_
      exact ⟨_, .inr ⟨hnfa, q, hq, rfl⟩, hfirst.addInitial hq⟩
    · exact .pure ⟨_, .inl rfl, hfirst⟩

theorem runs_anySymbol (hne : symbols ≠ []) (hsymbols : symbols.length < Draw.halfWords) :
    Runs (anySymbol symbols) (Random.anySymbol symbols) 2 (· ∈ symbols) := by
  refine (runs_below (List.length_pos_iff.2 hne) hsymbols).bind (n := 0) fun i hi => ?_
  rw [List.getD_eq_getElem?_getD, List.getElem?_eq_getElem hi]
  exact .lift rfl (List.getElem_mem hi)

section Edges

variable (hcount : count < Draw.halfWords) (hne : symbols ≠ []) (hsymbols : symbols.length < Draw.halfWords)

include hcount hne hsymbols

/-- One more edge leaves `p`, or none. -/
theorem runs_addEdge (ha : Sketch kind symbols initial count room a) (hp : p < count)
    (hroom : ∀ r, room r + (if r = p then 1 else 0) ≤ room' r) :
    Runs (addEdge count symbols p a) (Random.addEdge count symbols p a) (2 + (1 + 2))
      (Sketch kind symbols initial count room') := by
  have hpos : 0 < count := Nat.zero_lt_of_lt hp
  have hsame : Sketch kind symbols initial count room' a :=
    ha.mono_room fun r => Nat.le_trans (Nat.le_add_right _ _) (hroom r)
  refine (runs_below hpos hcount).bind fun q hq => .ite (fun hdfa => ?_) fun hkind => ?_
  · refine (runs_anySymbol hne hsymbols).bind (n := 1) fun s hs => .pure ?_
    -- The search for a successor is what keeps the automaton deterministic.
    split
    · next hnone =>
        have hfree : ∀ r, ¬ a.HasEdge p s r := fun r =>
          Automaton.not_hasEdge_of_successor? (Option.isNone_iff_eq_none.1 hnone)
        exact ha.addEdge hp hq (.inl hs) (fun _ => hfree) hroom
    · exact hsame
  · have hnfa : kind = .nfa := ha.kind_eq_nfa hkind
    have hfree : ∀ s, kind = .dfa → ∀ r, ¬ a.HasEdge p s r := fun s hdfa =>
      absurd (hdfa.symm.trans hnfa) (by decide)
    refine (runs_isBelow _).bind fun silent _ => .ite (fun _ => ?_) fun _ => ?_
    · exact .pure (ha.addEdge hp hq (.inr ⟨hnfa, rfl⟩) (hfree epsilon) hroom)
    · exact (runs_anySymbol hne hsymbols).bind (n := 0) fun s hs =>
        .pure (ha.addEdge hp hq (.inl hs) (hfree s) hroom)

theorem runs_addEdgesFrom (ha : Sketch kind symbols initial count (rowRoom outdegree p 0) a) (hp : p < count)
    (houtdegree : outdegree < Draw.halfWords - 1) :
    Runs (addEdgesFrom count symbols outdegree a p) (Random.addEdgesFrom count symbols outdegree a p)
      (2 + outdegree * 5) (Sketch kind symbols initial count (rowRoom outdegree (p + 1) 0)) := by
  have hsum : checkedAdd outdegree 1 = some (outdegree + 1) :=
    checkedAdd_eq_some (add_le_largest (Nat.lt_of_lt_pred houtdegree) (by decide))
  refine .defined hsum ((runs_below (Nat.succ_pos outdegree) (Nat.add_lt_of_lt_sub houtdegree)).bind ?_)
  intro edges hedges
  have hloop := Runs.foldlM_range (n := edges) (f := fun a _ => addEdge count symbols p a)
    (I := fun made => Sketch kind symbols initial count (rowRoom outdegree p made))
    (fun made _ a ha => runs_addEdge hcount hne hsymbols ha hp (rowRoom_succ outdegree p made)) ha
  refine hloop.mono (Nat.mul_le_mul_right 5 (Nat.le_of_lt_succ hedges)) fun b hb => hb.mono_room fun q =>
    rowRoom_le (Nat.le_of_lt_succ hedges) q

end Edges

/-- What is asked of a generated automaton: it is valid, its states are the numbers below `count`, its symbols are the
first letters, and at most `outdegree` edges leave a state. -/
structure IsGenerated (kind : Kind) (count symbolCount outdegree : Nat) (a : Automaton) : Prop where
  kind_eq : a.kind = kind
  validate_eq_ok : a.validate = .ok ()
  mem_states : ∀ q, q ∈ a.states ↔ q < count
  alphabet_eq : a.alphabet.toList = ("abcdefghijklmnopqrstuvwxyz".toList.take symbolCount).map String.singleton
  mayStart : MayStart kind count a.initial
  size_row_le : ∀ p, (a.row p).size ≤ outdegree

theorem isGenerated_of_sketch {symbolCount : Nat} (ha : Sketch kind (letters symbolCount) initial count room a)
    (hpos : 0 < count) (hinitial : MayStart kind count initial) (hroom : ∀ p, room p ≤ outdegree) :
    IsGenerated kind count symbolCount outdegree a where
  kind_eq := ha.kind_eq
  validate_eq_ok := Automaton.validate_eq_ok_iff.2 (ha.valid hpos hinitial (epsilon_not_mem_letters symbolCount))
  mem_states := ha.mem_states
  alphabet_eq := by rw [ha.alphabet_eq, toList_ofList_letters, letters_eq_take]
  mayStart := ha.initial_eq ▸ hinitial
  size_row_le p := Nat.le_trans (ha.size_row_le p) (hroom p)

theorem runs_generate {symbolCount : Nat} (kind : Kind) (hpos : 0 < count) (hcount : count < Draw.halfWords)
    (hsymbolCount : symbolCount ≤ Draw.halfWords - 10) (houtdegree : outdegree < Draw.halfWords - 1) :
    Runs (generate kind count symbolCount outdegree) (Random.generate kind count symbolCount outdegree)
      (count * 1 + (1 + 2 + count * (2 + outdegree * 5))) (IsGenerated kind count symbolCount outdegree) := by
  have hsymbols : (letters symbolCount).length < Draw.halfWords := by
    rw [letters, List.length_map, List.length_range]
    exact Nat.lt_of_le_of_lt (Nat.min_le_right _ _) (by decide)
  refine .defined (lettersChecked_eq hsymbolCount) ((runs_addStates kind _ count).bind fun a ha => ?_)
  rw [if_neg (Nat.ne_of_gt hpos), if_neg (Nat.ne_of_gt hpos)]
  refine (runs_addInitial ha hpos hcount).bind fun a ⟨initial, hinitial, ha⟩ => .ite (fun _ => ?_) fun hne => ?_
  · exact .pure (isGenerated_of_sketch ha hpos hinitial fun _ => Nat.zero_le _)
  · have hne : letters symbolCount ≠ [] := mt List.isEmpty_iff.2 hne
    have hfirst : Sketch kind (letters symbolCount) initial count (rowRoom outdegree 0 0) a :=
      ha.mono_room fun _ => Nat.zero_le _
    have hloop := Runs.foldlM_range
      (I := fun p => Sketch kind (letters symbolCount) initial count (rowRoom outdegree p 0))
      (fun p hp a ha => runs_addEdgesFrom hcount hne hsymbols ha hp houtdegree) hfirst
    exact hloop.mono (Nat.le_refl _) fun b hb =>
      isGenerated_of_sketch hb hpos hinitial (rowRoom_le_outdegree outdegree count)

end Generate

end CheckedDraw

/-- On every stream of words, all that a number or an automaton is drawn with is defined, and the words that are taken
are bounded. A number drawn below `n` is below `n`, and an automaton is well-formed and of the size that is asked for. -/
theorem generate_wellFormed :
    (∀ n, 0 < n → n < Draw.halfWords → Runs (CheckedDraw.below n) (Draw.below n) 2 (· < n)) ∧
    ∀ kind count symbolCount outdegree, 1 ≤ count → count < Draw.halfWords →
      symbolCount ≤ Draw.halfWords - 10 → outdegree < Draw.halfWords - 1 →
      Runs (CheckedDraw.generate kind count symbolCount outdegree) (generate kind count symbolCount outdegree)
        (count + (3 + count * (2 + outdegree * 5))) (IsGenerated kind count symbolCount outdegree) := by
  constructor
  · intro n hpos hn
    exact runs_below hpos hn
  · intro kind count symbolCount outdegree hpos hcount hsymbolCount houtdegree
    exact (runs_generate kind hpos hcount hsymbolCount houtdegree).mono (by omega) fun _ h => h

/-- A nondeterministic automaton with a second initial state and a silent edge, for which 14 words are taken. -/
theorem generate_wellFormed_twoStates :
    let source : Source := ⟨.splitMix 12, 0⟩
    let a := ((generate .nfa 2 2 2).run source).1
    ((Draw.below 6).run source).1 < 6 ∧
    (CheckedDraw.generate .nfa 2 2 2).run source = some ((generate .nfa 2 2 2).run source) ∧
    a.validate = .ok () ∧ a.initial = .ofList [0, 1] ∧
    a.edges = [⟨0, epsilon, 1⟩, ⟨0, "b", 0⟩, ⟨1, "b", 0⟩] ∧
    ((generate .nfa 2 2 2).run source).2.position = 14 := by
  intro source a
  have hbelow := (generate_wellFormed.1 6 (by decide) (by decide)).run source
  have hrun := (generate_wellFormed.2 .nfa 2 2 2 (by decide) (by decide) (by decide) (by decide)).run source
  exact ⟨hbelow.2.1, hrun.1, hrun.2.1.validate_eq_ok, by decide +kernel, by decide +kernel, by decide +kernel⟩

end FiniteAutomata.Random
