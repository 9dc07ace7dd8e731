import FiniteAutomata.Search
import FiniteAutomata.SortedMap
import FiniteAutomata.SortedSet
import FiniteAutomata.Transition

/-!
Transition tables: one set of transitions, the row, for each state. The edges of a table are listed
in ascending order of source, symbol and target, and `mem_ofEdges` says that a table built from edges
holds exactly those.
-/

namespace FiniteAutomata

/-- The rows of transitions, by the state that they leave. -/
structure TransitionTable where
  rows : SortedMap StateId (SortedSet Transition)
deriving DecidableEq

namespace TransitionTable

instance : EmptyCollection TransitionTable := ⟨⟨∅⟩⟩

instance : Inhabited TransitionTable := ⟨∅⟩

def row (t : TransitionTable) (q : StateId) : SortedSet Transition := (t.rows.find? q).getD ∅

instance : Membership Edge TransitionTable := ⟨fun t e => ⟨e.symbol, e.target⟩ ∈ t.row e.source⟩

instance (e : Edge) (t : TransitionTable) : Decidable (e ∈ t) :=
  inferInstanceAs (Decidable (⟨e.symbol, e.target⟩ ∈ t.row e.source))

def insert (t : TransitionTable) (e : Edge) : TransitionTable :=
  ⟨t.rows.insert e.source ((t.row e.source).insert ⟨e.symbol, e.target⟩)⟩

def insertAll (t : TransitionTable) (edges : List Edge) : TransitionTable := edges.foldl insert t

def ofEdges (edges : List Edge) : TransitionTable := insertAll ∅ edges

/-- All edges, in ascending order of source, symbol and target. -/
def edges (t : TransitionTable) : List Edge :=
  t.rows.entries.flatMap fun r => r.2.toList.map fun τ => ⟨r.1, τ.symbol, τ.target⟩

/-- The number of edges, row by row. -/
def size (t : TransitionTable) : Nat := t.rows.entries.foldl (fun count r => count + r.2.size) 0

/-- The table with `f` applied to both ends of every edge. Of two rows whose states `f` maps to one
state, the row of the larger state is kept. -/
def relabel (f : StateId → StateId) (t : TransitionTable) : TransitionTable :=
  ⟨SortedMap.ofList (t.rows.entries.map fun r => (f r.1, r.2.map (Transition.mapTarget f)))⟩

def reverse (t : TransitionTable) : TransitionTable :=
  ofEdges (t.edges.map fun e => ⟨e.target, e.symbol, e.source⟩)

/-- The states reached from `start` by transitions that satisfy `keep`, in breadth-first order. -/
def reach (t : TransitionTable) (keep : Transition → Bool) (start : List StateId) : List StateId :=
  Search.reach (fun q => ((t.row q).filter keep).toList.map (·.target)) (start.length + t.size) start

theorem mem_iff {t : TransitionTable} {e : Edge} : e ∈ t ↔ ⟨e.symbol, e.target⟩ ∈ t.row e.source :=
  Iff.rfl

theorem row_insert (t : TransitionTable) (e : Edge) (q : StateId) :
    (t.insert e).row q = if q = e.source then (t.row e.source).insert ⟨e.symbol, e.target⟩ else t.row q := by
  unfold row insert
  rw [SortedMap.find?_insert]
  split <;> simp_all [row]

@[simp] theorem not_mem_empty (e : Edge) : ¬ e ∈ (∅ : TransitionTable) := by
  simp [mem_iff, row, show (∅ : TransitionTable).rows = ∅ from rfl]

@[simp] theorem mem_insert {t : TransitionTable} {d e : Edge} : d ∈ t.insert e ↔ d = e ∨ d ∈ t := by
  obtain ⟨p, a, q⟩ := d
  obtain ⟨p', b, q'⟩ := e
  rw [mem_iff, row_insert]
  by_cases h : p = p'
  · subst h
    simp [mem_iff]
  · simp [mem_iff, h]

@[simp] theorem mem_insertAll {t : TransitionTable} {edges : List Edge} {e : Edge} :
    e ∈ t.insertAll edges ↔ e ∈ t ∨ e ∈ edges := by
  unfold insertAll
  induction edges generalizing t with
  | nil => simp
  | cons d edges ih => rw [List.foldl_cons, ih, mem_insert, List.mem_cons, or_assoc, or_left_comm]

@[simp] theorem mem_ofEdges {edges : List Edge} {e : Edge} : e ∈ ofEdges edges ↔ e ∈ edges := by
  simp [ofEdges]

@[simp] theorem mem_edges {t : TransitionTable} {e : Edge} : e ∈ t.edges ↔ e ∈ t := by
  obtain ⟨p, a, q⟩ := e
  rw [mem_iff]
  unfold edges row
  simp only [List.mem_flatMap, List.mem_map, Edge.mk.injEq, Prod.exists]
  constructor
  · rintro ⟨p', ts, hr, ⟨b, q'⟩, hτ, rfl, rfl, rfl⟩
    rw [SortedMap.mem_entries_iff.1 hr]
    exact hτ
  · intro h
    cases hr : t.rows.find? p with
    | none => rw [hr] at h; exact absurd h (SortedSet.not_mem_empty _)
    | some ts =>
      rw [hr] at h
      exact ⟨p, ts, SortedMap.mem_entries_iff.2 hr, ⟨a, q⟩, h, rfl, rfl, rfl⟩

@[simp] theorem mem_reverse {t : TransitionTable} {p q : StateId} {a : Symbol} :
    ⟨p, a, q⟩ ∈ t.reverse ↔ ⟨q, a, p⟩ ∈ t := by
  simp only [reverse, mem_ofEdges, List.mem_map, mem_edges, Edge.mk.injEq]
  constructor
  · rintro ⟨⟨_, _, _⟩, h, rfl, rfl, rfl⟩
    exact h
  · exact fun h => ⟨_, h, rfl, rfl, rfl⟩

theorem length_edges (t : TransitionTable) : t.edges.length = t.size := by
  have hcount : ∀ (rows : List (StateId × SortedSet Transition)) (count : Nat),
      rows.foldl (fun count r => count + r.2.size) count = count +
        (rows.flatMap fun r => r.2.toList.map fun τ => (⟨r.1, τ.symbol, τ.target⟩ : Edge)).length := by
    intro rows
    induction rows with
    | nil => exact fun count => rfl
    | cons r rows ih =>
        intro count
        rw [List.foldl_cons, ih, List.flatMap_cons, List.length_append, List.length_map, Nat.add_assoc,
          SortedSet.size]
  rw [size, hcount, Nat.zero_add, edges]

end TransitionTable

end FiniteAutomata
