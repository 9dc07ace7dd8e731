/-!
Finite sets held as strictly ascending lists. Two sets with the same members are equal
(`SortedSet.ext`), and `toList` is the one ascending list of the members.
-/

namespace FiniteAutomata

open Std

/-- A finite set, held as the strictly ascending list of its members. -/
structure SortedSet (α : Type) [Ord α] where
  toList : List α
  ascending : toList.Pairwise fun a b => compare a b = .lt

namespace SortedSet

variable {α β : Type} [Ord α] [Ord β]

instance [DecidableEq α] : DecidableEq (SortedSet α) := fun s t =>
  decidable_of_iff (s.toList = t.toList) ⟨fun h => by cases s; cases t; cases h; rfl, congrArg toList⟩

instance : EmptyCollection (SortedSet α) := ⟨⟨[], .nil⟩⟩

instance : Inhabited (SortedSet α) := ⟨∅⟩

instance : Membership α (SortedSet α) := ⟨fun s a => a ∈ s.toList⟩

instance [DecidableEq α] (a : α) (s : SortedSet α) : Decidable (a ∈ s) :=
  inferInstanceAs (Decidable (a ∈ s.toList))

theorem mem_toList {a : α} {s : SortedSet α} : a ∈ s.toList ↔ a ∈ s := Iff.rfl

def size (s : SortedSet α) : Nat := s.toList.length

def isEmpty (s : SortedSet α) : Bool := s.toList.isEmpty

def min? (s : SortedSet α) : Option α := s.toList.head?

def max? (s : SortedSet α) : Option α := s.toList.getLast?

def any (s : SortedSet α) (p : α → Bool) : Bool := s.toList.any p

def filter (p : α → Bool) (s : SortedSet α) : SortedSet α :=
  ⟨s.toList.filter p, s.ascending.filter p⟩

def erase [DecidableEq α] (s : SortedSet α) (a : α) : SortedSet α := s.filter fun b => !decide (b = a)

@[simp] theorem not_mem_empty (a : α) : ¬ a ∈ (∅ : SortedSet α) := List.not_mem_nil

@[simp] theorem mem_filter {p : α → Bool} {s : SortedSet α} {a : α} :
    a ∈ s.filter p ↔ a ∈ s ∧ p a = true := List.mem_filter

@[simp] theorem mem_erase [DecidableEq α] {s : SortedSet α} {a b : α} :
    b ∈ s.erase a ↔ b ∈ s ∧ b ≠ a := by
  simp [erase]

theorem not_mem_erase [DecidableEq α] (s : SortedSet α) (a : α) : ¬ a ∈ s.erase a :=
  fun h => (mem_erase.1 h).2 rfl

theorem isEmpty_iff {s : SortedSet α} : s.isEmpty = true ↔ s = ∅ := by
  obtain ⟨l, h⟩ := s
  constructor
  · intro he
    obtain rfl : l = [] := List.isEmpty_iff.1 he
    rfl
  · intro he
    cases he
    rfl

/-- The list `l` with `a` put before the first larger element, or `l` itself when it meets `a`
before that. -/
def insertInto (a : α) : List α → List α
  | [] => [a]
  | b :: l =>
    match compare a b with
    | .lt => a :: b :: l
    | .eq => b :: l
    | .gt => b :: insertInto a l

theorem mem_insertInto [LawfulEqOrd α] {a b : α} {l : List α} :
    b ∈ insertInto a l ↔ b = a ∨ b ∈ l := by
  induction l with
  | nil => simp [insertInto]
  | cons c l ih =>
    unfold insertInto
    split
    · simp
    · rename_i h
      obtain rfl := LawfulEqCmp.compare_eq_iff_eq.1 h
      simp
    · simp only [List.mem_cons, ih]
      exact or_left_comm

theorem pairwise_insertInto [TransOrd α] [LawfulEqOrd α] (a : α) {l : List α}
    (h : l.Pairwise fun a b => compare a b = .lt) :
    (insertInto a l).Pairwise fun a b => compare a b = .lt := by
  induction l with
  | nil => exact List.pairwise_singleton _ _
  | cons c l ih =>
    obtain ⟨hc, hl⟩ := List.pairwise_cons.1 h
    unfold insertInto
    split
    · rename_i hac
      refine List.pairwise_cons.2 ⟨fun b hb => ?_, h⟩
      rcases List.mem_cons.1 hb with rfl | hb
      · exact hac
      · exact TransCmp.lt_trans hac (hc b hb)
    · exact h
    · rename_i hac
      refine List.pairwise_cons.2 ⟨fun b hb => ?_, ih hl⟩
      rcases mem_insertInto.1 hb with rfl | hb
      · exact OrientedCmp.gt_iff_lt.1 hac
      · exact hc b hb

def insert [TransOrd α] [LawfulEqOrd α] (s : SortedSet α) (a : α) : SortedSet α :=
  ⟨insertInto a s.toList, pairwise_insertInto a s.ascending⟩

def union [TransOrd α] [LawfulEqOrd α] (s t : SortedSet α) : SortedSet α := t.toList.foldl insert s

instance [TransOrd α] [LawfulEqOrd α] : Union (SortedSet α) := ⟨union⟩

def ofList [TransOrd α] [LawfulEqOrd α] (l : List α) : SortedSet α := l.foldl insert ∅

def map [TransOrd β] [LawfulEqOrd β] (f : α → β) (s : SortedSet α) : SortedSet β :=
  ofList (s.toList.map f)

@[simp] theorem mem_insert [TransOrd α] [LawfulEqOrd α] {s : SortedSet α} {a b : α} :
    b ∈ s.insert a ↔ b = a ∨ b ∈ s :=
  mem_insertInto

private theorem mem_foldl_insert [TransOrd α] [LawfulEqOrd α] {l : List α} {s : SortedSet α} {a : α} :
    a ∈ l.foldl insert s ↔ a ∈ s ∨ a ∈ l := by
  induction l generalizing s with
  | nil => simp
  | cons b l ih => rw [List.foldl_cons, ih, mem_insert, List.mem_cons, or_assoc, or_left_comm]

theorem length_insertInto [LawfulEqOrd α] {a : α} {l : List α} (h : a ∉ l) :
    (insertInto a l).length = l.length + 1 := by
  induction l with
  | nil => rfl
  | cons b l ih =>
    obtain ⟨hne, hl⟩ := not_or.1 (mt List.mem_cons.2 h)
    unfold insertInto
    split
    · rfl
    · rename_i hab
      exact absurd (LawfulEqCmp.compare_eq_iff_eq.1 hab) hne
    · rw [List.length_cons, ih hl, List.length_cons]

theorem size_insert [TransOrd α] [LawfulEqOrd α] {s : SortedSet α} {a : α} (h : a ∉ s) :
    (s.insert a).size = s.size + 1 :=
  length_insertInto h

theorem size_insert_le [TransOrd α] [LawfulEqOrd α] (s : SortedSet α) (a : α) :
    (s.insert a).size ≤ s.size + 1 := by
  show (insertInto a s.toList).length ≤ s.toList.length + 1
  induction s.toList with
  | nil => exact Nat.le_refl 1
  | cons b l ih =>
    unfold insertInto
    split
    · exact Nat.le_refl _
    · exact Nat.le_succ _
    · exact Nat.succ_le_succ ih

@[simp] theorem mem_ofList [TransOrd α] [LawfulEqOrd α] {l : List α} {a : α} : a ∈ ofList l ↔ a ∈ l := by
  simp [ofList, mem_foldl_insert]

@[simp] theorem mem_union [TransOrd α] [LawfulEqOrd α] {s t : SortedSet α} {a : α} :
    a ∈ s ∪ t ↔ a ∈ s ∨ a ∈ t :=
  mem_foldl_insert

@[simp] theorem mem_map [TransOrd β] [LawfulEqOrd β] {f : α → β} {s : SortedSet α} {b : β} :
    b ∈ s.map f ↔ ∃ a ∈ s, f a = b := by
  simp [map, mem_toList]

theorem nodup_toList [LawfulEqOrd α] (s : SortedSet α) : s.toList.Nodup :=
  s.ascending.imp fun h => by rintro rfl; simp at h

private theorem eq_of_ascending [TransOrd α] [LawfulEqOrd α] {l k : List α}
    (hl : l.Pairwise fun a b => compare a b = .lt) (hk : k.Pairwise fun a b => compare a b = .lt)
    (h : ∀ a, a ∈ l ↔ a ∈ k) : l = k := by
  have irrefl : ∀ a : α, compare a a ≠ .lt := fun a => by simp
  induction l generalizing k with
  | nil => exact (List.eq_nil_iff_forall_not_mem.2 fun a ha => by simpa using (h a).2 ha).symm
  | cons a l ih =>
    cases k with
    | nil => simpa using (h a).1 List.mem_cons_self
    | cons b k =>
      obtain ⟨ha, hl'⟩ := List.pairwise_cons.1 hl
      obtain ⟨hb, hk'⟩ := List.pairwise_cons.1 hk
      obtain rfl : a = b := by
        rcases List.mem_cons.1 ((h a).1 List.mem_cons_self) with hab | hab
        · exact hab
        · rcases List.mem_cons.1 ((h b).2 List.mem_cons_self) with hba | hba
          · exact hba.symm
          · exact absurd (TransCmp.lt_trans (hb a hab) (ha b hba)) (irrefl b)
      congr 1
      refine ih hl' hk' fun c => ⟨fun hc => ?_, fun hc => ?_⟩
      · rcases List.mem_cons.1 ((h c).1 (List.mem_cons_of_mem _ hc)) with rfl | hc'
        · exact absurd (ha c hc) (irrefl c)
        · exact hc'
      · rcases List.mem_cons.1 ((h c).2 (List.mem_cons_of_mem _ hc)) with rfl | hc'
        · exact absurd (hb c hc) (irrefl c)
        · exact hc'

/-- A set is listed by the one ascending list of its elements. -/
theorem toList_eq [TransOrd α] [LawfulEqOrd α] {s : SortedSet α} {l : List α}
    (hl : l.Pairwise fun a b => compare a b = .lt) (h : ∀ a, a ∈ s ↔ a ∈ l) : s.toList = l :=
  eq_of_ascending s.ascending hl h

theorem compare_max? {s : SortedSet α} {a m : α} (hmax : s.max? = some m) (ha : a ∈ s) :
    a = m ∨ compare a m = .lt := by
  obtain ⟨below, hbelow⟩ := List.getLast?_eq_some_iff.1 hmax
  have hascending := s.ascending
  rw [← mem_toList, hbelow, List.mem_append, List.mem_singleton] at ha
  rw [hbelow] at hascending
  rcases ha with ha | ha
  · exact .inr ((List.pairwise_append.1 hascending).2.2 a ha m (List.mem_singleton.2 rfl))
  · exact .inl ha

theorem eq_empty_of_max? {s : SortedSet α} (hmax : s.max? = none) : s = ∅ := by
  obtain ⟨l, h⟩ := s
  obtain rfl : l = [] := List.getLast?_eq_none_iff.1 hmax
  rfl

theorem ext [TransOrd α] [LawfulEqOrd α] {s t : SortedSet α} (h : ∀ a, a ∈ s ↔ a ∈ t) : s = t := by
  obtain ⟨l, hl⟩ := s
  obtain ⟨k, hk⟩ := t
  obtain rfl : l = k := eq_of_ascending hl hk h
  rfl

section Union

variable [TransOrd α] [LawfulEqOrd α] (s t u : SortedSet α)

theorem union_comm : s ∪ t = t ∪ s := by
  apply ext
  intro a
  rw [mem_union, mem_union, or_comm]

theorem union_assoc : s ∪ t ∪ u = s ∪ (t ∪ u) := by
  apply ext
  intro a
  simp only [mem_union, or_assoc]

theorem union_self : s ∪ s = s := by
  apply ext
  intro a
  rw [mem_union, or_self]

theorem union_union_distrib_left : s ∪ (t ∪ u) = s ∪ t ∪ (s ∪ u) := by
  rw [← union_assoc (s ∪ t), union_assoc s t s, union_comm t s, ← union_assoc s s, union_self, union_assoc]

theorem union_union_distrib_right : s ∪ t ∪ u = s ∪ u ∪ (t ∪ u) := by
  rw [union_comm, union_union_distrib_left, union_comm u, union_comm u]

end Union

end SortedSet

end FiniteAutomata
