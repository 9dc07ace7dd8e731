/-!
Finite maps held as lists of entries in strictly ascending order of their keys. Two maps with the
same answer to every look-up are equal (`SortedMap.ext`).
-/

namespace FiniteAutomata

open Std

/-- A finite map, held as the list of its entries in strictly ascending order of their keys. -/
structure SortedMap (κ β : Type) [Ord κ] where
  entries : List (κ × β)
  ascending : entries.Pairwise fun a b => compare a.1 b.1 = .lt

namespace SortedMap

variable {κ β : Type} [Ord κ]

instance [DecidableEq κ] [DecidableEq β] : DecidableEq (SortedMap κ β) := fun s t =>
  decidable_of_iff (s.entries = t.entries)
    ⟨fun h => by cases s; cases t; cases h; rfl, congrArg entries⟩

instance : EmptyCollection (SortedMap κ β) := ⟨⟨[], .nil⟩⟩

instance : Inhabited (SortedMap κ β) := ⟨∅⟩

def find? [DecidableEq κ] (m : SortedMap κ β) (k : κ) : Option β := m.entries.lookup k

/-- The entries with `v` put under `k`, in place of what was there. -/
def insertInto (k : κ) (v : β) : List (κ × β) → List (κ × β)
  | [] => [(k, v)]
  | e :: l =>
    match compare k e.1 with
    | .lt => (k, v) :: e :: l
    | .eq => (k, v) :: l
    | .gt => e :: insertInto k v l

theorem mem_insertInto [LawfulEqOrd κ] {k : κ} {v : β} {e : κ × β} {l : List (κ × β)}
    (h : e ∈ insertInto k v l) : e = (k, v) ∨ e ∈ l := by
  induction l with
  | nil => simpa [insertInto] using h
  | cons d l ih =>
    unfold insertInto at h
    split at h
    · simpa using h
    · rcases List.mem_cons.1 h with h | h
      · exact .inl h
      · exact .inr (List.mem_cons_of_mem _ h)
    · rcases List.mem_cons.1 h with rfl | h
      · exact .inr List.mem_cons_self
      · exact (ih h).imp_right (List.mem_cons_of_mem _)

theorem pairwise_insertInto [TransOrd κ] [LawfulEqOrd κ] (k : κ) (v : β) {l : List (κ × β)}
    (h : l.Pairwise fun a b => compare a.1 b.1 = .lt) :
    (insertInto k v l).Pairwise fun a b => compare a.1 b.1 = .lt := by
  induction l with
  | nil => exact List.pairwise_singleton _ _
  | cons d l ih =>
    obtain ⟨hd, hl⟩ := List.pairwise_cons.1 h
    unfold insertInto
    split
    · rename_i hkd
      refine List.pairwise_cons.2 ⟨fun e he => ?_, h⟩
      rcases List.mem_cons.1 he with rfl | he
      · exact hkd
      · exact TransCmp.lt_trans hkd (hd e he)
    · rename_i hkd
      obtain rfl := LawfulEqCmp.compare_eq_iff_eq.1 hkd
      exact List.pairwise_cons.2 ⟨hd, hl⟩
    · rename_i hkd
      refine List.pairwise_cons.2 ⟨fun e he => ?_, ih hl⟩
      rcases mem_insertInto he with rfl | he
      · exact OrientedCmp.gt_iff_lt.1 hkd
      · exact hd e he

omit [Ord κ] in
private theorem lookup_cons_eq [DecidableEq κ] (k : κ) (e : κ × β) (l : List (κ × β)) :
    (e :: l).lookup k = if k = e.1 then some e.2 else l.lookup k := by
  obtain ⟨j, v⟩ := e
  by_cases h : k = j
  · simp [h]
  · simp [List.lookup_cons, h, beq_false_of_ne h]

theorem lookup_insertInto [DecidableEq κ] [TransOrd κ] [LawfulEqOrd κ] (k k' : κ) (v : β)
    (l : List (κ × β)) :
    (insertInto k v l).lookup k' = if k' = k then some v else l.lookup k' := by
  induction l with
  | nil => by_cases h : k' = k <;> simp [insertInto, lookup_cons_eq, h]
  | cons d l ih =>
    unfold insertInto
    split
    · by_cases h : k' = k <;> simp [lookup_cons_eq, h]
    · rename_i hkd
      obtain rfl := LawfulEqCmp.compare_eq_iff_eq.1 hkd
      by_cases h : k' = d.1 <;> simp [lookup_cons_eq, h]
    · rename_i hkd
      have hne : k ≠ d.1 := by rintro rfl; simp at hkd
      by_cases h : k' = d.1
      · simp [lookup_cons_eq, h, Ne.symm hne]
      · simp [lookup_cons_eq, h, ih]

/-- The map with `v` stored under `k`, in place of what was there. -/
def insert [TransOrd κ] [LawfulEqOrd κ] (m : SortedMap κ β) (k : κ) (v : β) : SortedMap κ β :=
  ⟨insertInto k v m.entries, pairwise_insertInto k v m.ascending⟩

/-- The map of a list of entries, of which a later one replaces an earlier one with the same key. -/
def ofList [TransOrd κ] [LawfulEqOrd κ] (l : List (κ × β)) : SortedMap κ β :=
  l.foldl (fun m e => m.insert e.1 e.2) ∅

@[simp] theorem find?_empty [DecidableEq κ] (k : κ) : (∅ : SortedMap κ β).find? k = none := rfl

theorem find?_insert [DecidableEq κ] [TransOrd κ] [LawfulEqOrd κ] (m : SortedMap κ β) (k k' : κ) (v : β) :
    (m.insert k v).find? k' = if k' = k then some v else m.find? k' :=
  lookup_insertInto k k' v m.entries

private theorem lookup_of_mem [DecidableEq κ] [LawfulEqOrd κ] {l : List (κ × β)}
    (h : l.Pairwise fun a b => compare a.1 b.1 = .lt) {e : κ × β} (he : e ∈ l) :
    l.lookup e.1 = some e.2 := by
  induction l with
  | nil => cases he
  | cons d l ih =>
    obtain ⟨hd, hl⟩ := List.pairwise_cons.1 h
    rcases List.mem_cons.1 he with rfl | he
    · simp [lookup_cons_eq]
    · have hne : e.1 ≠ d.1 := by
        intro heq
        have := hd e he
        rw [heq] at this
        simp at this
      simp [lookup_cons_eq, hne, ih hl he]

omit [Ord κ] in
private theorem mem_of_lookup [DecidableEq κ] {l : List (κ × β)} {k : κ} {v : β}
    (h : l.lookup k = some v) : (k, v) ∈ l := by
  induction l with
  | nil => cases h
  | cons d l ih =>
    by_cases hk : k = d.1
    · obtain rfl : d.2 = v := by simpa [lookup_cons_eq, hk] using h
      rw [hk]
      exact List.mem_cons_self
    · exact List.mem_cons_of_mem _ (ih (by simpa [lookup_cons_eq, hk] using h))

/-- The entries are the key and value pairs that look-ups find. -/
theorem mem_entries_iff [DecidableEq κ] [LawfulEqOrd κ] {m : SortedMap κ β} {k : κ} {v : β} :
    (k, v) ∈ m.entries ↔ m.find? k = some v :=
  ⟨fun h => lookup_of_mem m.ascending h, mem_of_lookup⟩

private theorem eq_of_lookup [DecidableEq κ] [TransOrd κ] [LawfulEqOrd κ] {l l' : List (κ × β)}
    (hl : l.Pairwise fun a b => compare a.1 b.1 = .lt)
    (hl' : l'.Pairwise fun a b => compare a.1 b.1 = .lt)
    (h : ∀ k, l.lookup k = l'.lookup k) : l = l' := by
  have absent : ∀ {e : κ × β} {l : List (κ × β)}, (∀ d ∈ l, compare e.1 d.1 = .lt) →
      l.lookup e.1 = none := by
    intro e l hlt
    rw [List.lookup_eq_none_iff]
    intro d hd
    have := hlt d hd
    by_cases heq : e.1 = d.1
    · rw [heq] at this
      simp at this
    · simpa using heq
  induction l generalizing l' with
  | nil =>
    cases l' with
    | nil => rfl
    | cons d l' => simpa [lookup_cons_eq] using h d.1
  | cons e l ih =>
    cases l' with
    | nil => simpa [lookup_cons_eq] using h e.1
    | cons d l' =>
      obtain ⟨he, hr⟩ := List.pairwise_cons.1 hl
      obtain ⟨hd, hr'⟩ := List.pairwise_cons.1 hl'
      have hkey : e.1 = d.1 := by
        rcases hc : compare e.1 d.1 with _ | _ | _
        · have := h e.1
          rw [absent (e := e) (l := d :: l') (fun x hx => by
            rcases List.mem_cons.1 hx with rfl | hx
            · exact hc
            · exact TransCmp.lt_trans hc (hd x hx))] at this
          simp [lookup_cons_eq] at this
        · exact LawfulEqCmp.compare_eq_iff_eq.1 hc
        · have hc' := OrientedCmp.gt_iff_lt.1 hc
          have := h d.1
          rw [absent (e := d) (l := e :: l) (fun x hx => by
            rcases List.mem_cons.1 hx with rfl | hx
            · exact hc'
            · exact TransCmp.lt_trans hc' (he x hx))] at this
          simp [lookup_cons_eq] at this
      have hval : e.2 = d.2 := by simpa [lookup_cons_eq, hkey] using h e.1
      obtain rfl : e = d := Prod.ext hkey hval
      congr 1
      refine ih hr hr' fun k => ?_
      by_cases hk : k = e.1
      · rw [hk, absent he, absent hd]
      · simpa [lookup_cons_eq, hk] using h k

theorem ext [DecidableEq κ] [TransOrd κ] [LawfulEqOrd κ] {m m' : SortedMap κ β}
    (h : ∀ k, m.find? k = m'.find? k) : m = m' := by
  obtain ⟨l, hl⟩ := m
  obtain ⟨l', hl'⟩ := m'
  obtain rfl : l = l' := eq_of_lookup hl hl' h
  rfl

private theorem find?_foldl_insert [DecidableEq κ] [TransOrd κ] [LawfulEqOrd κ] {l : List (κ × β)}
    (hnodup : (l.map Prod.fst).Nodup) (m : SortedMap κ β) (k : κ) :
    (l.foldl (fun m e => m.insert e.1 e.2) m).find? k = (l.lookup k).or (m.find? k) := by
  induction l generalizing m with
  | nil => rfl
  | cons e l ih =>
    obtain ⟨hne, hnodup⟩ := List.nodup_cons.1 hnodup
    rw [List.foldl_cons, ih hnodup, find?_insert, lookup_cons_eq]
    by_cases hk : k = e.1
    · subst hk
      have hnone : l.lookup e.1 = none := by
        rw [List.lookup_eq_none_iff]
        intro d hd
        have : e.1 ≠ d.1 := fun heq => hne (List.mem_map.2 ⟨d, hd, heq.symm⟩)
        simpa using this
      rw [if_pos rfl, if_pos rfl, hnone]
      rfl
    · rw [if_neg hk, if_neg hk]

omit [Ord κ] in
private theorem lookup_of_nodup [DecidableEq κ] {l : List (κ × β)} (hnodup : (l.map Prod.fst).Nodup)
    {k : κ} {v : β} (h : (k, v) ∈ l) : l.lookup k = some v := by
  induction l with
  | nil => cases h
  | cons e l ih =>
    obtain ⟨hne, hnodup⟩ := List.nodup_cons.1 hnodup
    rw [lookup_cons_eq]
    rcases List.mem_cons.1 h with rfl | h
    · exact if_pos rfl
    · have hk : k ≠ e.1 := fun heq => hne (List.mem_map.2 ⟨(k, v), h, heq⟩)
      rw [if_neg hk, ih hnodup h]

private theorem mem_of_find?_foldl_insert [DecidableEq κ] [TransOrd κ] [LawfulEqOrd κ]
    {l : List (κ × β)} {m : SortedMap κ β} {k : κ} {v : β}
    (h : (l.foldl (fun m e => m.insert e.1 e.2) m).find? k = some v) : (k, v) ∈ l ∨ m.find? k = some v := by
  induction l generalizing m with
  | nil => exact .inr h
  | cons e l ih =>
    rcases ih h with hl | hm
    · exact .inl (List.mem_cons_of_mem _ hl)
    · rw [find?_insert] at hm
      split at hm
      · next heq =>
        cases hm
        exact .inl (heq ▸ List.mem_cons_self)
      · exact .inr hm

/-- Whatever a look-up finds in the map of a list is an entry of the list. -/
theorem mem_of_find?_ofList [DecidableEq κ] [TransOrd κ] [LawfulEqOrd κ] {l : List (κ × β)} {k : κ}
    {v : β} (h : (ofList l).find? k = some v) : (k, v) ∈ l := by
  rcases mem_of_find?_foldl_insert h with hl | hempty
  · exact hl
  · cases hempty

/-- A list without a repeated key becomes the map that holds its entries. -/
theorem find?_ofList [DecidableEq κ] [TransOrd κ] [LawfulEqOrd κ] {l : List (κ × β)}
    (hnodup : (l.map Prod.fst).Nodup) {k : κ} {v : β} : (ofList l).find? k = some v ↔ (k, v) ∈ l := by
  rw [ofList, find?_foldl_insert hnodup, find?_empty, Option.or_none]
  exact ⟨mem_of_lookup, lookup_of_nodup hnodup⟩

end SortedMap

end FiniteAutomata
