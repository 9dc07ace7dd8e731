import FiniteAutomata.Proofs.LineWords
import FiniteAutomata.Proofs.Reading
import Mathlib.Data.List.Perm.Subperm
import Mathlib.Logic.Equiv.Basic

/-! Files with their columns in another order. When the symbols of the header and the fields of every state line
are rearranged in the same way, each line says the same about its state, with its columns rearranged. An edge
is named by its symbol and not by its column, so the documents say the same. -/

namespace FiniteAutomata.Format

open Text

/-- The second list has what the first one has; `σ` leads from the new positions to the old ones. -/
structure Rearranges {α : Type} (σ : Equiv.Perm Nat) (l l' : List α) : Prop where
  length_eq : l'.length = l.length
  getElem?_eq : ∀ i, l'[i]? = l[σ i]?

namespace Rearranges

variable {α β : Type} {σ : Equiv.Perm Nat} {l l' : List α} {m m' : List β} {R : α → β → Prop}

theorem symm (h : Rearranges σ l l') : Rearranges σ.symm l' l where
  length_eq := h.length_eq.symm
  getElem?_eq i := by rw [h.getElem?_eq, Equiv.apply_symm_apply]

theorem map (h : Rearranges σ l l') (g : α → β) : Rearranges σ (l.map g) (l'.map g) where
  length_eq := by rw [List.length_map, List.length_map, h.length_eq]
  getElem?_eq i := by rw [List.getElem?_map, List.getElem?_map, h.getElem?_eq]

theorem mem_of_mem (h : Rearranges σ l l') {a : α} (ha : a ∈ l') : a ∈ l := by
  obtain ⟨i, hi⟩ := List.mem_iff_getElem?.1 ha
  rw [h.getElem?_eq] at hi
  exact List.mem_of_getElem? hi

theorem mem_iff (h : Rearranges σ l l') {a : α} : a ∈ l' ↔ a ∈ l := ⟨h.mem_of_mem, h.symm.mem_of_mem⟩

theorem nodup (h : Rearranges σ l l') (hl : l.Nodup) : l'.Nodup := by
  have hsubset : l ⊆ l' := fun _ => h.mem_iff.2
  exact ((List.subperm_of_subset hl hsubset).perm_of_length_le h.length_eq.le).nodup_iff.1 hl

theorem lt_length (h : Rearranges σ l l') {i : Nat} (hi : i < l'.length) : σ i < l.length := by
  have hsome := List.getElem?_eq_getElem hi
  rw [h.getElem?_eq] at hsome
  exact (List.getElem?_eq_some_iff.1 hsome).1

theorem get_eq (h : Rearranges σ l l') {i : Nat} (hi : i < l'.length) :
    l'.get ⟨i, hi⟩ = l.get ⟨σ i, h.lt_length hi⟩ := by
  rw [List.get_eq_getElem, List.get_eq_getElem, ← Option.some_inj, ← List.getElem?_eq_getElem,
    ← List.getElem?_eq_getElem, h.getElem?_eq]

/-- What is as long as a list that can be rearranged can be rearranged in the same way. -/
theorem exists_of_length_eq (h : Rearranges σ l l') (hlength : m.length = l.length) : ∃ m', Rearranges σ m m' := by
  have hlt (i : Fin l'.length) : σ i < m.length := hlength ▸ h.lt_length i.2
  refine ⟨List.ofFn fun i => m.get ⟨σ i, hlt i⟩, ?_, fun i => ?_⟩
  · rw [List.length_ofFn, h.length_eq, hlength]
  · rw [List.getElem?_ofFn]
    split
    · next hi => exact (List.getElem?_eq_getElem (hlt ⟨i, hi⟩)).symm
    · next hi =>
      have hnone := h.getElem?_eq i
      rw [List.getElem?_eq_none (Nat.not_lt.1 hi)] at hnone
      exact (List.getElem?_eq_none (hlength ▸ List.getElem?_eq_none_iff.1 hnone.symm)).symm

/-- Elements that belong together still do when both lists are rearranged in the same way. -/
theorem forall₂ (h : Rearranges σ l l') (hm : Rearranges σ m m') (hR : List.Forall₂ R l m) :
    List.Forall₂ R l' m' := by
  refine List.forall₂_iff_get.2 ⟨?_, fun i hi hi' => ?_⟩
  · rw [h.length_eq, hm.length_eq, hR.length_eq]
  · have hpair := hR.get (h.lt_length hi) (hm.lt_length hi')
    rwa [h.get_eq hi, hm.get_eq hi']

end Rearranges

variable {σ : Equiv.Perm Nat} {width : Nat} {text text' : List Char} {texts texts' : List (List Char)}
  {line line' : StateLine} {lines lines' : List StateLine} {header header' : Header}

section Lines

/-- A line about a state gets its fields rearranged, of which there are as many as symbols. A line that is blank
or does not look like one about a state stays as it is. -/
inductive MovesFields (σ : Equiv.Perm Nat) (width : Nat) : List Char → List Char → Prop where
  | moved {text text' digits : List Char} {fields fields' : List (List Char)} {i f : Bool} :
    HasShape text i f digits fields → fields.length = width → Rearranges σ fields fields' →
    HasShape text' i f digits fields' → MovesFields σ width text text'
  | kept {text : List Char} : (∀ i f digits fields, ¬ HasShape text i f digits fields) →
    MovesFields σ width text text

/-- The lines have the same marks and the same state, and the columns of the second one are rearranged. -/
structure StateLine.Moved (σ : Equiv.Perm Nat) (line line' : StateLine) : Prop where
  initial : line.isInitial = line'.isInitial
  final : line.isFinal = line'.isFinal
  state : line.state = line'.state
  targets : Rearranges σ line.targets line'.targets

theorem MovesFields.symm (h : MovesFields σ width text text') : MovesFields σ.symm width text' text := by
  obtain ⟨hshape, hwidth, hfields, hshape'⟩ | hnone := h
  · exact .moved hshape' (hfields.length_eq.trans hwidth) hfields.symm hshape
  · exact .kept hnone

theorem MovesFields.gap (h : MovesFields σ width text text') (hgap : Gap text) : Gap text' := by
  cases h with
  | moved hshape => exact absurd hgap hshape.not_gap
  | kept => exact hgap

theorem StateLine.Moved.fits (h : line.Moved σ line') (hfits : line.Fits width) : line'.Fits width := by
  obtain ⟨hwidth, hfit⟩ := hfits
  refine ⟨h.targets.length_eq.trans hwidth, fun q hq => hfit q ?_⟩
  rw [mem_mentioned] at hq ⊢
  simpa only [h.state, h.targets.mem_iff] using hq

/-- What a line says is rearranged with its fields. -/
theorem MovesFields.exists_line (h : MovesFields σ width text text') (hline : IsStateLine width text line) :
    ∃ line', IsStateLine width text' line' ∧ line.Moved σ line' := by
  obtain ⟨⟨digits, fields, hshape, hstate, htargets⟩, hfits⟩ := isStateLine_iff.1 hline
  cases h with
  | kept hnone => exact absurd hshape (hnone _ _ _ _)
  | moved hold hwidth hfields hnew =>
      obtain ⟨⟨rfl, rfl⟩, rfl, rfl⟩ := hold.unique hshape
      obtain ⟨targets, hmoved⟩ := hfields.exists_of_length_eq htargets.length_eq.symm
      have hmoves : line.Moved σ { line with targets } := ⟨rfl, rfl, rfl, hmoved⟩
      have hsaid : Says text' { line with targets } := ⟨_, _, hnew, hstate, hfields.forall₂ hmoved htargets⟩
      exact ⟨_, isStateLine_iff.2 ⟨hsaid, hmoves.fits hfits⟩, hmoves⟩

theorem AreStateLines.exists_moved (h : List.Forall₂ (MovesFields σ width) texts texts')
    (hlines : AreStateLines width texts lines) :
    ∃ lines', AreStateLines width texts' lines' ∧ List.Forall₂ (StateLine.Moved σ) lines lines' := by
  induction h generalizing lines with
  | nil =>
      cases hlines
      exact ⟨[], .nil, .nil⟩
  | cons htext _ ih =>
      cases hlines with
      | blank hgap hlines =>
          obtain ⟨lines', hlines', hmoved⟩ := ih hlines
          exact ⟨lines', .blank (htext.gap hgap) hlines', hmoved⟩
      | line hline hlines =>
          obtain ⟨line', hline', hmoved⟩ := htext.exists_line hline
          obtain ⟨lines', hlines', hmoves⟩ := ih hlines
          exact ⟨line' :: lines', .line hline' hlines', .cons hmoved hmoves⟩

end Lines

section Documents

/-- Two documents that say the same. -/
structure Document.Similar (d d' : Document) : Prop where
  kind : d.header.kind = d'.header.kind
  symbols : ∀ s, s ∈ d.header.symbols ↔ s ∈ d'.header.symbols
  states : ∀ q, d.HasState q ↔ d'.HasState q
  initial : ∀ q, d.HasMark (·.isInitial) q ↔ d'.HasMark (·.isInitial) q
  final : ∀ q, d.HasMark (·.isFinal) q ↔ d'.HasMark (·.isFinal) q
  edges : ∀ p s q, d.HasEdge p s q ↔ d'.HasEdge p s q

namespace Document.Similar

variable {d d' : Document} {a : Automaton}

protected theorem refl (d : Document) : d.Similar d :=
  ⟨rfl, fun _ => Iff.rfl, fun _ => Iff.rfl, fun _ => Iff.rfl, fun _ => Iff.rfl, fun _ _ _ => Iff.rfl⟩

protected theorem symm (h : d.Similar d') : d'.Similar d :=
  ⟨h.kind.symm, fun s => (h.symbols s).symm, fun q => (h.states q).symm, fun q => (h.initial q).symm,
    fun q => (h.final q).symm, fun p s q => (h.edges p s q).symm⟩

theorem denotes (h : d.Similar d') (ha : d.Denotes a) : d'.Denotes a where
  kind := ha.kind.trans h.kind
  alphabet s := (ha.alphabet s).trans (h.symbols s)
  states q := (ha.states q).trans (h.states q)
  initial q := (ha.initial q).trans (h.initial q)
  final q := (ha.final q).trans (h.final q)
  edges p s q := (ha.edges p s q).trans (h.edges p s q)
  built := ha.built

end Document.Similar

theorem exists_mem_iff_of_forall₂ {α β : Type} {R : α → β → Prop} {P : α → Prop} {Q : β → Prop} {l : List α}
    {m : List β} (h : List.Forall₂ R l m) (hR : ∀ a b, R a b → (P a ↔ Q b)) :
    (∃ a ∈ l, P a) ↔ ∃ b ∈ m, Q b := by
  induction h with
  | nil => simp
  | cons hab _ ih => simp only [List.mem_cons, exists_eq_or_imp, hR _ _ hab, ih]

/-- The columns of a symbol are found at its position, wherever that is. -/
theorem similar_of_moved (hkind : header.kind = header'.kind)
    (hsymbols : Rearranges σ header.symbols header'.symbols)
    (hlines : List.Forall₂ (StateLine.Moved σ) lines lines') :
    Document.Similar ⟨header, lines⟩ ⟨header', lines'⟩ where
  kind := hkind
  symbols s := hsymbols.mem_iff.symm
  states q := exists_mem_iff_of_forall₂ hlines fun line line' h => by
    simp only [h.state, h.targets.mem_iff]
  initial q := exists_mem_iff_of_forall₂ hlines fun line line' h => by
    simp only [h.initial, h.state]
  final q := exists_mem_iff_of_forall₂ hlines fun line line' h => by
    simp only [h.final, h.state]
  edges p s q := exists_mem_iff_of_forall₂ hlines fun line line' h => by
    rw [h.state]
    refine and_congr_right fun _ => ?_
    simp only [hsymbols.getElem?_eq, h.targets.getElem?_eq]
    exact σ.surjective.exists

end Documents

end FiniteAutomata.Format
