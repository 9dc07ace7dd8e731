import FiniteAutomata.Text.Blank
import Mathlib.Data.List.Basic

/-! The words of a text. `HasWords` says what it is for a text to have given words, and the tokens of a text
are the words that it has. Every text has words, and it has them in one way only. Blanks at the ends of a
text make no difference. -/

namespace FiniteAutomata.Text

variable {c : Char} {cs gap word rest : List Char} {words : List (List Char)}

/-- Blanks only, or nothing at all. -/
def Gap (cs : List Char) : Prop := ∀ c ∈ cs, isBlank c = true

/-- One character or more, and no blank. -/
def IsWord (cs : List Char) : Prop := cs ≠ [] ∧ ∀ c ∈ cs, isBlank c = false

instance (cs : List Char) : Decidable (IsWord cs) :=
  decidable_of_iff ((!cs.isEmpty && cs.all (!isBlank ·)) = true) (by simp [IsWord])

/-- What can stand behind a word: nothing, or a text that begins with a blank. -/
def EndsWord (rest : List Char) : Prop := ∀ c ∈ rest.head?, isBlank c = true

/-- The text has these words, in this order, and blanks between them. There may be blanks before the first
word and behind the last one. -/
inductive HasWords : List Char → List (List Char) → Prop where
  | none {gap : List Char} : Gap gap → HasWords gap []
  | cons {gap word rest : List Char} {words : List (List Char)} :
    Gap gap → IsWord word → EndsWord rest → HasWords rest words → HasWords (gap ++ word ++ rest) (word :: words)

theorem gap_nil : Gap [] := fun _ hc => absurd hc List.not_mem_nil

theorem gap_cons : Gap (c :: cs) ↔ isBlank c = true ∧ Gap cs := List.forall_mem_cons

theorem gap_concat_blank (hc : isBlank c = true) : Gap (cs ++ [c]) ↔ Gap cs := by
  simp [Gap, or_imp, forall_and, hc]

theorem endsWord_nil : EndsWord [] := fun _ hc => nomatch hc

theorem endsWord_cons : EndsWord (c :: cs) ↔ isBlank c = true := by
  simp [EndsWord]

theorem endsWord_spaces (words : List (List Char)) : EndsWord (words.flatMap (' ' :: ·)) := by
  cases words with
  | nil => exact endsWord_nil
  | cons word words => exact endsWord_cons.2 rfl

theorem endsWord_concat_blank (hc : isBlank c = true) : EndsWord (cs ++ [c]) ↔ EndsWord cs := by
  cases cs with
  | nil => exact iff_of_true (endsWord_cons.2 hc) endsWord_nil
  | cons b cs => exact endsWord_cons.trans endsWord_cons.symm

theorem Gap.endsWord (h : Gap cs) : EndsWord cs := fun c hc => h c (List.mem_of_mem_head? hc)

section Tokens

theorem tokens_nil : tokens [] = [] := rfl

theorem tokens_cons_of_blank (h : isBlank c = true) : tokens (c :: cs) = tokens cs := by
  rw [tokens, List.splitOnP_cons_eq_if_modifyHead, if_pos h]
  rfl

theorem tokens_gap_append (h : Gap gap) : tokens (gap ++ cs) = tokens cs := by
  induction gap with
  | nil => rfl
  | cons c gap ih =>
      obtain ⟨hc, hgap⟩ := gap_cons.1 h
      rw [List.cons_append, tokens_cons_of_blank hc, ih hgap]

theorem tokens_word_append (hword : IsWord word) (hrest : EndsWord rest) :
    tokens (word ++ rest) = word :: tokens rest := by
  obtain ⟨hne, hblank⟩ := hword
  have hkept : ∀ pieces : List (List Char),
      (word :: pieces).filter (!·.isEmpty) = word :: pieces.filter (!·.isEmpty) :=
    fun pieces => List.filter_cons_of_pos (by simpa using hne)
  cases rest with
  | nil => rw [List.append_nil, tokens, List.splitOnP_eq_singleton hblank, hkept, List.filter_nil, tokens_nil]
  | cons c rest =>
      have hc := endsWord_cons.1 hrest
      rw [tokens_cons_of_blank hc, tokens, List.splitOnP_append_cons_of_forall_mem hblank c hc, hkept, tokens]

theorem HasWords.tokens_eq (h : HasWords cs words) : tokens cs = words := by
  induction h with
  | @none gap hgap =>
      rw [← List.append_nil gap, tokens_gap_append hgap, tokens_nil]
  | cons hgap hword hrest _ ih =>
      rw [List.append_assoc, tokens_gap_append hgap, tokens_word_append hword hrest, ih]

/-- A blank in front makes the first gap longer, and any other character begins the first word or is a word
of its own. -/
theorem exists_hasWords (cs : List Char) : ∃ words, HasWords cs words := by
  induction cs with
  | nil => exact ⟨[], .none gap_nil⟩
  | cons c cs ih =>
      obtain ⟨words, h⟩ := ih
      cases hc : isBlank c with
      | true =>
          cases h with
          | none hgap => exact ⟨_, .none (gap_cons.2 ⟨hc, hgap⟩)⟩
          | @cons gap _ _ _ hgap hword hrest htail =>
              have hlonger : Gap (c :: gap) := gap_cons.2 ⟨hc, hgap⟩
              exact ⟨_, .cons hlonger hword hrest htail⟩
      | false =>
          have hsingle : IsWord [c] := ⟨List.cons_ne_nil c [], by simpa using hc⟩
          cases h with
          | none hgap => exact ⟨_, .cons gap_nil hsingle hgap.endsWord (.none hgap)⟩
          | @cons gap word rest words hgap hword hrest htail =>
              cases gap with
              | nil =>
                  have hlonger : IsWord (c :: word) :=
                    ⟨List.cons_ne_nil c word, List.forall_mem_cons.2 ⟨hc, hword.2⟩⟩
                  exact ⟨_, .cons gap_nil hlonger hrest htail⟩
              | cons b gap =>
                  exact ⟨_, .cons gap_nil hsingle (endsWord_cons.2 (gap_cons.1 hgap).1)
                    (.cons hgap hword hrest htail)⟩

/-- The tokens of a text are its words. -/
theorem tokens_eq_iff : tokens cs = words ↔ HasWords cs words := by
  refine ⟨?_, HasWords.tokens_eq⟩
  rintro rfl
  obtain ⟨words, h⟩ := exists_hasWords cs
  rwa [h.tokens_eq]

end Tokens

namespace HasWords

theorem isWord (h : HasWords cs words) (hmem : word ∈ words) : IsWord word := by
  induction h with
  | none => cases hmem
  | cons _ hword _ _ ih =>
      rcases List.mem_cons.1 hmem with rfl | hmem
      · exact hword
      · exact ih hmem

theorem concat_blank (h : HasWords cs words) (hc : isBlank c = true) : HasWords (cs ++ [c]) words := by
  induction h with
  | none hgap => exact .none ((gap_concat_blank hc).2 hgap)
  | @cons gap word rest words hgap hword hrest _ ih =>
      rw [List.append_assoc]
      exact .cons hgap hword ((endsWord_concat_blank hc).2 hrest) ih

/-- One space before each word separates the words. -/
theorem of_spaces (h : ∀ word ∈ words, IsWord word) : HasWords (words.flatMap (' ' :: ·)) words := by
  induction words with
  | nil => exact .none gap_nil
  | cons word words ih =>
      obtain ⟨hword, hwords⟩ := List.forall_mem_cons.1 h
      have hspace : Gap [' '] := gap_cons.2 ⟨rfl, gap_nil⟩
      exact .cons hspace hword (endsWord_spaces words) (ih hwords)

end HasWords

/-- A blank at the end adds no word and hides none. -/
theorem hasWords_concat_blank (hc : isBlank c = true) : HasWords (cs ++ [c]) words ↔ HasWords cs words := by
  refine ⟨fun h => ?_, fun h => h.concat_blank hc⟩
  obtain ⟨words', h'⟩ := exists_hasWords cs
  rwa [← h.tokens_eq, (h'.concat_blank hc).tokens_eq]

end FiniteAutomata.Text
