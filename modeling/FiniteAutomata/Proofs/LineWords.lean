import FiniteAutomata.Proofs.LineFaults

/-! What a line says and what that depends on. A line about a state has a shape, which is found in its words
alone, and what it says is read off its shape without regard to the number of columns or to the size of the
numbers. The state lines of the grammar are the lines that say something about few enough columns in numbers
that are small enough. -/

namespace FiniteAutomata.Text

variable {cs gap gap' left right : List Char}

theorem Gap.append (h : Gap gap) (h' : Gap gap') : Gap (gap ++ gap') := List.forall_mem_append.2 ⟨h, h'⟩

theorem Gap.endsWord_append (h : Gap gap) (hne : gap ≠ []) (cs : List Char) : EndsWord (gap ++ cs) := by
  obtain ⟨c, gap, rfl⟩ := List.exists_cons_of_ne_nil hne
  exact endsWord_cons.2 (gap_cons.1 h).1

theorem gap_iff_tokens : Gap cs ↔ tokens cs = [] := by
  rw [tokens_eq_iff]
  refine ⟨.none, fun h => ?_⟩
  cases h
  assumption

theorem tokens_concat_blank {c : Char} (hc : isBlank c = true) : tokens (cs ++ [c]) = tokens cs :=
  tokens_eq_iff.2 ((hasWords_concat_blank hc).2 (tokens_eq_iff.1 rfl))

/-- Blanks part the words before them from those behind them. -/
theorem tokens_append_gap_append (h : Gap gap) (hne : gap ≠ []) :
    tokens (left ++ gap ++ right) = tokens left ++ tokens right := by
  obtain ⟨words, hwords⟩ := exists_hasWords left
  rw [hwords.tokens_eq]
  induction hwords with
  | none hleft => rw [tokens_gap_append (hleft.append h), List.nil_append]
  | @cons gap₀ word rest words hgap hword hrest hwords ih =>
      have hends : EndsWord (rest ++ gap ++ right) := by
        cases rest with
        | nil => exact h.endsWord_append hne right
        | cons c rest => exact endsWord_cons.2 (endsWord_cons.1 hrest)
      rw [List.append_assoc, List.append_assoc (gap₀ ++ word), List.append_assoc gap₀, ← List.append_assoc rest,
        tokens_gap_append hgap, tokens_word_append hword hends, ih, List.cons_append]

end FiniteAutomata.Text

namespace FiniteAutomata.Format

open Text

variable {width : Nat} {text text' digits field : List Char} {fields numerals : List (List Char)} {i f : Bool}
  {targets targets' : List StateId} {line line' : StateLine} {header : Header}

section Shapes

/-- A text looks like a line about a state with these marks, these digits and these words behind them. Neither
the number nor the fields need to be right. -/
inductive HasShape : List Char → Bool → Bool → List Char → List (List Char) → Prop where
  | mk {before marker gap digits rest : List Char} {fields : List (List Char)} {i f : Bool} :
    Gap before → IsMarker marker i f → Gap gap → IsDigits digits → EndsWord rest → HasWords rest fields →
    HasShape (before ++ marker ++ gap ++ digits ++ rest) i f digits fields

theorem IsMarker.not_blank {marker : List Char} (h : IsMarker marker i f) : ∀ c ∈ marker, isBlank c = false := by
  have hall : marker.all (!isBlank ·) = true := by cases h <;> rfl
  simpa using hall

theorem IsDigits.isWord (h : IsDigits digits) : IsWord digits :=
  ⟨h.1, fun c hc => isBlank_eq_false_of_isDigit (h.2 c hc)⟩

/-- A marker is a word of its own, or it stands in front of the digits in one word with them. -/
theorem hasShape_iff_words : HasShape text i f digits fields ↔ IsDigits digits ∧ ∃ marker, IsMarker marker i f ∧
    (HasWords text ((marker ++ digits) :: fields) ∨
      marker ≠ [] ∧ HasWords text (marker :: digits :: fields)) := by
  refine ⟨?_, ?_⟩
  · rintro @⟨before, marker, gap, _, rest, _, _, _, hbefore, hmarker, hgap, hdigits, hends, hwords⟩
    have hjoined : IsWord (marker ++ digits) :=
      ⟨List.append_ne_nil_of_right_ne_nil _ hdigits.1,
        List.forall_mem_append.2 ⟨hmarker.not_blank, hdigits.isWord.2⟩⟩
    refine ⟨hdigits, marker, hmarker, ?_⟩
    rcases eq_or_ne gap [] with rfl | hne
    · left
      rw [List.append_nil, List.append_assoc before]
      exact .cons hbefore hjoined hends hwords
    rcases eq_or_ne marker [] with rfl | hmarked
    · left
      rw [List.append_nil]
      exact .cons (hbefore.append hgap) hjoined hends hwords
    · right
      have hbehind : EndsWord (gap ++ digits ++ rest) := by
        rw [List.append_assoc]
        exact hgap.endsWord_append hne _
      rw [List.append_assoc, List.append_assoc, ← List.append_assoc gap]
      exact ⟨hmarked, .cons hbefore ⟨hmarked, hmarker.not_blank⟩ hbehind (.cons hgap hdigits.isWord hends hwords)⟩
  · rintro ⟨hdigits, marker, hmarker, hwords | ⟨_, hwords⟩⟩
    · obtain @⟨_, _, _, _⟩ | @⟨before, _, rest, _, hbefore, _, hends, hwords⟩ := hwords
      rw [← List.append_assoc, ← List.append_nil (before ++ marker)]
      exact .mk hbefore hmarker gap_nil hdigits hends hwords
    · obtain _ | @⟨before, _, _, _, hbefore, _, _, hwords⟩ := hwords
      obtain _ | @⟨gap, _, rest, _, hgap, _, hends, hwords⟩ := hwords
      rw [← List.append_assoc, ← List.append_assoc]
      exact .mk hbefore hmarker hgap hdigits hends hwords

theorem HasShape.congr (h : HasShape text i f digits fields) (htokens : tokens text = tokens text') :
    HasShape text' i f digits fields := by
  rw [hasShape_iff_words] at h ⊢
  simpa only [← tokens_eq_iff, htokens] using h

theorem HasShape.not_gap (h : HasShape text i f digits fields) : ¬ Gap text := by
  obtain ⟨hdigits, marker, _, hwords⟩ := hasShape_iff_words.1 h
  intro hgap
  rw [gap_iff_tokens] at hgap
  rcases hwords with hwords | ⟨_, hwords⟩
  · exact List.cons_ne_nil _ _ (hwords.tokens_eq.symm.trans hgap)
  · exact List.cons_ne_nil _ _ (hwords.tokens_eq.symm.trans hgap)

/-- The shape is what the parser takes a text apart into. -/
theorem HasShape.parts (h : HasShape text i f digits fields) : ∃ rest,
    splitMarker (trimStart text) = ((i, f), rest) ∧ (trimStart rest).takeWhile Char.isDigit = digits ∧
      tokens ((trimStart rest).dropWhile Char.isDigit) = fields := by
  obtain @⟨before, marker, gap, _, tail, _, _, _, hbefore, hmarker, hgap, hdigits, hends, hwords⟩ := h
  have hparts := HasParts.mk hbefore hmarker hgap hdigits hends hwords
  obtain ⟨c, digits, rfl⟩ := List.exists_cons_of_ne_nil hdigits.1
  obtain ⟨rest, hsplit, _⟩ :=
    splitMarker_trimStart hbefore hmarker hgap (hdigits.2 c List.mem_cons_self) (digits ++ tail)
  rw [← List.cons_append, ← List.append_assoc] at hsplit
  obtain ⟨hnumeral, _, _, hfields⟩ := (hasParts_iff hsplit).1 hparts
  exact ⟨rest, hsplit, hnumeral, hfields⟩

theorem HasShape.unique {i' f' : Bool} {digits' : List Char} {fields' : List (List Char)}
    (h : HasShape text i f digits fields) (h' : HasShape text i' f' digits' fields') :
    (i = i' ∧ f = f') ∧ digits = digits' ∧ fields = fields' := by
  obtain ⟨rest, hsplit, hdigits, hfields⟩ := h.parts
  obtain ⟨rest', hsplit', hdigits', hfields'⟩ := h'.parts
  obtain ⟨hmarks, rfl⟩ := Prod.mk.inj (hsplit.symm.trans hsplit')
  exact ⟨Prod.mk.inj hmarks, hdigits.symm.trans hdigits', hfields.symm.trans hfields'⟩

end Shapes

section Numbers

/-- A field is a hyphen, for no number, or it lists the digits of the numbers with bars between them. -/
inductive ListsNumbers : List Char → List StateId → Prop where
  | hyphen : ListsNumbers ['-'] []
  | digits {numerals : List (List Char)} : numerals ≠ [] → (∀ digits ∈ numerals, IsDigits digits) →
    ListsNumbers (['|'].intercalate numerals) (numerals.map (Nat.ofDigitChars 10 · 0))

theorem ListsNumbers.unique (h : ListsNumbers field targets) (h' : ListsNumbers field targets') :
    targets = targets' := by
  cases h with
  | hyphen =>
      generalize heq : ['-'] = field at h'
      cases h' with
      | hyphen => rfl
      | digits hne hdigits => exact absurd heq.symm (splitOn_intercalate_digits hne hdigits).2
  | @digits numerals hne hdigits =>
      generalize heq : ['|'].intercalate numerals = field at h'
      obtain ⟨hsplit, hhyphen⟩ := splitOn_intercalate_digits hne hdigits
      cases h' with
      | hyphen => exact absurd heq hhyphen
      | digits hne' hdigits' =>
          rw [heq, (splitOn_intercalate_digits hne' hdigits').1] at hsplit
          rw [hsplit]

theorem isNumeral_iff_isDigits {q : StateId} :
    IsNumeral digits q ↔ (IsDigits digits ∧ Nat.ofDigitChars 10 digits 0 = q) ∧ q ≤ StateId.largest := by
  refine ⟨fun h => ⟨⟨⟨h.nonempty, h.digits⟩, h.value⟩, h.fits⟩, ?_⟩
  rintro ⟨⟨⟨hne, hdigits⟩, hvalue⟩, hfits⟩
  exact ⟨hne, hdigits, hvalue, hfits⟩

theorem forall₂_isNumeral_iff : List.Forall₂ IsNumeral numerals targets ↔
    ((∀ digits ∈ numerals, IsDigits digits) ∧ numerals.map (Nat.ofDigitChars 10 · 0) = targets) ∧
      ∀ q ∈ targets, q ≤ StateId.largest := by
  induction numerals generalizing targets with
  | nil =>
      rw [List.forall₂_nil_left_iff, List.map_nil]
      refine ⟨?_, fun h => h.1.2.symm⟩
      rintro rfl
      simp
  | cons digits numerals ih =>
      rw [List.forall₂_cons_left_iff, List.forall_mem_cons, List.map_cons]
      refine ⟨?_, ?_⟩
      · rintro ⟨q, targets, hq, hrest, rfl⟩
        obtain ⟨⟨hdigits, rfl⟩, hfits⟩ := isNumeral_iff_isDigits.1 hq
        obtain ⟨⟨hall, rfl⟩, hfit⟩ := ih.1 hrest
        exact ⟨⟨⟨hdigits, hall⟩, rfl⟩, List.forall_mem_cons.2 ⟨hfits, hfit⟩⟩
      · rintro ⟨⟨⟨hdigits, hall⟩, rfl⟩, hfit⟩
        obtain ⟨hfits, hfit⟩ := List.forall_mem_cons.1 hfit
        exact ⟨_, _, isNumeral_iff_isDigits.2 ⟨⟨hdigits, rfl⟩, hfits⟩, ih.2 ⟨⟨hall, rfl⟩, hfit⟩, rfl⟩

/-- The fields of the grammar list numbers that are small enough. -/
theorem isField_iff : IsField field targets ↔ ListsNumbers field targets ∧ ∀ q ∈ targets, q ≤ StateId.largest := by
  refine ⟨?_, ?_⟩
  · rintro (_ | ⟨hne, hnumerals⟩)
    · exact ⟨.hyphen, List.forall_mem_nil _⟩
    · obtain ⟨⟨hdigits, rfl⟩, hfit⟩ := forall₂_isNumeral_iff.1 hnumerals
      exact ⟨.digits hne hdigits, hfit⟩
  · rintro ⟨_ | ⟨hne, hdigits⟩, hfit⟩
    · exact .hyphen
    · exact .targets hne (forall₂_isNumeral_iff.2 ⟨⟨hdigits, rfl⟩, hfit⟩)

theorem forall₂_isField_iff {targets : List (List StateId)} : List.Forall₂ IsField fields targets ↔
    List.Forall₂ ListsNumbers fields targets ∧ ∀ q ∈ targets.flatten, q ≤ StateId.largest := by
  induction fields generalizing targets with
  | nil =>
      rw [List.forall₂_nil_left_iff, List.forall₂_nil_left_iff]
      refine ⟨?_, fun h => h.1⟩
      rintro rfl
      simp
  | cons field fields ih =>
      cases targets with
      | nil => simp
      | cons column targets =>
          rw [List.forall₂_cons, List.forall₂_cons, ih, isField_iff, List.flatten_cons, List.forall_mem_append]
          tauto

end Numbers

section Lines

/-- The text says what is in the line. The line may have any number of columns and any numbers in them. -/
def Says (text : List Char) (line : StateLine) : Prop := ∃ digits fields,
  HasShape text line.isInitial line.isFinal digits fields ∧ Nat.ofDigitChars 10 digits 0 = line.state ∧
    List.Forall₂ ListsNumbers fields line.targets

theorem Says.unique (h : Says text line) (h' : Says text line') : line = line' := by
  obtain ⟨digits, fields, hshape, hstate, htargets⟩ := h
  obtain ⟨digits', fields', hshape', hstate', htargets'⟩ := h'
  obtain ⟨⟨hinitial, hfinal⟩, rfl, rfl⟩ := hshape.unique hshape'
  have hunique : Relator.RightUnique ListsNumbers := fun _ _ _ => ListsNumbers.unique
  have hcolumns := hunique.forall₂ htargets htargets'
  obtain ⟨isInitial, isFinal, state, targets⟩ := line
  obtain ⟨isInitial', isFinal', state', targets'⟩ := line'
  rw [StateLine.mk.injEq]
  exact ⟨hinitial, hfinal, hstate.symm.trans hstate', hcolumns⟩

theorem Says.congr (h : Says text line) (htokens : tokens text = tokens text') : Says text' line := by
  obtain ⟨digits, fields, hshape, hsaid⟩ := h
  exact ⟨digits, fields, hshape.congr htokens, hsaid⟩

/-- A state line has the right number of columns, and a state can have each number in it. -/
def StateLine.Fits (width : Nat) (line : StateLine) : Prop :=
  line.targets.length = width ∧ ∀ q ∈ line.mentioned, q ≤ StateId.largest

theorem isStateLine_iff : IsStateLine width text line ↔ Says text line ∧ line.Fits width := by
  refine ⟨?_, ?_⟩
  · rintro ⟨hbefore, hmarker, hgap, hq, hends, hwords, hwidth, htargets⟩
    obtain ⟨⟨hdigits, hstate⟩, hfits⟩ := isNumeral_iff_isDigits.1 hq
    obtain ⟨hcolumns, hfit⟩ := forall₂_isField_iff.1 htargets
    exact ⟨⟨_, _, .mk hbefore hmarker hgap hdigits hends hwords, hstate, hcolumns⟩,
      hcolumns.length_eq.symm.trans hwidth, List.forall_mem_cons.2 ⟨hfits, hfit⟩⟩
  · rintro ⟨⟨digits, fields, hshape, hstate, hcolumns⟩, hwidth, hfits⟩
    obtain ⟨hfits, hfit⟩ := List.forall_mem_cons.1 hfits
    generalize hinitial : line.isInitial = i at hshape
    generalize hfinal : line.isFinal = f at hshape
    obtain ⟨hbefore, hmarker, hgap, hdigits, hends, hwords⟩ := hshape
    subst hinitial hfinal
    exact .mk hbefore hmarker hgap (isNumeral_iff_isDigits.2 ⟨⟨hdigits, hstate⟩, hfits⟩) hends hwords
      (hcolumns.length_eq.trans hwidth) (forall₂_isField_iff.2 ⟨hcolumns, hfit⟩)

end Lines

section Words

variable (htokens : tokens text = tokens text')

include htokens

theorem gap_congr : Gap text ↔ Gap text' := by
  rw [gap_iff_tokens, gap_iff_tokens, htokens]

theorem isHeader_congr : IsHeader text header ↔ IsHeader text' header := by
  refine ⟨?_, ?_⟩
  · rintro ⟨hwords, hdistinct⟩
    exact ⟨tokens_eq_iff.1 (htokens ▸ hwords.tokens_eq), hdistinct⟩
  · rintro ⟨hwords, hdistinct⟩
    exact ⟨tokens_eq_iff.1 (htokens ▸ hwords.tokens_eq), hdistinct⟩

theorem isStateLine_congr : IsStateLine width text line ↔ IsStateLine width text' line := by
  rw [isStateLine_iff, isStateLine_iff]
  exact and_congr_left fun _ => ⟨fun h => h.congr htokens, fun h => h.congr htokens.symm⟩

end Words

end FiniteAutomata.Format
