import FiniteAutomata.Format.Reader
import FiniteAutomata.OperationFailure
import FiniteAutomata.Proofs.Grammar
import FiniteAutomata.Proofs.TextLines
import Mathlib.Data.List.TakeWhile

/-! What is parsed is what the grammar relates. Each parser succeeds exactly on the texts that have a
derivation, and with what is derived, so its order of checks and its choices make no difference to what is
accepted. A carriage return at the end of a line is a blank, and whether it is dropped makes none either. -/

namespace FiniteAutomata.Format

open Text

variable {width number : Nat} {cs numeral field marker before gap rest text : List Char} {q : StateId}
  {targets : List StateId} {i f : Bool} {line : StateLine} {lines : List StateLine} {header : Header}

section Fields

theorem mapM_eq_ok {ε α β : Type} {f : α → Except ε β} {l : List α} {l' : List β} :
    l.mapM f = .ok l' ↔ List.Forall₂ (fun a b => f a = .ok b) l l' := by
  induction l generalizing l' with
  | nil =>
      rw [List.mapM_nil, List.forall₂_nil_left_iff]
      exact ⟨fun h => (Except.ok.inj h).symm, fun h => congrArg Except.ok h.symm⟩
  | cons a l ih =>
      rw [List.mapM_cons, List.forall₂_cons_left_iff]
      simp only [bind_eq_ok, ih]
      refine ⟨?_, ?_⟩
      · rintro ⟨b, hb, l', hl', heq⟩
        cases heq
        exact ⟨b, l', hb, hl', rfl⟩
      · rintro ⟨b, l', hb, hl', rfl⟩
        exact ⟨b, hb, l', hl', rfl⟩

theorem isNumeral_iff : Decimal.isNumeral cs = true ↔ cs ≠ [] ∧ ∀ c ∈ cs, c.isDigit = true := by
  simp [Decimal.isNumeral]

theorem parse?_eq_some_iff : Decimal.parse? cs = some q ↔ IsNumeral cs q := by
  rw [Decimal.parse?, Option.ite_none_right_eq_some, Option.some.injEq, isNumeral_iff]
  refine ⟨?_, ?_⟩
  · rintro ⟨⟨⟨hne, hdigits⟩, hfits⟩, rfl⟩
    exact ⟨hne, hdigits, rfl, hfits⟩
  · rintro ⟨hne, hdigits, rfl, hfits⟩
    exact ⟨⟨⟨hne, hdigits⟩, hfits⟩, rfl⟩

theorem parseIndex_eq_ok : parseIndex number cs = .ok q ↔ IsNumeral cs q := by
  rw [← parse?_eq_some_iff, parseIndex]
  cases Decimal.parse? cs with
  | none => simp
  | some p => simp

theorem mapM_parseIndex_eq_ok {numerals : List (List Char)} :
    numerals.mapM (parseIndex number) = .ok targets ↔ List.Forall₂ IsNumeral numerals targets := by
  simp only [mapM_eq_ok, parseIndex_eq_ok]

theorem isNumeral_of_forall₂ {numerals : List (List Char)} (h : List.Forall₂ IsNumeral numerals targets) :
    ∀ numeral ∈ numerals, Decimal.isNumeral numeral = true :=
  ((List.forall₂_and_left _ _).1 (h.imp fun _ _ hq => ⟨isNumeral_iff.2 ⟨hq.nonempty, hq.digits⟩, hq⟩)).1

/-- Bars do not occur in numerals, so a list of numerals is cut at its bars in one way only. -/
theorem splitOn_intercalate_numerals {numerals : List (List Char)} (hne : numerals ≠ [])
    (h : ∀ numeral ∈ numerals, Decimal.isNumeral numeral = true) :
    (['|'].intercalate numerals).splitOn '|' = numerals := by
  refine List.splitOn_intercalate '|' (fun numeral hmem hbar => ?_) hne
  exact absurd ((isNumeral_iff.1 (h numeral hmem)).2 '|' hbar) (by decide)

theorem parseField_eq_ok : parseField number field = .ok targets ↔ IsField field targets := by
  refine ⟨?_, ?_⟩
  · intro hok
    rw [parseField] at hok
    split at hok
    · next hhyphen =>
      cases hok
      rw [hhyphen]
      exact .hyphen
    · dsimp only at hok
      split at hok
      · have hpieces : ['|'].intercalate (field.splitOn '|') = field := List.intercalate_splitOn '|'
        rw [← hpieces]
        exact .targets (List.splitOn_ne_nil _ _) (mapM_parseIndex_eq_ok.1 hok)
      · cases hok
  · intro hfield
    cases hfield with
    | hyphen => rfl
    | @targets numerals _ hne h =>
        have hnumerals := isNumeral_of_forall₂ h
        have hsplit := splitOn_intercalate_numerals hne hnumerals
        have hhyphen : ['|'].intercalate numerals ≠ ['-'] := by
          intro heq
          rw [heq] at hsplit
          rw [← hsplit] at hnumerals
          exact absurd hnumerals (by decide)
        rw [parseField, if_neg hhyphen]
        dsimp only
        rw [hsplit, if_pos (List.all_eq_true.2 hnumerals)]
        exact mapM_parseIndex_eq_ok.2 h

end Fields

section StateLines

theorem trimStart_gap_append (h : Gap gap) (cs : List Char) : trimStart (gap ++ cs) = trimStart cs := by
  rw [trimStart, List.dropWhile_append_of_pos h, trimStart]

theorem trimStart_of_not_blank {c : Char} (hc : isBlank c = false) : trimStart (c :: cs) = c :: cs := by
  rw [trimStart, List.dropWhile_cons_of_neg (by simp [hc])]

theorem exists_gap_append_trimStart (cs : List Char) : ∃ gap, Gap gap ∧ cs = gap ++ trimStart cs :=
  ⟨cs.takeWhile isBlank, fun _ hc => List.mem_takeWhile_imp hc, List.takeWhile_append_dropWhile.symm⟩

theorem exists_splitMarker_eq (cs : List Char) : ∃ marker i f rest,
    splitMarker cs = ((i, f), rest) ∧ IsMarker marker i f ∧ cs = marker ++ rest := by
  fun_cases splitMarker cs with
  | case1 rest => exact ⟨_, _, _, rest, rfl, .finalInitial, rfl⟩
  | case2 rest => exact ⟨_, _, _, rest, rfl, .initialFinal, rfl⟩
  | case3 rest => exact ⟨_, _, _, rest, rfl, .initial, rfl⟩
  | case4 rest => exact ⟨_, _, _, rest, rfl, .final, rfl⟩
  | case5 => exact ⟨_, _, _, cs, rfl, .neither, rfl⟩

/-- What can stand behind a marker: a text that does not begin with another one. -/
def EndsMarker (rest : List Char) : Prop := ∀ c ∈ rest.head?, c ≠ '<' ∧ c ≠ '>'

theorem endsMarker_cons {P : Char → Bool} {c : Char} (hfinal : P '<' = false) (hinitial : P '>' = false)
    (hc : P c = true) : EndsMarker (c :: cs) := by
  rintro _ ⟨⟩
  refine ⟨?_, ?_⟩
  · rintro rfl
    exact Bool.false_ne_true (hfinal.symm.trans hc)
  · rintro rfl
    exact Bool.false_ne_true (hinitial.symm.trans hc)

theorem splitMarker_append (h : IsMarker marker i f) (hrest : EndsMarker rest) :
    splitMarker (marker ++ rest) = ((i, f), rest) := by
  cases rest with
  | nil => cases h <;> rfl
  | cons c rest =>
      obtain ⟨hfinal, hinitial⟩ := hrest c rfl
      cases h <;> simp [splitMarker, hfinal, hinitial]

/-- Up to the first digit of the numeral, a state line is taken apart in one way only. -/
theorem splitMarker_trimStart (hbefore : Gap before) (hmarker : IsMarker marker i f) (hgap : Gap gap) {c : Char}
    (hc : c.isDigit = true) (cs : List Char) : ∃ rest,
    splitMarker (trimStart (before ++ marker ++ gap ++ c :: cs)) = ((i, f), rest) ∧
      trimStart rest = c :: cs := by
  have hdigit : EndsMarker (c :: cs) := endsMarker_cons rfl rfl hc
  have hnumeral : trimStart (c :: cs) = c :: cs := trimStart_of_not_blank (isBlank_eq_false_of_isDigit hc)
  rw [List.append_assoc, List.append_assoc, trimStart_gap_append hbefore]
  cases marker with
  | nil =>
      rw [List.nil_append, trimStart_gap_append hgap, hnumeral]
      exact ⟨c :: cs, splitMarker_append hmarker hdigit, hnumeral⟩
  | cons m marker =>
      have hm : isBlank m = false := by cases hmarker <;> rfl
      have hrest : EndsMarker (gap ++ c :: cs) := by
        cases gap with
        | nil => exact hdigit
        | cons b gap => exact endsMarker_cons rfl rfl (gap_cons.1 hgap).1
      rw [List.cons_append, trimStart_of_not_blank hm, ← List.cons_append]
      exact ⟨_, splitMarker_append hmarker hrest, (trimStart_gap_append hgap _).trans hnumeral⟩

/-- The digits of a numeral are all the digits up to its end. -/
theorem span_numeral (hnumeral : ∀ c ∈ numeral, c.isDigit = true) (hcs : EndsWord cs) :
    (numeral ++ cs).takeWhile Char.isDigit = numeral ∧ (numeral ++ cs).dropWhile Char.isDigit = cs := by
  rw [List.takeWhile_append_of_pos hnumeral, List.dropWhile_append_of_pos hnumeral]
  cases cs with
  | nil => exact ⟨List.append_nil numeral, rfl⟩
  | cons c cs =>
      cases hc : c.isDigit with
      | false => simp [hc]
      | true => exact absurd (endsWord_cons.1 hcs) (by simp [isBlank_eq_false_of_isDigit hc])

theorem guard_eq_ok {ε α β : Type} {p : Prop} [Decidable p] {e : ε} {g : α → Except ε β} {x : Except ε β}
    {b : β} : (if p then throw e >>= g else x) = .ok b ↔ ¬ p ∧ x = .ok b := by
  by_cases hp : p
  · rw [if_pos hp]
    exact iff_of_false (fun h => nomatch h) fun h => h.1 hp
  · rw [if_neg hp]
    exact (and_iff_right hp).symm

/-- What the parser checks of the parts into which it takes a line. -/
theorem StateLine.parse_eq_ok_of_parts (hmarker : splitMarker (trimStart text) = ((i, f), rest))
    (hnumeral : (trimStart rest).takeWhile Char.isDigit = numeral)
    (htail : (trimStart rest).dropWhile Char.isDigit = cs) :
    StateLine.parse width number text = .ok line ↔
      IsNumeral numeral line.state ∧ EndsWord cs ∧ (tokens cs).length = width ∧
        List.Forall₂ IsField (tokens cs) line.targets ∧ line.isInitial = i ∧ line.isFinal = f := by
  have hends : ((numeral.isEmpty || cs.head?.any (!isBlank ·)) = true) ↔ ¬ (numeral ≠ [] ∧ EndsWord cs) := by
    cases cs <;> simp [EndsWord, or_iff_not_imp_left]
  obtain ⟨isInitial, isFinal, state, targets⟩ := line
  rw [StateLine.parse]
  dsimp only
  rw [hmarker]
  dsimp only
  rw [hnumeral, htail, guard_eq_ok, hends, not_not]
  simp only [bind_eq_ok, guard_eq_ok, parseIndex_eq_ok, mapM_eq_ok, parseField_eq_ok]
  refine ⟨?_, ?_⟩
  · rintro ⟨⟨_, hcs⟩, q, hq, hwidth, targets, htargets, heq⟩
    cases heq
    exact ⟨hq, hcs, not_not.1 hwidth, htargets, rfl, rfl⟩
  · rintro ⟨hq, hcs, hwidth, htargets, rfl, rfl⟩
    exact ⟨⟨hq.nonempty, hcs⟩, _, hq, not_not.2 hwidth, _, htargets, rfl⟩

theorem StateLine.parse_eq_ok : StateLine.parse width number text = .ok line ↔ IsStateLine width text line := by
  refine ⟨?_, ?_⟩
  · intro hok
    obtain ⟨before, hbefore, htext⟩ := exists_gap_append_trimStart text
    obtain ⟨marker, i, f, rest, hsplit, hmarker, hmarked⟩ := exists_splitMarker_eq (trimStart text)
    obtain ⟨gap, hgap, hrest⟩ := exists_gap_append_trimStart rest
    obtain ⟨hq, hcs, hwidth, htargets, rfl, rfl⟩ := (parse_eq_ok_of_parts hsplit rfl rfl).1 hok
    have hline := IsStateLine.mk hbefore hmarker hgap hq hcs (tokens_eq_iff.1 rfl) hwidth htargets
    -- Put together again, the parts are the text.
    rwa [List.append_assoc, List.takeWhile_append_dropWhile, List.append_assoc, ← hrest, List.append_assoc,
      ← hmarked, ← htext] at hline
  · intro hline
    obtain @⟨before, marker, gap, numeral, cs, fields, _, hbefore, hmarker, hgap, hq, hcs, hwords, hwidth,
      htargets⟩ := hline
    obtain ⟨c, numeral, rfl⟩ := List.exists_cons_of_ne_nil hq.nonempty
    obtain ⟨rest, hsplit, hrest⟩ := splitMarker_trimStart hbefore hmarker hgap (hq.digits c List.mem_cons_self)
      (numeral ++ cs)
    obtain ⟨hnumeral, htail⟩ := span_numeral hq.digits hcs
    rw [List.append_assoc]
    refine (parse_eq_ok_of_parts hsplit ?_ ?_).2 ⟨hq, hcs, ?_, ?_, rfl, rfl⟩
    · rw [hrest]
      exact hnumeral
    · rw [hrest]
      exact htail
    · rwa [hwords.tokens_eq]
    · rwa [hwords.tokens_eq]

theorem parseLines_eq_ok {texts : List String} :
    parseLines width number texts = .ok lines ↔ AreStateLines width (texts.map String.toList) lines := by
  induction texts generalizing number lines with
  | nil =>
      refine ⟨?_, ?_⟩
      · intro hok
        cases hok
        exact .nil
      · intro hlines
        cases hlines
        rfl
  | cons text texts ih =>
      rw [parseLines, List.map_cons]
      split
      · next hblank =>
        have hgap : Gap text.toList := List.all_eq_true.1 hblank
        rw [ih]
        refine ⟨.blank hgap, ?_⟩
        intro hlines
        cases hlines with
        | blank _ hlines => exact hlines
        | line hline => exact absurd hgap hline.not_gap
      · next hblank =>
        simp only [bind_eq_ok, StateLine.parse_eq_ok, ih]
        refine ⟨?_, ?_⟩
        · rintro ⟨line, hline, lines, hlines, heq⟩
          cases heq
          exact .line hline hlines
        · intro hlines
          cases hlines with
          | blank hgap => exact absurd (List.all_eq_true.2 hgap) hblank
          | line hline hlines => exact ⟨_, hline, _, hlines, rfl⟩

end StateLines

section Headers

theorem kindOfName?_eq_some {name : String} {kind : Kind} :
    kindOfName? name = some kind ↔ name = kind.name := by
  rw [kindOfName?]
  split
  · next hdfa =>
    subst hdfa
    cases kind <;> decide
  split
  · next hnfa =>
    subst hnfa
    cases kind <;> decide
  · next hdfa hnfa => cases kind <;> simp [hdfa, hnfa]

theorem firstRepeat?_eq_none {seen symbols : List Symbol} :
    firstRepeat? seen symbols = none ↔ (∀ s ∈ symbols, s ∉ seen) ∧ symbols.Nodup := by
  induction symbols generalizing seen with
  | nil => simp [firstRepeat?]
  | cons s symbols ih =>
      rw [firstRepeat?, List.forall_mem_cons, List.nodup_cons]
      split
      · next hseen => simp [hseen]
      · next hseen =>
        rw [ih]
        simp only [List.mem_cons, not_or, forall_and]
        refine ⟨?_, ?_⟩
        · rintro ⟨⟨hne, hrest⟩, hnodup⟩
          exact ⟨⟨hseen, hrest⟩, fun hmem => hne s hmem rfl, hnodup⟩
        · rintro ⟨⟨_, hrest⟩, hnot, hnodup⟩
          exact ⟨⟨fun t ht heq => hnot (heq ▸ ht), hrest⟩, hnodup⟩

theorem map_ofList_eq_iff {words : List (List Char)} {names : List String} :
    words.map String.ofList = names ↔ words = names.map String.toList := by
  refine ⟨?_, ?_⟩
  · rintro rfl
    simp
  · rintro rfl
    simp

theorem Header.parse_eq_ok {text : String} : Header.parse text = .ok header ↔ IsHeader text.toList header := by
  rw [Header.parse]
  refine ⟨?_, ?_⟩
  · intro hok
    split at hok
    · cases hok
    next name symbols hnames =>
    split at hok
    · cases hok
    next kind hkind =>
    split at hok
    · cases hok
    next hrepeat =>
    cases hok
    obtain rfl := kindOfName?_eq_some.1 hkind
    exact ⟨tokens_eq_iff.1 (map_ofList_eq_iff.1 hnames), (firstRepeat?_eq_none.1 hrepeat).2⟩
  · intro hheader
    have hnames : (tokens text.toList).map String.ofList = header.kind.name :: header.symbols :=
      map_ofList_eq_iff.2 (tokens_eq_iff.2 hheader.words)
    have hrepeat : firstRepeat? [] header.symbols = none :=
      firstRepeat?_eq_none.2 ⟨fun _ _ => List.not_mem_nil, hheader.distinct⟩
    rw [hnames]
    dsimp only
    rw [kindOfName?_eq_some.2 rfl]
    dsimp only
    rw [hrepeat]

end Headers

section Files

/-- A document is parsed when the stream was read to its end and its lines are those of the document. -/
theorem Document.parse_eq_ok {stream : LineStream} {d : Document} : Document.parse stream = .ok d ↔
    stream.stop = none ∧ AreLines (stream.lines.map String.toList) d := by
  obtain ⟨texts, stop⟩ := stream
  cases texts with
  | nil =>
      refine iff_of_false ?_ fun h => nomatch h.2
      cases stop <;> exact fun h => nomatch h
  | cons first texts =>
      simp only [Document.parse, bind_eq_ok, Header.parse_eq_ok, parseLines_eq_ok]
      cases stop with
      | some fault =>
          refine iff_of_false ?_ (fun h => nomatch h.1)
          rintro ⟨header, _, lines, _, heq⟩
          cases heq
      | none =>
          refine ⟨?_, ?_⟩
          · rintro ⟨header, hheader, lines, hlines, heq⟩
            cases heq
            exact ⟨rfl, .mk hheader hlines⟩
          · rintro ⟨_, ⟨hheader, hlines⟩⟩
            exact ⟨d.header, hheader, d.lines, hlines, rfl⟩

/-- A property that blanks at the end do not affect holds of a line with its carriage return or without it. -/
theorem dropReturn_iff {P : List Char → Prop} (h : ∀ cs c, isBlank c = true → (P (cs ++ [c]) ↔ P cs))
    (cs : List Char) : P (dropReturn cs) ↔ P cs := by
  rcases List.eq_nil_or_concat cs with rfl | ⟨cs, c, rfl⟩
  · exact Iff.rfl
  rw [List.concat_eq_append, dropReturn_concat]
  split
  · next hreturn =>
    subst hreturn
    exact (h cs '\r' rfl).symm
  · exact Iff.rfl

/-- Neither the carriage returns nor an empty piece behind the last line feed matter to the lines of states. -/
theorem areStateLines_linesOfPieces {pieces : List (List Char)} :
    AreStateLines width (linesOfPieces pieces) lines ↔ AreStateLines width pieces lines := by
  induction pieces generalizing lines with
  | nil => exact Iff.rfl
  | cons piece pieces ih =>
      cases pieces with
      | nil =>
          cases piece with
          | nil =>
              refine ⟨.blank gap_nil, ?_⟩
              intro h
              cases h with
              | blank _ h => exact h
              | line hline => exact absurd gap_nil hline.not_gap
          | cons c cs => exact Iff.rfl
      | cons next pieces =>
          have hgap : Gap (dropReturn piece) ↔ Gap piece := dropReturn_iff (fun _ _ => gap_concat_blank) piece
          have hline (line) : IsStateLine width (dropReturn piece) line ↔ IsStateLine width piece line :=
            dropReturn_iff (P := (IsStateLine width · line)) (fun _ _ => isStateLine_concat_blank) piece
          rw [linesOfPieces_cons_cons, areStateLines_cons, areStateLines_cons]
          simp only [hgap, hline, ih]

/-- There is a first line unless the text is empty, and an empty line is no header. -/
theorem areLines_linesOfPieces {pieces : List (List Char)} {d : Document} :
    AreLines (linesOfPieces pieces) d ↔ AreLines pieces d := by
  cases pieces with
  | nil => exact Iff.rfl
  | cons piece pieces =>
      cases pieces with
      | nil =>
          cases piece with
          | nil => exact iff_of_false (fun h => nomatch h) fun h => not_isHeader_nil (areLines_cons.1 h).1
          | cons c cs => exact Iff.rfl
      | cons next pieces =>
          have hheader : IsHeader (dropReturn piece) d.header ↔ IsHeader piece d.header :=
            dropReturn_iff (P := (IsHeader · d.header)) (fun _ _ => isHeader_concat_blank) piece
          rw [linesOfPieces_cons_cons, areLines_cons, areLines_cons, hheader, areStateLines_linesOfPieces]

/-- The texts with a document are those of the grammar. -/
theorem parse_ofString_eq_ok {s : String} {d : Document} :
    Document.parse (.ofSource (.ofString s)) = .ok d ↔ IsFile s.toList d := by
  have hlines : ((linesOfPieces (s.toList.splitOn '\n')).map String.ofList).map String.toList =
      linesOfPieces (s.toList.splitOn '\n') := (map_ofList_eq_iff.1 rfl).symm
  rw [Document.parse_eq_ok, ofSource_ofString, hlines, areLines_linesOfPieces]
  exact and_iff_right rfl

end Files

end FiniteAutomata.Format
