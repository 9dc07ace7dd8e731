import FiniteAutomata.Proofs.Parsing

/-! What is wrong with a line. The faults of a header, of a state line and of a field are stated by the grammar
and not by how lines are read; among several faults of one line the leftmost part counts, and what a line looks
like counts before its numbers. Each parser fails exactly on the texts with a fault, and with that fault. -/

namespace FiniteAutomata.Format

open Text

variable {width number : Nat} {cs digits field text rest : List Char} {fields : List (List Char)} {i f : Bool}
  {e : Error}

section Definitions

/-- One decimal digit or more. -/
def IsDigits (cs : List Char) : Prop := cs ≠ [] ∧ ∀ c ∈ cs, c.isDigit = true

/-- Digits for a number above those that a state can have. -/
structure IsTooLarge (cs : List Char) : Prop where
  digits : IsDigits cs
  large : StateId.largest < Nat.ofDigitChars 10 cs 0

/-- The fault of a field: it does not list digits, or a number in the list is too large and those before it are
not. -/
inductive FieldFault (number : Nat) (field : List Char) : Error → Prop where
  | invalid :
    field ≠ ['-'] →
    (∀ numerals, numerals ≠ [] → (∀ digits ∈ numerals, IsDigits digits) → ['|'].intercalate numerals ≠ field) →
    FieldFault number field (.invalidField number (String.ofList field))
  | tooLarge {before after : List (List Char)} {digits : List Char} :
    ['|'].intercalate (before ++ digits :: after) = field → (∀ ds ∈ before ++ digits :: after, IsDigits ds) →
    (∀ ds ∈ before, ∃ q, IsNumeral ds q) → IsTooLarge digits →
    FieldFault number field (.invalidIndex number (String.ofList digits))

/-- A text looks like a line about a state: a marker, which may be absent, then the digits and the words behind
them. Neither the number nor the fields need to be right. -/
inductive HasParts : List Char → List Char → List (List Char) → Prop where
  | mk {before marker gap digits rest : List Char} {fields : List (List Char)} {i f : Bool} :
    Gap before → IsMarker marker i f → Gap gap → IsDigits digits → EndsWord rest → HasWords rest fields →
    HasParts (before ++ marker ++ gap ++ digits ++ rest) digits fields

/-- The fault of a line about a state, which is the line `number` and should have `width` fields. -/
inductive StateLineFault (width number : Nat) (text : List Char) : Error → Prop where
  | shape : (∀ digits fields, ¬ HasParts text digits fields) →
    StateLineFault width number text (.invalidStateLine number)
  | state {digits : List Char} {fields : List (List Char)} : HasParts text digits fields → IsTooLarge digits →
    StateLineFault width number text (.invalidIndex number (String.ofList digits))
  | count {digits : List Char} {fields : List (List Char)} : HasParts text digits fields →
    (∃ q, IsNumeral digits q) → fields.length ≠ width →
    StateLineFault width number text (.fieldCount number width fields.length)
  | field {digits field : List Char} {before after : List (List Char)} {e : Error} :
    HasParts text digits (before ++ field :: after) → (∃ q, IsNumeral digits q) →
    (before ++ field :: after).length = width → (∀ f ∈ before, ∃ targets, IsField f targets) →
    FieldFault number field e → StateLineFault width number text e

/-- The fault of a header: no word, a first word that names no kind, or a symbol that has occurred before. -/
inductive HeaderFault (text : List Char) : Error → Prop where
  | blank : Gap text → HeaderFault text .emptyFile
  | kind {name : List Char} {words : List (List Char)} : HasWords text (name :: words) →
    (∀ kind : Kind, name ≠ kind.name.toList) → HeaderFault text (.unknownKind (String.ofList name))
  | repeated {kind : Kind} {before after : List Symbol} {s : Symbol} :
    HasWords text (kind.name.toList :: (before ++ s :: after).map (·.toList)) → before.Nodup → s ∈ before →
    HeaderFault text (.duplicateSymbol s)

end Definitions

section Numbers

theorem ok_ne_error {ε α : Type} {x : α} {e : ε} : (Except.ok x : Except ε α) ≠ .error e := by
  rintro ⟨⟩

/-- The first element on which a function fails ends the traversal of a list. -/
theorem mapM_eq_error {ε α β : Type} {g : α → Except ε β} {l : List α} {e : ε} : l.mapM g = .error e ↔
    ∃ before a after, l = before ++ a :: after ∧ (∀ b ∈ before, ∃ c, g b = .ok c) ∧ g a = .error e := by
  induction l with
  | nil =>
      refine iff_of_false ok_ne_error ?_
      rintro ⟨before, a, after, hl, _⟩
      exact List.append_ne_nil_of_right_ne_nil _ (List.cons_ne_nil a after) hl.symm
  | cons b l ih =>
      rw [List.mapM_cons, bind_eq_error]
      refine ⟨?_, ?_⟩
      · rintro (hb | ⟨c, hc, htail⟩)
        · exact ⟨[], b, l, rfl, fun _ h => absurd h List.not_mem_nil, hb⟩
        · rcases bind_eq_error.1 htail with hl | ⟨_, _, hpure⟩
          · obtain ⟨before, a, after, rfl, hbefore, ha⟩ := ih.1 hl
            exact ⟨b :: before, a, after, rfl, List.forall_mem_cons.2 ⟨⟨c, hc⟩, hbefore⟩, ha⟩
          · cases hpure
      · rintro ⟨before, a, after, hl, hbefore, ha⟩
        cases before with
        | nil =>
            obtain ⟨rfl, rfl⟩ := List.cons.inj hl
            exact .inl ha
        | cons b' before =>
            obtain ⟨rfl, rfl⟩ := List.cons.inj hl
            obtain ⟨⟨c, hc⟩, hbefore⟩ := List.forall_mem_cons.1 hbefore
            exact .inr ⟨c, hc, bind_eq_error.2 (.inl (ih.2 ⟨before, a, after, rfl, hbefore, ha⟩))⟩

theorem IsTooLarge.not_isNumeral (h : IsTooLarge digits) : ¬ ∃ q, IsNumeral digits q := by
  rintro ⟨q, hq⟩
  exact Nat.not_lt.2 hq.fits (hq.value ▸ h.large)

theorem IsDigits.isTooLarge_or_isNumeral (h : IsDigits digits) : IsTooLarge digits ∨ ∃ q, IsNumeral digits q := by
  rcases Nat.lt_or_ge StateId.largest (Nat.ofDigitChars 10 digits 0) with hlarge | hfits
  · exact .inl ⟨h, hlarge⟩
  · exact .inr ⟨_, h.1, h.2, rfl, hfits⟩

theorem exists_parseIndex_eq_ok : (∃ q, parseIndex number digits = .ok q) ↔ ∃ q, IsNumeral digits q :=
  exists_congr fun _ => parseIndex_eq_ok

/-- Digits are refused as a whole, and only because their number is too large. -/
theorem IsDigits.parseIndex_eq_error (h : IsDigits digits) : parseIndex number digits = .error e ↔
    IsTooLarge digits ∧ e = .invalidIndex number (String.ofList digits) := by
  rcases h.isTooLarge_or_isNumeral with hlarge | ⟨q, hq⟩
  · have hnone : Decimal.parse? digits = none :=
      Option.eq_none_iff_forall_ne_some.2 fun q hq => hlarge.not_isNumeral ⟨q, parse?_eq_some_iff.1 hq⟩
    rw [parseIndex, hnone, and_iff_right hlarge]
    exact ⟨fun h => (Except.error.inj h).symm, fun h => congrArg Except.error h.symm⟩
  · rw [parseIndex_eq_ok.2 hq]
    exact iff_of_false ok_ne_error fun h => h.1.not_isNumeral ⟨q, hq⟩

end Numbers

section Fields

theorem isDigits_iff : IsDigits cs ↔ Decimal.isNumeral cs = true := isNumeral_iff.symm

/-- Digits with bars between them can be listed in one way only, and are no hyphen. -/
theorem splitOn_intercalate_digits {numerals : List (List Char)} (hne : numerals ≠ [])
    (h : ∀ digits ∈ numerals, IsDigits digits) :
    (['|'].intercalate numerals).splitOn '|' = numerals ∧ ['|'].intercalate numerals ≠ ['-'] := by
  have hsplit := splitOn_intercalate_numerals hne fun digits hmem => isDigits_iff.1 (h digits hmem)
  refine ⟨hsplit, fun heq => ?_⟩
  rw [heq] at hsplit
  rw [← hsplit] at h
  exact absurd ((h ['-'] List.mem_cons_self).2 '-' List.mem_cons_self) (by decide)

theorem exists_parseField_eq_ok : (∃ targets, parseField number field = .ok targets) ↔
    ∃ targets, IsField field targets :=
  exists_congr fun _ => parseField_eq_ok

theorem parseField_eq_error : parseField number field = .error e ↔ FieldFault number field e := by
  by_cases hhyphen : field = ['-']
  · rw [parseField, if_pos hhyphen]
    refine iff_of_false ok_ne_error ?_
    rintro (⟨hne, _⟩ | ⟨rfl, hdigits, _, _⟩)
    · exact hne hhyphen
    · exact (splitOn_intercalate_digits (by simp) hdigits).2 hhyphen
  have hpieces : ['|'].intercalate (field.splitOn '|') = field := List.intercalate_splitOn '|'
  rw [parseField, if_neg hhyphen]
  dsimp only
  split
  · next hall =>
    have hdigits : ∀ digits ∈ field.splitOn '|', IsDigits digits :=
      fun digits hmem => isDigits_iff.2 (List.all_eq_true.1 hall digits hmem)
    rw [mapM_eq_error]
    refine ⟨?_, ?_⟩
    · rintro ⟨before, digits, after, hsplit, hbefore, herror⟩
      rw [hsplit] at hdigits hpieces
      obtain ⟨hlarge, rfl⟩ := (hdigits digits (by simp)).parseIndex_eq_error.1 herror
      exact .tooLarge hpieces hdigits (fun ds hmem => exists_parseIndex_eq_ok.1 (hbefore ds hmem)) hlarge
    · rintro (⟨_, hnone⟩ | ⟨rfl, hlisted, hbefore, hlarge⟩)
      · exact absurd hpieces (hnone _ (List.splitOn_ne_nil _ _) hdigits)
      · refine ⟨_, _, _, (splitOn_intercalate_digits (by simp) hlisted).1, fun ds hmem => ?_, ?_⟩
        · exact exists_parseIndex_eq_ok.2 (hbefore ds hmem)
        · exact hlarge.digits.parseIndex_eq_error.2 ⟨hlarge, rfl⟩
  · next hall =>
    have hnone : ∀ numerals, numerals ≠ [] → (∀ digits ∈ numerals, IsDigits digits) →
        ['|'].intercalate numerals ≠ field := by
      rintro numerals hne hdigits rfl
      rw [(splitOn_intercalate_digits hne hdigits).1] at hall
      exact hall (List.all_eq_true.2 fun digits hmem => isDigits_iff.1 (hdigits digits hmem))
    refine ⟨?_, ?_⟩
    · rintro ⟨⟩
      exact .invalid hhyphen hnone
    · rintro (_ | ⟨heq, hdigits, _, _⟩)
      · rfl
      · exact absurd heq (hnone _ (by simp) hdigits)

end Fields

section StateLines

/-- A text is taken apart in one way only. -/
theorem hasParts_iff (hmarker : splitMarker (trimStart text) = ((i, f), rest)) : HasParts text digits fields ↔
    (trimStart rest).takeWhile Char.isDigit = digits ∧ IsDigits digits ∧
      EndsWord ((trimStart rest).dropWhile Char.isDigit) ∧
      tokens ((trimStart rest).dropWhile Char.isDigit) = fields := by
  refine ⟨?_, ?_⟩
  · rintro @⟨before, marker, gap, digits, tail, fields, i', f', hbefore, hm, hgap, hdigits, hends, hwords⟩
    obtain ⟨c, digits, rfl⟩ := List.exists_cons_of_ne_nil hdigits.1
    obtain ⟨rest', hsplit, hrest⟩ :=
      splitMarker_trimStart hbefore hm hgap (hdigits.2 c List.mem_cons_self) (digits ++ tail)
    obtain ⟨hnumeral, htail⟩ := span_numeral hdigits.2 hends
    rw [List.append_assoc, List.cons_append, hsplit] at hmarker
    cases hmarker
    rw [hrest, ← List.cons_append, hnumeral, htail]
    exact ⟨rfl, hdigits, hends, hwords.tokens_eq⟩
  · rintro ⟨rfl, hdigits, hends, rfl⟩
    obtain ⟨before, hbefore, htext⟩ := exists_gap_append_trimStart text
    obtain ⟨marker, i', f', rest', hsplit, hm, hmarked⟩ := exists_splitMarker_eq (trimStart text)
    obtain ⟨gap, hgap, hrest⟩ := exists_gap_append_trimStart rest
    rw [hmarker] at hsplit
    cases hsplit
    have hparts := HasParts.mk hbefore hm hgap hdigits hends (tokens_eq_iff.1 rfl)
    -- Put together again, the parts are the text.
    rwa [List.append_assoc, List.takeWhile_append_dropWhile, List.append_assoc, ← hrest, List.append_assoc,
      ← hmarked, ← htext] at hparts

theorem guard_eq_error {ε α β : Type} {p : Prop} [Decidable p] {e e' : ε} {g : α → Except ε β}
    {x : Except ε β} : (if p then throw e >>= g else x) = .error e' ↔ p ∧ e = e' ∨ ¬ p ∧ x = .error e' := by
  by_cases hp : p
  · simp [hp, throw, throwThe, MonadExceptOf.throw, bind, Except.bind]
  · simp [hp]

/-- What the parser checks of the parts into which it takes a line, one after the other. -/
theorem StateLine.parse_eq_error_of_parts (hmarker : splitMarker (trimStart text) = ((i, f), rest))
    (hdigits : (trimStart rest).takeWhile Char.isDigit = digits)
    (htail : (trimStart rest).dropWhile Char.isDigit = cs) :
    StateLine.parse width number text = .error e ↔
      ¬ (digits ≠ [] ∧ EndsWord cs) ∧ e = .invalidStateLine number ∨
      (digits ≠ [] ∧ EndsWord cs) ∧ (parseIndex number digits = .error e ∨
        (∃ q, parseIndex number digits = .ok q) ∧
          ((tokens cs).length ≠ width ∧ e = .fieldCount number width (tokens cs).length ∨
            (tokens cs).length = width ∧ (tokens cs).mapM (parseField number) = .error e)) := by
  have hends : ((digits.isEmpty || cs.head?.any (!isBlank ·)) = true) ↔ ¬ (digits ≠ [] ∧ EndsWord cs) := by
    cases cs <;> simp [EndsWord, or_iff_not_imp_left]
  have hpure : ∀ {targets : List (List StateId)} {line : List (List StateId) → StateLine},
      (pure (line targets) : Except Error StateLine) ≠ .error e := ok_ne_error
  rw [StateLine.parse]
  dsimp only
  rw [hmarker]
  dsimp only
  rw [hdigits, htail, guard_eq_error, hends]
  simp only [not_not, bind_eq_error, guard_eq_error, hpure, and_false, exists_false, or_false, ne_eq,
    @eq_comm Error _ e, exists_and_right]

theorem StateLine.parse_eq_error :
    StateLine.parse width number text = .error e ↔ StateLineFault width number text e := by
  obtain ⟨marker, i, f, rest, hmarker, -, -⟩ := exists_splitMarker_eq (trimStart text)
  have hall : ∀ c ∈ (trimStart rest).takeWhile Char.isDigit, c.isDigit = true :=
    fun _ hc => List.mem_takeWhile_imp hc
  have hparts : ∀ digits fields, HasParts text digits fields ↔ _ := fun _ _ => hasParts_iff hmarker
  rw [StateLine.parse_eq_error_of_parts hmarker rfl rfl]
  generalize (trimStart rest).takeWhile Char.isDigit = numeral at hall hparts
  generalize (trimStart rest).dropWhile Char.isDigit = tail at hparts
  refine ⟨?_, ?_⟩
  · rintro (⟨hshape, rfl⟩ | ⟨⟨hne, hends⟩, hrest⟩)
    · refine .shape fun digits fields h => hshape ?_
      obtain ⟨rfl, hdigits, hends, _⟩ := (hparts digits fields).1 h
      exact ⟨hdigits.1, hends⟩
    have hdigits : IsDigits numeral := ⟨hne, hall⟩
    have htext := (hparts numeral (tokens tail)).2 ⟨rfl, hdigits, hends, rfl⟩
    rcases hrest with hstate | ⟨hstate, ⟨hcount, rfl⟩ | ⟨hcount, hfields⟩⟩
    · obtain ⟨hlarge, rfl⟩ := hdigits.parseIndex_eq_error.1 hstate
      exact .state htext hlarge
    · exact .count htext (exists_parseIndex_eq_ok.1 hstate) hcount
    · obtain ⟨before, field, after, hsplit, hbefore, hfield⟩ := mapM_eq_error.1 hfields
      rw [hsplit] at htext hcount
      exact .field htext (exists_parseIndex_eq_ok.1 hstate) hcount
        (fun f hmem => exists_parseField_eq_ok.1 (hbefore f hmem)) (parseField_eq_error.1 hfield)
  · rintro (hshape | ⟨htext, hlarge⟩ | ⟨htext, hstate, hcount⟩ | ⟨htext, hstate, hcount, hbefore, hfield⟩)
    · refine .inl ⟨fun ⟨hne, hends⟩ => ?_, rfl⟩
      exact hshape numeral (tokens tail) ((hparts _ _).2 ⟨rfl, ⟨hne, hall⟩, hends, rfl⟩)
    · obtain ⟨rfl, hdigits, hends, _⟩ := (hparts _ _).1 htext
      exact .inr ⟨⟨hdigits.1, hends⟩, .inl (hdigits.parseIndex_eq_error.2 ⟨hlarge, rfl⟩)⟩
    · obtain ⟨rfl, hdigits, hends, rfl⟩ := (hparts _ _).1 htext
      exact .inr ⟨⟨hdigits.1, hends⟩, .inr ⟨exists_parseIndex_eq_ok.2 hstate, .inl ⟨hcount, rfl⟩⟩⟩
    · obtain ⟨rfl, hdigits, hends, hfields⟩ := (hparts _ _).1 htext
      rw [← hfields] at hcount
      refine .inr ⟨⟨hdigits.1, hends⟩, .inr ⟨exists_parseIndex_eq_ok.2 hstate, .inr ⟨hcount, ?_⟩⟩⟩
      exact mapM_eq_error.2 ⟨_, _, _, hfields, fun f hmem => exists_parseField_eq_ok.2 (hbefore f hmem),
        parseField_eq_error.2 hfield⟩

end StateLines

section Headers

theorem firstRepeat?_eq_some {seen symbols : List Symbol} {s : Symbol} : firstRepeat? seen symbols = some s ↔
    ∃ before after, symbols = before ++ s :: after ∧ before.Nodup ∧ (∀ t ∈ before, t ∉ seen) ∧
      (s ∈ before ∨ s ∈ seen) := by
  induction symbols generalizing seen with
  | nil => simp [firstRepeat?]
  | cons t symbols ih =>
      rw [firstRepeat?]
      split
      · next hseen =>
        refine ⟨?_, ?_⟩
        · rintro ⟨⟩
          exact ⟨[], symbols, rfl, List.nodup_nil, fun _ h => absurd h List.not_mem_nil, .inr hseen⟩
        · rintro ⟨before, after, heq, _, hbefore, _⟩
          cases before with
          | nil => exact congrArg some (List.cons.inj heq).1
          | cons u before =>
              obtain ⟨rfl, _⟩ := List.cons.inj heq
              exact absurd hseen (hbefore t List.mem_cons_self)
      · next hseen =>
        rw [ih]
        refine ⟨?_, ?_⟩
        · rintro ⟨before, after, rfl, hnodup, hbefore, hs⟩
          refine ⟨t :: before, after, rfl, List.nodup_cons.2 ⟨fun h => ?_, hnodup⟩, ?_, ?_⟩
          · exact hbefore t h List.mem_cons_self
          · exact List.forall_mem_cons.2 ⟨hseen, fun u hu h => hbefore u hu (List.mem_cons_of_mem _ h)⟩
          · rcases hs with hs | hs
            · exact .inl (List.mem_cons_of_mem _ hs)
            · rcases List.mem_cons.1 hs with rfl | hs
              · exact .inl List.mem_cons_self
              · exact .inr hs
        · rintro ⟨before, after, heq, hnodup, hbefore, hs⟩
          cases before with
          | nil =>
              obtain ⟨rfl, _⟩ := List.cons.inj heq
              exact absurd (hs.resolve_left List.not_mem_nil) hseen
          | cons u before =>
              obtain ⟨rfl, rfl⟩ := List.cons.inj heq
              obtain ⟨hnot, hnodup⟩ := List.nodup_cons.1 hnodup
              obtain ⟨_, hbefore⟩ := List.forall_mem_cons.1 hbefore
              refine ⟨before, after, rfl, hnodup, fun v hv h => ?_, ?_⟩
              · rcases List.mem_cons.1 h with rfl | h
                · exact hnot hv
                · exact hbefore v hv h
              · rcases hs with hs | hs
                · rcases List.mem_cons.1 hs with rfl | hs
                  · exact .inr List.mem_cons_self
                  · exact .inl hs
                · exact .inr (List.mem_cons_of_mem _ hs)

theorem hasWords_nil : HasWords cs [] ↔ Gap cs := by
  refine ⟨?_, .none⟩
  intro h
  cases h with
  | none hgap => exact hgap

theorem kindOfName?_eq_none {name : String} : kindOfName? name = none ↔ ∀ kind : Kind, name ≠ kind.name := by
  rw [Option.eq_none_iff_forall_ne_some]
  exact forall_congr' fun kind => not_congr kindOfName?_eq_some

theorem Header.parse_eq_error {text : String} :
    Header.parse text = .error e ↔ HeaderFault text.toList e := by
  rw [Header.parse]
  refine ⟨?_, ?_⟩
  · intro herror
    split at herror
    · next hnames =>
      cases herror
      exact .blank (hasWords_nil.1 (tokens_eq_iff.1 (List.map_eq_nil_iff.1 hnames)))
    next name symbols hnames =>
    have hwords : HasWords text.toList (name.toList :: symbols.map (·.toList)) :=
      tokens_eq_iff.1 (map_ofList_eq_iff.1 hnames)
    split at herror
    · next hkind =>
      cases herror
      have hfault := HeaderFault.kind hwords fun kind heq => kindOfName?_eq_none.1 hkind kind (String.toList_inj.1 heq)
      rwa [String.ofList_toList] at hfault
    next kind hkind =>
    obtain rfl := kindOfName?_eq_some.1 hkind
    split at herror
    · next s hrepeat =>
      cases herror
      obtain ⟨before, after, rfl, hnodup, _, hs⟩ := firstRepeat?_eq_some.1 hrepeat
      exact .repeated hwords hnodup (hs.resolve_right List.not_mem_nil)
    · cases herror
  · rintro (hgap | ⟨hwords, hkind⟩ | ⟨hwords, hnodup, hs⟩)
    · rw [tokens_eq_iff.2 (.none hgap)]
      rfl
    · have hnone : ∀ kind : Kind, String.ofList _ ≠ kind.name :=
        fun kind heq => hkind kind (heq ▸ String.toList_ofList.symm)
      rw [hwords.tokens_eq, List.map_cons]
      dsimp only
      rw [kindOfName?_eq_none.2 hnone]
    · rw [hwords.tokens_eq, ← List.map_cons (f := String.toList), map_ofList_eq_iff.2 rfl]
      dsimp only
      rw [kindOfName?_eq_some.2 rfl]
      dsimp only
      rw [firstRepeat?_eq_some.2 ⟨_, _, rfl, hnodup, fun _ _ => List.not_mem_nil, .inl hs⟩]

end Headers

end FiniteAutomata.Format
