import FiniteAutomata.Proofs.LineFaults
import FiniteAutomata.Proofs.PhysicalLines
import FiniteAutomata.Proofs.Reading

/-! The first fault of a file. The faults of a file are stated line by line: the source may fail before a line is
read to its end, the bytes of the line may be no text, and the text may be wrong. Reading a file with a fault ends
with the fault of the first line that has one, and no later byte matters. A file without a fault has been read to
its end, and only then is its automaton validated. -/

namespace FiniteAutomata.Format

open Text

variable {bad : Nat → List Char → Error → Prop} {fault : Nat → Error → Prop}
  {bytes line rest before after : List UInt8} {failure : Option (Nat × String)} {number width offset k n : Nat}
  {reason : String} {e : Error}

/-- The fault of a line, where `bad` tells what is wrong with texts of lines. A failure of the source counts first,
and what is no text is not looked at. -/
inductive LineFault (bad : Nat → List Char → Error → Prop) (bytes : List UInt8) (failure : Option (Nat × String))
    (number : Nat) : Error → Prop where
  | interrupted {before line after : List UInt8} {reason : String} : IsLine bytes number before line after →
    Interrupts failure before line reason → LineFault bad bytes failure number (.stream (.failed reason))
  | notUtf8 {before line after : List UInt8} : IsLine bytes number before line after →
    (∀ reason, ¬ Interrupts failure before line reason) → (∀ cs, encode cs ≠ line) →
    LineFault bad bytes failure number (.stream .notUtf8)
  | text {text : List Char} {e : Error} : IsRead bytes failure number text → bad number text e →
    LineFault bad bytes failure number e

/-- What is wrong with a line of a file. The first line is the header, which says how many fields there are in the
other lines, and the blank ones of these are all right. -/
inductive TextFault (bytes : List UInt8) (failure : Option (Nat × String)) : Nat → List Char → Error → Prop where
  | header {text : List Char} {e : Error} : HeaderFault text e → TextFault bytes failure 1 text e
  | state {first text : List Char} {header : Header} {number : Nat} {e : Error} : IsRead bytes failure 1 first →
    IsHeader first header → ¬ Gap text → StateLineFault header.symbols.length (number + 2) text e →
    TextFault bytes failure (number + 2) text e

/-- The faults of a file, by the lines that have them. -/
def FileFault (bytes : List UInt8) (failure : Option (Nat × String)) : Nat → Error → Prop :=
  LineFault (TextFault bytes failure) bytes failure

/-- The line has a fault, and no line before it has one. -/
structure IsFirst (fault : Nat → Error → Prop) (number : Nat) (e : Error) : Prop where
  holds : fault number e
  earlier : ∀ k < number, ∀ e', ¬ fault k e'

section FirstLine

theorem LineFault.exists_isLine (h : LineFault bad bytes failure number e) :
    ∃ before line after, IsLine bytes number before line after := by
  cases h with
  | interrupted hline => exact ⟨_, _, _, hline⟩
  | notUtf8 hline => exact ⟨_, _, _, hline⟩
  | text hread =>
      obtain ⟨hline, _⟩ := hread
      exact ⟨_, _, _, hline⟩

theorem not_lineFault_zero : ¬ LineFault bad bytes failure 0 e := by
  intro h
  obtain ⟨_, _, _, hline⟩ := h.exists_isLine
  exact Nat.lt_irrefl 0 hline.number_pos

theorem LineFault.mono {bad' : Nat → List Char → Error → Prop}
    (h : ∀ k text e, 0 < k → bad k text e → bad' k text e) (hfault : LineFault bad bytes failure k e) :
    LineFault bad' bytes failure k e := by
  rcases hfault with ⟨hcut, h'⟩ | ⟨hcut, hnot, hbytes⟩ | ⟨⟨hcut, hread⟩, hbad⟩
  · exact .interrupted hcut h'
  · exact .notUtf8 hcut hnot hbytes
  · exact .text ⟨hcut, hread⟩ (h k _ e hcut.number_pos hbad)

theorem LineFault.congr {bad' : Nat → List Char → Error → Prop}
    (h : ∀ k text e, 0 < k → (bad k text e ↔ bad' k text e)) :
    LineFault bad bytes failure = LineFault bad' bytes failure := by
  funext k e
  exact propext ⟨.mono fun k text e hk => (h k text e hk).1, .mono fun k text e hk => (h k text e hk).2⟩

theorem lineFault_one_of_interrupts (hline : 10 ∉ line) (hafter : ∀ b ∈ after.head?, b = 10)
    (h : Interrupts failure [] line reason) :
    LineFault bad (line ++ after) failure 1 e ↔ e = .stream (.failed reason) := by
  refine ⟨?_, ?_⟩
  · rintro (⟨hcut, h'⟩ | ⟨hcut, hnot, _⟩ | ⟨hread, _⟩)
    · obtain ⟨rfl, rfl, rfl⟩ := (isLine_one_iff hline hafter).1 hcut
      obtain ⟨n, rfl, _⟩ := h
      obtain ⟨_, heq, _⟩ := h'
      cases heq
      rfl
    · obtain ⟨rfl, rfl, rfl⟩ := (isLine_one_iff hline hafter).1 hcut
      exact absurd h (hnot reason)
    · exact absurd h (((isRead_one_iff hline hafter).1 hread).1 reason)
  · rintro rfl
    exact .interrupted (isLine_one hline hafter) h

theorem lineFault_one_of_notUtf8 (hline : 10 ∉ line) (hafter : ∀ b ∈ after.head?, b = 10)
    (h : ∀ reason, ¬ Interrupts failure [] line reason) (hbytes : ∀ cs, encode cs ≠ line) :
    LineFault bad (line ++ after) failure 1 e ↔ e = .stream .notUtf8 := by
  refine ⟨?_, ?_⟩
  · rintro (⟨hcut, h'⟩ | _ | ⟨hread, _⟩)
    · obtain ⟨rfl, rfl, rfl⟩ := (isLine_one_iff hline hafter).1 hcut
      exact absurd h' (h _)
    · rfl
    · obtain ⟨_, cs, hcs, _⟩ := (isRead_one_iff hline hafter).1 hread
      exact absurd hcs (hbytes cs)
  · rintro rfl
    exact .notUtf8 (isLine_one hline hafter) h hbytes

theorem lineFault_one_of_isRead {text : List Char} (hline : 10 ∉ line) (hafter : ∀ b ∈ after.head?, b = 10)
    (h : IsRead (line ++ after) failure 1 text) : LineFault bad (line ++ after) failure 1 e ↔ bad 1 text e := by
  obtain ⟨hnot, cs, hcs, htext⟩ := (isRead_one_iff hline hafter).1 h
  refine ⟨?_, fun hbad => .text h hbad⟩
  rintro (⟨hcut, h'⟩ | ⟨hcut, _, hbytes⟩ | ⟨hread, hbad⟩)
  · obtain ⟨rfl, rfl, rfl⟩ := (isLine_one_iff hline hafter).1 hcut
    exact absurd h' (hnot _)
  · obtain ⟨rfl, rfl, rfl⟩ := (isLine_one_iff hline hafter).1 hcut
    exact absurd hcs (hbytes cs)
  · obtain ⟨_, ds, hds, rfl⟩ := (isRead_one_iff hline hafter).1 hread
    rwa [htext, encode_injective (hcs.trans hds.symm)]

theorem lineFault_succ_iff (hline : 10 ∉ line) (hn : 0 < number) :
    LineFault bad (line ++ 10 :: rest) failure (number + 1) e ↔
      LineFault (fun k => bad (k + 1)) rest (failureBehind (line.length + 1) failure) number e := by
  refine ⟨?_, ?_⟩
  · rintro (⟨hcut, h⟩ | ⟨hcut, h, hbytes⟩ | ⟨hread, hbad⟩)
    · obtain ⟨before, rfl, hrest⟩ := (isLine_succ_iff hline hn).1 hcut
      exact .interrupted hrest (interrupts_behind.2 h)
    · obtain ⟨before, rfl, hrest⟩ := (isLine_succ_iff hline hn).1 hcut
      exact .notUtf8 hrest (fun reason h' => h reason (interrupts_behind.1 h')) hbytes
    · exact .text ((isRead_succ_iff hline hn).1 hread) hbad
  · rintro (⟨hcut, h⟩ | ⟨hcut, h, hbytes⟩ | ⟨hread, hbad⟩)
    · exact .interrupted ((isLine_succ_iff hline hn).2 ⟨_, rfl, hcut⟩) (interrupts_behind.1 h)
    · exact .notUtf8 ((isLine_succ_iff hline hn).2 ⟨_, rfl, hcut⟩)
        (fun reason h' => h reason (interrupts_behind.2 h')) hbytes
    · exact .text ((isRead_succ_iff hline hn).2 hread) hbad

/-- Bytes without a line feed have a fault on their one line, or their stream is this line, unless it is empty. -/
theorem stream_last (hline : 10 ∉ line) (failure : Option (Nat × String)) :
    (∃ fault, LineStream.ofSource (.withFailure line failure) = { lines := [], stop := some fault } ∧
      ∀ bad e, LineFault bad line failure 1 e ↔ e = .stream fault) ∨
    ∃ text, LineStream.ofSource (.withFailure line failure) =
        { lines := if text = [] then [] else [String.ofList text] } ∧
      IsRead line failure 1 text ∧ ∀ bad e, LineFault bad line failure 1 e ↔ bad 1 text e := by
  have hafter : ∀ b ∈ ([] : List UInt8).head?, b = 10 := by simp
  have hnil := List.append_nil line
  by_cases hinterrupted : ∃ reason, Interrupts failure [] line reason
  · obtain ⟨reason, h⟩ := hinterrupted
    refine .inl ⟨.failed reason, hnil ▸ ofSource_interrupted hline [] h, fun bad e => ?_⟩
    exact hnil ▸ lineFault_one_of_interrupts hline hafter h
  have hnot := not_exists.1 hinterrupted
  rw [ofSource_last hline hnot]
  cases hdecoded : LineStream.decode? line with
  | none =>
      have hbytes := decode?_eq_none.1 hdecoded
      refine .inl ⟨.notUtf8, ofRest_notUtf8 hbytes, fun bad e => ?_⟩
      exact hnil ▸ lineFault_one_of_notUtf8 hline hafter hnot hbytes
  | some s =>
      have hbytes := decode?_eq_some.1 hdecoded
      have hread : IsRead (line ++ []) failure 1 s.toList := (isRead_one_iff hline hafter).2 ⟨hnot, _, hbytes, rfl⟩
      refine .inr ⟨s.toList, ?_, hnil ▸ hread, fun bad e => ?_⟩
      · rw [← hbytes, ofRest_encode]
      · exact hnil ▸ lineFault_one_of_isRead hline hafter hread

/-- Bytes with a line feed have a fault on their first line, or their stream has this line in front of that of
the rest. -/
theorem stream_ended (hline : 10 ∉ line) (rest : List UInt8) (failure : Option (Nat × String)) :
    (∃ fault, LineStream.ofSource (.withFailure (line ++ 10 :: rest) failure) = { lines := [], stop := some fault } ∧
      ∀ bad e, LineFault bad (line ++ 10 :: rest) failure 1 e ↔ e = .stream fault) ∨
    ∃ text, LineStream.ofSource (.withFailure (line ++ 10 :: rest) failure) =
        { lines := String.ofList text ::
            (LineStream.ofSource (.withFailure rest (failureBehind (line.length + 1) failure))).lines
          stop := (LineStream.ofSource (.withFailure rest (failureBehind (line.length + 1) failure))).stop } ∧
      IsRead (line ++ 10 :: rest) failure 1 text ∧
      ∀ bad e, LineFault bad (line ++ 10 :: rest) failure 1 e ↔ bad 1 text e := by
  have hafter : ∀ b ∈ (10 :: rest).head?, b = 10 := by simp
  by_cases hinterrupted : ∃ reason, Interrupts failure [] line reason
  · obtain ⟨reason, h⟩ := hinterrupted
    exact .inl ⟨.failed reason, ofSource_interrupted hline _ h, fun bad e =>
      lineFault_one_of_interrupts hline hafter h⟩
  have hnot := not_exists.1 hinterrupted
  rw [ofSource_ended hline hnot]
  cases hdecoded : LineStream.decode? (LineStream.dropReturn line) with
  | none =>
      exact .inl ⟨.notUtf8, rfl, fun bad e =>
        lineFault_one_of_notUtf8 hline hafter hnot (decode?_dropReturn_eq_none.1 hdecoded)⟩
  | some s =>
      obtain ⟨cs, hcs, rfl⟩ := decode?_dropReturn_eq_some.1 hdecoded
      have hread : IsRead (line ++ 10 :: rest) failure 1 (dropReturn cs) :=
        (isRead_one_iff hline hafter).2 ⟨hnot, cs, hcs, rfl⟩
      exact .inr ⟨_, rfl, hread, fun bad e => lineFault_one_of_isRead hline hafter hread⟩

end FirstLine

section Earliest

/-- The first fault is on the first line, or the first line has none and it is the first one behind it. -/
theorem exists_isFirst_iff (hzero : ∀ e, ¬ fault 0 e) : (∃ k, IsFirst fault k e) ↔
    fault 1 e ∨ (∀ e', ¬ fault 1 e') ∧ ∃ k, IsFirst (fun k => fault (k + 1)) k e := by
  refine ⟨?_, ?_⟩
  · rintro ⟨k, h⟩
    match k with
    | 0 => exact absurd h.holds (hzero e)
    | 1 => exact .inl h.holds
    | k + 2 =>
      refine .inr ⟨h.earlier 1 (by omega), k + 1, h.holds, fun j hj => h.earlier (j + 1) (by omega)⟩
  · rintro (h | ⟨_, k, h⟩)
    · refine ⟨1, h, fun k hk e' => ?_⟩
      obtain rfl : k = 0 := by omega
      exact hzero e'
    · refine ⟨k + 1, h.holds, fun j hj e' => ?_⟩
      cases j with
      | zero => exact hzero e'
      | succ j => exact h.earlier j (by omega) e'

theorem exists_isFirst_last (hline : 10 ∉ line) :
    (∃ k, IsFirst (LineFault bad line failure) k e) ↔ LineFault bad line failure 1 e := by
  refine ⟨?_, fun h => (exists_isFirst_iff fun _ => not_lineFault_zero).2 (.inl h)⟩
  rintro ⟨k, h⟩
  obtain ⟨_, _, _, hcut⟩ := h.holds.exists_isLine
  exact isLine_of_not_mem hline hcut ▸ h.holds

theorem exists_isFirst_ended (hline : 10 ∉ line) :
    (∃ k, IsFirst (LineFault bad (line ++ 10 :: rest) failure) k e) ↔
      LineFault bad (line ++ 10 :: rest) failure 1 e ∨
        (∀ e', ¬ LineFault bad (line ++ 10 :: rest) failure 1 e') ∧
          ∃ k, IsFirst (LineFault (fun k => bad (k + 1)) rest (failureBehind (line.length + 1) failure)) k e := by
  rw [exists_isFirst_iff fun _ => not_lineFault_zero]
  refine or_congr_right (and_congr_right fun hnone => exists_congr fun k => ?_)
  have hfault : (fun k => LineFault bad (line ++ 10 :: rest) failure (k + 1)) =
      LineFault (fun k => bad (k + 1)) rest (failureBehind (line.length + 1) failure) := by
    funext k e
    cases k with
    | zero => exact propext (iff_of_false (hnone e) not_lineFault_zero)
    | succ k => exact propext (lineFault_succ_iff hline (Nat.succ_pos k))
  rw [hfault]

end Earliest

section Lines

/-- The lines of states in a stream, which is read to its end. -/
def parseBody (width number : Nat) (stream : LineStream) : Except Error (List StateLine) := do
  let lines ← parseLines width number stream.lines
  match stream.stop with
  | some fault => throw (.stream fault)
  | none => return lines

/-- What is wrong with a line of a state, `offset` lines behind the beginning of the file. -/
def BodyFault (width offset k : Nat) (text : List Char) (e : Error) : Prop :=
  ¬ Gap text ∧ StateLineFault width (offset + k) text e

theorem parseBody_stop {fault : StreamFault} {e : Error} :
    parseBody width number { lines := [], stop := some fault } = .error e ↔ e = .stream fault :=
  ⟨fun h => (Except.error.inj h).symm, fun h => congrArg Except.error h.symm⟩

/-- A stream of state lines fails on its first line, or behind it when this line is right. -/
theorem parseBody_cons {text : List Char} {texts : List String} {stop : Option StreamFault} :
    parseBody width (offset + 1) { lines := String.ofList text :: texts, stop } = .error e ↔
      BodyFault width offset 1 text e ∨ (∀ e', ¬ BodyFault width offset 1 text e') ∧
        parseBody width (offset + 2) { lines := texts, stop } = .error e := by
  simp only [parseBody, parseLines, String.toList_ofList]
  split
  · next hblank =>
    have hgap : Gap text := List.all_eq_true.1 hblank
    have hnone : ∀ e', ¬ BodyFault width offset 1 text e' := fun e' h => h.1 hgap
    rw [or_iff_right (hnone e), and_iff_right hnone]
  · next hblank =>
    have hgap : ¬ Gap text := fun h => hblank (List.all_eq_true.2 h)
    simp only [BodyFault, not_false_eq_true, hgap, true_and, ← StateLine.parse_eq_error]
    cases StateLine.parse width (offset + 1) text with
    | error e' => simp [bind, Except.bind]
    | ok line =>
        have hnone : ∀ e', (Except.ok line : Except Error StateLine) ≠ .error e' := fun _ => ok_ne_error
        rw [or_iff_right (hnone e), and_iff_right hnone]
        cases parseLines width (offset + 2) texts with
        | error e' => exact Iff.rfl
        | ok lines =>
            cases stop with
            | none => exact iff_of_false ok_ne_error ok_ne_error
            | some fault => exact Iff.rfl

/-- Lines of states are read up to their first fault. -/
theorem parseBody_eq_error : parseBody width (offset + 1) (.ofSource (.withFailure bytes failure)) = .error e ↔
    ∃ k, IsFirst (LineFault (BodyFault width offset) bytes failure) k e := by
  induction bytes using lines_induction generalizing offset failure with
  | last line hline =>
      rw [exists_isFirst_last hline]
      rcases stream_last hline failure with ⟨fault, hstream, hfault⟩ | ⟨text, hstream, _, hfault⟩
      · rw [hstream, parseBody_stop, hfault]
      · rw [hstream, hfault]
        have hend : parseBody width (offset + 2) { lines := [] } ≠ .error e := ok_ne_error
        split
        · next hempty =>
          subst hempty
          exact iff_of_false ok_ne_error fun h => h.1 gap_nil
        · rw [parseBody_cons, or_iff_left fun h => hend h.2]
  | ended line rest hline ih =>
      rw [exists_isFirst_ended hline]
      rcases stream_ended hline rest failure with ⟨fault, hstream, hfault⟩ | ⟨text, hstream, _, hfault⟩
      · rw [hstream, parseBody_stop, hfault]
        refine ⟨.inl, fun h => h.elim id fun h => ?_⟩
        exact absurd ((hfault _ _).2 rfl) (h.1 _)
      · have hshift : (fun k => BodyFault width offset (k + 1)) = BodyFault width (offset + 1) := by
          funext k text e
          rw [BodyFault, BodyFault, Nat.add_assoc, Nat.add_comm k 1]
        rw [hstream, parseBody_cons, hshift, ← ih]
        simp only [hfault]

end Lines

section Files

theorem textFault_one_iff {text : List Char} : TextFault bytes failure 1 text e ↔ HeaderFault text e := by
  refine ⟨?_, .header⟩
  intro h
  cases h with
  | header h => exact h

theorem IsHeader.unique {text : List Char} {header header' : Header} (h : IsHeader text header)
    (h' : IsHeader text header') : header = header' := by
  have hparse : ∀ {header}, IsHeader text header → Header.parse (String.ofList text) = .ok header :=
    fun h => Header.parse_eq_ok.2 (String.toList_ofList.symm ▸ h)
  exact Except.ok.inj ((hparse h).symm.trans (hparse h'))

/-- Behind a header the lines are those of states. -/
theorem textFault_succ_iff {first text : List Char} {header : Header} (hfirst : IsRead bytes failure 1 first)
    (hheader : IsHeader first header) (hk : 0 < k) :
    TextFault bytes failure (k + 1) text e ↔ BodyFault header.symbols.length 1 k text e := by
  obtain ⟨k, rfl⟩ := Nat.exists_eq_succ_of_ne_zero (Nat.ne_of_gt hk)
  rw [BodyFault, Nat.add_comm 1]
  refine ⟨?_, fun h => .state hfirst hheader h.1 h.2⟩
  intro h
  cases h with
  | state hfirst' hheader' hgap h =>
      obtain rfl := hfirst.unique_one hfirst'
      obtain rfl := hheader.unique hheader'
      exact ⟨hgap, h⟩

theorem Document.parse_stop {fault : StreamFault} :
    Document.parse { lines := [], stop := some fault } = .error e ↔ e = .stream fault :=
  ⟨fun h => (Except.error.inj h).symm, fun h => congrArg Except.error h.symm⟩

theorem Document.parse_cons_eq_error {first : List Char} {texts : List String} {stop : Option StreamFault} :
    Document.parse { lines := String.ofList first :: texts, stop } = .error e ↔ HeaderFault first e ∨
      ∃ header, IsHeader first header ∧ parseBody header.symbols.length 2 { lines := texts, stop } = .error e := by
  have hfirst : (String.ofList first).toList = first := String.toList_ofList
  simp only [Document.parse, bind_eq_error, Header.parse_eq_error, Header.parse_eq_ok, hfirst, parseBody]
  cases stop with
  | none => simp only [pure, Except.pure, reduceCtorEq]
  | some fault => simp only [throw, throwThe, MonadExceptOf.throw, Except.error.injEq]

/-- Without a fault the first line is a header. -/
theorem exists_isHeader {text : List Char} (h : ∀ e, ¬ HeaderFault text e) : ∃ header, IsHeader text header := by
  have hparse : ∀ e, Header.parse (String.ofList text) ≠ .error e := by
    intro e he
    refine h e ?_
    rwa [Header.parse_eq_error, String.toList_ofList] at he
  cases hresult : Header.parse (String.ofList text) with
  | error e => exact absurd hresult (hparse e)
  | ok header =>
      rw [Header.parse_eq_ok, String.toList_ofList] at hresult
      exact ⟨header, hresult⟩

theorem IsHeader.not_headerFault {text : List Char} {header : Header} (h : IsHeader text header) :
    ¬ HeaderFault text e := by
  intro hfault
  rw [← String.toList_ofList (l := text)] at h hfault
  have hok := Header.parse_eq_ok.2 h
  rw [Header.parse_eq_error.2 hfault] at hok
  cases hok

/-- A file is read up to its first fault. -/
theorem Document.parse_eq_error : Document.parse (.ofSource (.withFailure bytes failure)) = .error e ↔
    ∃ k, IsFirst (FileFault bytes failure) k e := by
  by_cases hfeed : 10 ∈ bytes
  · obtain ⟨line, rest, rfl, hline⟩ := List.eq_append_cons_of_mem hfeed
    refine Iff.trans ?_ (exists_isFirst_ended hline).symm
    rcases stream_ended hline rest failure with ⟨fault, hstream, hfault⟩ | ⟨text, hstream, hread, hfault⟩
    · rw [hstream, Document.parse_stop, hfault]
      refine ⟨.inl, fun h => h.elim id fun h => ?_⟩
      exact absurd ((hfault _ _).2 rfl) (h.1 _)
    · rw [hstream, Document.parse_cons_eq_error]
      simp only [hfault, textFault_one_iff]
      refine or_congr_right ⟨?_, ?_⟩
      · rintro ⟨header, hheader, hbody⟩
        refine ⟨fun _ => hheader.not_headerFault, ?_⟩
        rw [LineFault.congr fun k _ _ hk => textFault_succ_iff hread hheader hk]
        exact parseBody_eq_error.1 hbody
      · rintro ⟨hnone, hbody⟩
        obtain ⟨header, hheader⟩ := exists_isHeader hnone
        rw [LineFault.congr fun k _ _ hk => textFault_succ_iff hread hheader hk] at hbody
        exact ⟨header, hheader, parseBody_eq_error.2 hbody⟩
  · refine Iff.trans ?_ (exists_isFirst_last hfeed).symm
    rcases stream_last hfeed failure with ⟨fault, hstream, hfault⟩ | ⟨text, hstream, _, hfault⟩
    · rw [hstream, Document.parse_stop, hfault]
    · rw [hstream, hfault, textFault_one_iff]
      split
      · next hempty =>
        have hparse : Header.parse "" = .error .emptyFile := by decide +kernel
        have hstream : Document.parse { lines := [] } = .error .emptyFile := rfl
        rw [hempty, ← String.toList_empty, ← Header.parse_eq_error, hparse, hstream, Except.error.injEq,
          Except.error.injEq]
      · rw [Document.parse_cons_eq_error]
        refine or_iff_left ?_
        rintro ⟨header, _, hbody⟩
        cases hbody

end Files

section Reading

/-- Bytes behind a line feed make no fault in front of it and unmake none. -/
theorem FileFault.of_prefix {front behind : List UInt8} (h : FileFault (front ++ behind) failure k e)
    (hk : k ≤ front.count 10) (behind' : List UInt8) : FileFault (front ++ behind') failure k e := by
  rcases h with ⟨hcut, h⟩ | ⟨hcut, hread, hbytes⟩ | ⟨hread, hbad⟩
  · obtain ⟨_, _, _, hcut'⟩ := hcut.of_prefix hk behind'
    exact .interrupted hcut' h
  · obtain ⟨_, _, _, hcut'⟩ := hcut.of_prefix hk behind'
    exact .notUtf8 hcut' hread hbytes
  · refine .text (hread.of_prefix hk behind') ?_
    cases hbad with
    | header h => exact .header h
    | state hfirst hheader hgap h => exact .state (hfirst.of_prefix (by omega) behind') hheader hgap h

theorem IsFirst.of_prefix {front behind : List UInt8} (h : IsFirst (FileFault (front ++ behind) failure) number e)
    (hnumber : number ≤ front.count 10) (behind' : List UInt8) :
    IsFirst (FileFault (front ++ behind') failure) number e :=
  ⟨h.holds.of_prefix hnumber behind', fun k hk e' hfault =>
    h.earlier k hk e' (FileFault.of_prefix hfault ((Nat.le_of_lt hk).trans hnumber) behind)⟩

theorem IsFirst.of_exists (h : ∃ k e, fault k e) : ∃ k e, IsFirst fault k e := by
  obtain ⟨k, e, h⟩ := h
  induction k using Nat.strongRecOn generalizing e with
  | ind k ih =>
      by_cases hearlier : ∃ j < k, ∃ e', fault j e'
      · obtain ⟨j, hj, e', h'⟩ := hearlier
        exact ih j hj e' h'
      · exact ⟨k, e, h, fun j hj e' h' => hearlier ⟨j, hj, e', h'⟩⟩

/-- A source that fails before the end of its bytes makes a fault. -/
theorem exists_fileFault_of_failure (reason : String) (hn : n ≤ bytes.length) :
    ∃ k e, FileFault bytes (some (n, reason)) k e := by
  obtain ⟨k, before, line, hline⟩ := exists_last_line bytes
  have hlength : n ≤ (before ++ line).length := by
    rwa [← hline.bytes_eq, List.append_nil] at hn
  exact ⟨k, _, .interrupted hline ⟨n, rfl, hlength⟩⟩

/-- Without a fault, all bytes together are the encoding of a text. -/
theorem exists_text (h : ∀ k e, ¬ LineFault bad bytes failure k e) : ∃ text, encode text = bytes := by
  have hfirst : ∀ {line bad failure} after, 10 ∉ line → (∀ b ∈ after.head?, b = 10) →
      (∀ k e, ¬ LineFault bad (line ++ after) failure k e) → ∃ cs, encode cs = line := by
    intro line bad failure after hline hafter h
    by_contra hbytes
    have hread : ∀ reason, ¬ Interrupts failure [] line reason :=
      fun reason hinterrupts => h 1 _ (.interrupted (isLine_one hline hafter) hinterrupts)
    exact h 1 _ (.notUtf8 (isLine_one hline hafter) hread (not_exists.1 hbytes))
  induction bytes using lines_induction generalizing bad failure with
  | last line hline => exact hfirst [] hline (by simp) (by simpa using h)
  | ended line rest hline ih =>
      have hrest : ∀ k e,
          ¬ LineFault (fun k => bad (k + 1)) rest (failureBehind (line.length + 1) failure) k e := by
        intro k e hfault
        obtain ⟨_, _, _, hcut⟩ := hfault.exists_isLine
        exact h (k + 1) e ((lineFault_succ_iff hline hcut.number_pos).2 hfault)
      obtain ⟨cs, hcs⟩ := hfirst (10 :: rest) hline (by simp) h
      obtain ⟨ds, hds⟩ := ih hrest
      have hfeed : encode ['\n'] = [10] := rfl
      refine ⟨cs ++ '\n' :: ds, ?_⟩
      rw [← List.singleton_append, encode_append, encode_append, hcs, hds, hfeed]
      rfl

theorem withFailure_of_lt (h : ∀ n reason, failure = some (n, reason) → bytes.length < n) :
    ByteSource.withFailure bytes failure = { bytes } := by
  cases failure with
  | none => rfl
  | some f => exact if_neg (Nat.not_le.2 (h f.1 f.2 rfl))

/-- A file without a fault is a file of the format, read to its end, and validation decides about it. -/
theorem read_of_no_fault (h : ∀ k e, ¬ FileFault bytes failure k e) :
    (∀ n reason, failure = some (n, reason) → bytes.length < n) ∧ ∃ text d, encode text = bytes ∧ IsFile text d ∧
      ∀ a, d.Denotes a →
        read (.withFailure bytes failure) = (a.validate.map fun _ => a).mapError .invalid := by
  have hend : ∀ n reason, failure = some (n, reason) → bytes.length < n := by
    rintro n reason rfl
    refine Nat.lt_of_not_le fun hn => ?_
    obtain ⟨k, e, hfault⟩ := exists_fileFault_of_failure reason hn
    exact h k e hfault
  obtain ⟨text, htext⟩ := exists_text h
  have hsource : ByteSource.withFailure bytes failure = .ofString (String.ofList text) := by
    rw [withFailure_of_lt hend, ByteSource.ofString, toList_toUTF8, String.toList_ofList, htext]
  cases hparse : Document.parse (.ofSource (.withFailure bytes failure)) with
  | error e =>
      obtain ⟨k, hfirst⟩ := Document.parse_eq_error.1 hparse
      exact absurd hfirst.holds (h k e)
  | ok d =>
      refine ⟨hend, text, d, htext, ?_, fun a ha => ?_⟩
      · rwa [hsource, parse_ofString_eq_ok, String.toList_ofList] at hparse
      · obtain rfl := Document.denotes_iff.1 ha
        rw [read, hparse]
        cases hvalid : d.automaton.validate <;> simp only [bind, Except.bind, hvalid] <;> rfl

theorem read_of_isFirst (h : IsFirst (FileFault bytes failure) number e) :
    read (.withFailure bytes failure) = .error e :=
  bind_eq_error.2 (.inl (Document.parse_eq_error.2 ⟨number, h⟩))

/-- Reading ends with the fault of the first line that has one, whatever comes behind this line. Without a fault all
bytes have been read, and only then the automaton is validated. So a source that fails before the end of its bytes
gives no automaton, whatever bytes it would have given next. -/
theorem read_firstFault (bytes : List UInt8) (failure : Option (Nat × String)) :
    (∀ number e, IsFirst (FileFault bytes failure) number e → read (.withFailure bytes failure) = .error e) ∧
    (∀ number e before line after, IsFirst (FileFault bytes failure) number e →
      IsLine bytes number before line (10 :: after) →
      ∀ after', read (.withFailure (before ++ line ++ 10 :: after') failure) = .error e) ∧
    ((∀ number e, ¬ FileFault bytes failure number e) →
      (∀ n reason, failure = some (n, reason) → bytes.length < n) ∧
      ∃ text d, encode text = bytes ∧ IsFile text d ∧
        ∀ a, d.Denotes a → read (.withFailure bytes failure) = (a.validate.map fun _ => a).mapError .invalid) ∧
    (∀ fault, read (.withFailure bytes failure) = .error (.invalid fault) →
      ∀ number e, ¬ FileFault bytes failure number e) ∧
    ∀ n reason, failure = some (n, reason) → n ≤ bytes.length →
      (∃ number e, IsFirst (FileFault bytes failure) number e ∧ read (.withFailure bytes failure) = .error e) ∧
      ∀ bytes', n ≤ bytes'.length → bytes'.take n = bytes.take n →
        read (.withFailure bytes' failure) = read (.withFailure bytes failure) := by
  refine ⟨fun number e => read_of_isFirst, ?_, read_of_no_fault, ?_, ?_⟩
  · intro number e before line after h hline after'
    have hsplit : ∀ tail, before ++ line ++ 10 :: tail = before ++ line ++ [10] ++ tail := by simp
    have hnumber : number ≤ (before ++ line ++ [10]).count 10 := by
      rw [← hline.number_eq, List.count_append, List.count_append, List.count_singleton_self]
      omega
    rw [← hline.bytes_eq, hsplit] at h
    rw [hsplit]
    exact read_of_isFirst (h.of_prefix hnumber after')
  · intro fault hread number e hfault
    obtain ⟨k, e', hfirst⟩ := IsFirst.of_exists ⟨number, e, hfault⟩
    obtain rfl : e' = .invalid fault := Except.error.inj ((read_of_isFirst hfirst).symm.trans hread)
    exact Document.blamesText_parse fault (Document.parse_eq_error.2 ⟨k, hfirst⟩)
  · rintro n reason rfl hn
    refine ⟨?_, fun bytes' hn' htake => ?_⟩
    · obtain ⟨k, e, hfirst⟩ := IsFirst.of_exists (exists_fileFault_of_failure reason hn)
      exact ⟨k, e, hfirst, read_of_isFirst hfirst⟩
    · rw [ByteSource.withFailure, ByteSource.withFailure, ByteSource.failAfter, ByteSource.failAfter, if_pos hn',
        if_pos hn]
      dsimp only
      rw [htake]

/-- The first 12 bytes are the file of a smaller automaton. The source has 18 bytes, and its end has to be seen. -/
example : [12, 18, 19].map (fun n => Except.isOk
    (read (.withFailure "NFA a\n> 0 0\n< 1 -\n".toUTF8.data.toList (some (n, "interrupted"))))) =
      [false, false, true] := by
  decide +kernel

end Reading

end FiniteAutomata.Format
