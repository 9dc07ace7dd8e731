import FiniteAutomata.Proofs.LineReader

/-! How bytes are split into lines. They begin with lines that are texts, each with its line feed, and what is behind
the last of these lines tells how the reading ends: nothing more is there or a line without a line feed, the reader
fails, or the next line is no text. There is one way to split them, and a reader of lines that has these bytes to give,
in whatever chunks, yields just the lines of it. -/

namespace FiniteAutomata.Text

variable {bytes : List UInt8} {failure : Option String} {lines : List (List Char)} {stop : Option StreamFault}
  {answers : List Answer}

section Splitting

/-- Lines one behind the other, each with its line feed. -/
def joinLines (lines : List (List Char)) : List Char := lines.flatMap (· ++ ['\n'])

/-- The lines of some bytes, after which the reader fails if there is a failure, and the fault that comes behind the
lines. -/
inductive SplitsInto (bytes : List UInt8) (failure : Option String) :
    List (List Char) → Option StreamFault → Prop where
  /-- The bytes are a text. What is behind the last line feed is a line, with all its characters, if there is any. -/
  | text {lines : List (List Char)} {last : List Char} :
    (∀ line ∈ lines, '\n' ∉ line) → '\n' ∉ last → encode (joinLines lines ++ last) = bytes → failure = none →
    SplitsInto bytes failure (lines.map dropReturn ++ if last = [] then [] else [last]) none
  /-- The next line is no text. If the reader fails before the line ends, its bytes make no difference. -/
  | notUtf8 {lines : List (List Char)} {line after : List UInt8} :
    (∀ line ∈ lines, '\n' ∉ line) → encode (joinLines lines) ++ line ++ after = bytes → 10 ∉ line →
    (∀ b ∈ after.head?, b = 10) → (after = [] → failure = none) → (∀ cs, encode cs ≠ line) →
    SplitsInto bytes failure (lines.map dropReturn) (some .notUtf8)
  /-- The reader fails before the next line ends. -/
  | failed {lines : List (List Char)} {start : List UInt8} {reason : String} :
    (∀ line ∈ lines, '\n' ∉ line) → encode (joinLines lines) ++ start = bytes → 10 ∉ start → failure = some reason →
    SplitsInto bytes failure (lines.map dropReturn) (some (.failed reason))

theorem joinLines_cons (line : List Char) (lines : List (List Char)) :
    joinLines (line :: lines) = line ++ '\n' :: joinLines lines := by
  simp [joinLines]

theorem encode_joinLines_cons (line : List Char) (lines : List (List Char)) :
    encode (joinLines (line :: lines)) = encode line ++ 10 :: encode (joinLines lines) := by
  rw [joinLines_cons, encode_append]
  rfl

/-- Lines that are texts are read from the front. -/
theorem ofSource_joinLines (hlines : ∀ line ∈ lines, '\n' ∉ line) (tail : List UInt8) (failure : Option String) :
    LineStream.ofSource { bytes := encode (joinLines lines) ++ tail, failure } =
      { lines := (lines.map dropReturn).map String.ofList ++ (LineStream.ofSource { bytes := tail, failure }).lines
        stop := (LineStream.ofSource { bytes := tail, failure }).stop } := by
  induction lines with
  | nil => rfl
  | cons line lines ih =>
      obtain ⟨hline, hlines⟩ := List.forall_mem_cons.1 hlines
      rw [encode_joinLines_cons, List.append_assoc, List.cons_append, ofSource_line (mt lineFeed_mem_encode.1 hline),
        dropReturn_encode, decode?_encode]
      dsimp only
      rw [ih hlines]
      rfl

theorem SplitsInto.ofSource_eq (h : SplitsInto bytes failure lines stop) :
    LineStream.ofSource { bytes, failure } = { lines := lines.map String.ofList, stop } := by
  cases h with
  | @text lines last hlines hlast hbytes hfailure =>
      rw [← hbytes, hfailure, encode_append, ofSource_joinLines hlines,
        ofSource_of_not_mem (mt lineFeed_mem_encode.1 hlast), ofRest_encode, List.map_append]
      split <;> rfl
  | @notUtf8 lines line after hlines hbytes hline hafter hend hbad =>
      rw [← hbytes, List.append_assoc, ofSource_joinLines hlines]
      cases after with
      | nil =>
          rw [hend rfl, List.append_nil, ofSource_of_not_mem hline, ofRest_notUtf8 hbad]
          dsimp only
          rw [List.append_nil]
      | cons b after =>
          obtain rfl := hafter b rfl
          rw [ofSource_line hline, decode?_dropReturn_eq_none.2 hbad]
          dsimp only
          rw [List.append_nil]
  | @failed lines start reason hlines hbytes hstart hfailure =>
      rw [← hbytes, hfailure, ofSource_joinLines hlines, ofSource_of_not_mem hstart, LineStream.ofRest]
      dsimp only
      rw [List.append_nil]

/-- Bytes begin with lines that are texts. The line behind these is the last one or it is no text. -/
theorem exists_joinLines (bytes : List UInt8) : ∃ lines line after, (∀ line ∈ lines, '\n' ∉ line) ∧
    encode (joinLines lines) ++ line ++ after = bytes ∧ 10 ∉ line ∧
      (after = [] ∨ (∃ rest, after = 10 :: rest) ∧ ∀ cs, encode cs ≠ line) := by
  induction bytes using lines_induction with
  | last line hline => exact ⟨[], line, [], by simp, List.append_nil line, hline, .inl rfl⟩
  | ended line rest hline ih =>
      by_cases hbad : ∀ cs, encode cs ≠ line
      · exact ⟨[], line, 10 :: rest, by simp, rfl, hline, .inr ⟨⟨rest, rfl⟩, hbad⟩⟩
      · obtain ⟨cs, hcs⟩ := not_forall.1 hbad
        obtain rfl := not_not.1 hcs
        obtain ⟨lines, line, after, hlines, rfl, hrest⟩ := ih
        refine ⟨cs :: lines, line, after, ?_, ?_, hrest⟩
        · exact List.forall_mem_cons.2 ⟨mt lineFeed_mem_encode.2 hline, hlines⟩
        · simp [encode_joinLines_cons]

theorem exists_splitsInto (bytes : List UInt8) (failure : Option String) :
    ∃ lines stop, SplitsInto bytes failure lines stop := by
  obtain ⟨lines, line, after, hlines, hbytes, hline, rfl | ⟨⟨rest, rfl⟩, hbad⟩⟩ := exists_joinLines bytes
  · rw [List.append_nil] at hbytes
    cases failure with
    | some reason => exact ⟨_, _, .failed hlines hbytes hline rfl⟩
    | none =>
        cases hdecoded : LineStream.decode? line with
        | none =>
            have hbytes' := (List.append_nil _).trans hbytes
            exact ⟨_, _, .notUtf8 hlines hbytes' hline (by simp) (fun _ => rfl) (decode?_eq_none.1 hdecoded)⟩
        | some text =>
            obtain rfl := decode?_eq_some.1 hdecoded
            have hlast : '\n' ∉ text.toList := mt lineFeed_mem_encode.2 hline
            exact ⟨_, _, .text hlines hlast ((encode_append _ _).trans hbytes) rfl⟩
  · exact ⟨_, _, .notUtf8 hlines hbytes hline (by simp) nofun hbad⟩

/-- The bytes say how they are split. -/
theorem SplitsInto.unique {lines' : List (List Char)} {stop' : Option StreamFault}
    (h : SplitsInto bytes failure lines stop) (h' : SplitsInto bytes failure lines' stop') :
    lines' = lines ∧ stop' = stop := by
  have heq := h'.ofSource_eq.symm.trans h.ofSource_eq
  rw [LineStream.mk.injEq] at heq
  exact ⟨List.map_injective_iff.2 (fun _ _ => String.ofList_inj.1) heq.1, heq.2⟩

/-- No fault is found in a text that is read to its end, and only there. -/
theorem SplitsInto.stop_eq_none_iff (h : SplitsInto bytes failure lines stop) :
    stop = none ↔ failure = none ∧ ∃ cs, encode cs = bytes := by
  constructor
  · rintro rfl
    cases h with
    | text _ _ hbytes hfailure => exact ⟨hfailure, _, hbytes⟩
  · rintro ⟨rfl, cs, rfl⟩
    have hsource : ByteSource.ofString (String.ofList cs) = { bytes := encode cs } := by
      rw [ByteSource.ofString, toList_toUTF8, String.toList_ofList]
    have hstop := congrArg LineStream.stop (ofSource_ofString (String.ofList cs))
    rw [hsource, h.ofSource_eq] at hstop
    exact hstop

end Splitting

/-- A reader of lines yields the lines into which the bytes of its reader split, in whatever chunks these come, and it
counts them from 1. Behind the last of them it ends. There is no fault if the reader does not fail and all the bytes are
a text; else it is the one that keeps the next line from being read. Reading all the bytes at once gives the same. -/
theorem lineReader_yields_lines (h : Supplies answers bytes failure) :
    ∃ lines stop, SplitsInto bytes failure lines stop ∧
      (∀ lines' stop', SplitsInto bytes failure lines' stop' → lines' = lines ∧ stop' = stop) ∧
      (stop = none ↔ failure = none ∧ ∃ cs, encode cs = bytes) ∧
      LineStream.ofSource { bytes, failure } = { lines := lines.map String.ofList, stop } ∧
      (LineReader.ofAnswers answers).Yields (lines.map String.ofList) stop := by
  obtain ⟨lines, stop, hsplits⟩ := exists_splitsInto bytes failure
  have hholds : (LineReader.ofAnswers answers).reader.Holds bytes failure := ⟨bytes, h, rfl⟩
  have hyields := LineReader.yields_ofSource rfl rfl hholds
  rw [hsplits.ofSource_eq] at hyields
  exact ⟨lines, stop, hsplits, fun _ _ => hsplits.unique, hsplits.stop_eq_none_iff, hsplits.ofSource_eq, hyields⟩

/-- Two carriage returns before a line feed, an empty line, and a line that is not ended. A chunk ends between two
carriage returns, and another one in the middle of a character. -/
def tornAnswers : List Answer := [.chunk [97, 13], .interrupted, .chunk [13, 10, 10, 195], .chunk [169, 13]]

/-- Where the reader fails instead of coming to its end, the line that is not ended is lost. -/
theorem lineReader_yields_lines_torn :
    Supplies tornAnswers [97, 13, 13, 10, 10, 195, 169, 13] none ∧
    (LineReader.ofAnswers tornAnswers).Yields ["a\r", "", "é\r"] none ∧
    Supplies (tornAnswers ++ [.failed "reset"]) [97, 13, 13, 10, 10, 195, 169, 13] (some "reset") ∧
    (LineReader.ofAnswers (tornAnswers ++ [.failed "reset"])).Yields ["a\r", ""] (some (.failed "reset")) := by
  have hchunk : ∀ b : UInt8, ∀ chunk, b :: chunk ≠ [] := List.cons_ne_nil
  have hends : Supplies tornAnswers [97, 13, 13, 10, 10, 195, 169, 13] none :=
    .chunk (hchunk _ _) (.interrupted (.chunk (hchunk _ _) (.chunk (hchunk _ _) .ended)))
  have hfails : Supplies (tornAnswers ++ [.failed "reset"]) [97, 13, 13, 10, 10, 195, 169, 13] (some "reset") :=
    .chunk (hchunk _ _) (.interrupted (.chunk (hchunk _ _) (.chunk (hchunk _ _) (.failed "reset" []))))
  obtain ⟨lines, stop, _, hunique, _, _, hyields⟩ := lineReader_yields_lines hends
  obtain ⟨lines', stop', _, hunique', _, _, hyields'⟩ := lineReader_yields_lines hfails
  have hlines : ∀ line ∈ [['a', '\r', '\r'], []], '\n' ∉ line := by decide
  have hlast : '\n' ∉ ['é', '\r'] := by decide
  obtain ⟨rfl, rfl⟩ := hunique _ _ (.text hlines hlast (by decide +kernel) rfl)
  have hstart : (10 : UInt8) ∉ [195, 169, 13] := by decide
  obtain ⟨rfl, rfl⟩ := hunique' _ _ (.failed hlines (by decide +kernel) hstart rfl)
  exact ⟨hends, hyields, hfails, hyields'⟩

end FiniteAutomata.Text
