import FiniteAutomata.Proofs.PhysicalLines
import Mathlib.Logic.Function.Iterate

/-! Lines from a reader, one at a time. The reader is asked for bytes whenever none are left, and it answers with a
chunk of them, of any length, or with an interruption, after which it is asked again. What stands in a chunk behind
the line feed is kept for the next line. No number of steps is set: each of them yields a line until one finds the
end, a failure or bytes that are no text. Whatever the chunks are, the lines are those of all the bytes together. -/

namespace FiniteAutomata.Text

section Readers

/-- What a reader answers when it is asked for bytes. -/
inductive Answer where
  /-- Some bytes, or none at the end of the input. -/
  | chunk (bytes : List UInt8)
  /-- Nothing has been read, and the reader may be asked again. -/
  | interrupted
  | failed (reason : String)

/-- A reader with the bytes that it has answered and that have not been taken, and with its answers to come. Behind
these it is at the end of the input. -/
structure BufferedReader where
  buffered : List UInt8 := []
  answers : List Answer

/-- What has been taken from a reader, and why there is no more of it if the reader has failed. -/
structure Fetched where
  bytes : List UInt8
  failure : Option String := none
  reader : BufferedReader

/-- Takes bytes up to the first line feed and with it, or up to the end of the input, behind those that have been
taken before. -/
def fetch (taken buffered : List UInt8) (answers : List Answer) : Fetched :=
  if 10 ∈ buffered then
    { bytes := taken ++ buffered.takeWhile (· ≠ 10) ++ [10]
      reader := { buffered := (buffered.dropWhile (· ≠ 10)).tail, answers } }
  else
    match answers with
    | [] => { bytes := taken ++ buffered, reader := { answers := [] } }
    | .chunk [] :: answers => { bytes := taken ++ buffered, reader := { answers } }
    | .chunk (b :: chunk) :: answers => fetch (taken ++ buffered) (b :: chunk) answers
    | .interrupted :: answers => fetch (taken ++ buffered) [] answers
    | .failed reason :: answers => { bytes := taken ++ buffered, failure := some reason, reader := { answers } }

/-- The number of the bytes that have been taken, unless the reader has failed. -/
def Fetched.size (f : Fetched) : Except StreamFault Nat :=
  match f.failure with
  | none => .ok f.bytes.length
  | some reason => .error (.failed reason)

/-- The text that has been taken, and its size. Bytes that are no text are dropped, and that is a fault unless the
reader has failed. -/
def Fetched.text (f : Fetched) : String × Except StreamFault Nat :=
  match LineStream.decode? f.bytes with
  | some text => (text, f.size)
  | none => ("", f.size.bind fun _ => .error .notUtf8)

/-- The answers amount to some bytes, which are cut into chunks, with interruptions between these. Then the reader is
at the end of its input, or it fails. -/
inductive Supplies : List Answer → List UInt8 → Option String → Prop where
  | ended : Supplies [] [] none
  | failed (reason : String) (answers : List Answer) : Supplies (.failed reason :: answers) [] (some reason)
  | interrupted {answers : List Answer} {bytes : List UInt8} {failure : Option String} :
    Supplies answers bytes failure → Supplies (.interrupted :: answers) bytes failure
  | chunk {answers : List Answer} {chunk bytes : List UInt8} {failure : Option String} :
    chunk ≠ [] → Supplies answers bytes failure → Supplies (.chunk chunk :: answers) (chunk ++ bytes) failure

/-- The bytes that are still to be taken from a reader, and the failure after them. -/
def BufferedReader.Holds (r : BufferedReader) (bytes : List UInt8) (failure : Option String) : Prop :=
  ∃ coming, Supplies r.answers coming failure ∧ r.buffered ++ coming = bytes

variable {answers : List Answer} {buffered bytes line rest : List UInt8} {failure : Option String}

theorem fetch_of_mem (hline : 10 ∉ line) (taken rest : List UInt8) (answers : List Answer) :
    fetch taken (line ++ 10 :: rest) answers =
      { bytes := taken ++ line ++ [10], reader := { buffered := rest, answers } } := by
  have hne : ∀ b ∈ line, decide (b ≠ 10) = true := fun b hb => decide_eq_true fun heq => hline (heq ▸ hb)
  rw [fetch.eq_def, if_pos (by simp), List.takeWhile_append_of_pos hne, List.dropWhile_append_of_pos hne]
  simp

/-- A line whose line feed has been answered is taken without another request. -/
theorem fetch_buffered (taken : List UInt8) (h : Supplies answers bytes failure) (hline : 10 ∉ line)
    (hbuffered : 10 ∈ buffered) (heq : buffered ++ bytes = line ++ 10 :: rest) :
    ∃ reader, fetch taken buffered answers = { bytes := taken ++ line ++ [10], reader } ∧
      reader.Holds rest failure := by
  obtain ⟨line', rest', rfl, hline'⟩ := List.eq_append_cons_of_mem hbuffered
  rw [List.append_assoc, List.cons_append] at heq
  obtain ⟨rfl, hrest⟩ := eq_of_append_eq hline' hline (by simp) (by simp) heq
  exact ⟨_, fetch_of_mem hline' taken rest' answers, bytes, h, (List.cons.inj hrest).2⟩

/-- What has been answered is a part of the first line when it has no line feed. -/
theorem exists_line_of_append_eq (hbuffered : 10 ∉ buffered) (heq : buffered ++ bytes = line ++ 10 :: rest) :
    ∃ line', line = buffered ++ line' ∧ bytes = line' ++ 10 :: rest := by
  rcases List.append_eq_append_iff.1 heq with ⟨line', hline, hbytes⟩ | ⟨middle, rfl, hrest⟩
  · exact ⟨line', hline, hbytes⟩
  · cases middle with
    | nil => exact ⟨[], by simp, hrest.symm⟩
    | cons b middle =>
        obtain ⟨rfl, _⟩ := List.cons.inj hrest
        exact absurd (by simp) hbuffered

/-- A line is taken with its line feed, and what is behind it stays to be taken. -/
theorem fetch_line (taken buffered : List UInt8) (h : Supplies answers bytes failure) (hline : 10 ∉ line)
    (heq : buffered ++ bytes = line ++ 10 :: rest) :
    ∃ reader, fetch taken buffered answers = { bytes := taken ++ line ++ [10], reader } ∧
      reader.Holds rest failure := by
  induction h generalizing taken buffered line with
  | ended => exact fetch_buffered taken .ended hline (by simp_all) heq
  | failed reason answers => exact fetch_buffered taken (.failed reason answers) hline (by simp_all) heq
  | interrupted h ih =>
      by_cases hbuffered : 10 ∈ buffered
      · exact fetch_buffered taken (.interrupted h) hline hbuffered heq
      · obtain ⟨line', rfl, hbytes⟩ := exists_line_of_append_eq hbuffered heq
        have hline' : 10 ∉ line' := mt (List.mem_append_right _) hline
        obtain ⟨reader, hfetch, hreader⟩ := ih (taken ++ buffered) [] hline' hbytes
        refine ⟨reader, ?_, hreader⟩
        rw [fetch, if_neg hbuffered, hfetch, List.append_assoc taken]
  | @chunk answers chunk bytes failure hchunk h ih =>
      by_cases hbuffered : 10 ∈ buffered
      · exact fetch_buffered taken (.chunk hchunk h) hline hbuffered heq
      · obtain ⟨line', rfl, hbytes⟩ := exists_line_of_append_eq hbuffered heq
        have hline' : 10 ∉ line' := mt (List.mem_append_right _) hline
        obtain ⟨reader, hfetch, hreader⟩ := ih (taken ++ buffered) chunk hline' hbytes
        obtain ⟨b, chunk, rfl⟩ := List.exists_cons_of_ne_nil hchunk
        refine ⟨reader, ?_, hreader⟩
        rw [fetch, if_neg hbuffered, hfetch, List.append_assoc taken]

/-- Without a line feed everything is taken. -/
theorem fetch_rest (taken buffered : List UInt8) (h : Supplies answers bytes failure) (hrest : 10 ∉ buffered ++ bytes) :
    ∃ reader, fetch taken buffered answers = { bytes := taken ++ (buffered ++ bytes), failure, reader } ∧
      (failure = none → reader.Holds [] none) := by
  induction h generalizing taken buffered with
  | ended =>
      rw [List.append_nil] at hrest
      refine ⟨{ answers := [] }, ?_, fun _ => ⟨[], .ended, rfl⟩⟩
      rw [fetch, if_neg hrest, List.append_nil]
  | failed reason answers =>
      rw [List.append_nil] at hrest
      refine ⟨{ answers }, ?_, nofun⟩
      rw [fetch, if_neg hrest, List.append_nil]
  | interrupted h ih =>
      obtain ⟨hbuffered, hbytes⟩ := not_or.1 (mt List.mem_append.2 hrest)
      obtain ⟨reader, hfetch, hreader⟩ := ih (taken ++ buffered) [] hbytes
      refine ⟨reader, ?_, hreader⟩
      rw [fetch, if_neg hbuffered, hfetch, List.nil_append, List.append_assoc]
  | @chunk answers chunk bytes failure hchunk h ih =>
      obtain ⟨hbuffered, hbytes⟩ := not_or.1 (mt List.mem_append.2 hrest)
      obtain ⟨reader, hfetch, hreader⟩ := ih (taken ++ buffered) chunk hbytes
      obtain ⟨b, chunk, rfl⟩ := List.exists_cons_of_ne_nil hchunk
      refine ⟨reader, ?_, hreader⟩
      rw [fetch, if_neg hbuffered, hfetch, List.append_assoc]

theorem Fetched.text_of_encode {f : Fetched} {cs : List Char} (h : f.bytes = encode cs) :
    f.text = (String.ofList cs, f.size) := by
  rw [Fetched.text, h, decode?_encode]

theorem Fetched.text_notUtf8 {f : Fetched} (hbad : ∀ cs, encode cs ≠ f.bytes) (hfailure : f.failure = none) :
    f.text = ("", .error .notUtf8) := by
  rw [Fetched.text, decode?_eq_none.2 hbad, Fetched.size, hfailure]
  rfl

theorem Fetched.text_failed {f : Fetched} {reason : String} (hfailure : f.failure = some reason) :
    f.text.2 = .error (.failed reason) := by
  rw [Fetched.text, Fetched.size, hfailure]
  split <;> rfl

end Readers

/-- What is known between two lines: the line that was read last, its number, and how the reading has ended. -/
structure LineReader where
  reader : BufferedReader
  buffer : String := ""
  lineNumber : Nat := 0
  fault : Option StreamFault := none
  ended : Bool := false

namespace LineReader

variable {l : LineReader} {bytes line rest : List UInt8} {failure : Option String} {cs : List Char} {text reason : String}
  {lines : List String} {stop : Option StreamFault}

section Steps

def ofAnswers (answers : List Answer) : LineReader := { reader := { answers } }

/-- A text without the line feed at its end, and without a carriage return before that. -/
def dropLineEnd (cs : List Char) : List Char :=
  if cs.getLast? = some '\n' then dropReturn cs.dropLast else cs

/-- Reads the next line into the buffer. -/
def advance (l : LineReader) : LineReader :=
  let fetched := fetch [] l.reader.buffered l.reader.answers
  let text := fetched.text.1
  match fetched.text.2 with
  | .ok size =>
    if size > 0 then
      { l with
        reader := fetched.reader
        buffer := String.ofList (dropLineEnd text.toList)
        lineNumber := l.lineNumber + 1 }
    else
      { l with reader := fetched.reader, buffer := text, ended := true }
  | .error fault => { l with reader := fetched.reader, buffer := text, fault := some fault, ended := true }

/-- The current line, unless the reading has ended. -/
def get? (l : LineReader) : Option String := if l.ended then none else some l.buffer

/-- The fault that has ended the reading. It is given once. -/
def takeFault (l : LineReader) : Option StreamFault × LineReader := (l.fault, { l with fault := none })

theorem dropLineEnd_concat (cs : List Char) : dropLineEnd (cs ++ ['\n']) = dropReturn cs := by
  simp [dropLineEnd]

theorem dropLineEnd_of_not_mem (hcs : '\n' ∉ cs) : dropLineEnd cs = cs :=
  if_neg fun hlast => hcs (List.mem_of_getLast? hlast)

theorem ended_advance (h : l.ended = true) : l.advance.ended = true := by
  rw [advance]
  cases (fetch [] l.reader.buffered l.reader.answers).text.2 with
  | error fault => rfl
  | ok size =>
      dsimp only
      split
      · exact h
      · rfl

/-- Once the reading has ended, it stays ended. -/
theorem ended_iterate (h : l.ended = true) (n : Nat) : (advance^[n] l).ended = true := by
  induction n generalizing l with
  | zero => exact h
  | succ n ih => exact ih (ended_advance h)

section Outcomes

variable {f : Fetched} {size : Nat} {fault : StreamFault} (hfetch : fetch [] l.reader.buffered l.reader.answers = f)

include hfetch

theorem advance_of_pos (htext : f.text = (text, .ok size)) (hsize : 0 < size) :
    l.advance =
      { l with
        reader := f.reader
        buffer := String.ofList (dropLineEnd text.toList)
        lineNumber := l.lineNumber + 1 } := by
  rw [advance, hfetch, htext]
  exact if_pos hsize

theorem advance_of_error (htext : f.text.2 = .error fault) :
    l.advance.fault = some fault ∧ l.advance.ended = true := by
  rw [advance, hfetch, htext]
  exact ⟨rfl, rfl⟩

end Outcomes

/-- A line is yielded without its line feed and a carriage return before that. -/
theorem advance_line (h : l.reader.Holds (encode cs ++ 10 :: rest) failure) (hcs : '\n' ∉ cs) :
    ∃ reader, reader.Holds rest failure ∧ l.advance =
      { l with reader, buffer := String.ofList (dropReturn cs), lineNumber := l.lineNumber + 1 } := by
  obtain ⟨coming, hsupplies, heq⟩ := h
  obtain ⟨reader, hfetch, hreader⟩ := fetch_line [] _ hsupplies (mt lineFeed_mem_encode.1 hcs) heq
  have hbytes : [] ++ encode cs ++ [10] = encode (cs ++ ['\n']) := (encode_append cs ['\n']).symm
  refine ⟨reader, hreader, ?_⟩
  rw [advance_of_pos hfetch (Fetched.text_of_encode hbytes) (by simp), String.toList_ofList, dropLineEnd_concat]

theorem advance_line_notUtf8 (h : l.reader.Holds (line ++ 10 :: rest) failure) (hline : 10 ∉ line)
    (hbad : ∀ cs, encode cs ≠ line) : l.advance.fault = some .notUtf8 ∧ l.advance.ended = true := by
  obtain ⟨coming, hsupplies, heq⟩ := h
  obtain ⟨reader, hfetch, _⟩ := fetch_line [] _ hsupplies hline heq
  exact advance_of_error hfetch (congrArg Prod.snd (Fetched.text_notUtf8 (ne_encode_append_feed hbad) rfl))

theorem advance_failed (h : l.reader.Holds rest (some reason)) (hrest : 10 ∉ rest) :
    l.advance.fault = some (.failed reason) ∧ l.advance.ended = true := by
  obtain ⟨coming, hsupplies, rfl⟩ := h
  obtain ⟨reader, hfetch, _⟩ := fetch_rest [] _ hsupplies hrest
  exact advance_of_error hfetch (Fetched.text_failed rfl)

/-- What is not ended by a line feed is yielded as it is. -/
theorem advance_rest (h : l.reader.Holds (encode cs) none) (hcs : '\n' ∉ cs) (hne : cs ≠ []) :
    ∃ reader, reader.Holds [] none ∧ l.advance =
      { l with reader, buffer := String.ofList cs, lineNumber := l.lineNumber + 1 } := by
  obtain ⟨coming, hsupplies, heq⟩ := h
  have hrest : 10 ∉ l.reader.buffered ++ coming := heq ▸ mt lineFeed_mem_encode.1 hcs
  obtain ⟨reader, hfetch, hreader⟩ := fetch_rest [] _ hsupplies hrest
  have hsize : 0 < (l.reader.buffered ++ coming).length := List.length_pos_iff.2 (heq ▸ mt encode_eq_nil.1 hne)
  refine ⟨reader, hreader rfl, ?_⟩
  rw [advance_of_pos hfetch (Fetched.text_of_encode heq) hsize, String.toList_ofList, dropLineEnd_of_not_mem hcs]

theorem advance_rest_notUtf8 (h : l.reader.Holds rest none) (hrest : 10 ∉ rest) (hbad : ∀ cs, encode cs ≠ rest) :
    l.advance.fault = some .notUtf8 ∧ l.advance.ended = true := by
  obtain ⟨coming, hsupplies, rfl⟩ := h
  obtain ⟨reader, hfetch, _⟩ := fetch_rest [] _ hsupplies hrest
  exact advance_of_error hfetch (congrArg Prod.snd (Fetched.text_notUtf8 hbad rfl))

theorem advance_end (h : l.reader.Holds [] none) : l.advance.fault = l.fault ∧ l.advance.ended = true := by
  obtain ⟨coming, hsupplies, heq⟩ := h
  obtain ⟨reader, hfetch, _⟩ := fetch_rest [] _ hsupplies (heq ▸ List.not_mem_nil)
  rw [heq] at hfetch
  rw [advance, hfetch]
  exact ⟨rfl, rfl⟩

end Steps

section Runs

/-- Steps from here yield the lines, which are numbered on, and then nothing; the fault is the one that is found when
the lines are over. -/
structure Yields (l : LineReader) (lines : List String) (stop : Option StreamFault) : Prop where
  get?_eq : ∀ n, (advance^[n + 1] l).get? = lines[n]?
  lineNumber_eq : ∀ n < lines.length, (advance^[n + 1] l).lineNumber = l.lineNumber + (n + 1)
  takeFault_eq : (advance^[lines.length + 1] l).takeFault.1 = stop

theorem Yields.nil (hended : l.advance.ended = true) (hfault : l.advance.fault = stop) : l.Yields [] stop where
  get?_eq n := if_pos (ended_iterate hended n)
  lineNumber_eq := nofun
  takeFault_eq := hfault

theorem Yields.cons {reader : BufferedReader} (hended : l.ended = false)
    (hadvance : l.advance = { l with reader, buffer := text, lineNumber := l.lineNumber + 1 })
    (h : l.advance.Yields lines stop) : l.Yields (text :: lines) stop where
  get?_eq n := by
    cases n with
    | zero =>
        show l.advance.get? = some text
        rw [hadvance, get?, hended]
        rfl
    | succ n => exact h.get?_eq n
  lineNumber_eq n hn := by
    have hnumber : l.advance.lineNumber = l.lineNumber + 1 := by rw [hadvance]
    cases n with
    | zero => exact hnumber
    | succ n =>
        have hlater := h.lineNumber_eq n (Nat.lt_of_succ_lt_succ hn)
        rw [Function.iterate_succ_apply, hlater, hnumber]
        omega
  takeFault_eq := h.takeFault_eq

variable (hended : l.ended = false) (hfault : l.fault = none)

include hended hfault

theorem yields_rest (h : l.reader.Holds (encode cs) none) (hcs : '\n' ∉ cs) :
    l.Yields (if cs = [] then [] else [String.ofList cs]) none := by
  split
  · next hempty =>
    subst hempty
    obtain ⟨hstop, hend⟩ := advance_end h
    exact .nil hend (hstop.trans hfault)
  · next hne =>
    obtain ⟨reader, hreader, hadvance⟩ := advance_rest h hcs hne
    obtain ⟨hstop, hend⟩ := advance_end (l := l.advance) (by rwa [hadvance])
    refine .cons hended hadvance (.nil hend ?_)
    rw [hstop, hadvance, hfault]

/-- The steps yield the lines of the bytes that the reader holds. -/
theorem yields_ofSource (h : l.reader.Holds bytes failure) :
    l.Yields (LineStream.ofSource { bytes, failure }).lines (LineStream.ofSource { bytes, failure }).stop := by
  induction bytes using lines_induction generalizing l with
  | ended line rest hline ih =>
      rw [ofSource_line hline]
      cases hdecoded : LineStream.decode? (LineStream.dropReturn line) with
      | none =>
          obtain ⟨hstop, hend⟩ := advance_line_notUtf8 h hline (decode?_dropReturn_eq_none.1 hdecoded)
          exact .nil hend hstop
      | some text =>
          obtain ⟨cs, rfl, rfl⟩ := decode?_dropReturn_eq_some.1 hdecoded
          obtain ⟨reader, hreader, hadvance⟩ := advance_line h (mt lineFeed_mem_encode.2 hline)
          refine .cons hended hadvance ?_
          rw [hadvance]
          exact ih hended hfault hreader
  | last line hline =>
      rw [ofSource_of_not_mem hline]
      cases failure with
      | some reason =>
          obtain ⟨hstop, hend⟩ := advance_failed h hline
          exact .nil hend hstop
      | none =>
          cases hdecoded : LineStream.decode? line with
          | none =>
              have hbad := decode?_eq_none.1 hdecoded
              obtain ⟨hstop, hend⟩ := advance_rest_notUtf8 h hline hbad
              rw [ofRest_notUtf8 hbad]
              exact .nil hend hstop
          | some text =>
              obtain rfl := decode?_eq_some.1 hdecoded
              rw [ofRest_encode]
              exact yields_rest hended hfault h (mt lineFeed_mem_encode.2 hline)

end Runs

end LineReader

end FiniteAutomata.Text
