import FiniteAutomata.Proofs.TextLines

/-! The lines of bytes from a source that may fail. A line is a part of the bytes, and its number is one more than
that of the line feeds before it. It is read when the source does not fail before its line feed and its bytes are
the encoding of a text. What comes behind the first line is read as if it were alone, with a failure that is
nearer by the length of this line. -/

namespace FiniteAutomata.Text

variable {bytes line rest before after : List UInt8} {failure : Option (Nat × String)} {cs ds : List Char}
  {reason : String} {n k number : Nat}

/-- The bytes from a source that fails behind some of them, or that does not fail. -/
def ByteSource.withFailure (bytes : List UInt8) : Option (Nat × String) → ByteSource
  | none => { bytes }
  | some (n, reason) => ({ bytes } : ByteSource).failAfter n reason

/-- A line of some bytes with its number, which counts from 1, and with all that is before it and behind it. Each
line before it ends with a line feed, and what is behind it begins with its own line feed. -/
structure IsLine (bytes : List UInt8) (number : Nat) (before line after : List UInt8) : Prop where
  bytes_eq : before ++ line ++ after = bytes
  ended_before : ∀ b ∈ before.getLast?, b = 10
  number_eq : before.count 10 + 1 = number
  not_mem : 10 ∉ line
  feed_after : ∀ b ∈ after.head?, b = 10

/-- The source fails before a line has been read with its line feed. -/
def Interrupts (failure : Option (Nat × String)) (before line : List UInt8) (reason : String) : Prop :=
  ∃ n, failure = some (n, reason) ∧ n ≤ (before ++ line).length

/-- The text of a line: a carriage return before a line feed is no part of it. -/
def lineText (cs : List Char) (after : List UInt8) : List Char := if after = [] then cs else dropReturn cs

/-- A line is read to its end and has a text. -/
inductive IsRead (bytes : List UInt8) (failure : Option (Nat × String)) (number : Nat) : List Char → Prop where
  | mk {before after : List UInt8} {cs : List Char} : IsLine bytes number before (encode cs) after →
    (∀ reason, ¬ Interrupts failure before (encode cs) reason) → IsRead bytes failure number (lineText cs after)

section Encoding

theorem decode?_eq_some {s : String} : LineStream.decode? bytes = some s ↔ encode s.toList = bytes := by
  refine ⟨fun h => ?_, ?_⟩
  · rw [LineStream.decode?, String.fromUTF8?] at h
    split at h
    · cases h
      rw [← toList_toUTF8]
      exact List.toList_data_toByteArray
    · cases h
  · rintro rfl
    rw [decode?_encode, String.ofList_toList]

theorem encode_injective (h : encode cs = encode ds) : cs = ds := by
  have hdecoded := decode?_encode cs
  rw [h, decode?_encode] at hdecoded
  exact (String.ofList_inj.1 (Option.some.inj hdecoded)).symm

theorem decode?_eq_none : LineStream.decode? bytes = none ↔ ∀ cs, encode cs ≠ bytes := by
  rw [Option.eq_none_iff_forall_ne_some]
  refine ⟨fun h cs hcs => h (String.ofList cs) (decode?_eq_some.2 ?_), fun h s hs => ?_⟩
  · rwa [String.toList_ofList]
  · exact h s.toList (decode?_eq_some.1 hs)

theorem encode_eq_nil : encode cs = [] ↔ cs = [] :=
  ⟨fun h => encode_injective h, fun h => h ▸ rfl⟩

/-- Dropping a carriage return neither makes a text of other bytes nor unmakes one. -/
theorem decode?_dropReturn_eq_some {s : String} : LineStream.decode? (LineStream.dropReturn line) = some s ↔
    ∃ cs, encode cs = line ∧ s = String.ofList (dropReturn cs) := by
  refine ⟨fun h => ?_, ?_⟩
  · have htext := decode?_eq_some.1 h
    rw [LineStream.dropReturn] at htext
    split at htext
    · next hlast =>
      refine ⟨s.toList ++ ['\r'], ?_, ?_⟩
      · rw [encode_append, htext]
        exact List.dropLast_append_getLast? 13 hlast
      · rw [dropReturn_concat, if_pos rfl, String.ofList_toList]
    · next hlast =>
      refine ⟨s.toList, htext, ?_⟩
      have hreturn : encode (dropReturn s.toList) = encode s.toList := by
        rw [← dropReturn_encode, htext, LineStream.dropReturn, if_neg hlast]
      rw [encode_injective hreturn, String.ofList_toList]
  · rintro ⟨cs, rfl, rfl⟩
    rw [dropReturn_encode, decode?_encode]

theorem decode?_dropReturn_eq_none :
    LineStream.decode? (LineStream.dropReturn line) = none ↔ ∀ cs, encode cs ≠ line := by
  rw [Option.eq_none_iff_forall_ne_some]
  refine ⟨fun h cs hcs => h _ (decode?_dropReturn_eq_some.2 ⟨cs, hcs, rfl⟩), fun h s hs => ?_⟩
  obtain ⟨cs, hcs, _⟩ := decode?_dropReturn_eq_some.1 hs
  exact h cs hcs

/-- A line feed does not make a text of other bytes. -/
theorem ne_encode_append_feed (hbad : ∀ cs, encode cs ≠ line) (cs : List Char) : encode cs ≠ line ++ [10] := by
  intro heq
  have hlast : (encode cs).getLast? = some 10 := by rw [heq, List.getLast?_concat]
  rcases List.eq_nil_or_concat' cs with rfl | ⟨cs, c, rfl⟩
  · cases hlast
  · rw [encode_append] at heq hlast
    rw [List.getLast?_append_of_ne_nil _ (mt encode_eq_nil.1 (List.cons_ne_nil c []))] at hlast
    have hfeed : '\n' ∈ [c] := lineFeed_mem_encode.1 (List.mem_of_getLast? hlast)
    obtain rfl := List.mem_singleton.1 hfeed
    exact hbad cs (List.append_cancel_right heq)

end Encoding

section Lines

/-- Bytes are one line without a line feed, or a line with its line feed in front of other bytes. -/
theorem lines_induction {P : List UInt8 → Prop} (last : ∀ line, 10 ∉ line → P line)
    (ended : ∀ line rest, 10 ∉ line → P rest → P (line ++ 10 :: rest)) (bytes : List UInt8) : P bytes := by
  induction hn : bytes.length using Nat.strongRecOn generalizing bytes with
  | ind n ih =>
    by_cases hfeed : 10 ∈ bytes
    · obtain ⟨line, rest, rfl, hline⟩ := List.eq_append_cons_of_mem hfeed
      refine ended line rest hline (ih rest.length ?_ rest rfl)
      simp only [List.length_append, List.length_cons] at hn
      omega
    · exact last bytes hfeed

theorem IsLine.number_pos (h : IsLine bytes number before line after) : 0 < number := by
  rw [← h.number_eq]
  exact Nat.succ_pos _

theorem isLine_one (hline : 10 ∉ line) (hafter : ∀ b ∈ after.head?, b = 10) :
    IsLine (line ++ after) 1 [] line after :=
  ⟨rfl, by simp, rfl, hline, hafter⟩

theorem IsLine.before_eq_nil (h : IsLine bytes 1 before line after) : before = [] := by
  have hcount : before.count 10 = 0 := Nat.succ.inj h.number_eq
  cases hlast : before.getLast? with
  | none => exact List.getLast?_eq_none_iff.1 hlast
  | some b =>
      obtain rfl := h.ended_before b hlast
      exact absurd (List.mem_of_getLast? hlast) (List.count_eq_zero.1 hcount)

/-- Two ways to cut bytes at their first line feed, or at their end, are the same. -/
theorem eq_of_append_eq {line' after' : List UInt8} (hline : 10 ∉ line) (hline' : 10 ∉ line')
    (hafter : ∀ b ∈ after.head?, b = 10) (hafter' : ∀ b ∈ after'.head?, b = 10)
    (heq : line ++ after = line' ++ after') : line = line' ∧ after = after' := by
  induction line generalizing line' with
  | nil =>
      cases line' with
      | nil => exact ⟨rfl, heq⟩
      | cons b line' =>
          subst heq
          exact absurd (hafter b rfl) fun h => hline' (h ▸ List.mem_cons_self)
  | cons b line ih =>
      obtain ⟨hb, hline⟩ := not_or.1 (mt List.mem_cons.2 hline)
      cases line' with
      | nil =>
          subst heq
          exact absurd (hafter' b rfl).symm hb
      | cons b' line' =>
          obtain ⟨rfl, htail⟩ := List.cons.inj heq
          obtain ⟨rfl, rfl⟩ := ih hline (mt (List.mem_cons_of_mem _) hline') htail
          exact ⟨rfl, rfl⟩

/-- The first line is all that stands before the first line feed. -/
theorem isLine_one_iff {line' after' : List UInt8} (hline : 10 ∉ line) (hafter : ∀ b ∈ after.head?, b = 10) :
    IsLine (line ++ after) 1 before line' after' ↔ before = [] ∧ line' = line ∧ after' = after := by
  refine ⟨fun h => ?_, ?_⟩
  · obtain rfl := h.before_eq_nil
    obtain ⟨rfl, rfl⟩ := eq_of_append_eq h.not_mem hline h.feed_after hafter h.bytes_eq
    exact ⟨rfl, rfl, rfl⟩
  · rintro ⟨rfl, rfl, rfl⟩
    exact isLine_one hline hafter

theorem ended_append_feed : (∀ b ∈ (line ++ 10 :: before).getLast?, b = 10) ↔ ∀ b ∈ before.getLast?, b = 10 := by
  rcases List.eq_nil_or_concat before with rfl | ⟨before, b, rfl⟩
  · simp
  · rw [List.concat_eq_append, ← List.cons_append, ← List.append_assoc, List.getLast?_concat, List.getLast?_concat]

/-- The lines behind the first one are those of the bytes behind its line feed. -/
theorem isLine_succ_iff {line' : List UInt8} (hline : 10 ∉ line) (hn : 0 < number) :
    IsLine (line ++ 10 :: rest) (number + 1) before line' after ↔
      ∃ before', before = line ++ 10 :: before' ∧ IsLine rest number before' line' after := by
  refine ⟨fun h => ?_, ?_⟩
  · have hcount : before.count 10 = number := Nat.succ.inj h.number_eq
    have hmem : 10 ∈ before := List.count_pos_iff.1 (hcount ▸ hn)
    obtain ⟨line₀, before', rfl, hline₀⟩ := List.eq_append_cons_of_mem hmem
    have heq := h.bytes_eq
    rw [List.append_assoc, List.append_assoc, List.cons_append] at heq
    obtain ⟨rfl, hrest⟩ := eq_of_append_eq hline₀ hline (by simp) (by simp) heq
    refine ⟨before', rfl, ⟨?_, ended_append_feed.1 h.ended_before, ?_, h.not_mem, h.feed_after⟩⟩
    · rw [List.append_assoc]
      exact (List.cons.inj hrest).2
    · rw [← hcount, List.count_append, List.count_cons_self, List.count_eq_zero.2 hline, Nat.zero_add]
  · rintro ⟨before', rfl, h⟩
    refine ⟨?_, ended_append_feed.2 h.ended_before, ?_, h.not_mem, h.feed_after⟩
    · rw [← h.bytes_eq]
      simp
    · rw [← h.number_eq, List.count_append, List.count_cons_self, List.count_eq_zero.2 hline, Nat.zero_add]

theorem isLine_of_not_mem {line' : List UInt8} (hline : 10 ∉ line) (h : IsLine line number before line' after) :
    number = 1 := by
  have hbefore : 10 ∉ before := fun hmem => hline (h.bytes_eq ▸ by simp [hmem])
  rw [← h.number_eq, List.count_eq_zero.2 hbefore]

theorem exists_last_line (bytes : List UInt8) : ∃ number before line, IsLine bytes number before line [] := by
  induction bytes using lines_induction with
  | last line hline =>
      have h : IsLine (line ++ []) 1 [] line [] := isLine_one hline (by simp)
      rw [List.append_nil] at h
      exact ⟨1, [], line, h⟩
  | ended line rest hline ih =>
      obtain ⟨number, before, last, h⟩ := ih
      exact ⟨number + 1, _, last, (isLine_succ_iff hline h.number_pos).2 ⟨before, rfl, h⟩⟩

/-- What follows the line feed behind a line makes no difference to this line and to those before it. -/
theorem IsLine.of_prefix {front behind : List UInt8} (h : IsLine (front ++ behind) k before line after)
    (hk : k ≤ front.count 10) (behind' : List UInt8) :
    ∃ b tail, after = b :: tail ++ behind ∧ IsLine (front ++ behind') k before line (b :: tail ++ behind') := by
  have hline : line.count 10 = 0 := List.count_eq_zero.2 h.not_mem
  have hnumber := h.number_eq
  rcases List.append_eq_append_iff.1 h.bytes_eq with ⟨middle, rfl, rfl⟩ | ⟨middle, heq, _⟩
  · cases middle with
    | nil =>
        rw [List.append_nil, List.count_append, hline] at hk
        omega
    | cons b tail =>
        refine ⟨b, tail, rfl, ?_, h.ended_before, h.number_eq, h.not_mem, h.feed_after⟩
        simp
  · have hcount := congrArg (List.count 10) heq
    rw [List.count_append, List.count_append, hline] at hcount
    omega

end Lines

section Interruptions

/-- The failure as it is seen behind the first bytes, when these are read. -/
def failureBehind (count : Nat) (failure : Option (Nat × String)) : Option (Nat × String) :=
  failure.map fun f => (f.1 - count, f.2)

theorem interrupts_behind {line' : List UInt8} :
    Interrupts (failureBehind (line.length + 1) failure) before line' reason ↔
      Interrupts failure (line ++ 10 :: before) line' reason := by
  simp only [Interrupts, failureBehind, Option.map_eq_some_iff, Prod.exists, Prod.mk.injEq, List.length_append,
    List.length_cons]
  refine ⟨?_, ?_⟩
  · rintro ⟨_, ⟨n, _, rfl, rfl, rfl⟩, hle⟩
    exact ⟨n, rfl, by omega⟩
  · rintro ⟨n, rfl, hle⟩
    exact ⟨_, ⟨n, reason, rfl, rfl, rfl⟩, by omega⟩

theorem isRead_one_iff {text : List Char} (hline : 10 ∉ line) (hafter : ∀ b ∈ after.head?, b = 10) :
    IsRead (line ++ after) failure 1 text ↔ (∀ reason, ¬ Interrupts failure [] line reason) ∧
      ∃ cs, encode cs = line ∧ text = lineText cs after := by
  refine ⟨?_, ?_⟩
  · rintro ⟨hcut, hread⟩
    obtain ⟨rfl, rfl, rfl⟩ := (isLine_one_iff hline hafter).1 hcut
    exact ⟨hread, _, rfl, rfl⟩
  · rintro ⟨hread, cs, rfl, rfl⟩
    exact ⟨isLine_one hline hafter, hread⟩

theorem isRead_succ_iff {text : List Char} (hline : 10 ∉ line) (hn : 0 < number) :
    IsRead (line ++ 10 :: rest) failure (number + 1) text ↔
      IsRead rest (failureBehind (line.length + 1) failure) number text := by
  refine ⟨?_, ?_⟩
  · rintro ⟨hcut, hread⟩
    obtain ⟨before', rfl, hrest⟩ := (isLine_succ_iff hline hn).1 hcut
    exact ⟨hrest, fun reason h => hread reason (interrupts_behind.1 h)⟩
  · rintro ⟨hcut, hread⟩
    exact ⟨(isLine_succ_iff hline hn).2 ⟨_, rfl, hcut⟩, fun reason h => hread reason (interrupts_behind.2 h)⟩

theorem IsRead.of_prefix {front behind : List UInt8} {text : List Char}
    (h : IsRead (front ++ behind) failure k text) (hk : k ≤ front.count 10) (behind' : List UInt8) :
    IsRead (front ++ behind') failure k text := by
  obtain @⟨before, _, cs, hcut, hread⟩ := h
  obtain ⟨b, tail, rfl, hcut'⟩ := hcut.of_prefix hk behind'
  have htext : lineText cs (b :: tail ++ behind') = lineText cs (b :: tail ++ behind) := rfl
  exact htext ▸ ⟨hcut', hread⟩

/-- The first line is read in one way. -/
theorem IsRead.unique_one {text text' : List Char} (h : IsRead bytes failure 1 text)
    (h' : IsRead bytes failure 1 text') : text = text' := by
  obtain ⟨hcut, _⟩ := h
  have hbytes := hcut.bytes_eq
  rw [hcut.before_eq_nil, List.nil_append] at hbytes
  subst hbytes
  obtain ⟨_, ds, hds, rfl⟩ := (isRead_one_iff hcut.not_mem hcut.feed_after).1 h'
  rw [encode_injective hds]

end Interruptions

section Streams

theorem ofSource_of_not_mem (hline : 10 ∉ line) (stop : Option String) :
    LineStream.ofSource { bytes := line, failure := stop } = LineStream.ofRest stop line := by
  rw [LineStream.ofSource, List.splitOn_eq_singleton hline]
  rfl

theorem ofRest_notUtf8 (hbytes : ∀ cs, encode cs ≠ rest) :
    LineStream.ofRest none rest = { lines := [], stop := some .notUtf8 } := by
  have hempty : rest.isEmpty = false := List.isEmpty_eq_false_iff.2 fun h => hbytes [] h.symm
  rw [LineStream.ofRest, hempty, decode?_eq_none.2 hbytes]
  rfl

/-- The lines are read one after the other. -/
theorem ofSource_line (hline : 10 ∉ line) (rest : List UInt8) (stop : Option String) :
    LineStream.ofSource { bytes := line ++ 10 :: rest, failure := stop } =
      match LineStream.decode? (LineStream.dropReturn line) with
      | some text =>
        let following := LineStream.ofSource { bytes := rest, failure := stop }
        { following with lines := text :: following.lines }
      | none => { lines := [], stop := some .notUtf8 } := by
  rw [LineStream.ofSource]
  dsimp only
  rw [List.splitOn_append_cons_self_of_not_mem hline, LineStream.ofPieces]
  · rfl
  · exact List.splitOn_ne_nil _ _

/-- A failure on the first line leaves nothing else to be read. -/
theorem ofSource_interrupted (hline : 10 ∉ line) (after : List UInt8) (h : Interrupts failure [] line reason) :
    LineStream.ofSource (.withFailure (line ++ after) failure) = { lines := [], stop := some (.failed reason) } := by
  obtain ⟨n, rfl, hle⟩ := h
  have hcut : (line ++ after).take n = line.take n := List.take_append_of_le_length hle
  have hlength : n ≤ (line ++ after).length := Nat.le_trans hle (by simp)
  rw [ByteSource.withFailure, ByteSource.failAfter, if_pos hlength]
  dsimp only
  rw [hcut, ofSource_of_not_mem fun h => hline (List.mem_of_mem_take h)]
  rfl

theorem ofSource_last (hline : 10 ∉ line) (h : ∀ reason, ¬ Interrupts failure [] line reason) :
    LineStream.ofSource (.withFailure line failure) = LineStream.ofRest none line := by
  have hsource : ByteSource.withFailure line failure = { bytes := line } := by
    cases failure with
    | none => rfl
    | some f => exact if_neg fun hle => h f.2 ⟨f.1, rfl, hle⟩
  rw [hsource, ofSource_of_not_mem hline]

/-- Behind a line that is read, the source fails where the rest of it does. -/
theorem withFailure_ended (h : ∀ reason, ¬ Interrupts failure [] line reason) :
    ByteSource.withFailure (line ++ 10 :: rest) failure =
      { bytes := line ++ 10 :: (ByteSource.withFailure rest (failureBehind (line.length + 1) failure)).bytes
        failure := (ByteSource.withFailure rest (failureBehind (line.length + 1) failure)).failure } := by
  cases failure with
  | none => rfl
  | some f =>
      obtain ⟨n, reason⟩ := f
      have hlt : line.length < n := Nat.lt_of_not_le fun hle => h reason ⟨n, rfl, hle⟩
      obtain ⟨m, rfl⟩ := Nat.exists_eq_add_of_lt hlt
      have hbehind : line.length + m + 1 - (line.length + 1) = m := by omega
      have hlength : line.length + m + 1 ≤ (line ++ 10 :: rest).length ↔ m ≤ rest.length := by
        rw [List.length_append, List.length_cons]
        omega
      simp only [ByteSource.withFailure, failureBehind, Option.map_some, ByteSource.failAfter, hbehind, hlength]
      split
      · rw [Nat.add_assoc, List.take_length_add_append, List.take_succ_cons]
      · rfl

/-- When the first line is read, what comes behind it is read as if it were alone. -/
theorem ofSource_ended (hline : 10 ∉ line) (h : ∀ reason, ¬ Interrupts failure [] line reason) :
    LineStream.ofSource (.withFailure (line ++ 10 :: rest) failure) =
      match LineStream.decode? (LineStream.dropReturn line) with
      | some text =>
        let following := LineStream.ofSource (.withFailure rest (failureBehind (line.length + 1) failure))
        { following with lines := text :: following.lines }
      | none => { lines := [], stop := some .notUtf8 } := by
  rw [withFailure_ended h, ofSource_line hline]

end Streams

end FiniteAutomata.Text
