import FiniteAutomata.Text.Lines
import Mathlib.Data.List.Basic

/-! Lines of a text. Line feeds and carriage returns are single bytes in UTF-8, and no other character has
these bytes in its encoding, so cutting the bytes into lines and decoding each of them is the same as cutting
the characters. A text that is read to its end is never at fault for its encoding. -/

namespace FiniteAutomata.Text

variable {c : Char} {b : UInt8} {cs : List Char}

section Encoding

def encode (cs : List Char) : List UInt8 := cs.flatMap String.utf8EncodeChar

theorem encode_append (cs ds : List Char) : encode (cs ++ ds) = encode cs ++ encode ds := List.flatMap_append

/-- A byte below 128 occurs only as the whole encoding of its character. -/
theorem eq_singleton_of_mem_utf8EncodeChar (hb : b ∈ String.utf8EncodeChar c) (hascii : b.toNat < 128) :
    String.utf8EncodeChar c = [b] ∧ c.val.toNat = b.toNat := by
  revert hb
  fun_cases String.utf8EncodeChar c with
  | case1 v hv =>
      intro hb
      obtain rfl := List.mem_singleton.1 hb
      refine ⟨rfl, ?_⟩
      rw [UInt8.toNat_ofNat']
      omega
  | case2 | case3 | case4 =>
      intro hb
      simp only [List.mem_cons, List.not_mem_nil, or_false] at hb
      rcases hb with rfl | rfl | rfl | rfl <;> simp at hascii <;> omega

/-- A character of one byte is the only one whose encoding has that byte. -/
theorem mem_utf8EncodeChar_iff {d : Char} (hd : String.utf8EncodeChar d = [b]) (hascii : b.toNat < 128) :
    b ∈ String.utf8EncodeChar c ↔ c = d := by
  refine ⟨?_, ?_⟩
  · intro hb
    have hc := (eq_singleton_of_mem_utf8EncodeChar hb hascii).2
    have hd := (eq_singleton_of_mem_utf8EncodeChar (hd ▸ List.mem_singleton.2 rfl) hascii).2
    exact Char.ext (UInt32.toNat_inj.1 (hc.trans hd.symm))
  · rintro rfl
    exact hd ▸ List.mem_singleton.2 rfl

theorem lineFeed_mem_iff : 10 ∈ String.utf8EncodeChar c ↔ c = '\n' := mem_utf8EncodeChar_iff rfl (by decide)

theorem lineFeed_mem_encode : 10 ∈ encode cs ↔ '\n' ∈ cs := by
  simp [encode, lineFeed_mem_iff]

theorem return_mem_iff : 13 ∈ String.utf8EncodeChar c ↔ c = '\r' := mem_utf8EncodeChar_iff rfl (by decide)

theorem toList_toUTF8 (s : String) : s.toUTF8.data.toList = encode s.toList := by
  rw [String.toUTF8_eq_toByteArray, ← String.utf8Encode_toList, List.utf8Encode, List.toList_data_toByteArray]
  rfl

theorem decode?_encode (cs : List Char) : LineStream.decode? (encode cs) = some (String.ofList cs) := by
  have hbytes : (encode cs).toByteArray = (String.ofList cs).toByteArray := String.toByteArray_ofList.symm
  rw [LineStream.decode?, hbytes, String.fromUTF8?, dif_pos (String.ofList cs).isValidUTF8]
  rfl

end Encoding

section Lines

theorem splitOn_append_of_not_mem {α : Type} [BEq α] [LawfulBEq α] {x : α} {xs : List α} (h : x ∉ xs)
    (as : List α) : (xs ++ as).splitOn x = (as.splitOn x).modifyHead (xs ++ ·) := by
  induction xs with
  | nil => exact (congrFun List.modifyHead_id (as.splitOn x)).symm
  | cons y xs ih =>
      obtain ⟨hy, hxs⟩ := not_or.1 (mt List.mem_cons.2 h)
      have hne : (y == x) = false := beq_eq_false_iff_ne.2 (Ne.symm hy)
      rw [List.cons_append, List.splitOn_cons_eq_if_modifyHead, hne, if_neg Bool.false_ne_true, ih hxs,
        List.modifyHead_modifyHead]
      rfl

/-- Cutting at the byte of a line feed is cutting at line feeds. -/
theorem splitOn_encode (cs : List Char) : (encode cs).splitOn 10 = (cs.splitOn '\n').map encode := by
  induction cs with
  | nil => rfl
  | cons c cs ih =>
      rw [encode, List.flatMap_cons, List.splitOn_cons_eq_if_modifyHead]
      by_cases hc : c = '\n'
      · subst hc
        rw [if_pos (beq_self_eq_true _), List.map_cons, ← ih]
        rfl
      · rw [splitOn_append_of_not_mem (mt lineFeed_mem_iff.1 hc), if_neg (mt beq_iff_eq.1 hc)]
        show List.modifyHead _ ((encode cs).splitOn 10) = _
        rw [ih]
        cases cs.splitOn '\n' with
        | nil => rfl
        | cons piece pieces => rfl

/-- A line without the carriage return at its end, if there is one. -/
def dropReturn (cs : List Char) : List Char := if cs.getLast? = some '\r' then cs.dropLast else cs

/-- The lines that the pieces between line feeds make: the last piece is a line only if it is not empty. -/
def linesOfPieces : List (List Char) → List (List Char)
  | [] => []
  | [rest] => if rest.isEmpty then [] else [rest]
  | piece :: pieces => dropReturn piece :: linesOfPieces pieces

theorem linesOfPieces_cons_cons (piece next : List Char) (pieces : List (List Char)) :
    linesOfPieces (piece :: next :: pieces) = dropReturn piece :: linesOfPieces (next :: pieces) := rfl

theorem dropReturn_concat (cs : List Char) (c : Char) :
    dropReturn (cs ++ [c]) = if c = '\r' then cs else cs ++ [c] := by
  simp [dropReturn]

theorem dropReturn_encode (cs : List Char) : LineStream.dropReturn (encode cs) = encode (dropReturn cs) := by
  rcases List.eq_nil_or_concat cs with rfl | ⟨cs, c, rfl⟩
  · rfl
  rw [List.concat_eq_append, dropReturn_concat, encode_append, LineStream.dropReturn]
  have hlast : encode [c] = String.utf8EncodeChar c := List.flatMap_singleton ..
  by_cases hc : c = '\r'
  · subst hc
    have hreturn : encode ['\r'] = [13] := rfl
    simp [hreturn]
  · rw [if_neg hc, hlast, encode_append, hlast]
    refine if_neg fun hlast? => hc (return_mem_iff.1 ?_)
    rw [List.getLast?_append_of_ne_nil _ String.utf8EncodeChar_ne_nil] at hlast?
    exact List.mem_of_getLast? hlast?

/-- What a text has behind its last line feed is a line unless it is empty. -/
theorem ofRest_encode (cs : List Char) :
    LineStream.ofRest none (encode cs) = { lines := if cs = [] then [] else [String.ofList cs] } := by
  rw [LineStream.ofRest, decode?_encode]
  cases cs with
  | nil => rfl
  | cons c cs =>
      have hne : (encode (c :: cs)).isEmpty = false := by
        simp [encode, List.isEmpty_eq_false_iff]
      simp [hne]

theorem ofPieces_encode (pieces : List (List Char)) : LineStream.ofPieces none (pieces.map encode) =
    { lines := (linesOfPieces pieces).map String.ofList } := by
  induction pieces with
  | nil => rfl
  | cons piece pieces ih =>
      cases pieces with
      | nil =>
          show LineStream.ofRest none (encode piece) = _
          rw [ofRest_encode]
          cases piece with
          | nil => rfl
          | cons c cs => rfl
      | cons next pieces =>
          rw [List.map_cons, List.map_cons, LineStream.ofPieces, dropReturn_encode, decode?_encode,
            ← List.map_cons, ih]
          · rfl
          · exact List.cons_ne_nil _ _

/-- The lines of a text are made of its pieces between line feeds, and it is read to its end. -/
theorem ofSource_ofString (s : String) : LineStream.ofSource (.ofString s) =
    { lines := (linesOfPieces (s.toList.splitOn '\n')).map String.ofList } := by
  show LineStream.ofPieces none (s.toUTF8.data.toList.splitOn 10) = _
  rw [toList_toUTF8, splitOn_encode, ofPieces_encode]

end Lines

end FiniteAutomata.Text
