import FiniteAutomata.Proofs.ArgumentOrder
import FiniteAutomata.Proofs.FileTree
import FiniteAutomata.Proofs.NormalForm
import FiniteAutomata.Proofs.RoundTrip
import FiniteAutomata.Proofs.Runs

/-! The command line runs as written. The jobs are those of the arguments in their order. The result of each one goes
to the path in its line of the input. A result is saved in a file that is read back as this automaton, so a later job
that names this file loads it, as long as no job between them has saved another result there. -/

namespace FiniteAutomata.CommandLine

open Text

variable {t t' : FileTree} {limit : Option Nat} {job : Job} {path stdin : String} {a r : Automaton}
  {w w' : World FileTree} {i : Invocation} {count index : Nat} {location : Location} {watch : Stopwatch}

section Results

theorem Loads.built (h : Loads t path a) : a.Built := by
  obtain ⟨_, hread⟩ := h
  obtain ⟨_, _, _, hdenotes⟩ := Format.read_eq_ok.1 hread
  exact hdenotes.built

theorem Loads.words (h : Loads t path a) : ∀ s ∈ a.alphabet, IsWord s.toList := by
  obtain ⟨_, hread⟩ := h
  exact (Format.words_and_columns_of_read hread).1

/-- Numbers that have been given out again are numbers of states. -/
theorem le_largest_of_renumber (hvalid : r.Valid) (horder : r.BreadthFirst) (h : r.renumber 0 = .ok r) :
    ∀ q ∈ r.states, q ≤ StateId.largest := by
  intro q hq
  have hlt : q < r.stateCount := (horder.states q).1 hq
  rcases ((Automaton.renumber_eq_ok hvalid).1 h).1 with hzero | hle
  · rw [hzero] at hlt
    cases hlt
  · rw [Nat.zero_add] at hle
    exact (Nat.le_sub_one_of_lt hlt).trans hle

/-- The result of a job on files is read back from its file. The numbers of a determinization are not compared with
the largest one that a state can have, so its result is asked to keep below that one. -/
theorem Computes.read_write (h : Computes t limit job r)
    (hfits : ∀ input, job = .unary .determinization input → ∀ q ∈ r.states, q ≤ StateId.largest) :
    Format.read (.ofString (Format.write r)) = .ok r := by
  have hround : ∀ {alphabet : SortedSet Symbol}, r.DeterministicOver alphabet → r.Built →
      (∀ q ∈ r.states, q ≤ StateId.largest) → (∀ s ∈ alphabet, IsWord s.toList) →
      Format.read (.ofString (Format.write r)) = .ok r := by
    intro alphabet hover hbuilt hstates hwords
    refine Format.read_write hbuilt (Automaton.validate_eq_ok_iff.1 hover.validate) hstates (fun s hs => ?_) ?_
    · rw [hover.alphabet_eq] at hs
      exact hwords s (SortedSet.mem_erase.1 hs).1
    · rintro ⟨p, q, hedge⟩
      exact absurd hedge (hover.deterministic.no_epsilon p q)
  cases h with
  | binary hleft hright hr =>
      obtain ⟨hover, horder, hnumbered⟩ := BinaryOperation.normalForm hr
      have hvalid := Automaton.validate_eq_ok_iff.1 hover.validate
      refine hround hover (BinaryOperation.built hr) (le_largest_of_renumber hvalid horder hnumbered) fun s hs => ?_
      rcases SortedSet.mem_union.1 hs with hs | hs
      · exact hleft.words s hs
      · exact hright.words s hs
  | @unary operation input a _ hinput hr =>
      obtain ⟨hover, hnormal⟩ := UnaryOperation.normalForm hr
      have hvalid := Automaton.validate_eq_ok_iff.1 hover.validate
      refine hround hover (UnaryOperation.built hinput.built hr) ?_ hinput.words
      cases operation with
      | determinization => exact hfits input rfl
      | minimization =>
          obtain ⟨horder, hnumbered⟩ := hnormal (by rintro ⟨⟨⟩, _⟩)
          exact le_largest_of_renumber hvalid horder (hnumbered (by rintro ⟨⟩))

end Results

section Answers

/-- The path in a line of the input, without the blanks around it; it is empty behind the last line. -/
def pathAt (stdin : String) (index : Nat) : String :=
  String.ofList (trim ((stdin.toList.splitOn '\n')[index]?.getD []))

theorem trim_dropReturn (cs : List Char) : trim (dropReturn cs) = trim cs := by
  rcases List.eq_nil_or_concat cs with rfl | ⟨cs, c, rfl⟩
  · rfl
  rw [List.concat_eq_append, dropReturn_concat]
  split
  · next hc =>
    subst hc
    have hblank : isBlank '\r' = true := by decide
    unfold trim trimStart
    rw [List.dropWhile_append]
    split
    · next hempty =>
      rw [List.isEmpty_iff.1 hempty]
      simp [hblank]
    · simp [hblank]
  · rfl

theorem trim_getElem_linesOfPieces (pieces : List (List Char)) (k : Nat) :
    trim ((linesOfPieces pieces)[k]?.getD []) = trim (pieces[k]?.getD []) := by
  induction pieces generalizing k with
  | nil => rfl
  | cons piece pieces ih =>
      cases pieces with
      | nil =>
          cases piece with
          | nil => cases k <;> rfl
          | cons c cs => rfl
      | cons next pieces =>
          rw [linesOfPieces_cons_cons]
          cases k with
          | zero => exact trim_dropReturn piece
          | succ k => exact ih k

theorem answer_eq (lines : List String) :
    answer { lines } = .ok (String.ofList (trim ((lines.head?.map String.toList).getD []))) := by
  cases lines <;> rfl

/-- The answers to the questions of a run on a text as its input are the lines of this text. -/
theorem answer_drop (stdin : String) (k : Nat) :
    answer { LineStream.ofSource (.ofString stdin) with
      lines := (LineStream.ofSource (.ofString stdin)).lines.drop k } = .ok (pathAt stdin k) := by
  have hid : String.toList ∘ String.ofList = id := funext fun _ => String.toList_ofList
  rw [ofSource_ofString, answer_eq, List.head?_drop, pathAt, ← trim_getElem_linesOfPieces, List.getElem?_map,
    Option.map_map, hid, Option.map_id, id]

end Answers

section Worlds

/-- The world in which a run begins, with a text as its input. -/
def worldWith (tree : FileTree) (stdin : String) : World FileTree := { tree, input := .ofSource (.ofString stdin) }

theorem Delivers.congr {w₁ w₁' : World FileTree} (h : Delivers w a w') (hw : Agrees w₁ w) (hw' : Agrees w₁' w') :
    Delivers w₁ a w₁' := by
  obtain ⟨htree, hinput, houtput⟩ := hw
  obtain ⟨htree', _, houtput'⟩ := hw'
  rcases h with ⟨hanswer, h, h'⟩ | ⟨hanswer, hpath, h, h'⟩
  · exact .output (by rw [hinput, hanswer]) (by rw [htree', h, htree]) (by rw [houtput', h', houtput])
  · exact .file (by rw [hinput, hanswer]) hpath (by rw [htree, h, htree']) (by rw [houtput', h', houtput])

/-- The world after a job is made of the world before it. -/
theorem Done.exists_delivers (h : Done w i (index + 1)) (hjob : i.jobs[index]? = some job) :
    ∃ r, Computes (after w i index).tree i.limit job r ∧ Delivers (after w i index) r (after w i (index + 1)) ∧
      (after w i (index + 1)).input = restOf (after w i index).input := by
  obtain ⟨watch, w', hbefore⟩ := exists_outcome_of_done (h.mono (Nat.le_succ index))
  obtain ⟨watch', w'', hafter⟩ := exists_outcome_of_done h
  have hagrees := agrees_after_of_ok hbefore
  have hagrees' := agrees_after_of_ok hafter
  rcases outcome_allJobs_succ hbefore hjob with ⟨r, _, hr, hdelivers, hinput, _, hafter'⟩ | ⟨_, _, _, hafter', _⟩
  · obtain rfl := (Prod.mk.inj (hafter.symm.trans hafter')).2
    refine ⟨r, hagrees.tree ▸ hr, hdelivers.congr hagrees hagrees', ?_⟩
    rw [hagrees'.input, hinput, hagrees.input]
  · cases (Prod.mk.inj (hafter.symm.trans hafter')).1

/-- Every job that has been done has read one line of the input. -/
theorem Done.input_eq (h : Done w i count) (hcount : count ≤ i.jobs.length) :
    (after w i count).input = { w.input with lines := w.input.lines.drop count } := by
  induction count with
  | zero =>
      have hnone : outcome (allJobs (i.first 0)) w = (.ok {}, w) := rfl
      exact (agrees_after_of_ok hnone).input
  | succ count ih =>
      obtain ⟨_, _, _, hinput⟩ := h.exists_delivers (List.getElem?_eq_getElem hcount)
      rw [hinput, ih (h.mono (Nat.le_succ count)) (Nat.le_of_succ_le hcount), restOf, List.tail_drop]

/-- A result has been put where a path says: to the output when it is empty, and else into the file that it names.
No other file has changed. -/
inductive Puts (w : World FileTree) (a : Automaton) (path : String) (w' : World FileTree) : Prop where
  | output : path = "" → w'.tree = w.tree → w'.output = w.output ++ Format.write a → Puts w a path w'
  | file {location : Location} : path ≠ "" → w.tree.Names path location → w.tree.isDirectory location = false →
    w'.tree = { w.tree with files := w.tree.files.insert location (bytesOf a) } → w'.output = w.output →
    Puts w a path w'

theorem saveFile_eq_ok_of_answer {bytes : List UInt8} (h : FileSystem.saveFile t path bytes = (.ok (), t')) :
    t.saveFile path bytes = .ok t' := by
  dsimp only [FileSystem.saveFile] at h
  split at h
  · next saved hsave =>
    obtain ⟨_, rfl⟩ := Prod.mk.inj h
    exact hsave
  · cases h

theorem Delivers.puts (h : Delivers w a w') (hanswer : answer w.input = .ok path) : Puts w a path w' := by
  rcases h with ⟨hanswer', htree, houtput⟩ | ⟨hanswer', hpath, hsave, houtput⟩
  · exact .output (Except.ok.inj (hanswer.symm.trans hanswer')) htree houtput
  · obtain rfl := Except.ok.inj (hanswer.symm.trans hanswer')
    obtain ⟨location, hnames, hfile, htree⟩ := FileTree.saveFile_eq_ok (saveFile_eq_ok_of_answer hsave)
    exact .file hpath hnames hfile htree houtput

theorem Done.exists_puts (h : Done (worldWith t stdin) i (index + 1)) (hjob : i.jobs[index]? = some job) :
    ∃ r, Computes (after (worldWith t stdin) i index).tree i.limit job r ∧
      Puts (after (worldWith t stdin) i index) r (pathAt stdin index) (after (worldWith t stdin) i (index + 1)) := by
  have hlength : index < i.jobs.length := (List.getElem?_eq_some_iff.1 hjob).1
  obtain ⟨r, hr, hdelivers, _⟩ := h.exists_delivers hjob
  refine ⟨r, hr, hdelivers.puts ?_⟩
  rw [(h.mono (Nat.le_succ index)).input_eq (Nat.le_of_lt hlength)]
  exact answer_drop stdin index

theorem Puts.names_iff {path' : String} (h : Puts w a path' w') :
    w'.tree.Names path location ↔ w.tree.Names path location := by
  rcases h with ⟨_, htree, _⟩ | ⟨_, _, _, htree, _⟩
  · rw [htree]
  · exact FileTree.names_congr (by rw [htree]) (by rw [htree])

/-- In a run every path leads to where it leads at the beginning. -/
theorem Done.names_iff (h : Done (worldWith t stdin) i count) (hcount : count ≤ i.jobs.length) :
    (after (worldWith t stdin) i count).tree.Names path location ↔ t.Names path location := by
  induction count with
  | zero =>
      have hnone : outcome (allJobs (i.first 0)) (worldWith t stdin) = (.ok {}, worldWith t stdin) := rfl
      rw [(agrees_after_of_ok hnone).tree, worldWith]
  | succ count ih =>
      obtain ⟨_, _, hputs⟩ := h.exists_puts (List.getElem?_eq_getElem hcount)
      exact hputs.names_iff.trans (ih (h.mono (Nat.le_succ count)) (Nat.le_of_succ_le hcount))

/-- The file at a location holds an automaton. -/
def Holds (t : FileTree) (location : Location) (a : Automaton) : Prop :=
  t.isDirectory location = false ∧ t.files.find? location = some (bytesOf a)

theorem Holds.puts (h : Holds w.tree location r) (hputs : Puts w a path w')
    (hother : path ≠ "" → ¬ w.tree.Names path location) : Holds w'.tree location r := by
  rcases hputs with ⟨_, htree, _⟩ | @⟨other, hpath, hnames, _, htree, _⟩
  · rwa [htree]
  · have hne : location ≠ other := fun heq => hother hpath (heq ▸ hnames)
    rw [htree]
    refine ⟨h.1, ?_⟩
    rw [SortedMap.find?_insert, if_neg hne]
    exact h.2

theorem Puts.holds (h : Puts w a path w') (hpath : path ≠ "") (hnames : w.tree.Names path location) :
    Holds w'.tree location a := by
  rcases h with ⟨hempty, _, _⟩ | ⟨_, hnames', hfile, htree, _⟩
  · exact absurd hempty hpath
  · obtain rfl := hnames.unique hnames'
    rw [htree]
    exact ⟨hfile, by rw [SortedMap.find?_insert, if_pos rfl]⟩

/-- Of the jobs between two of them, none puts its result into the file at a location. -/
def Untouched (t : FileTree) (stdin : String) (location : Location) (first last : Nat) : Prop :=
  ∀ between, first < between → between < last → pathAt stdin between ≠ "" → ¬ t.Names (pathAt stdin between) location

/-- A result stays in its file until another one is put there. -/
theorem Done.holds (h : Done (worldWith t stdin) i count) (hcount : count ≤ i.jobs.length)
    (hjob : i.jobs[index]? = some job) (hr : Computes (after (worldWith t stdin) i index).tree i.limit job r)
    (hpath : pathAt stdin index ≠ "") (hnames : t.Names (pathAt stdin index) location) (hlt : index < count)
    (hother : Untouched t stdin location index count) :
    Holds (after (worldWith t stdin) i count).tree location r := by
  induction count with
  | zero => cases hlt
  | succ count ih =>
      have hbefore := h.mono (Nat.le_succ count)
      have hle := Nat.le_of_succ_le hcount
      obtain ⟨r', hr', hputs⟩ := h.exists_puts (List.getElem?_eq_getElem hcount)
      rcases Nat.lt_succ_iff_lt_or_eq.1 hlt with hlt | rfl
      · have hkept := ih hbefore hle hlt fun k hk hk' => hother k hk (Nat.lt_succ_of_lt hk')
        refine hkept.puts hputs fun hpath => ?_
        rw [hbefore.names_iff hle]
        exact hother count hlt (Nat.lt_succ_self count) hpath
      · have heq := Option.some.inj (hjob.symm.trans (List.getElem?_eq_getElem hcount))
        obtain rfl := hr.unique (heq ▸ hr')
        exact hputs.holds hpath ((hbefore.names_iff hle).2 hnames)

end Worlds

end FiniteAutomata.CommandLine
