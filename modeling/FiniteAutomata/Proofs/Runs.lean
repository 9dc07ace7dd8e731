import FiniteAutomata.CommandLine.World
import Mathlib.Data.List.Basic

/-! Runs of the command line, job by job. A job loads and computes before it asks for a path, and only its last step
changes a file or the output. So a job that fails leaves these as they were, and a run ends with what the jobs
before the first failure have made. Of the files around a run nothing is known except that they stay as they are
when one of them cannot be created. -/

namespace FiniteAutomata.CommandLine

open Text FileSystem

section Outcomes

variable {τ α β : Type} {w w' : World τ} {x : ExceptT Report (StateM (World τ)) α} {r : α} {report : Report}

/-- What comes of a computation that may fail, and the world after it. -/
def outcome (x : ExceptT Report (StateM (World τ)) α) (w : World τ) : Except Report α × World τ := x.run.run w

theorem outcome_bind_of_ok {f : α → ExceptT Report (StateM (World τ)) β} (h : outcome x w = (.ok r, w')) :
    outcome (x >>= f) w = outcome (f r) w' := by
  unfold outcome at h ⊢
  rw [ExceptT.run_bind, StateT.run_bind, h]
  rfl

theorem outcome_bind_of_error {f : α → ExceptT Report (StateM (World τ)) β} (h : outcome x w = (.error report, w')) :
    outcome (x >>= f) w = (.error report, w') := by
  unfold outcome at h ⊢
  rw [ExceptT.run_bind, StateT.run_bind, h]
  rfl

theorem outcome_ok_or_error (x : ExceptT Report (StateM (World τ)) α) (w : World τ) :
    (∃ r w', outcome x w = (.ok r, w')) ∨ ∃ report w', outcome x w = (.error report, w') := by
  rcases outcome x w with ⟨report | r, w'⟩
  · exact .inr ⟨report, w', rfl⟩
  · exact .inl ⟨r, w', rfl⟩

theorem outcome_liftM (x : StateM (World τ) α) (w : World τ) :
    outcome (liftM x : ExceptT Report (StateM (World τ)) α) w = (.ok (x.run w).1, (x.run w).2) := rfl

theorem outcome_adapt_of_ok (f : Report → Report) (h : outcome x w = (.ok r, w')) :
    outcome (x.adapt f) w = (.ok r, w') := by
  unfold outcome at h ⊢
  rw [ExceptT.run_adapt, StateT.run_map, h]
  rfl

theorem outcome_adapt_of_error (f : Report → Report) (h : outcome x w = (.error report, w')) :
    outcome (x.adapt f) w = (.error (f report), w') := by
  unfold outcome at h ⊢
  rw [ExceptT.run_adapt, StateT.run_map, h]
  rfl

end Outcomes

/-- A file system in which nothing changes when a file can be neither created nor emptied. -/
class LawfulFileSystem (τ : Type) [FileSystem τ] : Prop where
  eq_of_refused {t t' : τ} {path reason : String} {bytes : List UInt8} :
    saveFile t path bytes = (.error reason, t') → t' = t

instance : LawfulFileSystem FileTree where
  eq_of_refused {t t' path reason bytes} h := by
    dsimp only [saveFile] at h
    split at h
    · cases h
    · exact (Prod.mk.inj h).2.symm

variable {τ : Type} [FileSystem τ] {t : τ} {input : LineStream} {limit : Option Nat} {job : Job} {path : String}
  {a b r : Automaton} {w w' : World τ} {watch : Stopwatch}

section Definitions

/-- The automaton in the file at a path. -/
inductive Loads (t : τ) (path : String) : Automaton → Prop where
  | intro {source : ByteSource} {a : Automaton} : openFile t path = .ok source → Format.read source = .ok a →
    Loads t path a

/-- A file is missing, or it is malformed. -/
inductive Unloadable (t : τ) (path : String) : Prop where
  | missing {reason : String} : openFile t path = .error reason → Unloadable t path
  | malformed {source : ByteSource} {e : Format.Error} : openFile t path = .ok source →
    Format.read source = .error e → Unloadable t path

/-- The result of a job on the files. -/
inductive Computes (t : τ) (limit : Option Nat) : Job → Automaton → Prop where
  | binary {operation : BinaryOperation} {left right : String} {a b r : Automaton} : Loads t left a →
    Loads t right b → operation.apply limit a b = .ok r → Computes t limit (.binary operation left right) r
  | unary {operation : UnaryOperation} {input : String} {a r : Automaton} : Loads t input a →
    operation.apply limit a = .ok r → Computes t limit (.unary operation input) r

/-- The path in the next line of the input, without the blanks around it; it is empty behind the last line. -/
def answer (input : LineStream) : Except StreamFault String :=
  match input.lines, input.stop with
  | line :: _, _ => .ok (String.ofList (trim line.toList))
  | [], some fault => .error fault
  | [], none => .ok ""

def bytesOf (a : Automaton) : List UInt8 := (Format.write a).toUTF8.data.toList

/-- An operand of a job cannot be loaded, or the operation fails. -/
inductive Uncomputable (t : τ) (limit : Option Nat) : Job → Prop where
  | left {operation : BinaryOperation} {left right : String} : Unloadable t left →
    Uncomputable t limit (.binary operation left right)
  | right {operation : BinaryOperation} {left right : String} : Unloadable t right →
    Uncomputable t limit (.binary operation left right)
  | binary {operation : BinaryOperation} {left right : String} {a b : Automaton} {failure : OperationFailure} :
    Loads t left a → Loads t right b → operation.apply limit a b = .error failure →
    Uncomputable t limit (.binary operation left right)
  | input {operation : UnaryOperation} {input : String} : Unloadable t input →
    Uncomputable t limit (.unary operation input)
  | unary {operation : UnaryOperation} {input : String} {a : Automaton} {failure : OperationFailure} :
    Loads t input a → operation.apply limit a = .error failure → Uncomputable t limit (.unary operation input)

/-- A job fails: it has no result, no path can be read for its result, or no file can be created there. -/
inductive JobFails (t : τ) (input : LineStream) (limit : Option Nat) (job : Job) : Prop where
  | compute : Uncomputable t limit job → JobFails t input limit job
  | ask {fault : StreamFault} : answer input = .error fault → JobFails t input limit job
  | create {r : Automaton} {path reason : String} {t' : τ} : Computes t limit job r → answer input = .ok path →
    path ≠ "" → saveFile t path (bytesOf r) = (.error reason, t') → JobFails t input limit job

/-- A result goes to the output, or to the file at the path that is asked for. -/
inductive Delivers (w : World τ) (a : Automaton) (w' : World τ) : Prop where
  | output : answer w.input = .ok "" → w'.tree = w.tree → w'.output = w.output ++ Format.write a → Delivers w a w'
  | file {path : String} : answer w.input = .ok path → path ≠ "" →
    saveFile w.tree path (bytesOf a) = (.ok (), w'.tree) → w'.output = w.output → Delivers w a w'

/-- The invocation with its first jobs alone. -/
def Invocation.first (i : Invocation) (count : Nat) : Invocation := { i with jobs := i.jobs.take count }

/-- The world after the first jobs of an invocation. -/
def after (w : World τ) (i : Invocation) (count : Nat) : World τ := (runIn w (i.first count)).2

/-- The first jobs of an invocation have all been done. -/
def Done (w : World τ) (i : Invocation) (count : Nat) : Prop := (runIn w (i.first count)).1 = 0

/-- The job at an index fails in the world that the jobs before it have made. -/
def FailsAt (w : World τ) (i : Invocation) (index : Nat) : Prop :=
  ∃ job, i.jobs[index]? = some job ∧ JobFails (after w i index).tree (after w i index).input i.limit job

end Definitions

section Steps

theorem Loads.unique (ha : Loads t path a) (hb : Loads t path b) : a = b := by
  obtain ⟨hopen, hread⟩ := ha
  obtain ⟨hopen', hread'⟩ := hb
  rw [hopen] at hopen'
  obtain rfl := Except.ok.inj hopen'
  exact Except.ok.inj (hread.symm.trans hread')

theorem Unloadable.not_loads (h : Unloadable t path) : ¬ Loads t path a := by
  rintro ⟨hopen, hread⟩
  rcases h with hopen' | ⟨hopen', hread'⟩
  · cases hopen.symm.trans hopen'
  · obtain rfl := Except.ok.inj (hopen.symm.trans hopen')
    cases hread.symm.trans hread'

theorem outcome_load (path : String) (w : World τ) :
    (∃ a, Loads w.tree path a ∧ outcome (load World.host path) w = (.ok a, w)) ∨
      Unloadable w.tree path ∧ ∃ report, outcome (load World.host path) w = (.error report, w) := by
  have hopened := outcome_liftM (World.host.openFile path) w
  unfold load
  rw [outcome_bind_of_ok hopened]
  dsimp only [World.host, StateT.run]
  cases hopen : openFile w.tree path with
  | error reason => exact .inr ⟨.missing hopen, _, rfl⟩
  | ok source =>
      dsimp only
      cases hread : Format.read source with
      | error e => exact .inr ⟨.malformed hopen hread, _, rfl⟩
      | ok a => exact .inl ⟨a, ⟨hopen, hread⟩, rfl⟩

theorem outcome_compute (limit : Option Nat) (job : Job) (w : World τ) :
    (∃ r, Computes w.tree limit job r ∧ outcome (compute World.host limit job) w = (.ok r, w)) ∨
      Uncomputable w.tree limit job ∧ ∃ report, outcome (compute World.host limit job) w = (.error report, w) := by
  cases job with
  | binary operation left right =>
      rcases outcome_load left w with ⟨a, hleft, ha⟩ | ⟨hleft, report, ha⟩
      · unfold compute
        rw [outcome_bind_of_ok ha]
        rcases outcome_load right w with ⟨b, hright, hb⟩ | ⟨hright, report, hb⟩
        · rw [outcome_bind_of_ok hb]
          cases hresult : operation.apply limit a b with
          | error failure => exact .inr ⟨.binary hleft hright hresult, _, rfl⟩
          | ok r => exact .inl ⟨r, .binary hleft hright hresult, rfl⟩
        · exact .inr ⟨.right hright, report, outcome_bind_of_error hb⟩
      · exact .inr ⟨.left hleft, report, outcome_bind_of_error ha⟩
  | unary operation input =>
      rcases outcome_load input w with ⟨a, hinput, ha⟩ | ⟨hinput, report, ha⟩
      · unfold compute
        rw [outcome_bind_of_ok ha]
        cases hresult : operation.apply limit a with
        | error failure => exact .inr ⟨.unary hinput hresult, _, rfl⟩
        | ok r => exact .inl ⟨r, .unary hinput hresult, rfl⟩
      · exact .inr ⟨.input hinput, report, outcome_bind_of_error ha⟩

theorem Computes.unique {r' : Automaton} (h : Computes t limit job r) (h' : Computes t limit job r') : r = r' := by
  cases h with
  | binary hleft hright hresult =>
      cases h' with
      | binary hleft' hright' hresult' =>
          obtain rfl := hleft.unique hleft'
          obtain rfl := hright.unique hright'
          exact Except.ok.inj (hresult.symm.trans hresult')
  | unary hinput hresult =>
      cases h' with
      | unary hinput' hresult' =>
          obtain rfl := hinput.unique hinput'
          exact Except.ok.inj (hresult.symm.trans hresult')

theorem Uncomputable.not_computes (h : Uncomputable t limit job) : ¬ Computes t limit job r := by
  intro hr
  cases h with
  | left h =>
      cases hr with
      | binary hleft _ _ => exact h.not_loads hleft
  | right h =>
      cases hr with
      | binary _ hright _ => exact h.not_loads hright
  | input h =>
      cases hr with
      | unary hinput _ => exact h.not_loads hinput
  | binary hleft hright hfailure =>
      cases hr with
      | binary hleft' hright' hresult =>
          obtain rfl := hleft.unique hleft'
          obtain rfl := hright.unique hright'
          cases hfailure.symm.trans hresult
  | unary hinput hfailure =>
      cases hr with
      | unary hinput' hresult =>
          obtain rfl := hinput.unique hinput'
          cases hfailure.symm.trans hresult

/-- What is left of the input behind its next line. -/
def restOf (input : LineStream) : LineStream := { input with lines := input.lines.tail }

/-- The world after a question about the result of a job. -/
def asked (w : World τ) (job : Job) : World τ :=
  { w with input := restOf w.input, diagnostics := w.diagnostics ++ [question job] }

theorem outcome_askPath_of_answer (h : answer w.input = .ok path) :
    outcome (askPath World.host job) w = (.ok path, asked w job) := by
  obtain ⟨tree, ⟨lines, stop⟩, output, diagnostics⟩ := w
  cases lines with
  | cons line lines =>
      obtain rfl := Except.ok.inj h
      rfl
  | nil =>
      cases stop with
      | some fault => cases h
      | none =>
          obtain rfl := Except.ok.inj h
          rfl

theorem outcome_askPath_of_fault {fault : StreamFault} (h : answer w.input = .error fault) :
    ∃ report, outcome (askPath World.host job) w = (.error report, asked w job) := by
  obtain ⟨tree, ⟨lines, stop⟩, output, diagnostics⟩ := w
  cases lines with
  | cons line lines => cases h
  | nil =>
      cases stop with
      | none => cases h
      | some fault => exact ⟨_, rfl⟩

theorem outcome_put_output (a : Automaton) (w : World τ) :
    outcome (put World.host "" a) w = (.ok (), { w with output := w.output ++ Format.write a }) := rfl

theorem outcome_put_file [LawfulFileSystem τ] (hpath : path ≠ "") (a : Automaton) (w : World τ) :
    (∃ tree, saveFile w.tree path (bytesOf a) = (.ok (), tree) ∧
      outcome (put World.host path a) w = (.ok (), { w with tree })) ∨
    (∃ reason tree, saveFile w.tree path (bytesOf a) = (.error reason, tree)) ∧
      ∃ report, outcome (put World.host path a) w = (.error report, w) := by
  have hempty : path.isEmpty = false := by simpa using hpath
  unfold put
  rw [hempty, if_neg Bool.false_ne_true, outcome_bind_of_ok (outcome_liftM _ w)]
  dsimp only [World.host, StateT.run]
  rw [← bytesOf]
  rcases hsave : saveFile w.tree path (bytesOf a) with ⟨reason | _, tree⟩
  · obtain rfl := LawfulFileSystem.eq_of_refused hsave
    exact .inr ⟨⟨reason, _, rfl⟩, _, rfl⟩
  · exact .inl ⟨tree, rfl, rfl⟩

theorem outcome_now (w : World τ) :
    outcome (liftM (World.host : Host (StateM (World τ))).now : ExceptT Report (StateM (World τ)) Nat) w =
      (.ok 0, w) := rfl

/-- A job fails and leaves the files and the output as they were, or its result is delivered. -/
theorem outcome_runJob [LawfulFileSystem τ] (limit : Option Nat) (watch : Stopwatch) (job : Job) (w : World τ) :
    (∃ r w', Computes w.tree limit job r ∧ Delivers w r w' ∧ w'.input = restOf w.input ∧
      ∃ watch', outcome (runJob World.host limit watch job) w = (.ok watch', w')) ∨
    JobFails w.tree w.input limit job ∧ ∃ report w', outcome (runJob World.host limit watch job) w =
      (.error report, w') ∧ w'.tree = w.tree ∧ w'.output = w.output := by
  unfold runJob
  dsimp only
  rw [outcome_bind_of_ok (outcome_now w)]
  rcases outcome_compute limit job w with ⟨r, hr, hcompute⟩ | ⟨hfails, report, hcompute⟩
  · rw [outcome_bind_of_ok (outcome_adapt_of_ok _ hcompute), outcome_bind_of_ok (outcome_now w)]
    cases hanswer : answer w.input with
    | error fault =>
        obtain ⟨report, hask⟩ := outcome_askPath_of_fault hanswer
        exact .inr ⟨.ask hanswer, report, _, outcome_bind_of_error hask, rfl, rfl⟩
    | ok path =>
        rw [outcome_bind_of_ok (outcome_askPath_of_answer hanswer)]
        by_cases hpath : path = ""
        · subst hpath
          exact .inl ⟨r, { asked w job with output := w.output ++ Format.write r }, hr, .output hanswer rfl rfl, rfl,
            _, outcome_bind_of_ok (outcome_put_output r _)⟩
        · rcases outcome_put_file hpath r (asked w job) with ⟨tree, hsave, hput⟩ | ⟨⟨_, _, hsave⟩, report, hput⟩
          · exact .inl ⟨r, { asked w job with tree }, hr, .file hanswer hpath hsave rfl, rfl,
              _, outcome_bind_of_ok hput⟩
          · exact .inr ⟨.create hr hanswer hpath hsave, report, _, outcome_bind_of_error hput, rfl, rfl⟩
  · exact .inr ⟨.compute hfails, _, w, outcome_bind_of_error (outcome_adapt_of_error _ hcompute), rfl, rfl⟩

theorem JobFails.not_delivers (h : JobFails w.tree w.input limit job) (hr : Computes w.tree limit job r) :
    ¬ Delivers w r w' := by
  intro hdelivers
  rcases h with hfails | hfault | ⟨hr', hanswer, hpath, hsave⟩
  · exact hfails.not_computes hr
  · rcases hdelivers with ⟨hanswer, _, _⟩ | ⟨hanswer, _, _, _⟩ <;> cases hfault.symm.trans hanswer
  · obtain rfl := hr.unique hr'
    rcases hdelivers with ⟨hanswer', _, _⟩ | ⟨hanswer', _, hsave', _⟩
    · exact hpath (Except.ok.inj (hanswer.symm.trans hanswer'))
    · obtain rfl := Except.ok.inj (hanswer.symm.trans hanswer')
      cases hsave.symm.trans hsave'

end Steps

section Prefixes

/-- Two worlds with the same files, the same input and the same output. -/
structure Agrees (w w' : World τ) : Prop where
  tree : w.tree = w'.tree
  input : w.input = w'.input
  output : w.output = w'.output

/-- The jobs of an invocation, one after another. -/
def allJobs (i : Invocation) : ExceptT Report (StateM (World τ)) Stopwatch :=
  i.jobs.foldlM (runJob World.host i.limit) {}

theorem agrees_tell (lines : List Lap) (w : World τ) :
    Agrees ((lines.forM fun lap => World.host.tell lap.describe : StateM (World τ) PUnit).run w).2 w := by
  induction lines generalizing w with
  | nil => exact ⟨rfl, rfl, rfl⟩
  | cons lap lines ih =>
      obtain ⟨htree, hinput, houtput⟩ := ih { w with diagnostics := w.diagnostics ++ [lap.describe] }
      exact ⟨htree, hinput, houtput⟩

variable {i : Invocation} {count : Nat}

theorem runIn_of_ok (h : outcome (allJobs i) w = (.ok watch, w')) :
    (runIn w i).1 = 0 ∧ Agrees (runIn w i).2 w' := by
  unfold outcome allJobs at h
  rw [runIn, run, StateT.run_bind, h]
  cases i.timed with
  | false => exact ⟨rfl, rfl, rfl, rfl⟩
  | true => exact ⟨rfl, agrees_tell watch.laps w'⟩

theorem runIn_of_error {report : Report}
    (h : outcome (allJobs i) w = (.error report, w')) :
    (runIn w i).1 = 1 ∧ Agrees (runIn w i).2 w' := by
  unfold outcome allJobs at h
  rw [runIn, run, StateT.run_bind, h]
  exact ⟨rfl, rfl, rfl, rfl⟩

/-- One more job: it fails and leaves the files and the output as they were, or its result is delivered. -/
theorem outcome_allJobs_succ [LawfulFileSystem τ] (h : outcome (allJobs (i.first count)) w = (.ok watch, w'))
    (hjob : i.jobs[count]? = some job) :
    (∃ r w'', Computes w'.tree i.limit job r ∧ Delivers w' r w'' ∧ w''.input = restOf w'.input ∧
      ∃ watch', outcome (allJobs (i.first (count + 1))) w = (.ok watch', w'')) ∨
    JobFails w'.tree w'.input i.limit job ∧ ∃ report w'',
      outcome (allJobs (i.first (count + 1))) w = (.error report, w'') ∧ w''.tree = w'.tree ∧
        w''.output = w'.output := by
  have hsucc : (allJobs (i.first (count + 1)) : ExceptT Report (StateM (World τ)) Stopwatch) =
      allJobs (i.first count) >>= fun watch => runJob World.host i.limit watch job := by
    simp [allJobs, Invocation.first, List.take_add_one, hjob]
  rw [hsucc, outcome_bind_of_ok h]
  exact outcome_runJob i.limit watch job w'

/-- A failure ends the run. -/
theorem outcome_allJobs_of_error {report : Report} (h : outcome (allJobs (i.first count)) w = (.error report, w')) :
    outcome (allJobs i) w = (.error report, w') := by
  rw [allJobs, ← List.take_append_drop count i.jobs, List.foldlM_append]
  exact outcome_bind_of_error h

theorem agrees_after_of_ok (h : outcome (allJobs (i.first count)) w = (.ok watch, w')) : Agrees (after w i count) w' :=
  (runIn_of_ok h).2

theorem exists_outcome_of_done (h : Done w i count) :
    ∃ watch w', outcome (allJobs (i.first count)) w = (.ok watch, w') := by
  refine (outcome_ok_or_error _ w).resolve_right ?_
  rintro ⟨report, w', herror⟩
  cases (runIn_of_error herror).1.symm.trans h

/-- Jobs that have been done have been done one after another. -/
theorem Done.mono {k : Nat} (h : Done w i count) (hk : k ≤ count) : Done w i k := by
  obtain ⟨watch, w', hcount⟩ := exists_outcome_of_done h
  rcases outcome_ok_or_error (allJobs (i.first k)) w with ⟨_, _, hok⟩ | ⟨report, w'', herror⟩
  · exact (runIn_of_ok hok).1
  · have hfirst : (i.first count).first k = i.first k := by
      rw [Invocation.first, Invocation.first, Invocation.first, List.take_take, Nat.min_eq_left hk]
    rw [← hfirst] at herror
    cases hcount.symm.trans (outcome_allJobs_of_error herror)

theorem failsAt_iff (h : outcome (allJobs (i.first count)) w = (.ok watch, w')) (hjob : i.jobs[count]? = some job) :
    FailsAt w i count ↔ JobFails w'.tree w'.input i.limit job := by
  obtain ⟨htree, hinput, _⟩ := agrees_after_of_ok h
  rw [← htree, ← hinput]
  refine ⟨?_, fun hfails => ⟨job, hjob, hfails⟩⟩
  rintro ⟨job', hjob', hfails⟩
  obtain rfl := Option.some.inj (hjob.symm.trans hjob')
  exact hfails

/-- Jobs that do not fail are done. -/
theorem exists_outcome_allJobs [LawfulFileSystem τ] (hcount : count ≤ i.jobs.length) (h : ∀ index < count, ¬ FailsAt w i index) :
    ∃ watch w', outcome (allJobs (i.first count)) w = (.ok watch, w') := by
  induction count with
  | zero => exact ⟨{}, w, rfl⟩
  | succ count ih =>
      obtain ⟨watch, w', hbefore⟩ := ih (Nat.le_of_succ_le hcount) fun index hindex => h index (by omega)
      have hjob := List.getElem?_eq_getElem hcount
      rcases outcome_allJobs_succ hbefore hjob with ⟨_, w'', _, _, _, watch', hafter⟩ | ⟨hfails, _⟩
      · exact ⟨watch', w'', hafter⟩
      · exact absurd ((failsAt_iff hbefore hjob).2 hfails) (h count (Nat.lt_succ_self count))

/-- A job that has been done has not failed. -/
theorem Done.not_failsAt [LawfulFileSystem τ] {index : Nat} (h : Done w i count) (hlt : index < count) :
    ¬ FailsAt w i index := by
  intro hfails
  obtain ⟨job, hjob, _⟩ := id hfails
  have hdone := h.mono hlt
  obtain ⟨watch, w', hbefore⟩ := exists_outcome_of_done (hdone.mono (Nat.le_succ index))
  rcases outcome_allJobs_succ hbefore hjob with ⟨r, w'', hr, hdelivers, _⟩ | ⟨_, report, w'', hafter, _⟩
  · exact ((failsAt_iff hbefore hjob).1 hfails).not_delivers hr hdelivers
  · cases hdone.symm.trans (runIn_of_error hafter).1

end Prefixes

/-- In every lawful file system a run ends at the first job that fails, with the status 1. The files and the output
are then those of a run of the jobs before this one alone, with the same input. Without a failure the status is
0. -/
theorem runIn_firstFailure [LawfulFileSystem τ] (w : World τ) (i : Invocation) :
    (∀ index, FailsAt w i index → (∀ earlier < index, ¬ FailsAt w i earlier) →
      Done w i index ∧ (runIn w i).1 = 1 ∧
        (runIn w i).2.tree = (after w i index).tree ∧ (runIn w i).2.output = (after w i index).output) ∧
    ((∀ index, ¬ FailsAt w i index) → (runIn w i).1 = 0) := by
  refine ⟨fun index hfails hearlier => ?_, fun h => ?_⟩
  · obtain ⟨job, hjob, _⟩ := id hfails
    have hlength : index < i.jobs.length := (List.getElem?_eq_some_iff.1 hjob).1
    obtain ⟨watch, w', hbefore⟩ := exists_outcome_allJobs (Nat.le_of_lt hlength) hearlier
    have hfails' := (failsAt_iff hbefore hjob).1 hfails
    rcases outcome_allJobs_succ hbefore hjob with ⟨r, w'', hr, hdelivers, _⟩ | ⟨_, report, w'', hafter, htree, houtput⟩
    · exact absurd hdelivers (hfails'.not_delivers hr)
    · obtain ⟨hstatus, hagrees⟩ := runIn_of_error (outcome_allJobs_of_error hafter)
      have hprefix := agrees_after_of_ok hbefore
      refine ⟨(runIn_of_ok hbefore).1, hstatus, ?_, ?_⟩
      · rw [hagrees.tree, htree, hprefix.tree]
      · rw [hagrees.output, houtput, hprefix.output]
  · obtain ⟨watch, w', hall⟩ := exists_outcome_allJobs (Nat.le_refl _) fun index _ => h index
    rw [Invocation.first, List.take_length] at hall
    exact (runIn_of_ok hall).1

/-- One file, and a line of input for each of three jobs. -/
def worldOfOneFile : World FileTree where
  tree := .addFile {} ["a"] "NFA x\n<> 0 0\n".toUTF8.data.toList
  input := .ofSource (.ofString "b\nc\na\n")

def missingOperand : Invocation where
  jobs := [.unary .minimization "a", .unary .minimization "missing", .unary .determinization "a"]

/-- The second job has no operand, so its file is not created, and the third job is not begun. -/
theorem runIn_firstFailure_missingOperand :
    FailsAt worldOfOneFile missingOperand 1 ∧ (∀ earlier < 1, ¬ FailsAt worldOfOneFile missingOperand earlier) ∧
      (runIn worldOfOneFile missingOperand).1 = 1 ∧
      (runIn worldOfOneFile missingOperand).2.tree = (after worldOfOneFile missingOperand 1).tree ∧
      (runIn worldOfOneFile missingOperand).2.output = (after worldOfOneFile missingOperand 1).output ∧
      (runIn worldOfOneFile missingOperand).2.tree.files.entries.map (·.1) = [["a"], ["b"]] := by
  have hmissing : openFile (after worldOfOneFile missingOperand 1).tree "missing" =
      .error SystemError.noSuchFile.message := by decide +kernel
  have hfails : FailsAt worldOfOneFile missingOperand 1 := ⟨_, rfl, .compute (.input (.missing hmissing))⟩
  have hfirst : Done worldOfOneFile missingOperand 1 := by
    unfold Done
    decide +kernel
  have hearlier : ∀ earlier < 1, ¬ FailsAt worldOfOneFile missingOperand earlier := fun _ => hfirst.not_failsAt
  obtain ⟨_, hstatus, htree, houtput⟩ := (runIn_firstFailure worldOfOneFile missingOperand).1 1 hfails hearlier
  refine ⟨hfails, hearlier, hstatus, htree, houtput, ?_⟩
  rw [htree]
  decide +kernel

end FiniteAutomata.CommandLine
