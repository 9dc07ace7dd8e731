import FiniteAutomata.CommandLine.FileTree
import FiniteAutomata.OperationFailure

/-! Paths and the files at their ends. Saving a file changes this file alone, so a path leads to the same location as
before, and the file there is read back as it was saved until another one is saved at the same location. -/

namespace FiniteAutomata.CommandLine.FileTree

open Text

variable {t t' : FileTree} {path : String} {start location : Location} {bytes : List UInt8}

/-- The path leads to the location, by steps from one directory to the next. -/
def Names (t : FileTree) (path : String) (location : Location) : Prop :=
  ∃ names, steps path = .ok names ∧ t.walk (t.origin path) names = .ok location

theorem Names.unique {location' : Location} (h : t.Names path location) (h' : t.Names path location') :
    location = location' := by
  obtain ⟨names, hsteps, hwalk⟩ := h
  obtain ⟨names', hsteps', hwalk'⟩ := h'
  obtain rfl := Except.ok.inj (hsteps.symm.trans hsteps')
  exact Except.ok.inj (hwalk.symm.trans hwalk')

theorem exists_checkDirectory : (∃ u, t.checkDirectory location = .ok u) ↔ t.isDirectory location = true := by
  unfold checkDirectory
  split
  · next h => exact iff_of_true ⟨(), rfl⟩ h
  · next h => split <;> exact iff_of_false (by rintro ⟨_, ⟨⟩⟩) h

/-- Where one step leads. -/
def stepTo (start : Location) (step : String) : Except SystemError Location :=
  if step = "" ∨ step = "." then .ok start
  else if step = ".." then .ok start.dropLast
  else if 255 < step.utf8ByteSize then .error .nameTooLong
  else .ok (start ++ [step])

/-- A walk goes on where its first step has led, which is taken from a directory. -/
theorem walk_cons_eq_ok {step : String} {names : List String} : t.walk start (step :: names) = .ok location ↔
    t.isDirectory start = true ∧ ∃ next, stepTo start step = .ok next ∧ t.walk next names = .ok location := by
  rw [walk, bind_eq_ok, ← exists_checkDirectory, stepTo, ← exists_and_right]
  refine exists_congr fun _ => and_congr_right fun _ => ?_
  split
  · simp
  · split
    · simp
    · split <;> simp [throw, throwThe, MonadExceptOf.throw]

theorem walk_append_eq_ok {names names' : List String} : t.walk start (names ++ names') = .ok location ↔
    ∃ around, t.walk start names = .ok around ∧ t.walk around names' = .ok location := by
  induction names generalizing start with
  | nil => simp [walk]
  | cons step names ih =>
      simp only [List.cons_append, walk_cons_eq_ok, ih]
      grind

/-- The files make no difference to where a walk leads. -/
theorem walk_eq_ok_congr (h : t'.directories = t.directories) {names : List String} :
    t'.walk start names = .ok location ↔ t.walk start names = .ok location := by
  induction names generalizing start with
  | nil => exact Iff.rfl
  | cons step names ih => simp only [walk_cons_eq_ok, isDirectory, h, ih]

theorem names_congr (hdirectories : t'.directories = t.directories) (hworking : t'.working = t.working) :
    t'.Names path location ↔ t.Names path location := by
  have horigin : t'.origin path = t.origin path := by rw [origin, origin, hworking]
  refine exists_congr fun names => and_congr_right fun _ => ?_
  rw [horigin, walk_eq_ok_congr hdirectories]

/-- A file is saved at the location that its path leads to, which is not that of a directory. -/
theorem saveFile_eq_ok (h : t.saveFile path bytes = .ok t') : ∃ location, t.Names path location ∧
    t.isDirectory location = false ∧ t' = { t with files := t.files.insert location bytes } := by
  rw [saveFile, bind_eq_ok] at h
  obtain ⟨names, hnames, h⟩ := h
  dsimp only at h
  rw [bind_eq_ok] at h
  obtain ⟨around, haround, h⟩ := h
  rw [bind_eq_ok] at h
  obtain ⟨_, _, h⟩ := h
  split at h
  · cases h
  next hlast =>
  -- A path with a slash at its end is refused, so the last name is the last step.
  have hsuffix : names.reverse.dropWhile (fun step => decide (step = "")) = names.reverse :=
    (List.dropWhile_suffix _).eq_of_length_le (Nat.le_of_not_lt fun hlt => hlast (.inl hlt))
  rw [hsuffix] at haround h
  obtain ⟨location, hlocation, h⟩ := bind_eq_ok.1 h
  split at h
  · cases h
  next hfile =>
  have hfile : t.isDirectory location = false := Bool.eq_false_iff.2 hfile
  refine ⟨location, ⟨names, hnames, ?_⟩, hfile, (Except.ok.inj h).symm⟩
  obtain ⟨before, name, rfl⟩ | rfl := names.eq_nil_or_concat.symm
  · rw [List.concat_eq_append] at haround hlocation ⊢
    rw [List.reverse_append] at haround hlocation
    exact walk_append_eq_ok.2 ⟨around, by simpa using haround, by simpa using hlocation⟩
  · -- Without a name the file would be the directory around it.
    obtain ⟨hdirectory, next, hnext, hlocation⟩ := walk_cons_eq_ok.1 hlocation
    obtain rfl := Except.ok.inj hnext
    obtain rfl := Except.ok.inj hlocation
    rw [hdirectory] at hfile
    cases hfile

end FiniteAutomata.CommandLine.FileTree
