import FiniteAutomata.Proofs.ArgumentOrder
import Mathlib.Data.List.TakeWhile

/-! What the arguments of a command line ask for, as a grammar: a sequence of settings, each of them written with one
or more arguments. The program accepts the sequences without repeated limits, and no others. -/

namespace FiniteAutomata.CommandLine

/-- What one option asks for. -/
inductive Setting where
  | job (job : Job)
  | limit (limit : Nat)
  | timed
deriving DecidableEq

namespace Setting

def job? : Setting → Option Job
  | job j => some j
  | _ => none

def limit? : Setting → Option Nat
  | limit n => some n
  | _ => none

end Setting

def OptionKind.name : OptionKind → String
  | operation o => o.name
  | limit => "max-states"
  | timed => "time"

/-- An argument that is a value: a hyphen alone, or what begins with something else. -/
def IsValue (argument : String) : Prop := ∀ c cs, argument.toList ≠ '-' :: c :: cs

/-- The arguments that write a setting. An option of one value may have it in the same argument. -/
inductive Writes : Setting → List String → Prop where
  | binary (operation : BinaryOperation) {left right : String} : IsValue left → IsValue right →
    Writes (.job (.binary operation left right)) ["--" ++ operation.name, left, right]
  | unary (operation : UnaryOperation) {input : String} : IsValue input →
    Writes (.job (.unary operation input)) ["--" ++ operation.name, input]
  | unaryAttached (operation : UnaryOperation) (input : String) :
    Writes (.job (.unary operation input)) ["--" ++ operation.name ++ "=" ++ input]
  | limit {text : String} {n : Nat} : IsValue text → parseLimit? text = some n →
    Writes (.limit n) ["--max-states", text]
  | limitAttached {text : String} {n : Nat} : parseLimit? text = some n →
    Writes (.limit n) ["--max-states=" ++ text]
  | timed : Writes .timed ["--time"]

theorem Writes.length_pos {setting : Setting} {front : List String} (h : Writes setting front) : 0 < front.length := by
  cases h <;> exact Nat.succ_pos _

/-- The arguments that write some settings one after another, perhaps with two hyphens at the end. -/
inductive IsLine : List Setting → List String → Prop where
  | nil : IsLine [] []
  | separator : IsLine [] ["--"]
  | cons {setting : Setting} {settings : List Setting} {front rest : List String} : Writes setting front →
    IsLine settings rest → IsLine (setting :: settings) (front ++ rest)

/-- Neither a limit nor the measuring of time is asked for more than once. -/
def OnceEach (settings : List Setting) : Prop :=
  (settings.filterMap Setting.limit?).length ≤ 1 ∧ settings.count .timed ≤ 1

/-- What some settings ask for together. -/
def Invocation.ofSettings (settings : List Setting) : Invocation where
  jobs := settings.filterMap Setting.job?
  limit := (settings.filterMap Setting.limit?).getLast?
  timed := decide (.timed ∈ settings)

section Words

variable {argument name text : String} {cs ds : List Char}

theorem ne_equals_of_not_mem (h : '=' ∉ cs) : ∀ c ∈ cs, (c != '=') = true :=
  fun _ hc => bne_iff_ne.2 fun heq => h (heq ▸ hc)

theorem ofOption_of_not_mem (h : '=' ∉ cs) : Word.ofOption cs = .option (String.ofList cs) none := by
  have hall := ne_equals_of_not_mem h
  rw [Word.ofOption, List.takeWhile_eq_self_iff.2 hall, List.dropWhile_eq_nil_iff.2 hall]

theorem ofOption_append (h : '=' ∉ cs) (ds : List Char) :
    Word.ofOption (cs ++ '=' :: ds) = .option (String.ofList cs) (some (String.ofList ds)) := by
  have hall := ne_equals_of_not_mem h
  rw [Word.ofOption, List.takeWhile_append_of_pos hall, List.dropWhile_append_of_pos hall,
    List.takeWhile_cons_of_neg (by simp), List.dropWhile_cons_of_neg (by simp), List.append_nil]

/-- What stands behind two hyphens can be told from the option. -/
theorem exists_ofOption (cs : List Char) : ∃ name attached, Word.ofOption cs = .option name attached ∧
    cs = (name ++ attached.elim "" ("=" ++ ·)).toList := by
  by_cases hmem : '=' ∈ cs
  · obtain ⟨before, after, rfl, hbefore⟩ := List.eq_append_cons_of_mem hmem
    exact ⟨_, _, ofOption_append hbefore after, by simp⟩
  · exact ⟨_, _, ofOption_of_not_mem hmem, by simp⟩

theorem ofArgument_eq_value : Word.ofArgument argument = .value text ↔ argument = text ∧ IsValue argument := by
  unfold Word.ofArgument
  split
  · next heq => exact iff_of_false (by rintro ⟨⟩) fun h => h.2 _ _ heq
  · next cs _ heq =>
    obtain ⟨name, attached, hoption, _⟩ := exists_ofOption cs
    rw [hoption]
    exact iff_of_false (by rintro ⟨⟩) fun h => h.2 _ _ heq
  · next heq => exact iff_of_false (by rintro ⟨⟩) fun h => h.2 _ _ heq
  · next hvalue =>
    rw [Word.value.injEq, and_iff_left]
    exact fun c cs => hvalue c cs

theorem IsValue.ofArgument_eq (h : IsValue text) : Word.ofArgument text = .value text :=
  ofArgument_eq_value.2 ⟨rfl, h⟩

theorem ofArgument_eq_separator : Word.ofArgument argument = .separator ↔ argument = "--" := by
  refine ⟨fun h => ?_, fun h => h ▸ rfl⟩
  unfold Word.ofArgument at h
  split at h
  · next heq => exact String.toList_inj.1 heq
  · next cs _ _ =>
    obtain ⟨name, attached, hoption, _⟩ := exists_ofOption cs
    cases h.symm.trans hoption
  all_goals cases h

theorem ofArgument_hyphens (h : cs ≠ []) : Word.ofArgument (String.ofList ('-' :: '-' :: cs)) = .ofOption cs := by
  obtain ⟨c, cs, rfl⟩ := List.exists_cons_of_ne_nil h
  rw [Word.ofArgument, String.toList_ofList]
  rfl

theorem ofArgument_option (hname : name ≠ "") (h : '=' ∉ name.toList) :
    Word.ofArgument ("--" ++ name) = .option name none := by
  have hargument : "--" ++ name = String.ofList ('-' :: '-' :: name.toList) := String.toList_inj.1 (by simp)
  rw [hargument, ofArgument_hyphens (by simpa using hname), ofOption_of_not_mem h, String.ofList_toList]

theorem ofArgument_attached (h : '=' ∉ name.toList) (text : String) :
    Word.ofArgument ("--" ++ name ++ "=" ++ text) = .option name (some text) := by
  have hargument : "--" ++ name ++ "=" ++ text = String.ofList ('-' :: '-' :: (name.toList ++ '=' :: text.toList)) :=
    String.toList_inj.1 (by simp)
  rw [hargument, ofArgument_hyphens (by simp), ofOption_append h, String.ofList_toList, String.ofList_toList]

theorem eq_of_ofArgument_option {attached : Option String} (h : Word.ofArgument argument = .option name attached) :
    argument = "--" ++ name ++ attached.elim "" ("=" ++ ·) := by
  unfold Word.ofArgument at h
  split at h
  · cases h
  · next cs _ heq =>
    obtain ⟨name', attached', hoption, hcs⟩ := exists_ofOption cs
    cases h.symm.trans hoption
    exact String.toList_inj.1 (by simp [heq, hcs])
  · cases h
  · cases h

end Words

section Settings

variable {m m' : Matches} {setting : Setting} {settings : List Setting} {front rest arguments : List String}
  {name : String} {kind : OptionKind}

theorem ofName?_eq_some : OptionKind.ofName? name = some kind ↔ name = kind.name := by
  refine ⟨fun h => ?_, ?_⟩
  · unfold OptionKind.ofName? at h
    split at h <;> cases h <;> rfl
  · rintro rfl
    rcases kind with ((_ | _ | _) | (_ | _)) | _ | _ <;> rfl

theorem ofArgument_optionKind (kind : OptionKind) : Word.ofArgument ("--" ++ kind.name) = .option kind.name none := by
  rcases kind with ((_ | _ | _) | (_ | _)) | _ | _ <;> exact ofArgument_option (by decide) (by decide)

theorem ofArgument_optionKind_attached (kind : OptionKind) (text : String) :
    Word.ofArgument ("--" ++ kind.name ++ "=" ++ text) = .option kind.name (some text) := by
  rcases kind with ((_ | _ | _) | (_ | _)) | _ | _ <;> exact ofArgument_attached (by decide) text

namespace Matches

/-- What is recorded when one more setting is written. -/
def addSetting (m : Matches) : Setting → Matches
  | .job (.binary operation left right) => m.addUse (.binary operation) [left, right]
  | .job (.unary operation input) => m.addUse (.unary operation) [input]
  | .limit n => { m with limit := some n, lastIndex := m.lastIndex + 2 }
  | .timed => { m with timed := true, lastIndex := m.lastIndex + 1 }

/-- Neither the limit nor the measuring of time is asked for twice. -/
def Allows (m : Matches) : Setting → Prop
  | .job _ => True
  | .limit _ => m.limit = none
  | .timed => m.timed = false

theorem setLimit_eq_ok {text : String} : m.setLimit text = .ok m' ↔
    ∃ n, parseLimit? text = some n ∧ m.Allows (.limit n) ∧ m' = m.addSetting (.limit n) := by
  rw [setLimit]
  cases hlimit : m.limit with
  | some n => simp [Allows, hlimit]
  | none =>
      cases parseLimit? text with
      | none => simp
      | some n => simp [Allows, addSetting, hlimit, @eq_comm _ m']

theorem setTimed_eq_ok : m.setTimed = .ok m' ↔ m.Allows .timed ∧ m' = m.addSetting .timed := by
  rw [setTimed]
  cases htimed : m.timed <;> simp [Allows, addSetting, htimed, @eq_comm _ m']

/-- The arguments of an allowed setting are taken in one step. -/
theorem addWords_front (h : Writes setting front) (rest : List String) :
    m.addWords ((front ++ rest).map Word.ofArgument) = .ok m' ↔
      m.Allows setting ∧ (m.addSetting setting).addWords (rest.map Word.ofArgument) = .ok m' := by
  have hkind : ∀ kind : OptionKind, OptionKind.ofName? kind.name = some kind := fun _ => ofName?_eq_some.2 rfl
  cases h with
  | binary operation hleft hright =>
      have hoption := ofArgument_optionKind (.operation (.binary operation))
      have hkind := hkind (.operation (.binary operation))
      simp only [OptionKind.name, Operation.name] at hoption hkind
      simp [hoption, hleft.ofArgument_eq, hright.ofArgument_eq, addWords, hkind, Allows, addSetting]
  | unary operation hinput =>
      have hoption := ofArgument_optionKind (.operation (.unary operation))
      have hkind := hkind (.operation (.unary operation))
      simp only [OptionKind.name, Operation.name] at hoption hkind
      simp [hoption, hinput.ofArgument_eq, addWords, hkind, Allows, addSetting]
  | unaryAttached operation input =>
      have hoption := ofArgument_optionKind_attached (.operation (.unary operation)) input
      have hkind := hkind (.operation (.unary operation))
      simp only [OptionKind.name, Operation.name] at hoption hkind
      simp [hoption, addWords, hkind, Allows, addSetting]
  | limit htext hlimit =>
      have hoption : Word.ofArgument "--max-states" = .option "max-states" none := ofArgument_optionKind .limit
      have hkind : OptionKind.ofName? "max-states" = some .limit := hkind .limit
      simp [hoption, htext.ofArgument_eq, addWords, hkind, bind_eq_ok, setLimit_eq_ok, hlimit]
  | limitAttached hlimit =>
      have hoption : ∀ text, Word.ofArgument ("--max-states=" ++ text) = .option "max-states" (some text) :=
        ofArgument_optionKind_attached .limit
      have hkind : OptionKind.ofName? "max-states" = some .limit := hkind .limit
      simp [hoption, addWords, hkind, bind_eq_ok, setLimit_eq_ok, hlimit]
  | timed =>
      have hoption : Word.ofArgument "--time" = .option "time" none := ofArgument_optionKind .timed
      have hkind : OptionKind.ofName? "time" = some .timed := hkind .timed
      simp [hoption, addWords, hkind, bind_eq_ok, setTimed_eq_ok]

theorem exists_cons_value {text : String} {words : List Word}
    (h : rest.map Word.ofArgument = .value text :: words) :
    ∃ rest', rest = text :: rest' ∧ IsValue text ∧ words = rest'.map Word.ofArgument := by
  obtain ⟨argument, rest', rfl, hword, rfl⟩ := List.map_eq_cons_iff.1 h
  obtain ⟨rfl, hvalue⟩ := ofArgument_eq_value.1 hword
  exact ⟨rest', rfl, hvalue, rfl⟩

/-- What is accepted after an option begins with its values. -/
theorem exists_front_of_option {attached : Option String}
    (h : m.addWords (.option kind.name attached :: rest.map Word.ofArgument) = .ok m') :
    ∃ setting front rest', Writes setting front ∧
      ("--" ++ kind.name ++ attached.elim "" ("=" ++ ·)) :: rest = front ++ rest' := by
  have hkind : OptionKind.ofName? kind.name = some kind := ofName?_eq_some.2 rfl
  unfold addWords at h
  rw [hkind] at h
  split at h
  · cases h
  · next operation left right words hsome hwords =>
    cases hsome
    obtain ⟨rest₁, rfl, hleft, hwords⟩ := exists_cons_value hwords
    obtain ⟨rest₂, rfl, hright, _⟩ := exists_cons_value hwords.symm
    exact ⟨_, _, rest₂, .binary operation hleft hright, by rw [Option.elim_none, String.append_empty]; rfl⟩
  · next operation input hsome =>
    cases hsome
    exact ⟨_, _, rest, .unaryAttached operation input, by rw [Option.elim_some, ← String.append_assoc]; rfl⟩
  · next operation input words hsome hwords =>
    cases hsome
    obtain ⟨rest₁, rfl, hinput, _⟩ := exists_cons_value hwords
    exact ⟨_, _, rest₁, .unary operation hinput, by rw [Option.elim_none, String.append_empty]; rfl⟩
  · next text hsome =>
    cases hsome
    obtain ⟨_, hlimit, _⟩ := bind_eq_ok.1 h
    obtain ⟨n, hn, _⟩ := setLimit_eq_ok.1 hlimit
    exact ⟨_, _, rest, .limitAttached hn, by rw [Option.elim_some, ← String.append_assoc]; rfl⟩
  · next text words hsome hwords =>
    cases hsome
    obtain ⟨rest₁, rfl, htext, _⟩ := exists_cons_value hwords
    obtain ⟨_, hlimit, _⟩ := bind_eq_ok.1 h
    obtain ⟨n, hn, _⟩ := setLimit_eq_ok.1 hlimit
    exact ⟨_, _, rest₁, .limit htext hn, by rw [Option.elim_none, String.append_empty]; rfl⟩
  · next hsome =>
    cases hsome
    exact ⟨_, _, rest, .timed, by rw [Option.elim_none, String.append_empty]; rfl⟩
  · cases h
  · cases h

/-- What is accepted begins with the arguments of a setting, unless it is at its end. -/
theorem exists_front (h : m.addWords (arguments.map Word.ofArgument) = .ok m') :
    (IsLine [] arguments ∧ m' = m) ∨ ∃ setting front rest, Writes setting front ∧ arguments = front ++ rest := by
  rcases arguments with _ | ⟨argument, rest⟩
  · rw [List.map_nil, addWords] at h
    exact .inl ⟨.nil, (Except.ok.inj h).symm⟩
  rw [List.map_cons] at h
  cases hword : Word.ofArgument argument with
  | separator =>
      obtain rfl := ofArgument_eq_separator.1 hword
      rcases rest with _ | ⟨next, rest⟩
      · rw [hword, List.map_nil, addWords] at h
        exact .inl ⟨.separator, (Except.ok.inj h).symm⟩
      · rw [hword, List.map_cons] at h
        cases hnext : Word.ofArgument next <;> simp [hnext, addWords] at h
  | cluster argument => simp [hword, addWords] at h
  | value text => simp [hword, addWords] at h
  | option name attached =>
      obtain rfl := eq_of_ofArgument_option hword
      cases hname : OptionKind.ofName? name with
      | none => simp [hword, addWords, hname] at h
      | some kind =>
          obtain rfl := ofName?_eq_some.1 hname
          exact .inr (exists_front_of_option (hword ▸ h))

/-- Some settings can be added without asking for something twice. -/
def Fits (m : Matches) (settings : List Setting) : Prop :=
  m.limit.toList.length + (settings.filterMap Setting.limit?).length ≤ 1 ∧
    m.timed.toNat + settings.count .timed ≤ 1

theorem fits_nil : m.Fits [] := by
  cases hlimit : m.limit <;> cases htimed : m.timed <;> simp [Fits, hlimit, htimed]

theorem fits_cons : m.Fits (setting :: settings) ↔ m.Allows setting ∧ (m.addSetting setting).Fits settings := by
  have hlimits : ((setting :: settings).filterMap Setting.limit?).length =
      setting.limit?.toList.length + (settings.filterMap Setting.limit?).length := by
    cases h : setting.limit? <;> simp [h, Nat.add_comm]
  have htimed : (setting :: settings).count .timed =
      settings.count .timed + (decide (setting = .timed)).toNat := by
    rw [List.count_cons]
    cases setting <;> rfl
  rw [Fits, hlimits, htimed]
  cases setting with
  | job j => cases j <;> simp [Fits, Allows, addSetting, addUse, Setting.limit?]
  | limit n =>
      cases hlimit : m.limit <;>
        simp only [Fits, Allows, addSetting, Setting.limit?, hlimit, Option.toList_none, Option.toList_some,
          List.length_nil, List.length_singleton, reduceCtorEq, decide_false, Bool.toNat_false, true_and,
          false_and, iff_false] <;> omega
  | timed =>
      cases htimed : m.timed <;>
        simp only [Fits, Allows, addSetting, Setting.limit?, htimed, Option.toList_none, List.length_nil,
          reduceCtorEq, decide_true, Bool.toNat_false, Bool.toNat_true, true_and, false_and, iff_false] <;> omega

/-- Arguments are accepted when they write settings that fit, and these are recorded one after another. -/
theorem addWords_eq_ok : m.addWords (arguments.map Word.ofArgument) = .ok m' ↔
    ∃ settings, IsLine settings arguments ∧ m.Fits settings ∧ m' = settings.foldl addSetting m := by
  refine ⟨fun h => ?_, ?_⟩
  · induction hn : arguments.length using Nat.strongRecOn generalizing m arguments with
    | ind n ih =>
        rcases exists_front h with ⟨hline, rfl⟩ | ⟨setting, front, rest, hfront, rfl⟩
        · exact ⟨[], hline, fits_nil, rfl⟩
        · obtain ⟨hallows, hrest⟩ := (addWords_front hfront rest).1 h
          have hlength : rest.length < n := by
            rw [← hn, List.length_append]
            have hpos := hfront.length_pos
            omega
          obtain ⟨settings, hline, hfits, rfl⟩ := ih _ hlength hrest rfl
          exact ⟨setting :: settings, .cons hfront hline, fits_cons.2 ⟨hallows, hfits⟩, rfl⟩
  · rintro ⟨settings, hline, hfits, rfl⟩
    induction hline generalizing m with
    | nil => rfl
    | separator => rfl
    | cons hfront _ ih =>
        obtain ⟨hallows, hfits⟩ := fits_cons.1 hfits
        exact (addWords_front hfront _).2 ⟨hallows, ih hfits⟩

end Matches

end Settings

section Recording

variable {m : Matches} {jobs : List Job} {settings : List Setting}

/-- What is recorded of a command line so far; the indices on the rest of it will be larger. -/
def Recorded (m : Matches) (jobs : List Job) : Prop :=
  ∃ line, Records m line ∧ line.filterMap Use.job? = jobs ∧ ∀ index ∈ line.flatMap Use.indices, index ≤ m.lastIndex

theorem Recorded.addUse {operation : Operation} {values : List String} (h : Recorded m jobs) :
    Recorded (m.addUse operation values) (jobs ++ (Job.ofOperands? operation values).toList) := by
  obtain ⟨line, hrecords, rfl, hlast⟩ := h
  let use : Use := ⟨operation, (List.range' (m.lastIndex + 2) values.length).zip values⟩
  have hvalues : use.values = values := List.map_snd_zip (by simp)
  have hindices : use.indices = List.range' (m.lastIndex + 2) values.length := List.map_fst_zip (by simp)
  have hfilter : ∀ o, (line ++ [use]).filter (·.operation = o) =
      line.filter (·.operation = o) ++ if o = operation then [use] else [] := by
    intro o
    rw [List.filter_append, List.filter_singleton]
    by_cases heq : o = operation
    · simp [use, heq]
    · simp [use, heq, Ne.symm heq]
  refine ⟨line ++ [use], ⟨fun o => ?_, fun o => ?_, ?_⟩, ?_, ?_⟩
  · rw [hfilter, List.map_append, ← hrecords.groups]
    by_cases heq : o = operation
    · simp [Matches.addUse, heq, hvalues]
    · simp [Matches.addUse, heq]
  · rw [hfilter, List.flatMap_append, ← hrecords.indices]
    by_cases heq : o = operation
    · simp [Matches.addUse, heq, hindices]
    · simp [Matches.addUse, heq]
  · rw [List.flatMap_append, List.pairwise_append, List.flatMap_singleton, hindices]
    refine ⟨hrecords.increasing, List.pairwise_lt_range', fun i hi j hj => ?_⟩
    have hbefore := hlast i hi
    have hafter := (List.mem_range'_1.1 hj).1
    omega
  · have hjob : use.job? = Job.ofOperands? operation values := by rw [Use.job?, hvalues]
    cases hoperands : Job.ofOperands? operation values <;> simp [hjob, hoperands]
  · intro index hindex
    rw [List.flatMap_append, List.flatMap_singleton, hindices, List.mem_append, List.mem_range'_1] at hindex
    dsimp only [Matches.addUse]
    rcases hindex with hindex | hindex
    · have hbefore := hlast index hindex
      omega
    · omega

/-- A setting that asks for a job adds this job, and other settings add none. -/
theorem Recorded.addSetting (h : Recorded m jobs) (setting : Setting) :
    Recorded (m.addSetting setting) (jobs ++ setting.job?.toList) := by
  obtain ⟨line, ⟨hgroups, hindices, hincreasing⟩, hjobs, hlast⟩ := id h
  cases setting with
  | job j => cases j <;> exact h.addUse
  | limit n =>
      exact ⟨line, ⟨hgroups, hindices, hincreasing⟩, by simpa [Setting.job?] using hjobs,
        fun index hindex => Nat.le_add_right_of_le (hlast index hindex)⟩
  | timed =>
      exact ⟨line, ⟨hgroups, hindices, hincreasing⟩, by simpa [Setting.job?] using hjobs,
        fun index hindex => Nat.le_add_right_of_le (hlast index hindex)⟩

theorem Recorded.foldl (h : Recorded m jobs) (settings : List Setting) :
    Recorded (settings.foldl Matches.addSetting m) (jobs ++ settings.filterMap Setting.job?) := by
  induction settings generalizing m jobs with
  | nil => rwa [List.filterMap_nil, List.append_nil]
  | cons setting settings ih =>
      have hrest := ih (h.addSetting setting)
      rw [List.append_assoc] at hrest
      cases hjob : setting.job? <;> simpa [List.filterMap_cons, hjob] using hrest

theorem recorded_empty : Recorded {} [] := ⟨[], ⟨fun _ => rfl, fun _ => rfl, .nil⟩, rfl, by simp⟩

theorem Recorded.jobsInOrder_eq (h : Recorded m jobs) : m.jobsInOrder = jobs := by
  obtain ⟨line, hrecords, rfl, _⟩ := h
  exact hrecords.jobsInOrder_eq

end Recording

section Invocations

variable {m : Matches} {settings : List Setting} {arguments : List String} {i : Invocation}

theorem limit_foldl_addSetting : (settings.foldl Matches.addSetting m).limit =
    ((settings.filterMap Setting.limit?).getLast?).or m.limit := by
  induction settings generalizing m with
  | nil => rfl
  | cons setting settings ih =>
      rw [List.foldl_cons, ih]
      rcases setting with (_ | _) | n | _ <;>
        simp [List.filterMap_cons, List.getLast?_cons, Setting.limit?, Matches.addSetting, Matches.addUse]

theorem timed_foldl_addSetting : (settings.foldl Matches.addSetting m).timed =
    (m.timed || decide (.timed ∈ settings)) := by
  induction settings generalizing m with
  | nil => simp
  | cons setting settings ih =>
      rw [List.foldl_cons, ih]
      rcases setting with (_ | _) | n | _ <;> simp [Matches.addSetting, Matches.addUse]

/-- Every setting takes an index. -/
theorem lastIndex_foldl_addSetting :
    m.lastIndex + settings.length ≤ (settings.foldl Matches.addSetting m).lastIndex := by
  induction settings generalizing m with
  | nil => exact Nat.le_refl _
  | cons setting settings ih =>
      have hstep : m.lastIndex + 1 ≤ (m.addSetting setting).lastIndex := by
        rcases setting with (_ | _) | n | _ <;> dsimp only [Matches.addSetting, Matches.addUse] <;> omega
      have hrest := @ih (m.addSetting setting)
      rw [List.foldl_cons, List.length_cons]
      omega

/-- The invocation is that of the settings that are written on the command line. -/
theorem parse_eq_ok : Invocation.parse arguments = .ok i ↔
    ∃ settings, IsLine settings arguments ∧ settings ≠ [] ∧ OnceEach settings ∧ i = .ofSettings settings := by
  have hempty : ∀ settings, ({} : Matches).Fits settings ↔ OnceEach settings := by
    intro settings
    simp [Matches.Fits, OnceEach]
  have hindex : ∀ settings : List Setting,
      (settings.foldl Matches.addSetting {}).lastIndex = 0 ↔ settings = [] := by
    refine fun settings => ⟨fun h => ?_, fun h => h ▸ rfl⟩
    have hle := @lastIndex_foldl_addSetting {} settings
    exact List.length_eq_zero_iff.1 (by omega)
  have hinvocation : ∀ settings : List Setting,
      ({ jobs := (settings.foldl Matches.addSetting {}).jobsInOrder
         limit := (settings.foldl Matches.addSetting {}).limit
         timed := (settings.foldl Matches.addSetting {}).timed } : Invocation) = .ofSettings settings := by
    intro settings
    rw [(recorded_empty.foldl settings).jobsInOrder_eq, limit_foldl_addSetting, timed_foldl_addSetting,
      Option.or_none, Bool.false_or]
    rfl
  rw [Invocation.parse, bind_eq_ok]
  refine ⟨?_, ?_⟩
  · rintro ⟨m, hwords, h⟩
    obtain ⟨settings, hline, hfits, rfl⟩ := Matches.addWords_eq_ok.1 hwords
    by_cases hnil : settings = []
    · rw [if_pos ((hindex settings).2 hnil)] at h
      cases h
    · rw [if_neg (mt (hindex settings).1 hnil)] at h
      refine ⟨settings, hline, hnil, (hempty settings).1 hfits, ?_⟩
      rw [← hinvocation]
      exact (Except.ok.inj h).symm
  · rintro ⟨settings, hline, hnil, honce, rfl⟩
    refine ⟨_, Matches.addWords_eq_ok.2 ⟨settings, hline, (hempty settings).2 honce, rfl⟩, ?_⟩
    rw [if_neg (mt (hindex settings).1 hnil), ← hinvocation]
    rfl

end Invocations

end FiniteAutomata.CommandLine
