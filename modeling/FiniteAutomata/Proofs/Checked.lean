import FiniteAutomata.OperationFailure

/-! Computations in which a look-up, an index, a sum or a difference has to be defined. Such a computation
may return an error, as the operations do, and it stops without any answer where a value that it needs is
not defined. -/

namespace FiniteAutomata

/-- A computation that returns a value or an error, or stops where something is not defined. -/
abbrev Checked (ε α : Type) := ExceptT ε Option α

/-- A sum of 64 bits, which is not defined when it is too large. -/
def checkedAdd (m n : Nat) : Option Nat := if m + n ≤ StateId.largest then some (m + n) else none

/-- A difference of natural numbers, which is not defined below zero. -/
def checkedSub (m n : Nat) : Option Nat := if n ≤ m then some (m - n) else none

/-- A product of 64 bits, which is not defined when it is too large. -/
def checkedMul (m n : Nat) : Option Nat := if m * n ≤ StateId.largest then some (m * n) else none

theorem checkedAdd_eq_some {m n : Nat} (h : m + n ≤ StateId.largest) : checkedAdd m n = some (m + n) := if_pos h

theorem checkedAdd_eq_none {m n : Nat} (h : StateId.largest < m + n) : checkedAdd m n = none :=
  if_neg (Nat.not_le.2 h)

theorem checkedSub_eq_some {m n : Nat} (h : n ≤ m) : checkedSub m n = some (m - n) := if_pos h

theorem checkedMul_eq_some {m n : Nat} (h : m * n ≤ StateId.largest) : checkedMul m n = some (m * n) := if_pos h

namespace Checked

variable {ε ε' α β : Type}

section Runs

/-- The computation that needs a value. -/
def defined (x : Option α) : Checked ε α := ExceptT.mk (x.map .ok)

/-- A computation in which everything is defined. -/
def total (r : Except ε α) : Checked ε α := ExceptT.mk (some r)

/-- All values that the computation needs are defined, and it returns `r`. -/
def Runs (x : Checked ε α) (r : Except ε α) : Prop := x.run = some r

theorem Runs.pure (a : α) : Runs (ε := ε) (Pure.pure a) (.ok a) := rfl

theorem Runs.throw (e : ε) : Runs (α := α) (MonadExcept.throw e) (.error e) := rfl

theorem Runs.total (r : Except ε α) : Runs (total r) r := rfl

theorem Runs.defined {x : Option α} {a : α} (h : x = some a) : Runs (ε := ε) (defined x) (.ok a) := by
  rw [h]
  rfl

variable {x : Checked ε α} {f : α → Checked ε β}

theorem Runs.bind_ok {a : α} {r : Except ε β} (hx : Runs x (.ok a)) (hf : Runs (f a) r) :
    Runs (x >>= f) r := by
  rw [Runs, ExceptT.run_bind, hx]
  exact hf

theorem Runs.bind_error {e : ε} (hx : Runs x (.error e)) : Runs (x >>= f) (.error e) := by
  rw [Runs, ExceptT.run_bind, hx]
  rfl

theorem Runs.bind {r : Except ε α} {g : α → Except ε β} (hx : Runs x r)
    (hf : ∀ a, r = .ok a → Runs (f a) (g a)) : Runs (x >>= f) (r >>= g) := by
  cases r with
  | error e => exact hx.bind_error
  | ok a => exact hx.bind_ok (hf a rfl)

theorem Runs.adapt {r : Except ε α} (hx : Runs x r) (f : ε → ε') : Runs (x.adapt f) (r.mapError f) := by
  show x.run.map (Except.mapError f) = some (r.mapError f)
  rw [hx]
  rfl

end Runs

section Lists

variable {l : List α}

theorem mapM_eq_some {f : α → Option β} {g : α → β} (h : ∀ a ∈ l, f a = some (g a)) :
    l.mapM f = some (l.map g) := by
  induction l with
  | nil => rfl
  | cons a l ih =>
      obtain ⟨ha, hl⟩ := List.forall_mem_cons.1 h
      rw [List.mapM_cons, ha, ih hl]
      rfl

theorem allM_eq_some {f : α → Option Bool} {p : α → Bool} (h : ∀ a ∈ l, f a = some (p a)) :
    l.allM f = some (l.all p) := by
  induction l with
  | nil => rfl
  | cons a l ih =>
      obtain ⟨ha, hl⟩ := List.forall_mem_cons.1 h
      rw [List.allM, ha, List.all_cons]
      cases p a with
      | true => exact ih hl
      | false => rfl

theorem findM?_eq_some {f : α → Option Bool} {p : α → Bool} (h : ∀ a ∈ l, f a = some (p a)) :
    l.findM? f = some (l.find? p) := by
  induction l with
  | nil => rfl
  | cons a l ih =>
      obtain ⟨ha, hl⟩ := List.forall_mem_cons.1 h
      rw [List.findM?, ha, List.find?_cons]
      cases p a with
      | true => rfl
      | false => exact ih hl

/-- Steps that are defined under an invariant and keep it are defined together. -/
theorem foldlM_eq_some {f : β → α → Option β} {g : β → α → β} (inside : β → Prop)
    (h : ∀ b, inside b → ∀ a ∈ l, f b a = some (g b a) ∧ inside (g b a)) {b : β} (hb : inside b) :
    l.foldlM f b = some (l.foldl g b) ∧ inside (l.foldl g b) := by
  induction l generalizing b with
  | nil => exact ⟨rfl, hb⟩
  | cons a l ih =>
      obtain ⟨hstep, hinside⟩ := h b hb a List.mem_cons_self
      rw [List.foldlM_cons, hstep, List.foldl_cons]
      exact ih (fun b hb a ha => h b hb a (List.mem_cons_of_mem _ ha)) hinside

end Lists

end Checked

end FiniteAutomata
