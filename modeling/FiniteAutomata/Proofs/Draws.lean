import FiniteAutomata.Proofs.Checked
import FiniteAutomata.Random.Source

/-! Draws in which a sum, a product or a look-up has to be defined, and what holds of them on every stream of words. A
draw is followed from one position to the next: it takes some of the next words, so many at most, and it would come to
the same value on every other stream with these words. Bounds add up along a sequence of draws, and an invariant that
each turn of a loop keeps holds at its end. -/

namespace FiniteAutomata.Random

/-- A draw that stops without a value where something is not defined. -/
abbrev CheckedDraw := StateT Source Option

namespace CheckedDraw

variable {α β : Type} {x : CheckedDraw α} {d : Draw α} {f : α → CheckedDraw β} {g : α → Draw β}
  {m n : Nat} {P P' : α → Prop} {Q : β → Prop}

/-- A draw in which everything is defined. -/
def total (d : Draw α) : CheckedDraw α := fun source => some (d.run source)

/-- From every source, all that the first computation needs is defined, and it comes to the same value as the second
one. The value is as said, at most `bound` words are taken for it, and no other words of the stream matter. -/
def Runs (x : CheckedDraw α) (d : Draw α) (bound : Nat) (P : α → Prop) : Prop :=
  ∀ source : Source, ∃ a used, used ≤ bound ∧ P a ∧
    ∀ words : WordStream, (∀ i < used, words (source.position + i) = source.words (source.position + i)) →
      x.run ⟨words, source.position⟩ = some (a, ⟨words, source.position + used⟩) ∧
      d.run ⟨words, source.position⟩ = (a, ⟨words, source.position + used⟩)

namespace Runs

section Rules

theorem pure {a : α} (ha : P a) : Runs (Pure.pure a) (Pure.pure a) m P :=
  fun _ => ⟨a, 0, Nat.zero_le m, ha, fun _ _ => ⟨rfl, rfl⟩⟩

/-- The next word is any word at all. -/
theorem word : Runs (total Draw.word) Draw.word 1 fun _ => True := by
  intro source
  refine ⟨source.words source.position, 1, Nat.le_refl 1, trivial, fun words hwords => ?_⟩
  have hfirst : words source.position = source.words source.position := hwords 0 Nat.one_pos
  rw [← hfirst]
  exact ⟨rfl, rfl⟩

/-- The second draw goes on where the first one stops. -/
theorem bind (hx : Runs x d m P) (hf : ∀ a, P a → Runs (f a) (g a) n Q) : Runs (x >>= f) (d >>= g) (m + n) Q := by
  intro source
  obtain ⟨a, used, hused, ha, hrun⟩ := hx source
  obtain ⟨b, used', hused', hb, hrun'⟩ := hf a ha ⟨source.words, source.position + used⟩
  refine ⟨b, used + used', Nat.add_le_add hused hused', hb, fun words hwords => ?_⟩
  obtain ⟨hchecked, hdraw⟩ := hrun words fun i hi => hwords i (by omega)
  have hnext : ∀ i < used', words (source.position + used + i) = source.words (source.position + used + i) := by
    intro i hi
    rw [Nat.add_assoc]
    exact hwords (used + i) (by omega)
  obtain ⟨hchecked', hdraw'⟩ := hrun' words hnext
  rw [← Nat.add_assoc]
  constructor
  · rw [StateT.run_bind, hchecked]
    exact hchecked'
  · rw [StateT.run_bind, hdraw]
    exact hdraw'

theorem mono (hx : Runs x d m P) (hbound : m ≤ n) (hP : ∀ a, P a → P' a) : Runs x d n P' := by
  intro source
  obtain ⟨a, used, hused, ha, hrun⟩ := hx source
  exact ⟨a, used, Nat.le_trans hused hbound, hP a ha, hrun⟩

/-- What holds of every value of the draw holds of the value here. -/
theorem of_forall (hx : Runs x d m P) (hP : ∀ source, P' (d.run source).1) : Runs x d m P' := by
  intro source
  obtain ⟨a, used, hused, _, hrun⟩ := hx source
  have hdraw := (hrun source.words fun _ _ => rfl).2
  have hvalue := hP source
  rw [hdraw] at hvalue
  exact ⟨a, used, hused, hvalue, hrun⟩

/-- What happens on one source. -/
theorem run (hx : Runs x d m P) (source : Source) :
    x.run source = some (d.run source) ∧ P (d.run source).1 ∧
      (d.run source).2.position ≤ source.position + m := by
  obtain ⟨a, used, hused, ha, hrun⟩ := hx source
  obtain ⟨hchecked, hdraw⟩ := hrun source.words fun _ _ => rfl
  rw [hchecked, hdraw]
  exact ⟨rfl, ha, Nat.add_le_add_left hused _⟩

/-- A value that is defined takes no word. -/
theorem lift {v : Option α} {a : α} (hv : v = some a) (ha : P a) : Runs (liftM v) (Pure.pure a) m P := by
  rw [hv]
  exact pure ha

theorem defined {v : Option β} {b : β} {f : β → CheckedDraw α} (hv : v = some b) (hf : Runs (f b) d m P) :
    Runs (do f (← v)) d m P := by
  rw [hv]
  exact hf

theorem ite {c : Prop} [Decidable c] {x' : CheckedDraw α} {d' : Draw α} (hthen : c → Runs x d m P)
    (helse : ¬ c → Runs x' d' m P) : Runs (if c then x else x') (if c then d else d') m P := by
  split
  · next hc => exact hthen hc
  · next hc => exact helse hc

/-- A loop keeps an invariant that counts its turns. -/
theorem foldlM_range {f : α → Nat → CheckedDraw α} {g : α → Nat → Draw α} {I : Nat → α → Prop}
    (hstep : ∀ i < n, ∀ a, I i a → Runs (f a i) (g a i) m (I (i + 1))) {a : α} (ha : I 0 a) :
    Runs ((List.range n).foldlM f a) ((List.range n).foldlM g a) (n * m) (I n) := by
  induction n with
  | zero => exact .pure ha
  | succ n ih =>
      -- The last turn is split off: the invariant counts from the first one.
      rw [List.range_succ, List.foldlM_append, List.foldlM_append, Nat.succ_mul]
      refine (ih fun i hi => hstep i (Nat.lt_succ_of_lt hi)).bind fun a ha => ?_
      simp only [List.foldlM_cons, List.foldlM_nil, bind_pure]
      exact hstep n (Nat.lt_succ_self n) a ha

end Rules

end Runs

section Below

/-- `Draw.below` with a range that must not be empty, and with products, sums and differences of 64 bits. -/
def below (n : Nat) : CheckedDraw Nat :=
  if n = 0 then failure
  else do
    let product ← checkedMul (← total Draw.halfWord) n
    let high := product / Draw.halfWords
    let low := product % Draw.halfWords
    if low > (← checkedSub Draw.halfWords n) then
      let product ← checkedMul (← total Draw.halfWord) n
      if Draw.halfWords ≤ (← checkedAdd low (product / Draw.halfWords)) then checkedAdd high 1 else return high
    else
      return high

theorem runs_isBelow (threshold : UInt64) :
    Runs (total (Draw.isBelow threshold)) (Draw.isBelow threshold) 1 fun _ => True := by
  show Runs (total Draw.word >>= fun w => Pure.pure (decide (w < threshold))) _ (1 + 0) _
  exact Runs.word.bind fun w _ => .pure trivial

theorem runs_halfWord : Runs (total Draw.halfWord) Draw.halfWord 1 (· < Draw.halfWords) := by
  show Runs (total Draw.word >>= fun w => Pure.pure (w.toNat % Draw.halfWords)) _ (1 + 0) _
  exact Runs.word.bind fun w _ => .pure (Nat.mod_lt _ (by decide))

/-- A half word times a half word has 64 bits. -/
theorem mul_le_largest {m n : Nat} (hm : m < Draw.halfWords) (hn : n < Draw.halfWords) :
    m * n ≤ StateId.largest := by
  have hmul := Nat.mul_le_mul (Nat.le_sub_one_of_lt hm) (Nat.le_sub_one_of_lt hn)
  exact Nat.le_trans hmul (by decide)

theorem add_le_largest {m n : Nat} (hm : m < Draw.halfWords) (hn : n < Draw.halfWords) :
    m + n ≤ StateId.largest := by
  have hadd := Nat.add_le_add (Nat.le_of_lt hm) (Nat.le_of_lt hn)
  exact Nat.le_trans hadd (by decide)

theorem high_lt {m n : Nat} (hm : m < Draw.halfWords) (hn : n < Draw.halfWords) :
    m * n / Draw.halfWords < Draw.halfWords :=
  Nat.div_lt_of_lt_mul (Nat.mul_lt_mul'' hm hn)

/-- Both half words together decide on a result below `n`, and no sum, difference or product is too large for it. -/
theorem runs_below {n : Nat} (hpos : 0 < n) (hn : n < Draw.halfWords) :
    Runs (below n) (Draw.below n) 2 (· < n) := by
  refine Runs.of_forall (P := fun _ => True) (m := 1 + 1) ?_ fun source => Draw.below_lt hpos source
  rw [below, if_neg (Nat.ne_of_gt hpos), Draw.below]
  refine runs_halfWord.bind fun m hm => .defined (checkedMul_eq_some (mul_le_largest hm hn)) ?_
  refine .defined (checkedSub_eq_some (Nat.le_of_lt hn)) (.ite (fun _ => ?_) fun _ => ?_)
  · refine runs_halfWord.bind (n := 0) fun m' hm' => .defined (checkedMul_eq_some (mul_le_largest hm' hn)) ?_
    have hhigh : m * n / Draw.halfWords < Draw.halfWords := high_lt hm hn
    have hlow : m * n % Draw.halfWords < Draw.halfWords := Nat.mod_lt _ (by decide)
    have hcarry : m' * n / Draw.halfWords < Draw.halfWords := high_lt hm' hn
    refine .defined (checkedAdd_eq_some (add_le_largest hlow hcarry)) ?_
    dsimp only
    split
    · exact .lift (checkedAdd_eq_some (add_le_largest hhigh (by decide))) trivial
    · exact .pure trivial
  · exact .pure trivial

end Below

end CheckedDraw

end FiniteAutomata.Random
