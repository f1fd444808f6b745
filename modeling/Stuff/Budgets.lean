import Mathlib.Algebra.BigOperators.Field
import Mathlib.Algebra.Order.BigOperators.Group.Finset
import Mathlib.Algebra.Order.Field.Basic
import Mathlib.Algebra.Order.Floor.Semiring
import Mathlib.Tactic.FieldSimp
import Mathlib.Tactic.Linarith
import Mathlib.Tactic.Ring

/-!
# Budgets

Every peer has a budget and a weight. A pick costs its peer one step, and is made only
where the budget suffices; when no budget does, every peer gets its weight. So a budget is
what the peer had and got less what its picks did cost, and as budgets are bounded, the
picks of a peer follow its share of the weights.
-/
namespace Stuff.Budgets

variable {ι K : Type*} [Field K] [LinearOrder K]
variable (peers : Finset ι) (w : ι → K) (step : K)

/-- One move on the budgets: `none` is a rewind, `some i` a pick of `i`. -/
inductive Move : (ι → K) → Option ι → (ι → K) → Prop
  | rewind {b b' : ι → K} : (∀ i ∈ peers, b i < step) → (∀ i ∈ peers, b' i = b i + w i) →
      Move b none b'
  | pick {b b' : ι → K} {i : ι} : i ∈ peers → step ≤ b i → b' i = b i - step →
      (∀ j ∈ peers, j ≠ i → b' j = b j) → Move b (some i) b'

/-- A sequence of moves. -/
inductive Moves : (ι → K) → List (Option ι) → (ι → K) → Prop
  | nil {b : ι → K} : Moves b [] b
  | cons {b b' b'' : ι → K} {m : Option ι} {log : List (Option ι)} :
      Move peers w step b m b' → Moves b' log b'' → Moves b (m :: log) b''

def Bounded (b : ι → K) : Prop := ∀ i ∈ peers, 0 ≤ b i ∧ b i < step + w i

variable {peers w step} {b b' b'' : ι → K}

theorem Moves.append {log log' : List (Option ι)} (h : Moves peers w step b log b')
    (h' : Moves peers w step b' log' b'') : Moves peers w step b (log ++ log') b'' := by
  induction h with
  | nil => exact h'
  | cons hmove _ ih => exact .cons hmove (ih h')

section
variable [DecidableEq ι]

/-- What a peer had and got is what it has and what its picks did cost. -/
theorem Moves.account {log : List (Option ι)} (h : Moves peers w step b log b') {i : ι}
    (hi : i ∈ peers) :
    (log.count (some i) : K) * step = b i + (log.count none : K) * w i - b' i := by
  induction h with
  | nil => simp
  | @cons b b' b'' m log hmove _ ih =>
      cases hmove with
      | rewind hall heq =>
          rw [List.count_cons_of_ne (by simp), List.count_cons_self, ih, heq i hi, Nat.cast_succ]
          ring
      | @pick _ j hj hle heq hothers =>
          rw [List.count_cons_of_ne (a := none) (by simp)]
          by_cases hij : j = i
          · rw [hij, List.count_cons_self, Nat.cast_succ, add_mul, ih, ← hij, heq]
            ring
          · rw [List.count_cons_of_ne (by simpa using hij), ih, hothers i hi (Ne.symm hij)]

/-- A peer without weight and without budget is not picked. -/
theorem Moves.count_eq_zero (hstep : 0 < step) {log : List (Option ι)}
    (h : Moves peers w step b log b') {i : ι} (hi : i ∈ peers) (hw : w i = 0) (hb : b i = 0) :
    log.count (some i) = 0 := by
  induction h with
  | nil => rfl
  | @cons b b' b'' m log hmove _ ih =>
      cases hmove with
      | rewind hall heq =>
          rw [List.count_cons_of_ne (by simp)]
          apply ih
          rw [heq i hi, hb, hw, add_zero]
      | @pick _ j hj hle heq hothers =>
          have hij : j ≠ i := by
            rintro rfl
            rw [hb] at hle
            exact absurd hle (not_le.mpr hstep)
          rw [List.count_cons_of_ne (by simpa using hij)]
          apply ih
          rw [hothers i hi (Ne.symm hij), hb]

end

variable [IsStrictOrderedRing K]

theorem Move.bounded (hw : ∀ i ∈ peers, 0 ≤ w i) (hstep : 0 ≤ step) {m : Option ι}
    (h : Move peers w step b m b') (hb : Bounded peers w step b) : Bounded peers w step b' := by
  intro i hi
  obtain ⟨hzero, hlt⟩ := hb i hi
  have hweight := hw i hi
  cases h with
  | rewind hall heq =>
      have hbudget := hall i hi
      rw [heq i hi]
      exact ⟨by linarith, by linarith⟩
  | @pick _ j hj hle heq hothers =>
      by_cases hij : i = j
      · rw [hij] at hlt hweight ⊢
        rw [heq]
        exact ⟨by linarith, by linarith⟩
      · rw [hothers i hi hij]
        exact ⟨hzero, hlt⟩

theorem Moves.bounded (hw : ∀ i ∈ peers, 0 ≤ w i) (hstep : 0 ≤ step) {log : List (Option ι)}
    (h : Moves peers w step b log b') (hb : Bounded peers w step b) : Bounded peers w step b' := by
  induction h with
  | nil => exact hb
  | cons hmove _ ih => exact ih (hmove.bounded hw hstep hb)

/-- How far the picks of a peer can be from its share. -/
def deviation (peers : Finset ι) (w : ι → K) (step : K) (i : ι) : K :=
  (step + w i + (∑ j ∈ peers, (step + w j)) * (w i / ∑ j ∈ peers, w j)) / step

theorem Moves.share [DecidableEq ι] (hw : ∀ i ∈ peers, 0 ≤ w i) (hstep : 0 < step)
    (htotal : 0 < ∑ j ∈ peers, w j) {log : List (Option ι)} (h : Moves peers w step b log b')
    (hb : Bounded peers w step b) {i : ι} (hi : i ∈ peers) :
    |(log.count (some i) : K) -
        (∑ j ∈ peers, (log.count (some j) : K)) * (w i / ∑ j ∈ peers, w j)| ≤
      deviation peers w step i := by
  have hb' := h.bounded hw hstep.le hb
  have haccount : ∀ j ∈ peers, (log.count (some j) : K) * step =
      b j + (log.count none : K) * w j - b' j := fun j hj => h.account hj
  have hsum : (∑ j ∈ peers, (log.count (some j) : K)) * step =
      (∑ j ∈ peers, (b j - b' j)) + (log.count none : K) * ∑ j ∈ peers, w j := by
    rw [Finset.sum_mul, Finset.mul_sum, ← Finset.sum_add_distrib]
    apply Finset.sum_congr rfl
    intro j hj
    rw [haccount j hj]
    ring
  have hdiff : ∀ j ∈ peers, |b j - b' j| ≤ step + w j := by
    intro j hj
    obtain ⟨h₁, h₂⟩ := hb j hj
    obtain ⟨h₃, h₄⟩ := hb' j hj
    rw [abs_le]
    constructor <;> linarith
  have hdiffs : |∑ j ∈ peers, (b j - b' j)| ≤ ∑ j ∈ peers, (step + w j) :=
    (Finset.abs_sum_le_sum_abs _ _).trans (Finset.sum_le_sum hdiff)
  have hshare : 0 ≤ w i / ∑ j ∈ peers, w j := div_nonneg (hw i hi) htotal.le
  rw [deviation, le_div_iff₀ hstep, ← abs_of_pos hstep, ← abs_mul, abs_of_pos hstep]
  have hcancel : (∑ j ∈ peers, w j) * (w i / ∑ j ∈ peers, w j) = w i :=
    mul_div_cancel₀ (w i) htotal.ne'
  have hall : ((log.count (some i) : K) -
      (∑ j ∈ peers, (log.count (some j) : K)) * (w i / ∑ j ∈ peers, w j)) * step =
        (b i - b' i) - (∑ j ∈ peers, (b j - b' j)) * (w i / ∑ j ∈ peers, w j) := by
    rw [sub_mul, haccount i hi, mul_right_comm, hsum, add_mul, mul_assoc _ (∑ j ∈ peers, w j),
      hcancel]
    ring
  rw [hall]
  refine (abs_sub _ _).trans (add_le_add (hdiff i hi) ?_)
  rw [abs_mul, abs_of_nonneg hshare]
  exact mul_le_mul_of_nonneg_right hdiffs hshare

/-- The rewinds that a peer is away from its next pick. -/
def rank (w : ι → K) (step : K) [FloorSemiring K] (i : ι) (b : ι → K) : ℕ := ⌈(step - b i) / w i⌉₊

theorem rank_rewind [FloorSemiring K] {i : ι} (hw : 0 < w i) (hlt : b i < step)
    (heq : b' i = b i + w i) : rank w step i b' < rank w step i b := by
  have hpos : 0 < (step - b i) / w i := div_pos (by linarith) hw
  have hone : (step - b' i) / w i = (step - b i) / w i - 1 := by
    rw [heq]
    field_simp
    ring
  have hceil : 0 < ⌈(step - b i) / w i⌉₊ := Nat.ceil_pos.mpr hpos
  rw [rank, rank, hone, Nat.ceil_sub_one]
  omega

theorem Move.rank_lt [FloorSemiring K] (h : Move peers w step b none b') {i : ι} (hi : i ∈ peers)
    (hw : 0 < w i) : rank w step i b' < rank w step i b := by
  cases h with
  | rewind hall heq => exact rank_rewind hw (hall i hi) (heq i hi)

end Stuff.Budgets
