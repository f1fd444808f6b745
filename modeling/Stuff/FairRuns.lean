import Mathlib.Data.List.Basic
import Mathlib.Data.Nat.Pairing

/-!
# Threads under a fair scheduler

A schedule says for every moment which thread takes its next step. It is fair to
some threads if each of them gets its turn again and again. To see that a goal is
reached on every fair schedule it is enough to name, in each state before the
goal, one thread that helps: its steps lower a measure of the state or, a bounded
number of times, lead closer to that, and the others do not get in its way.
-/
namespace Stuff.FairRuns

variable {σ τ : Type*}

/-- The state at each moment. -/
def trace (step : σ → τ → σ) (s : σ) (sched : ℕ → τ) : ℕ → σ
  | 0 => s
  | n + 1 => step (trace step s sched n) (sched n)

/-- Each of the threads gets its turn again and again. -/
def Fair (threads : τ → Prop) (sched : ℕ → τ) : Prop :=
  ∀ t, threads t → ∀ n, ∃ m, n ≤ m ∧ sched m = t

theorem trace_invariant (step : σ → τ → σ) {I : σ → Prop} (hstep : ∀ s t, I s → I (step s t))
    {s : σ} (hs : I s) (sched : ℕ → τ) (n : ℕ) : I (trace step s sched n) := by
  induction n with
  | zero => exact hs
  | succ n ih => exact hstep _ _ ih

/-- What the helping thread has to be like. The number says how many steps it is
away from lowering the measure. -/
structure Help (step : σ → τ → σ) (threads : τ → Prop) (I goal : σ → Prop) (measure : σ → ℕ)
    (helps : τ → ℕ → σ → Prop) : Prop where
  invariant : ∀ s t, I s → I (step s t)
  someone : ∀ s, I s → ¬goal s → ∃ t r, threads t ∧ helps t r s
  other : ∀ s t r t', I s → helps t r s → t' ≠ t →
    measure (step s t') < measure s ∨
      measure (step s t') = measure s ∧ helps t r (step s t')
  own : ∀ s t r, I s → helps t r s →
    measure (step s t) < measure s ∨
      measure (step s t) = measure s ∧ ∃ r' < r, helps t r' (step s t)

section
variable {step : σ → τ → σ} {threads : τ → Prop} {I goal : σ → Prop} {measure : σ → ℕ}
  {helps : τ → ℕ → σ → Prop}

/-- Until the turn of the helping thread the measure is lowered, or it still helps. -/
theorem Help.turn (h : Help step threads I goal measure helps) {s : σ} (hs : I s)
    {sched : ℕ → τ} {t : τ} {r : ℕ} (d n : ℕ) (hturn : sched (n + d) = t)
    (hhelps : helps t r (trace step s sched n)) :
    ∃ m, measure (trace step s sched m) < measure (trace step s sched n) ∨
      measure (trace step s sched m) = measure (trace step s sched n) ∧
        ∃ r' < r, helps t r' (trace step s sched m) := by
  have hI := trace_invariant step h.invariant hs sched n
  induction d generalizing n with
  | zero =>
      refine ⟨n + 1, ?_⟩
      rw [trace, show sched n = t from hturn]
      exact h.own _ t r hI hhelps
  | succ d ih =>
      by_cases hown : sched n = t
      · refine ⟨n + 1, ?_⟩
        rw [trace, hown]
        exact h.own _ t r hI hhelps
      · rcases h.other _ t r (sched n) hI hhelps hown with hless | ⟨hsame, hstill⟩
        · exact ⟨n + 1, Or.inl hless⟩
        · rw [show n + (d + 1) = n + 1 + d by omega] at hturn
          obtain ⟨m, hm⟩ := ih (n + 1) hturn hstill (trace_invariant step h.invariant hs sched _)
          refine ⟨m, ?_⟩
          rw [trace, hsame] at hm
          exact hm

/-- The measure and the distance of the helping thread go down together. -/
theorem Help.reaches_from (h : Help step threads I goal measure helps) {s : σ} (hs : I s)
    {sched : ℕ → τ} (hfair : Fair threads sched) (n : ℕ) :
    ∃ m, goal (trace step s sched m) := by
  induction hm : measure (trace step s sched n) using Nat.strongRecOn generalizing n with
  | _ k ih =>
      by_cases hgoal : goal (trace step s sched n)
      · exact ⟨n, hgoal⟩
      · obtain ⟨t, r, ht, hhelps⟩ := h.someone _ (trace_invariant step h.invariant hs sched n) hgoal
        clear hgoal
        induction r using Nat.strongRecOn generalizing n with
        | _ r ihr =>
            obtain ⟨l, hl, hturn⟩ := hfair t ht n
            obtain ⟨d, rfl⟩ := Nat.exists_eq_add_of_le hl
            obtain ⟨m, hless | ⟨hsame, r', hr', hstill⟩⟩ := h.turn hs d n hturn hhelps
            · exact ih _ (hm ▸ hless) m rfl
            · exact ihr r' hr' m (hsame.trans hm) hstill

/-- Every fair schedule reaches the goal. -/
theorem Help.reaches (h : Help step threads I goal measure helps) {s : σ} (hs : I s)
    {sched : ℕ → τ} (hfair : Fair threads sched) : ∃ m, goal (trace step s sched m) :=
  h.reaches_from hs hfair 0

end

/-! ## From a later moment on -/

theorem trace_trace (step : σ → τ → σ) (s : σ) (sched : ℕ → τ) (n m : ℕ) :
    trace step (trace step s sched n) (fun k => sched (n + k)) m = trace step s sched (n + m) := by
  induction m with
  | zero => rfl
  | succ m ih => rw [trace, ih, ← Nat.add_assoc, trace]

theorem Fair.shift {threads : τ → Prop} {sched : ℕ → τ} (h : Fair threads sched) (n : ℕ) :
    Fair threads fun k => sched (n + k) := by
  intro t ht k
  obtain ⟨m, hm, hturn⟩ := h t ht (n + k)
  refine ⟨m - n, by omega, ?_⟩
  change sched (n + (m - n)) = t
  rw [Nat.add_sub_of_le (by omega)]
  exact hturn

/-- What every step keeps is kept between two moments. -/
theorem trace_keeps {step : σ → τ → σ} {I : σ → Prop} (hstep : ∀ s t, I s → I (step s t)) {s : σ}
    {sched : ℕ → τ} {n m : ℕ} (hnm : n ≤ m) (h : I (trace step s sched n)) :
    I (trace step s sched m) := by
  obtain ⟨k, rfl⟩ := Nat.exists_eq_add_of_le hnm
  rw [← trace_trace]
  exact trace_invariant step hstep h _ k

/-- In each state before the goal one thread lowers the measure at once, and it is the same
thread until the measure is lowered. -/
theorem reaches_of_next {step : σ → τ → σ} {threads : τ → Prop} (I goal : σ → Prop)
    (measure : σ → ℕ) (next : σ → τ) (hI : ∀ s t, I s → I (step s t))
    (hnext : ∀ s, I s → ¬goal s → threads (next s) ∧ measure (step s (next s)) < measure s)
    (hother : ∀ s t, I s → ¬goal s → measure (step s t) < measure s ∨
      measure (step s t) = measure s ∧ ¬goal (step s t) ∧ next (step s t) = next s)
    {s : σ} {sched : ℕ → τ} (hfair : Fair threads sched) {n : ℕ} (hs : I (trace step s sched n)) :
    ∃ m, n ≤ m ∧ goal (trace step s sched m) := by
  have h : Help step threads I goal measure fun t r s => r = 0 ∧ ¬goal s ∧ t = next s := by
    constructor
    · exact hI
    · intro s hs hgoal
      exact ⟨next s, 0, (hnext s hs hgoal).1, rfl, hgoal, rfl⟩
    · rintro s t r t' hs ⟨hr, hgoal, rfl⟩ -
      rcases hother s t' hs hgoal with hless | ⟨hsame, hgoal', hnext'⟩
      · exact Or.inl hless
      · exact Or.inr ⟨hsame, hr, hgoal', hnext'.symm⟩
    · rintro s t r hs ⟨-, hgoal, rfl⟩
      exact Or.inl (hnext s hs hgoal).2
  obtain ⟨m, hm⟩ := h.reaches hs (hfair.shift n)
  rw [trace_trace] at hm
  exact ⟨n + m, Nat.le_add_right n m, hm⟩

/-- One thread after another, and from the start again. -/
def roundRobin (threads : List τ) (default : τ) (n : ℕ) : τ :=
  threads.getD (n % threads.length) default

theorem roundRobin_fair (threads : List τ) (default : τ) :
    Fair (· ∈ threads) (roundRobin threads default) := by
  intro t ht n
  obtain ⟨i, hi, hget⟩ := List.mem_iff_getElem.mp ht
  refine ⟨i + threads.length * n, ?_, ?_⟩
  · have hle := Nat.le_mul_of_pos_left n (Nat.zero_lt_of_lt hi)
    omega
  · unfold roundRobin
    rw [Nat.add_mul_mod_self_left, Nat.mod_eq_of_lt hi, List.getD_eq_getElem?_getD,
      List.getElem?_eq_getElem hi, Option.getD_some]
    exact hget

/-- Some steps at the start, and then all that have a code, each again and again. -/
def enumerated (first : List τ) (code : ℕ → τ) (n : ℕ) : τ := first.getD n (code n.unpair.2)

theorem enumerated_fair {threads : τ → Prop} {code : ℕ → τ}
    (hcode : ∀ t, threads t → ∃ c, code c = t) (first : List τ) :
    Fair threads (enumerated first code) := by
  intro t ht n
  obtain ⟨c, hc⟩ := hcode t ht
  have hle := Nat.left_le_pair (n + first.length) c
  refine ⟨Nat.pair (n + first.length) c, by omega, ?_⟩
  have hnone : first[Nat.pair (n + first.length) c]? = none :=
    List.getElem?_eq_none (by omega)
  unfold enumerated
  rw [List.getD_eq_getElem?_getD, hnone, Option.getD_none, Nat.unpair_pair]
  exact hc

end Stuff.FairRuns
