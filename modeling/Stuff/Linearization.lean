import Stuff.EventRuns
import Mathlib.Data.List.Infix

/-!
# Linearizable objects

Calls of an object overlap. The object is linearizable if in every run the calls can be put in an
order, such that an object that takes them one after another gives the answers that they have
got, and a call that had returned when another one was made is before it.
-/
namespace Stuff.Linearization
open EventRuns

/-- An operation that has taken effect, with its answer. -/
structure Entry (ι ω ρ : Type*) where
  call : ι
  op : ω
  reply : ρ
deriving DecidableEq, Repr

section
variable {σ ι ω ρ : Type*}

/-- The object behind the operations. -/
def final (apply : σ → ω → σ × ρ) (s : σ) (log : List (Entry ι ω ρ)) : σ :=
  log.foldl (fun s e => (apply s e.op).1) s

/-- The answers are those of an object that takes the operations one after another. -/
def Sequential (apply : σ → ω → σ × ρ) : σ → List (Entry ι ω ρ) → Prop
  | _, [] => True
  | s, e :: log => e.reply = (apply s e.op).2 ∧ Sequential apply (apply s e.op).1 log

/-- What is seen of the calls: those that were made, and those that have returned. -/
structure View (ι ω ρ : Type*) where
  invoked : ι → Option ω
  returned : ι → Option ρ

/-- An order of calls that explains what is seen of them. -/
structure Explains (apply : σ → ω → σ × ρ) (s : σ) (view : View ι ω ρ)
    (log : List (Entry ι ω ρ)) : Prop where
  once : (log.map Entry.call).Nodup
  sequential : Sequential apply s log
  invoked : ∀ e ∈ log, view.invoked e.call = some e.op
  returned : ∀ i y, view.returned i = some y → ∃ e ∈ log, e.call = i ∧ e.reply = y

/-- `i` is in the order, and `j` is not unless it comes later. -/
def Before (log : List (Entry ι ω ρ)) (i j : ι) : Prop :=
  ∃ front back, log = front ++ back ∧ i ∈ front.map Entry.call ∧ j ∉ front.map Entry.call

variable {apply : σ → ω → σ × ρ} {s : σ}

theorem sequential_append (log log' : List (Entry ι ω ρ)) :
    Sequential apply s (log ++ log') ↔
      Sequential apply s log ∧ Sequential apply (final apply s log) log' := by
  induction log generalizing s with
  | nil => exact (and_iff_right trivial).symm
  | cons e log ih => simp only [List.cons_append, Sequential, ih, final, List.foldl_cons, and_assoc]

theorem final_append (log log' : List (Entry ι ω ρ)) :
    final apply s (log ++ log') = final apply (final apply s log) log' := List.foldl_append

end

section Runs
variable {σ ι ω ρ τ ε : Type*} {apply : σ → ω → σ × ρ} {s : σ} {step : τ → ε → τ}
variable {view : τ → View ι ω ρ}

/-- The run has an order of its calls that explains it and keeps to the real time. -/
def Linearizable (apply : σ → ω → σ × ρ) (s : σ) (step : τ → ε → τ) (view : τ → View ι ω ρ)
    (t : τ) (es : List ε) : Prop :=
  ∃ log, Explains apply s (view (run step t es)) log ∧
    ∀ es₁ es₂, es = es₁ ++ es₂ → ∀ i j, (view (run step t es₁)).returned i ≠ none →
      (view (run step t es₁)).invoked j = none → Before log i j

/-- A log that every step extends grows over a run. -/
theorem run_prefix {α : Type*} {ok : τ → ε → Prop} {I : τ → Prop} {log : τ → List α}
    (hstep : ∀ t e, I t → ok t e → I (step t e))
    (hlog : ∀ t e, I t → ok t e → log t <+: log (step t e)) {t : τ} (ht : I t) {es : List ε}
    (hes : Meets step ok t es) : log t <+: log (run step t es) := by
  induction es generalizing t with
  | nil => exact List.prefix_refl (log t)
  | cons e es ih => exact (hlog t e ht hes.1).trans (ih (hstep t e ht hes.1) hes.2)

/-- A log that explains every state and is only added to is an order that keeps to the real
time. -/
theorem linearizable_of_log {ok : τ → ε → Prop} {I : τ → Prop} {log : τ → List (Entry ι ω ρ)}
    (hstep : ∀ t e, I t → ok t e → I (step t e))
    (hlog : ∀ t e, I t → ok t e → log t <+: log (step t e))
    (hexplains : ∀ t, I t → Explains apply s (view t) (log t)) {t : τ} (ht : I t) {es : List ε}
    (hes : Meets step ok t es) : Linearizable apply s step view t es := by
  refine ⟨log (run step t es), hexplains _ (run_invariant hstep ht hes), ?_⟩
  rintro es₁ es₂ rfl i j hreturned hinvoked
  rw [meets_append] at hes
  have hmid := run_invariant hstep ht hes.1
  have hexp := hexplains _ hmid
  obtain ⟨back, hback⟩ := run_prefix hstep hlog hmid hes.2
  refine ⟨log (run step t es₁), back, ?_, ?_, ?_⟩
  · rw [run_append]
    exact hback.symm
  · obtain ⟨y, hy⟩ := Option.ne_none_iff_exists'.mp hreturned
    obtain ⟨e, he, rfl, -⟩ := hexp.returned i y hy
    exact List.mem_map_of_mem he
  · intro hmem
    obtain ⟨e, he, rfl⟩ := List.mem_map.mp hmem
    rw [hexp.invoked e he] at hinvoked
    cases hinvoked

end Runs

end Stuff.Linearization
