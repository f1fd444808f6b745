import Mathlib.Data.List.Basic

/-!
# Runs of an event-driven component

A component is a total step function on states. A run feeds it a list of
events; the events of a list prefix lead to the states the run passes through.
`Meets` says that every event satisfies a side condition in the very state in
which it is taken. A statement about all interleavings is one about all lists.
-/
namespace Stuff.EventRuns

variable {σ ε : Type*}

/-- The state after all events, taken one after another. -/
def run (step : σ → ε → σ) (s : σ) (es : List ε) : σ := es.foldl step s

@[simp] theorem run_nil (step : σ → ε → σ) (s : σ) : run step s [] = s := rfl

@[simp] theorem run_cons (step : σ → ε → σ) (s : σ) (e : ε) (es : List ε) :
    run step s (e :: es) = run step (step s e) es := rfl

theorem run_concat (step : σ → ε → σ) (s : σ) (es : List ε) (e : ε) :
    run step s (es ++ [e]) = step (run step s es) e := List.foldl_concat step s e es

theorem run_append (step : σ → ε → σ) (s : σ) (es es' : List ε) :
    run step s (es ++ es') = run step (run step s es) es' := List.foldl_append

/-- The side condition `ok` holds of every event in the state it meets. -/
def Meets (step : σ → ε → σ) (ok : σ → ε → Prop) : σ → List ε → Prop
  | _, [] => True
  | s, e :: es => ok s e ∧ Meets step ok (step s e) es

instance decidableMeets (step : σ → ε → σ) (ok : σ → ε → Prop)
    [∀ s e, Decidable (ok s e)] : (s : σ) → (es : List ε) → Decidable (Meets step ok s es)
  | _, [] => inferInstanceAs (Decidable True)
  | s, e :: es =>
      have := decidableMeets step ok (step s e) es
      inferInstanceAs (Decidable (ok s e ∧ Meets step ok (step s e) es))

theorem meets_append (step : σ → ε → σ) (ok : σ → ε → Prop) (s : σ) (es es' : List ε) :
    Meets step ok s (es ++ es') ↔ Meets step ok s es ∧ Meets step ok (run step s es) es' := by
  induction es generalizing s with
  | nil => simp [Meets]
  | cons e es ih => simp only [List.cons_append, Meets, ih, run_cons, and_assoc]

@[simp] theorem meets_concat (step : σ → ε → σ) (ok : σ → ε → Prop) (s : σ)
    (es : List ε) (e : ε) :
    Meets step ok s (es ++ [e]) ↔ Meets step ok s es ∧ ok (run step s es) e := by
  rw [meets_append, Meets, Meets, and_true]

@[simp] theorem meets_true (step : σ → ε → σ) (s : σ) (es : List ε) :
    Meets step (fun _ _ => True) s es := by
  induction es generalizing s with
  | nil => trivial
  | cons e es ih => exact ⟨trivial, ih _⟩

theorem meets_of_forall {step : σ → ε → σ} {ok : σ → ε → Prop} {es : List ε}
    (h : ∀ e ∈ es, ∀ s, ok s e) (s : σ) : Meets step ok s es := by
  induction es generalizing s with
  | nil => trivial
  | cons e es ih =>
      exact ⟨h e List.mem_cons_self s, ih (fun e' he' => h e' (List.mem_cons_of_mem e he')) _⟩

theorem meets_and {step : σ → ε → σ} {ok ok' : σ → ε → Prop} {s : σ} {es : List ε} :
    Meets step (fun s e => ok s e ∧ ok' s e) s es ↔ Meets step ok s es ∧ Meets step ok' s es := by
  induction es generalizing s with
  | nil => simp [Meets]
  | cons e es ih => simp only [Meets, ih, and_and_and_comm]

/-- An invariant kept by every admitted event holds at the end of the run. -/
theorem run_invariant {step : σ → ε → σ} {ok : σ → ε → Prop} {I : σ → Prop}
    (hstep : ∀ s e, I s → ok s e → I (step s e)) {s : σ} (hs : I s)
    {es : List ε} (hes : Meets step ok s es) : I (run step s es) := by
  induction es generalizing s with
  | nil => exact hs
  | cons e es ih => exact ih (hstep s e hs hes.1) hes.2

/-- The events are admitted one after another and lead to a state with `P`. -/
def Leads (step : σ → ε → σ) (ok : σ → ε → Prop) (s : σ) (es : List ε) (P : σ → Prop) : Prop :=
  Meets step ok s es ∧ P (run step s es)

theorem Leads.mono {step : σ → ε → σ} {ok : σ → ε → Prop} {s : σ} {es : List ε}
    {P Q : σ → Prop} (h : Leads step ok s es P) (hPQ : ∀ t, P t → Q t) : Leads step ok s es Q :=
  ⟨h.1, hPQ _ h.2⟩

theorem Leads.append {step : σ → ε → σ} {ok : σ → ε → Prop} {s : σ} {es es' : List ε}
    {P Q : σ → Prop} (h : Leads step ok s es P) (h' : ∀ t, P t → Leads step ok t es' Q) :
    Leads step ok s (es ++ es') Q := by
  induction es generalizing s with
  | nil => exact h' s h.2
  | cons e es ih =>
      have hrest := ih ⟨h.1.2, h.2⟩
      exact ⟨⟨h.1.1, hrest.1⟩, hrest.2⟩

/-- Two side conditions that agree as long as an invariant holds, and keep it,
are met by the same runs. -/
theorem meets_iff {step : σ → ε → σ} {guard ok ok' : σ → ε → Prop} {I : σ → Prop}
    (hok : ∀ s e, I s → guard s e → (ok s e ↔ ok' s e))
    (hstep : ∀ s e, I s → guard s e → ok s e → I (step s e)) {s : σ} (hs : I s)
    {es : List ε} (hes : Meets step guard s es) :
    Meets step ok s es ↔ Meets step ok' s es := by
  induction es generalizing s with
  | nil => exact Iff.rfl
  | cons e es ih =>
      have he := hok s e hs hes.1
      constructor
      · rintro ⟨h, hrest⟩
        exact ⟨he.mp h, (ih (hstep s e hs hes.1 h) hes.2).mp hrest⟩
      · rintro ⟨h, hrest⟩
        exact ⟨he.mpr h, (ih (hstep s e hs hes.1 (he.mpr h)) hes.2).mpr hrest⟩

/-! ## Components without a result

A step that has no result ends the run: what the language leaves undefined, or a
call that does not return. -/

section Partial
variable {step : σ → ε → Option σ}

/-- The step function on results. -/
def lift (step : σ → ε → Option σ) (s : Option σ) (e : ε) : Option σ := s.bind fun s => step s e

/-- There is a result, and it satisfies `P`. -/
def Holds (P : σ → Prop) (s : Option σ) : Prop := ∃ t, s = some t ∧ P t

/-- A side condition on the state, if there is one. -/
def On (ok : σ → ε → Prop) : Option σ → ε → Prop
  | some s, e => ok s e
  | none, _ => True

instance decidableOn (ok : σ → ε → Prop) [∀ s e, Decidable (ok s e)] :
    (s : Option σ) → (e : ε) → Decidable (On ok s e)
  | some s, e => inferInstanceAs (Decidable (ok s e))
  | none, _ => inferInstanceAs (Decidable True)

/-- Every admitted step has a result that keeps the invariant, so the run has. -/
theorem lift_invariant {ok : σ → ε → Prop} {I : σ → Prop}
    (hstep : ∀ s e, I s → ok s e → Holds I (step s e)) {s : σ} (hs : I s) {es : List ε}
    (hes : Meets (lift step) (On ok) (some s) es) : Holds I (run (lift step) (some s) es) := by
  apply run_invariant (I := Holds I) ?_ ⟨s, rfl, hs⟩ hes
  intro t e ht hok
  obtain ⟨t, rfl, hI⟩ := ht
  exact hstep t e hI hok

/-- Without a side condition. -/
theorem lift_run {I : σ → Prop} (hstep : ∀ s e, I s → Holds I (step s e)) {s : σ} (hs : I s)
    (es : List ε) : Holds I (run (lift step) (some s) es) := by
  apply run_invariant (I := Holds I) ?_ ⟨s, rfl, hs⟩ (meets_true (lift step) (some s) es)
  intro t e ht _
  obtain ⟨t, rfl, hI⟩ := ht
  exact hstep t e hI

theorem Holds.mono {P Q : σ → Prop} {s : Option σ} (h : Holds P s) (hPQ : ∀ t, P t → Q t) :
    Holds Q s := by
  obtain ⟨t, ht, hP⟩ := h
  exact ⟨t, ht, hPQ t hP⟩

/-- What every step from an invariant state does, every step of a run does. -/
theorem lift_meets {P : σ → ε → Prop} {I : σ → Prop} (hP : ∀ s e, I s → P s e)
    (hstep : ∀ s e, I s → Holds I (step s e)) {s : σ} (hs : I s) (es : List ε) :
    Meets (lift step) (On P) (some s) es := by
  induction es generalizing s with
  | nil => trivial
  | cons e es ih =>
      obtain ⟨t, ht, hI⟩ := hstep s e hs
      refine ⟨hP s e hs, ?_⟩
      change Meets (lift step) (On P) (step s e) es
      rw [ht]
      exact ih hI

/-- An exact side condition for what every step should do. -/
theorem lift_meets_iff {ok P : σ → ε → Prop} {I : σ → Prop}
    (hok : ∀ s e, I s → (P s e ↔ ok s e)) (hstep : ∀ s e, I s → ok s e → Holds I (step s e))
    {s : σ} (hs : I s) (es : List ε) :
    Meets (lift step) (On P) (some s) es ↔ Meets (lift step) (On ok) (some s) es := by
  have hall := meets_true (lift step) (some s) es
  apply meets_iff (I := Holds I) ?_ ?_ ⟨s, rfl, hs⟩ hall
  · intro t e ht _
    obtain ⟨t, rfl, hI⟩ := ht
    exact hok t e hI
  · intro t e ht _ hP
    obtain ⟨t, rfl, hI⟩ := ht
    exact hstep t e hI ((hok t e hI).mp hP)

end Partial

end Stuff.EventRuns
