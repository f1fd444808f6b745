import Stuff.EventRuns

/-!
# Elements that are handed over in groups

`Container::Collect` hands its buffer to a handler when the buffer is full, or at a flush. When the
handler throws, the buffer stays as it is. Full is tested with `==`, so an element that comes after
such a failure makes the buffer too long, and then only a flush empties it.
-/
namespace Stuff.ContainerCollect
open EventRuns

/-- How a call of the handler ends. -/
inductive Outcome
  | returns
  | throws
deriving DecidableEq, Repr

/-- The program does not have `inserted`, the elements so far, nor `calls`, those of the handler. -/
structure Collect (T : Type*) where
  m_Max : ℕ
  m_Buffer : List T := []
  inserted : List T := []
  calls : List (List T × Outcome) := []
deriving DecidableEq, Repr

/-- The outcome is that of the call of the handler, if there is one. -/
inductive Event (T : Type*)
  | insert (aData : T) (outcome : Outcome)
  | flush (outcome : Outcome)
deriving DecidableEq, Repr

section
variable {T : Type*}

def start (T : Type*) (aMax : ℕ) : Collect T := { m_Max := aMax }

namespace Collect

def flushI (s : Collect T) (outcome : Outcome) : Collect T × Outcome :=
  if s.m_Buffer.isEmpty then (s, .returns)
  else
    let s := { s with calls := s.calls ++ [(s.m_Buffer, outcome)] }
    match outcome with
    | .returns => ({ s with m_Buffer := [] }, .returns)
    | .throws => (s, .throws)

def insert (s : Collect T) (aData : T) (outcome : Outcome) : Collect T × Outcome :=
  let s := { s with m_Buffer := s.m_Buffer ++ [aData], inserted := s.inserted ++ [aData] }
  if s.m_Buffer.length = s.m_Max then s.flushI outcome else (s, .returns)

def flush (s : Collect T) (outcome : Outcome) : Collect T × Outcome := s.flushI outcome

/-- With how the call ends for its caller. -/
def call (s : Collect T) : Event T → Collect T × Outcome
  | .insert aData outcome => s.insert aData outcome
  | .flush outcome => s.flush outcome

def step (s : Collect T) (e : Event T) : Collect T := (s.call e).1

/-- What the calls of the handler that have returned were given. -/
def handled (s : Collect T) : List T :=
  (s.calls.filter fun x => x.2 = .returns).flatMap Prod.fst

/-- After an insertion that returns the buffer is not too long. -/
def Fits (s : Collect T) : Event T → Prop
  | .insert aData outcome =>
      (s.insert aData outcome).2 = .returns →
        (s.insert aData outcome).1.m_Buffer.length ≤ s.m_Max
  | .flush _ => True

end Collect

/-- The elements of an event. -/
def Event.data : Event T → List T
  | .insert aData _ => [aData]
  | .flush _ => []

def Event.outcome : Event T → Outcome
  | .insert _ outcome => outcome
  | .flush outcome => outcome

namespace Collect

/-- Whether the handler is called. -/
def Calls (s : Collect T) : Event T → Prop
  | .insert _ _ => s.m_Buffer.length + 1 = s.m_Max
  | .flush _ => s.m_Buffer ≠ []

/-- Each element is handled at most once and in order, and those that are not wait in the buffer:
the next call of the handler gets all of them, which is that of the next flush at the latest. -/
structure Keeps (s : Collect T) (e : Event T) : Prop where
  inserted : (s.step e).inserted = s.inserted ++ e.data
  order : (s.step e).handled ++ (s.step e).m_Buffer = (s.step e).inserted
  calls : s.Calls e → ∃ pending,
    s.handled ++ pending = s.inserted ++ e.data ∧
      (s.step e).calls = s.calls ++ [(pending, e.outcome)]
  idle : ¬ s.Calls e → (s.step e).calls = s.calls
  fits : s.Fits e

/-- There is room for another element. -/
def Room (s : Collect T) : Event T → Prop
  | .insert _ _ => s.m_Buffer.length < s.m_Max
  | .flush _ => True

/-! ## Calls -/

variable {s : Collect T}

theorem flushI_nil (outcome : Outcome) (h : s.m_Buffer = []) :
    s.flushI outcome = (s, .returns) := by
  rw [flushI, if_pos (List.isEmpty_iff.mpr h)]

theorem flushI_calls (outcome : Outcome) (h : s.m_Buffer ≠ []) :
    (s.flushI outcome).1.calls = s.calls ++ [(s.m_Buffer, outcome)] := by
  rw [flushI, if_neg (by rwa [List.isEmpty_iff])]
  cases outcome <;> rfl

theorem flushI_inserted (outcome : Outcome) :
    (s.flushI outcome).1.inserted = s.inserted := by
  unfold flushI
  split
  case isTrue => rfl
  case isFalse => cases outcome <;> rfl

theorem flushI_order (outcome : Outcome) :
    (s.flushI outcome).1.handled ++ (s.flushI outcome).1.m_Buffer = s.handled ++ s.m_Buffer := by
  unfold flushI
  split
  case isTrue => rfl
  case isFalse => cases outcome <;> simp [handled]

theorem flushI_returns {outcome : Outcome} (h : (s.flushI outcome).2 = .returns) :
    (s.flushI outcome).1.m_Buffer = [] := by
  unfold flushI at h ⊢
  split at h
  case isTrue hempty =>
    rw [if_pos hempty]
    exact List.isEmpty_iff.mp hempty
  case isFalse hempty =>
    rw [if_neg hempty]
    cases outcome with
    | returns => rfl
    | throws => cases h

/-- With an element more. -/
def grown (s : Collect T) (aData : T) : Collect T :=
  { s with m_Buffer := s.m_Buffer ++ [aData], inserted := s.inserted ++ [aData] }

theorem grown_order (aData : T) (h : s.handled ++ s.m_Buffer = s.inserted) :
    (s.grown aData).handled ++ (s.grown aData).m_Buffer = (s.grown aData).inserted := by
  change s.handled ++ (s.m_Buffer ++ [aData]) = s.inserted ++ [aData]
  rw [← List.append_assoc, h]

theorem insert_full {aData : T} (outcome : Outcome) (h : s.m_Buffer.length + 1 = s.m_Max) :
    s.insert aData outcome = (s.grown aData).flushI outcome := by
  have hfull : (s.m_Buffer ++ [aData]).length = s.m_Max := by
    rw [List.length_append, List.length_singleton, h]
  exact if_pos hfull

theorem insert_grown {aData : T} (outcome : Outcome) (h : s.m_Buffer.length + 1 ≠ s.m_Max) :
    s.insert aData outcome = (s.grown aData, .returns) := by
  have hfull : (s.m_Buffer ++ [aData]).length ≠ s.m_Max := by
    rw [List.length_append, List.length_singleton]
    exact h
  exact if_neg hfull

theorem fits_iff_room (e : Event T) : s.Fits e ↔ s.Room e := by
  cases e with
  | flush => exact Iff.rfl
  | insert aData outcome =>
      simp only [Fits, Room]
      by_cases hfull : s.m_Buffer.length + 1 = s.m_Max
      · rw [insert_full outcome hfull]
        constructor
        · intro _
          omega
        · intro _ hreturns
          rw [flushI_returns hreturns]
          exact Nat.zero_le _
      · rw [insert_grown outcome hfull]
        simp only [grown, List.length_append, List.length_singleton, forall_const]
        omega

theorem step_order (h : s.handled ++ s.m_Buffer = s.inserted) (e : Event T) :
    (s.step e).inserted = s.inserted ++ e.data ∧
      (s.step e).handled ++ (s.step e).m_Buffer = (s.step e).inserted := by
  cases e with
  | flush outcome =>
      simp only [step, call, flush, Event.data, List.append_nil, flushI_inserted, flushI_order]
      exact ⟨trivial, h⟩
  | insert aData outcome =>
      simp only [step, call, Event.data]
      by_cases hfull : s.m_Buffer.length + 1 = s.m_Max
      · rw [insert_full outcome hfull, flushI_order, flushI_inserted]
        exact ⟨rfl, grown_order aData h⟩
      · rw [insert_grown outcome hfull]
        exact ⟨rfl, grown_order aData h⟩

theorem step_calls (h : s.handled ++ s.m_Buffer = s.inserted) {e : Event T} (hcalls : s.Calls e) :
    ∃ pending, s.handled ++ pending = s.inserted ++ e.data ∧
      (s.step e).calls = s.calls ++ [(pending, e.outcome)] := by
  cases e with
  | flush outcome =>
      refine ⟨s.m_Buffer, ?_, flushI_calls outcome hcalls⟩
      rw [h]
      exact (List.append_nil _).symm
  | insert aData outcome =>
      refine ⟨(s.grown aData).m_Buffer, grown_order aData h, ?_⟩
      simp only [step, call]
      rw [insert_full outcome hcalls]
      exact flushI_calls outcome (List.append_ne_nil_of_right_ne_nil _ (List.cons_ne_nil _ _))

theorem step_idle {e : Event T} (hcalls : ¬ s.Calls e) : (s.step e).calls = s.calls := by
  cases e with
  | flush outcome =>
      simp only [Calls, ne_eq, not_not] at hcalls
      simp only [step, call, flush, flushI_nil outcome hcalls]
  | insert aData outcome =>
      simp only [step, call]
      rw [insert_grown outcome hcalls]
      rfl

theorem keeps_iff_room (h : s.handled ++ s.m_Buffer = s.inserted) (e : Event T) :
    s.Keeps e ↔ s.Room e := by
  constructor
  · exact fun hkeeps => (fits_iff_room e).mp hkeeps.fits
  · intro hroom
    obtain ⟨hinserted, horder⟩ := step_order h e
    exact ⟨hinserted, horder, step_calls h, step_idle, (fits_iff_room e).mpr hroom⟩

/-! ## Runs -/

/-- In every run it is the insertions into a full buffer that break the bound. -/
theorem collect_keeps_iff (aMax : ℕ) (es : List (Event T)) :
    Meets step Keeps (start T aMax) es ↔ Meets step Room (start T aMax) es := by
  have hall := meets_true step (start T aMax) es
  refine meets_iff (I := fun s => s.handled ++ s.m_Buffer = s.inserted) ?_ ?_ ?_ hall
  · exact fun s e hs _ => keeps_iff_room hs e
  · exact fun s e hs _ _ => (step_order hs e).2
  · rfl

/-- After a handler that has thrown. -/
theorem collect_overflows :
    (run step (start ℕ 1) [.insert 7 .throws, .insert 8 .returns]).m_Buffer = [7, 8] ∧
      ¬ Meets step Keeps (start ℕ 1) [.insert 7 .throws, .insert 8 .returns] := by
  refine ⟨by decide, fun h => ?_⟩
  have hfits : 2 ≤ 1 := h.2.1.fits rfl
  exact absurd hfits (by decide)

end Collect

end

end Stuff.ContainerCollect
