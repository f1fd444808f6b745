import Stuff.EPoll
import Stuff.MassClient

/-!
# The delay of the timer

`on_timer` of `httpd::MassClient` takes the deadline of its first query from the time, both of type
`uint64_t`, and hands the difference to `EPoll::schedule` as an `int`, which hands it on to
`RequestQueue::insert` as a `uint64_t`. The time that is left is the difference the other way round.
-/
namespace Stuff.MassClient
open EPoll ContainerRequestQueue MachineWords

/-- A query with its deadline as a word. -/
structure TimedQuery extends Query where
  deadline : UInt64
deriving DecidableEq, Repr

def TimedQuery.view (x : TimedQuery) : XQuery := { x.toQuery with deadline := x.deadline.toNat }

/-- A client with the queue of these; `client` has its other members. -/
structure TimedState where
  client : State
  m_Queue : List TimedQuery

namespace TimedState

def view (s : TimedState) : State := { s.client with m_Queue := s.m_Queue.map TimedQuery.view }

def flushI (s : TimedState) (aCode : ℕ) : TimedState where
  client :=
    { s.client with
      callbacks := s.client.callbacks ++ s.m_Queue.map fun x => ⟨x.id, aCode, none⟩ }
  m_Queue := []

end TimedState

/-- The argument of `schedule`, in the conversions of the source. -/
def aDelayMS (sNow deadline : UInt64) : Int32 := (sNow - deadline).toInt64.toInt32

/-- The argument of `insert`. -/
def aTimeoutMs (aDelayMS : Int32) : UInt64 := aDelayMS.toInt64.toUInt64

/-- `EPoll::schedule` for a timer, at the time `sAgain` that `insert` reads. -/
def scheduleTimer (m_EPoll : EPoll.State) (m_Timer : HandlerPtr) (aDelayMS : Int32)
    (sAgain : UInt64) : EPoll.State :=
  m_EPoll.schedule ⟨m_Timer, .TIMER 0⟩ (aTimeoutMs aDelayMS) sAgain

def TimedState.onTimer (s : TimedState) (m_EPoll : EPoll.State) (m_Timer : HandlerPtr)
    (sNow sAgain : UInt64) : TimedState × EPoll.State :=
  match s.m_Queue with
  | [] => ({ s with client := { s.client with m_TimerStarted := false } }, m_EPoll)
  | x :: _ =>
      if x.deadline ≤ sNow then
        let t := s.flushI ETIMEDOUT
        ({ t with client := { t.client with m_Connection := none, m_TimerStarted := false } },
          m_EPoll)
      else (s, scheduleTimer m_EPoll m_Timer (aDelayMS sNow x.deadline) sAgain)

namespace TimedState

/-- What `on_timer` does to the client is what it does without words. -/
theorem view_onTimer (s : TimedState) (m_EPoll : EPoll.State) (m_Timer : HandlerPtr)
    (sNow sAgain : UInt64) :
    (s.onTimer m_EPoll m_Timer sNow sAgain).1.view = s.view.onTimer sNow.toNat := by
  obtain ⟨client, m_Queue⟩ := s
  cases m_Queue with
  | nil => rfl
  | cons x m_Queue =>
      rw [onTimer, State.onTimer]
      simp only [view, List.map_cons]
      by_cases htime : x.deadline ≤ sNow
      · have htime' : x.view.deadline ≤ sNow.toNat := UInt64.le_iff_toNat_le.mp htime
        rw [if_pos htime, if_pos htime']
        simp [flushI, State.flushI, TimedQuery.view]
      · have htime' : ¬ x.view.deadline ≤ sNow.toNat := fun h =>
          htime (UInt64.le_iff_toNat_le.mpr h)
        rw [if_neg htime, if_neg htime']
        rfl

end TimedState

/-! ## The time that is left -/

/-- The timer is started for the time until `deadline`, a positive one that no conversion
changes. -/
def Rearms (s : TimedState) (m_EPoll : EPoll.State) (m_Timer : HandlerPtr) (sNow sAgain : UInt64)
    (deadline : UInt64) : Prop :=
  ∃ delay : Int32,
    (s.onTimer m_EPoll m_Timer sNow sAgain).2 = scheduleTimer m_EPoll m_Timer delay sAgain ∧
    0 < delay.toInt ∧ delay.toInt = deadline.toNat - sNow.toNat ∧
    ((aTimeoutMs delay).toNat : ℤ) = deadline.toNat - sNow.toNat

theorem aTimeoutMs_injective {delay delay' : Int32} (h : aTimeoutMs delay = aTimeoutMs delay') :
    delay = delay' := by
  have hlong := congrArg UInt64.toInt64 h
  simp only [aTimeoutMs, Int64.toInt64_toUInt64] at hlong
  have hint := congrArg Int64.toInt hlong
  rw [Int32.toInt_toInt64, Int32.toInt_toInt64] at hint
  exact Int32.toInt_inj.mp hint

theorem scheduleTimer_injective {m_EPoll : EPoll.State} {m_Timer : HandlerPtr} {sAgain : UInt64}
    {delay delay' : Int32}
    (h : scheduleTimer m_EPoll m_Timer delay sAgain = scheduleTimer m_EPoll m_Timer delay' sAgain) :
    delay = delay' := by
  have hstore := congrArg (fun e => e.m_Backlog.store) h
  simp only [scheduleTimer, EPoll.State.schedule, RequestQueue.insert,
    List.append_cancel_left_eq, List.cons.injEq, Rec.mk.injEq] at hstore
  exact aTimeoutMs_injective (UInt64.add_right_inj sAgain |>.mp hstore.1.2.1)

/-- The difference is the wrong way round, modulo what an `int` holds. -/
theorem toInt_aDelayMS (sNow deadline : UInt64) :
    (aDelayMS sNow deadline).toInt = ((sNow.toNat : ℤ) - deadline.toNat).bmod (2 ^ 32) := by
  have hword : ∀ w : UInt64, w.toInt64.toInt = (w.toNat : ℤ).bmod (2 ^ 64) := by
    intro w
    conv_lhs => rw [← UInt64.ofNat_toNat (x := w)]
    rw [UInt64.toInt64_ofNat', Int64.toInt_ofNat']
    rfl
  rw [aDelayMS, Int64.toInt_toInt32, UInt64.toInt64_sub, Int64.toInt_sub, hword, hword,
    ← Int.sub_bmod, Int.bmod_bmod_of_dvd (by decide)]

theorem Rearms.toInt_aDelayMS {s : TimedState} {x : TimedQuery} {queue : List TimedQuery}
    {m_EPoll : EPoll.State} {m_Timer : HandlerPtr} {sNow sAgain : UInt64}
    (h : Rearms s m_EPoll m_Timer sNow sAgain x.deadline) (hqueue : s.m_Queue = x :: queue)
    (htime : sNow < x.deadline) :
    (aDelayMS sNow x.deadline).toInt = x.deadline.toNat - sNow.toNat := by
  obtain ⟨delay, hschedule, -, hdelay, -⟩ := h
  have htimer : (s.onTimer m_EPoll m_Timer sNow sAgain).2 =
      scheduleTimer m_EPoll m_Timer (aDelayMS sNow x.deadline) sAgain := by
    simp only [TimedState.onTimer, hqueue, if_neg (UInt64.not_le.mpr htime)]
  rw [scheduleTimer_injective (htimer.symm.trans hschedule)]
  exact hdelay

/-- The timer is never started for the time that is left. -/
theorem not_rearms {s : TimedState} {x : TimedQuery} {queue : List TimedQuery} {sNow : UInt64}
    (hqueue : s.m_Queue = x :: queue) (htime : sNow < x.deadline) (m_EPoll : EPoll.State)
    (m_Timer : HandlerPtr) (sAgain : UInt64) :
    ¬ Rearms s m_EPoll m_Timer sNow sAgain x.deadline := by
  intro h
  have hleft := h.toInt_aDelayMS hqueue htime
  have hlt : sNow.toNat < x.deadline.toNat := UInt64.lt_iff_toNat_lt.mp htime
  rw [toInt_aDelayMS] at hleft
  have hmod : ((sNow.toNat : ℤ) - x.deadline.toNat).bmod (2 ^ 32) % (2 ^ 32 : ℕ) =
      ((sNow.toNat : ℤ) - x.deadline.toNat) % (2 ^ 32 : ℕ) := Int.bmod_emod
  have hsmall : ((sNow.toNat : ℤ) - x.deadline.toNat).bmod (2 ^ 32) < (2 ^ 32 + 1) / 2 :=
    Int.bmod_lt (by decide)
  rw [hleft] at hmod hsmall
  omega

/-- A client with one query, which has half a second left. -/
def waiting : TimedState where
  client := { timeout_ms := 1000, m_TimerStarted := true, inserted := 1 }
  m_Queue := [{ id := 0, request := [], deadline := 1500 }]

theorem waiting_m_Queue :
    waiting.m_Queue = [{ id := 0, request := [], deadline := 1500 }] := rfl

theorem not_rearms_waiting : ¬ Rearms waiting (EPoll.start 3) 7 1000 1000 1500 :=
  not_rearms waiting_m_Queue (by decide) (EPoll.start 3) 7 1000

/-- The entry in the backlog is due already. -/
theorem waiting_due :
    (waiting.onTimer (EPoll.start 3) 7 1000 1000).2.m_Backlog.store.map Rec.deadline = [500] ∧
      ¬ Rearms waiting (EPoll.start 3) 7 1000 1000 1500 := by
  refine ⟨by decide, fun h => ?_⟩
  have hleft := h.toInt_aDelayMS waiting_m_Queue (by decide)
  exact absurd hleft (by decide)

end Stuff.MassClient
