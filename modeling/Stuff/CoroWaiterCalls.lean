import Stuff.CoroWaiter
import Stuff.EventRuns
import Mathlib.Data.List.Induction

/-!
# Calls of `wait` and `notify`

`Waiter::wait` stores the handler, has a locked section, and may then call the handler;
`Waiter::notify` has a locked section, and may then call the handler. Any thread can come
between these parts.
-/
namespace Stuff.CoroWaiterCalls
open EventRuns CoroWaiter

/-- The locked section of `wait`, and whether the handler is called behind it. -/
def waitSection : State → State × Bool
  | .idle => (.waiting, false)
  | .waiting => (.waiting, false)
  | .ready => (.ready, true)

/-- The locked section of `notify`, and whether the handler is called behind it. -/
def notifySection : State → State × Bool
  | .idle => (.ready, false)
  | .waiting => (.waiting, true)
  | .ready => (.ready, false)

/-- A call that nothing comes into is the one of `Waiter`. -/
theorem wait_eq (w : Waiter) :
    w.wait = ⟨(waitSection w.state).1, w.invoked + (waitSection w.state).2.toNat⟩ := by
  obtain ⟨state, invoked⟩ := w
  cases state <;> rfl

theorem notify_eq (w : Waiter) :
    w.notify = ⟨(notifySection w.state).1, w.invoked + (notifySection w.state).2.toNat⟩ := by
  obtain ⟨state, invoked⟩ := w
  cases state <;> rfl

/-- Before which part the call of `wait` is. -/
inductive WaitPc
  | storing
  | locking
  | calling
  | returned
deriving DecidableEq, Repr

inductive Section
  | wait
  | notify
deriving DecidableEq, Repr

/-- Calls of `notify` are alike: `calling` of them are behind their section and about to call the
handler, and `returned` are over. `missing` says that the handler was called before it was
stored; the locked sections are recorded in their order. -/
structure Calls where
  m_State : State := .idle
  m_Handler : Bool := false
  wait : WaitPc := .storing
  calling : ℕ := 0
  returned : ℕ := 0
  invoked : ℕ := 0
  missing : Bool := false
  order : List Section := []
deriving DecidableEq, Repr

inductive Event
  | store
  | waitLocks
  | waitCalls
  | notifyLocks
  | notifyCalls
deriving DecidableEq, Repr

def Calls.invoke (s : Calls) : Calls :=
  { s with invoked := s.invoked + 1, missing := s.missing || !s.m_Handler }

/-- What cannot happen changes nothing. -/
def step (s : Calls) : Event → Calls
  | .store => if s.wait = .storing then { s with m_Handler := true, wait := .locking } else s
  | .waitLocks =>
      if s.wait = .locking then
        { s with
          m_State := (waitSection s.m_State).1
          wait := if (waitSection s.m_State).2 then .calling else .returned
          order := s.order ++ [.wait] }
      else s
  | .waitCalls => if s.wait = .calling then { s.invoke with wait := .returned } else s
  | .notifyLocks =>
      { s with
        m_State := (notifySection s.m_State).1
        calling := if (notifySection s.m_State).2 then s.calling + 1 else s.calling
        returned := if (notifySection s.m_State).2 then s.returned else s.returned + 1
        order := s.order ++ [.notify] }
  | .notifyCalls =>
      if 0 < s.calling then
        { s.invoke with calling := s.calling - 1, returned := s.returned + 1 }
      else s

/-- The handler is invoked at most once, and once when `wait` and a `notify` are over. -/
structure Once (s : Calls) : Prop where
  stored : s.missing = false
  atMost : s.invoked ≤ 1
  done : s.wait = .returned → 0 < s.returned → s.invoked = 1

/-- A `notify` does not take the lock when `wait` took it first and another `notify` since. -/
def Single (s : Calls) : Event → Prop
  | .notifyLocks => s.order.head? = some .wait → s.order.length ≤ 1
  | _ => True

instance decidableSingle (s : Calls) : (e : Event) → Decidable (Single s e)
  | .notifyLocks => inferInstanceAs (Decidable (s.order.head? = some .wait → s.order.length ≤ 1))
  | .store | .waitLocks | .waitCalls | .notifyCalls => inferInstanceAs (Decidable True)

/-! ## What has happened in each state of the waiter -/

/-- Nobody had the lock. -/
structure Idle (s : Calls) : Prop where
  state : s.m_State = .idle
  order : s.order = []
  wait : s.wait = .storing ∨ s.wait = .locking
  calling : s.calling = 0
  returned : s.returned = 0
  invoked : s.invoked = 0

/-- The wait came first: every `notify` calls the handler. -/
structure Waiting (s : Calls) : Prop where
  state : s.m_State = .waiting
  order : s.order = .wait :: List.replicate (s.calling + s.returned) .notify
  wait : s.wait = .returned
  invoked : s.invoked = s.returned

/-- A `notify` came first: only the wait calls the handler. -/
structure Ready (s : Calls) : Prop where
  state : s.m_State = .ready
  order : s.order.head? = some .notify
  calling : s.calling = 0
  returned : 0 < s.returned
  invoked : s.invoked = if s.wait = .returned then 1 else 0

structure Inv (s : Calls) : Prop where
  stored : s.missing = false
  handler : s.wait ≠ .storing → s.m_Handler = true
  phase : Idle s ∨ Waiting s ∨ Ready s

theorem Inv.start : Inv {} where
  stored := rfl
  handler h := absurd rfl h
  phase := .inl ⟨rfl, rfl, .inl rfl, rfl, rfl, rfl⟩

theorem head?_concat {order : List Section} {x : Section} (h : order.head? = some x)
    (y : Section) : (order ++ [y]).head? = some x := by
  rw [List.head?_append, h]
  rfl

section
variable {s : Calls} (h : Inv s)
include h

theorem Inv.store : Inv (step s .store) := by
  simp only [step]
  split_ifs with hwait
  · refine ⟨h.stored, fun _ => rfl, ?_⟩
    rcases h.phase with hi | hw | hr
    · exact .inl ⟨hi.state, hi.order, .inr rfl, hi.calling, hi.returned, hi.invoked⟩
    · exact absurd (hw.wait.symm.trans hwait) (by decide)
    · refine .inr (.inr ⟨hr.state, hr.order, hr.calling, hr.returned, ?_⟩)
      simpa [hwait] using hr.invoked
  · exact h

theorem Inv.waitLocks : Inv (step s .waitLocks) := by
  by_cases hwait : s.wait = .locking
  · have hhandler : s.m_Handler = true := h.handler (by rw [hwait]; decide)
    rw [step, if_pos hwait]
    refine ⟨h.stored, fun _ => hhandler, ?_⟩
    rcases h.phase with hi | hw | hr
    · refine .inr (.inl ⟨?_, ?_, ?_, ?_⟩)
      · simp [hi.state, waitSection]
      · simp [hi.order, hi.calling, hi.returned]
      · simp [hi.state, waitSection]
      · simp [hi.invoked, hi.returned]
    · exact absurd (hw.wait.symm.trans hwait) (by decide)
    · refine .inr (.inr ⟨?_, head?_concat hr.order .wait, hr.calling, hr.returned, ?_⟩)
      · simp [hr.state, waitSection]
      · simpa [hr.state, waitSection, hwait] using hr.invoked
  · rw [step, if_neg hwait]
    exact h

/-- Only a wait that found a notification is about to call the handler. -/
theorem Inv.waitCalls : Inv (step s .waitCalls) := by
  simp only [step]
  split_ifs with hwait
  · have hhandler : s.m_Handler = true := h.handler (by rw [hwait]; decide)
    refine ⟨by simp [Calls.invoke, h.stored, hhandler], fun _ => hhandler, ?_⟩
    rcases h.phase with hi | hw | hr
    · rcases hi.wait with hs | hl
      · exact absurd (hs.symm.trans hwait) (by decide)
      · exact absurd (hl.symm.trans hwait) (by decide)
    · exact absurd (hw.wait.symm.trans hwait) (by decide)
    · refine .inr (.inr ⟨hr.state, hr.order, hr.calling, hr.returned, ?_⟩)
      simp [Calls.invoke, hr.invoked, hwait]
  · exact h

theorem Inv.notifyLocks : Inv (step s .notifyLocks) := by
  simp only [step]
  refine ⟨h.stored, h.handler, ?_⟩
  rcases h.phase with hi | hw | hr
  · refine .inr (.inr ⟨?_, ?_, ?_, ?_, ?_⟩)
    · simp [hi.state, notifySection]
    · simp [hi.order]
    · simp [hi.state, notifySection, hi.calling]
    · simp [hi.state, notifySection]
    · rcases hi.wait with hs | hl
      · simp [hs, hi.invoked]
      · simp [hl, hi.invoked]
  · refine .inr (.inl ⟨?_, ?_, hw.wait, ?_⟩)
    · simp [hw.state, notifySection]
    · simp only [hw.state, notifySection, hw.order, if_true, List.cons_append]
      rw [Nat.add_right_comm, List.replicate_succ']
    · simp [hw.state, notifySection, hw.invoked]
  · refine .inr (.inr ⟨?_, head?_concat hr.order .notify, ?_, ?_, ?_⟩)
    · simp [hr.state, notifySection]
    · simp [hr.state, notifySection, hr.calling]
    · simp [hr.state, notifySection]
    · exact hr.invoked

/-- Only a `notify` that found the wait is about to call the handler. -/
theorem Inv.notifyCalls : Inv (step s .notifyCalls) := by
  simp only [step]
  split_ifs with hcalling
  · rcases h.phase with hi | hw | hr
    · exact absurd hi.calling (Nat.pos_iff_ne_zero.mp hcalling)
    · have hhandler : s.m_Handler = true := h.handler (by rw [hw.wait]; decide)
      refine ⟨by simp [Calls.invoke, h.stored, hhandler], fun _ => hhandler, ?_⟩
      refine .inr (.inl ⟨hw.state, ?_, hw.wait, ?_⟩)
      · have hsum : s.calling - 1 + (s.returned + 1) = s.calling + s.returned := by omega
        simp only [Calls.invoke]
        rw [hsum]
        exact hw.order
      · simp [Calls.invoke, hw.invoked]
    · exact absurd hr.calling (Nat.pos_iff_ne_zero.mp hcalling)
  · exact h

theorem Inv.step (e : Event) : Inv (step s e) := by
  cases e with
  | store => exact h.store
  | waitLocks => exact h.waitLocks
  | waitCalls => exact h.waitCalls
  | notifyLocks => exact h.notifyLocks
  | notifyCalls => exact h.notifyCalls

end

theorem inv_run (es : List Event) : Inv (run step {} es) :=
  run_invariant (fun _ e h _ => h.step e) Inv.start (meets_true _ _ es)

/-! ## When the handler is called once -/

/-- At most one `notify` has come behind the wait, if that came first. -/
def Spared (s : Calls) : Prop := s.order.head? = some .wait → s.order.length ≤ 2

theorem Inv.once {s : Calls} (h : Inv s) (hspared : Spared s) : Once s := by
  refine ⟨h.stored, ?_, ?_⟩
  · rcases h.phase with hi | hw | hr
    · rw [hi.invoked]
      exact Nat.zero_le 1
    · have hle := hspared (by rw [hw.order]; rfl)
      rw [hw.order, List.length_cons, List.length_replicate] at hle
      rw [hw.invoked]
      omega
    · rw [hr.invoked]
      split_ifs <;> decide
  · intro hwait hreturned
    rcases h.phase with hi | hw | hr
    · exact absurd hi.returned (Nat.pos_iff_ne_zero.mp hreturned)
    · have hle := hspared (by rw [hw.order]; rfl)
      rw [hw.order, List.length_cons, List.length_replicate] at hle
      rw [hw.invoked]
      omega
    · rw [hr.invoked, if_pos hwait]

/-- When no call is in its middle, the count of the handler's calls tells the order. -/
theorem Inv.spared {s : Calls} (h : Inv s) (hcalling : s.calling = 0) (honce : Once s) :
    Spared s := by
  intro hhead
  rcases h.phase with hi | hw | hr
  · rw [hi.order] at hhead
    cases hhead
  · have hle := honce.atMost
    rw [hw.invoked] at hle
    rw [hw.order, List.length_cons, List.length_replicate]
    omega
  · cases hr.order.symm.trans hhead

theorem head?_concat_iff (order : List Section) (x : Section) :
    (order ++ [Section.notify]).head? = some x ↔
      order.head? = some x ∨ order = [] ∧ x = .notify := by
  cases order with
  | nil => simp [eq_comm]
  | cons y order => simp

/-- One event more. -/
theorem Inv.spared_step_iff {s : Calls} (h : Inv s) (e : Event) :
    Spared (CoroWaiterCalls.step s e) ↔ Spared s ∧ Single s e := by
  -- Only the locked sections are recorded.
  have hsame : ∀ {t : Calls} (e : Event), Single s e → t.order = s.order →
      (Spared t ↔ Spared s ∧ Single s e) := by
    intro t e hsingle horder
    rw [Spared, horder]
    exact (and_iff_left hsingle).symm
  cases e with
  | store =>
      apply hsame .store trivial
      simp only [CoroWaiterCalls.step]
      split_ifs <;> rfl
  | waitLocks =>
      by_cases hwait : s.wait = .locking
      · rw [CoroWaiterCalls.step, if_pos hwait,
          and_iff_left (show Single s .waitLocks from trivial)]
        rcases h.phase with hi | hw | hr
        · simp [Spared, hi.order]
        · exact absurd (hw.wait.symm.trans hwait) (by decide)
        · simp [Spared, hr.order, head?_concat hr.order]
      · rw [CoroWaiterCalls.step, if_neg hwait]
        exact hsame .waitLocks trivial rfl
  | waitCalls =>
      apply hsame .waitCalls trivial
      simp only [CoroWaiterCalls.step]
      split_ifs <;> rfl
  | notifyLocks =>
      simp only [CoroWaiterCalls.step, Spared, Single, head?_concat_iff, List.length_append,
        List.length_singleton]
      constructor
      · intro hlong
        refine ⟨fun hhead => ?_, fun hhead => ?_⟩
        · have hle := hlong (.inl hhead)
          omega
        · have hle := hlong (.inl hhead)
          omega
      · rintro ⟨-, hshort⟩ (hhead | ⟨-, hwrong⟩)
        · have hle := hshort hhead
          omega
        · cases hwrong
  | notifyCalls =>
      apply hsame .notifyCalls trivial
      simp only [CoroWaiterCalls.step]
      split_ifs <;> rfl

theorem meets_single_iff (es : List Event) :
    Meets step Single {} es ↔ Spared (run step {} es) := by
  induction es using List.reverseRecOn with
  | nil => exact iff_of_true trivial (fun _ => Nat.zero_le 2)
  | append_singleton es e ih =>
      rw [meets_concat, ih, run_concat]
      exact ((inv_run es).spared_step_iff e).symm

/-- Whatever comes between the parts of the calls, the handler is invoked at most once, and once
when `wait` and a `notify` are over, as long as no second `notify` comes behind the wait that came
first; and a run at whose end no `notify` is in its middle has the one if and only if it has the
other. -/
theorem run_once (es : List Event) :
    (Meets step Single {} es → Meets step (fun s e => Once (step s e)) {} es) ∧
      ((run step {} es).calling = 0 → (Once (run step {} es) ↔ Meets step Single {} es)) := by
  constructor
  · intro hes
    induction es using List.reverseRecOn with
    | nil => trivial
    | append_singleton es e ih =>
        have hspared := (meets_single_iff (es ++ [e])).mp hes
        rw [run_concat] at hspared
        rw [meets_concat]
        exact ⟨ih ((meets_concat _ _ _ _ _).mp hes).1, ((inv_run es).step e).once hspared⟩
  · intro hcalling
    rw [meets_single_iff]
    exact ⟨(inv_run es).spared hcalling, (inv_run es).once⟩

/-- A `notify` comes before the wait, and another one behind it. -/
theorem run_once_late :
    Meets step (fun s e => Once (step s e)) {}
      [.notifyLocks, .store, .waitLocks, .notifyLocks, .waitCalls] :=
  (run_once [.notifyLocks, .store, .waitLocks, .notifyLocks, .waitCalls]).1 (by decide)

/-- The wait comes first, and two calls of `notify` behind it. -/
theorem second_notify_invokes :
    ∃ es, ¬ Meets step (fun s e => Once (step s e)) {} es ∧
      (run step {} es).invoked = 2 ∧ (run step {} es).calling = 0 := by
  refine ⟨[.store, .waitLocks, .notifyLocks, .notifyCalls, .notifyLocks, .notifyCalls], ?_, rfl,
    rfl⟩
  intro honce
  exact absurd honce.2.2.2.2.2.1.atMost (by decide)

end Stuff.CoroWaiterCalls
