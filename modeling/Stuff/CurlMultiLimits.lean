import Stuff.CurlMulti

/-!
# Room for transfers

The limit of `Curl::Multi` is looked at before a request is started, and what waits is started when
a transfer is done. Both are steps of their own. So there may be more active requests than the
limit allows, and there may be none though some wait.
-/
namespace Stuff.CurlMulti
open EventRuns Holders

/-! ## How many are active -/

/-- Somebody has seen that there is room, and has not taken it yet. -/
def Caller.passed : Caller → ℕ
  | .looks _ => 1
  | .starts _ => 1
  | .emplaces _ _ => 1
  | _ => 0

def Loop.passed : Loop → ℕ
  | .looks => 1
  | .gets => 1
  | .starts _ => 1
  | .emplaces _ _ => 1
  | _ => 0

namespace Multi

def passed (s : Multi) : ℕ := (s.callers.map Caller.passed).sum + s.loop.passed

variable {s : Multi}

theorem getEasy_frame (s : Multi) : s.getEasy.2.m_Active = s.m_Active ∧
    s.getEasy.2.callers = s.callers ∧ s.getEasy.2.loop = s.loop ∧
      s.getEasy.2.max_connections = s.max_connections := by
  unfold getEasy
  split <;> exact ⟨rfl, rfl, rfl, rfl⟩

theorem length_emplace (s : Multi) (call easy : ℕ) :
    (s.emplace call easy).m_Active.length ≤ s.m_Active.length + 1 ∧
      (s.emplace call easy).callers = s.callers ∧ (s.emplace call easy).loop = s.loop ∧
      (s.emplace call easy).max_connections = s.max_connections := by
  simp only [emplace]
  split_ifs
  · exact ⟨Nat.le_succ _, rfl, rfl, rfl⟩
  · refine ⟨?_, rfl, rfl, rfl⟩
    rw [List.length_append, List.length_singleton]

theorem max_connections_caller (s : Multi) (i : ℕ) (sNow : UInt64) (taken : Bool) (pc : Caller) :
    (s.caller i sNow taken pc).max_connections = s.max_connections := by
  cases pc with
  | starts call => exact (getEasy_frame s).2.2.2
  | emplaces call easy => exact (length_emplace s call easy).2.2.2
  | operates call easy =>
      simp only [caller]
      split_ifs <;> rfl
  | _ => rfl

theorem max_connections_goes (s : Multi) (sNow : UInt64) (taken : Bool) :
    (s.goes sNow taken).max_connections = s.max_connections := by
  cases hloop : s.loop with
  | starts call =>
      simp only [goes, hloop]
      exact (getEasy_frame s).2.2.2
  | emplaces call easy =>
      simp only [goes, hloop]
      exact (length_emplace s call easy).2.2.2
  | operates call easy =>
      simp only [goes, hloop]
      split_ifs <;> rfl
  | expires calls => cases calls <;> simp only [goes, hloop]
  | _ => simp only [goes, hloop]

theorem max_connections_step (s : Multi) (e : Event) :
    (s.step e).max_connections = s.max_connections := by
  cases e with
  | caller i sNow taken =>
      simp only [step]
      split
      · rfl
      · exact max_connections_caller s i sNow taken _
  | done easy rc =>
      simp only [step, done]
      split
      · split_ifs <;> rfl
      · rfl
  | loop sNow taken => exact max_connections_goes s sNow taken
  | timer sNow =>
      simp only [step, onTimer]
      split <;> rfl
  | next =>
      simp only [step, next]
      split <;> rfl
  | _ => rfl

theorem length_take (s : Multi) (call easy : ℕ) :
    (s.take call easy).m_Active.length = s.m_Active.length := List.length_map _

theorem active_caller {i : ℕ} {pc : Caller} (hi : s.callers[i]? = some pc) (sNow : UInt64)
    (taken : Bool) :
    (s.caller i sNow taken pc).m_Active.length + (s.caller i sNow taken pc).passed ≤
        s.m_Active.length + s.passed ∨
      (s.caller i sNow taken pc).m_Active.length < s.max_connections := by
  have hsum := fun pc' => sum_map_set hi Caller.passed pc'
  cases pc with
  | counts call =>
      simp only [caller]
      split_ifs with hroom
      · exact Or.inr hroom
      · have hset := hsum (.queues call)
        simp only [passed, setCaller, Caller.passed] at hset ⊢
        omega
  | looks call =>
      simp only [caller]
      split_ifs
      · have hset := hsum (.starts call)
        simp only [passed, setCaller, Caller.passed] at hset ⊢
        omega
      · have hset := hsum (.queues call)
        simp only [passed, setCaller, Caller.passed] at hset ⊢
        omega
  | queues call =>
      have hset := hsum .returned
      simp only [caller, passed, setCaller, Caller.passed] at hset ⊢
      omega
  | starts call =>
      obtain ⟨hactive, hcallers, hloop, -⟩ := getEasy_frame s
      have hset := hsum (.emplaces call s.getEasy.1)
      simp only [caller, passed, setCaller, hactive, hcallers, hloop, Caller.passed] at hset ⊢
      omega
  | emplaces call easy =>
      obtain ⟨hlength, hcallers, hloop, -⟩ := length_emplace s call easy
      have hset := hsum (.operates call easy)
      simp only [caller, passed, setCaller, hcallers, hloop, Caller.passed] at hset ⊢
      omega
  | operates call easy =>
      have hset := hsum .returned
      have hset' := hsum .threw
      have hlength := length_take s call easy
      simp only [caller]
      split_ifs
      · simp only [passed, setCaller, Caller.passed] at hset ⊢
        simp only [take] at hlength ⊢
        omega
      · simp only [passed, setCaller, Caller.passed] at hset' ⊢
        omega
  | returned => exact Or.inl (Nat.le_refl _)
  | threw => exact Or.inl (Nat.le_refl _)

theorem active_goes (s : Multi) (sNow : UInt64) (taken : Bool) :
    (s.goes sNow taken).m_Active.length + (s.goes sNow taken).passed ≤
        s.m_Active.length + s.passed ∨
      (s.goes sNow taken).m_Active.length < s.max_connections := by
  cases hloop : s.loop with
  | counts =>
      simp only [goes, hloop]
      split_ifs with hroom
      · exact Or.inr hroom
      · simp [passed, hloop, Loop.passed]
  | looks =>
      simp only [goes, hloop]
      split_ifs <;> simp [passed, hloop, Loop.passed]
  | gets =>
      simp only [goes, hloop]
      cases (s.m_Waiting.get sNow).2.1 <;> simp [passed, hloop, Loop.passed]
  | starts call =>
      obtain ⟨hactive, hcallers, -, -⟩ := getEasy_frame s
      simp only [goes, hloop, passed, hactive, hcallers, Loop.passed]
      omega
  | emplaces call easy =>
      obtain ⟨hlength, hcallers, -, -⟩ := length_emplace s call easy
      simp only [goes, hloop, passed, hcallers, Loop.passed]
      omega
  | operates call easy =>
      have hlength := length_take s call easy
      simp only [goes, hloop]
      split_ifs
      · simp only [passed, hloop, Loop.passed]
        simp only [take] at hlength ⊢
        omega
      · simp [passed, hloop, Loop.passed]
  | expires calls => cases calls <;> simp [goes, passed, hloop, Loop.passed]
  | _ => simp [goes, passed, hloop, Loop.passed]

/-- A step takes what was passed, or passes when there is room. -/
theorem active_step (s : Multi) (e : Event) :
    (s.step e).m_Active.length + (s.step e).passed ≤ s.m_Active.length + s.passed ∨
      (s.step e).m_Active.length < s.max_connections := by
  cases e with
  | call => simp [step, passed, Caller.passed]
  | caller i sNow taken =>
      simp only [step]
      split
      · exact Or.inl (Nat.le_refl _)
      · next hi => exact active_caller hi sNow taken
  | done easy rc =>
      simp only [step, done]
      split
      · next hloop _ =>
        split_ifs
        · have hlength := (List.eraseP_sublist (l := s.m_Active)
            (p := fun a => a.easy = easy)).length_le
          simp only [passed, hloop, Loop.passed]
          omega
        · exact Or.inl (Nat.le_refl _)
      · exact Or.inl (Nat.le_refl _)
  | loop sNow taken => exact active_goes s sNow taken
  | timer sNow =>
      simp only [step, onTimer]
      split
      · next hloop => simp [passed, hloop, Loop.passed]
      · exact Or.inl (Nat.le_refl _)
  | cleanup stale => exact Or.inl (Nat.le_refl _)
  | next =>
      simp only [step, next]
      split <;> exact Or.inl (Nat.le_refl _)

end Multi

/-- If never more than `k` threads are between the look at the number of active requests and the
start, there are less than `k` too many of them. -/
theorem active_le (max_connections : ℕ) (queue_timeout_ms : UInt64) (k : ℕ) (es : List Event)
    (hes : Meets Multi.step (fun s e => (s.step e).passed ≤ k)
      (make max_connections queue_timeout_ms) es) :
    (run Multi.step (make max_connections queue_timeout_ms) es).m_Active.length ≤
      max_connections - 1 + k := by
  have hinv := run_invariant (I := fun s : Multi => s.max_connections = max_connections ∧
    s.m_Active.length + s.passed ≤ max_connections - 1 + k) (fun s e hs hpassed => by
      have hmax := Multi.max_connections_step s e
      refine ⟨hmax.trans hs.1, ?_⟩
      rcases Multi.active_step s e with hle | hlt
      · exact hle.trans hs.2
      · rw [hs.1] at hlt
        omega) ⟨rfl, Nat.zero_le _⟩ hes
  exact (Nat.le_add_right _ _).trans hinv.2

/-- Two callers see that there is room before one of them takes it. -/
def twoCallers : List Event :=
  [.call, .call, .caller 0 0 true, .caller 1 0 true, .caller 0 0 true, .caller 1 0 true,
    .caller 0 0 true, .caller 1 0 true, .caller 0 0 true, .caller 1 0 true, .caller 0 0 true,
    .caller 1 0 true]

theorem active_le_twoCallers :
    (run Multi.step (make 1 1000) twoCallers).m_Active.length ≤ 1 - 1 + 2 :=
  active_le 1 1000 2 twoCallers (by decide)

/-- The bound is reached. -/
example : (run Multi.step (make 1 1000) twoCallers).m_Active.length = 2 := by decide

/-! ## Nobody starts what waits -/

/-- The call has decided to start. -/
def Caller.starting : Caller → Bool
  | .starts _ => true
  | .emplaces _ _ => true
  | .operates _ _ => true
  | _ => false

/-- Nothing is active, and nobody is about to start something. -/
structure Idle (s : Multi) : Prop where
  active : s.m_Active = []
  loop : s.loop = .waits ∨ ∃ calls, s.loop = .expires calls
  callers : ∀ pc ∈ s.callers, pc.starting = false

theorem Idle.setCaller {s : Multi} (h : Idle s) {pc : Caller} (hpc : pc.starting = false) (i : ℕ) :
    Idle (s.setCaller i pc) := by
  refine ⟨h.active, h.loop, fun pc' hmem => ?_⟩
  rcases List.mem_or_eq_of_mem_set hmem with hold | heq
  · exact h.callers pc' hold
  · exact heq ▸ hpc

theorem Idle.caller {s : Multi} (h : Idle s) (hwaiting : s.m_Waiting.store ≠ []) {i : ℕ}
    {pc : Caller} (hi : s.callers[i]? = some pc) (sNow : UInt64) (taken : Bool) :
    Idle (s.caller i sNow taken pc) ∧ (s.caller i sNow taken pc).started = s.started := by
  have hpc := h.callers pc (List.mem_of_getElem? hi)
  cases pc with
  | counts call =>
      simp only [Multi.caller]
      split_ifs
      · exact ⟨h.setCaller rfl i, rfl⟩
      · exact ⟨h.setCaller rfl i, rfl⟩
  | looks call =>
      have hfull : ¬ s.m_Waiting.store.isEmpty = true := by
        rwa [List.isEmpty_iff]
      simp only [Multi.caller]
      rw [if_neg hfull]
      exact ⟨h.setCaller rfl i, rfl⟩
  | queues call =>
      have hset : Idle (s.setCaller i .returned) :=
        h.setCaller rfl i
      exact ⟨⟨hset.active, hset.loop, hset.callers⟩, rfl⟩
  | starts call => cases hpc
  | emplaces call easy => cases hpc
  | operates call easy => cases hpc
  | returned => exact ⟨h, rfl⟩
  | threw => exact ⟨h, rfl⟩

theorem Idle.step {s : Multi} (h : Idle s) (hwaiting : s.m_Waiting.store ≠ []) (e : Event) :
    Idle (s.step e) ∧ (s.step e).started = s.started := by
  cases e with
  | call =>
      refine ⟨⟨h.active, h.loop, fun pc hmem => ?_⟩, rfl⟩
      rcases List.mem_append.mp hmem with hold | hnew
      · exact h.callers pc hold
      · rw [List.mem_singleton.mp hnew]
        rfl
  | caller i sNow taken =>
      simp only [Multi.step]
      split
      · exact ⟨h, rfl⟩
      · next hi => exact h.caller hwaiting hi sNow taken
  | done easy rc =>
      have hdone : s.step (.done easy rc) = s := by
        simp only [Multi.step, Multi.done]
        split
        · next hfind =>
          rw [h.active] at hfind
          cases hfind
        · rfl
      rw [hdone]
      exact ⟨h, rfl⟩
  | loop sNow taken =>
      rcases h.loop with hloop | ⟨calls, hloop⟩
      · have hgoes : s.step (.loop sNow taken) = s := by simp only [Multi.step, Multi.goes, hloop]
        rw [hgoes]
        exact ⟨h, rfl⟩
      · simp only [Multi.step, Multi.goes, hloop]
        cases calls with
        | nil => exact ⟨⟨h.active, Or.inl rfl, h.callers⟩, rfl⟩
        | cons call calls => exact ⟨⟨h.active, Or.inr ⟨calls, rfl⟩, h.callers⟩, rfl⟩
  | timer sNow =>
      simp only [Multi.step, Multi.onTimer]
      split
      · exact ⟨⟨h.active, Or.inr ⟨_, rfl⟩, h.callers⟩, rfl⟩
      · exact ⟨h, rfl⟩
  | cleanup stale => exact ⟨⟨h.active, h.loop, h.callers⟩, rfl⟩
  | next =>
      simp only [Multi.step, Multi.next]
      split
      · exact ⟨h, rfl⟩
      · exact ⟨⟨h.active, h.loop, h.callers⟩, rfl⟩

/-- What waits is started only when a transfer is done. So if nothing is active and the queue is not
empty, nothing is started as long as the queue does not become empty, and every callback that was
not for a transfer of before has the time-out. -/
theorem idle_starves (max_connections : ℕ) (queue_timeout_ms : UInt64) (es later : List Event) :
    let s := run Multi.step (make max_connections queue_timeout_ms) es
    let t := run Multi.step s later
    Idle s → Meets Multi.step (fun t _ => t.m_Waiting.store ≠ []) s later →
      t.m_Active = [] ∧ t.started = s.started ∧
        ∀ x ∈ t.called, x.1 ∉ s.started → x.2 = .timeout := by
  intro s t hidle hwaiting
  have hinv : Idle t ∧ t.started = s.started :=
    run_invariant (I := fun t => Idle t ∧ t.started = s.started)
      (fun u e hu hw => ⟨(hu.1.step hw e).1, (hu.1.step hw e).2.trans hu.2⟩) ⟨hidle, rfl⟩ hwaiting
  refine ⟨hinv.1.active, hinv.2, fun x hx hnot => ?_⟩
  have hresult := (inv_run max_connections queue_timeout_ms (es ++ later)).called.timeout
  rw [run_append] at hresult
  exact (hresult x hx).mpr (hinv.2.symm ▸ hnot)

/-- The second call sees that there is no room. Before it is in the queue the first one is done. -/
def tooLate : List Event :=
  [.call, .caller 0 0 true, .caller 0 0 true, .caller 0 0 true, .caller 0 0 true,
    .caller 0 0 true, .call, .caller 1 5 true, .done 0 0, .loop 5 true, .loop 5 true,
    .loop 5 true, .caller 1 5 true]

/-- A third call comes later, and does not start either. -/
def thirdCall : List Event :=
  [.call, .caller 2 900 true, .caller 2 900 true, .caller 2 900 true, .timer 1005,
    .loop 1005 true, .loop 1005 true, .next, .next]

theorem idle_starves_tooLate :
    let t := run Multi.step (run Multi.step (make 1 1000) tooLate) thirdCall
    t.m_Active = [] ∧ t.started = [0] ∧ ∀ x ∈ t.called, x.1 ∉ [0] → x.2 = .timeout := by
  have hidle : Idle (run Multi.step (make 1 1000) tooLate) :=
    ⟨by decide, Or.inl (by decide), by decide⟩
  exact idle_starves 1 1000 tooLate thirdCall hidle (by decide)

end Stuff.CurlMulti
