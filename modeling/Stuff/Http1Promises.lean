import Stuff.Http1Manager

/-!
# The slots and promises of the HTTP/1 client

A slot of the manager is taken by `start` and given back by `done_i`. As long as
every request that is started has a url that parses, the slots add up, requests
wait only when all slots are taken, and each promise is completed once. A request
whose start throws is lost, with the slot that `done_i` meant to give to it.
-/
namespace Stuff.Http1Promises
open ParserUrl ContainerRequestQueue Http1Manager EventRuns

variable {Request : Type} {prepareRequest : ClientRequest → Parsed → Except String Request}

/-- The slots add up, requests wait only when all slots are taken, and each promise
is that of one request that waits or runs, or was completed once. -/
structure Sound (m : Manager) : Prop where
  counted : m.jobs.length + m.posted = m.current ∧ m.current ≤ m.maxConnections
  busy : m.waiting.store ≠ [] → m.current = m.maxConnections
  once : (m.waiting.store.map (fun r => r.value.promise) ++ m.jobs.map (fun j => j.rq.promise) ++
    settled m.log).Perm (List.range m.submitted.length)

/-- With nothing left to run, every promise was completed once. -/
theorem Sound.at_rest {m : Manager} (h : Sound m) (hmax : 0 < m.maxConnections)
    (hjobs : m.jobs = []) (hposted : m.posted = 0) :
    (settled m.log).Perm (List.range m.submitted.length) := by
  have hcurrent := h.counted.1
  rw [hjobs, hposted] at hcurrent
  have hstore : m.waiting.store = [] := by
    by_contra hne
    have hfull := h.busy hne
    simp only [List.length_nil] at hcurrent
    omega
  simpa [hjobs, hstore] using h.once

theorem sound_iff {m : Manager} (h : Tracked [] m) :
    Sound m ↔ (m.waiting.store ≠ [] → m.current = m.maxConnections) ∧ m.dropped = [] := by
  have hplaces := h.places
  simp only [held, List.append_nil, List.map_append, List.map_map, h.numbered] at hplaces
  constructor
  · intro hsound
    have hlength := hplaces.length_eq
    have honce := hsound.once.length_eq
    simp only [List.length_append, List.length_map] at hlength honce
    exact ⟨hsound.busy, List.length_eq_zero_iff.mp (by omega)⟩
  · intro hrest
    rw [hrest.2, List.map_nil, List.append_nil] at hplaces
    exact ⟨⟨h.counted, h.bound⟩, hrest.1, hplaces⟩

variable (prepareRequest) in
/-- A request that would be started by the step passes the checks of `start`: a new
one that need not wait, or the first one of the queue that is not too old. -/
def Starting (m : Manager) : Event → Prop
  | .asyncI request callback _ => m.current < m.maxConnections → m.waiting.store = [] →
      Starts prepareRequest ⟨request, m.submitted.length, callback⟩
  | .doneI sNow => 0 < m.posted →
      ∀ sNew ∈ m.waiting.store.find? (sNow < ·.deadline), Starts prepareRequest sNew.value
  | _ => True

/-- What `sound_iff` asks for, before a step. -/
structure Ready (m : Manager) : Prop where
  tracked : Tracked [] m
  busy : m.waiting.store ≠ [] → m.current = m.maxConnections
  dropped : m.dropped = []

namespace Ready
variable {m : Manager}

theorem asyncI (h : Ready m) (request : ClientRequest) (callback : Bool) (sNow : UInt64) :
    Sound (managerStep prepareRequest m (.asyncI request callback sNow)) ↔
      Starting prepareRequest m (.asyncI request callback sNow) := by
  rw [sound_iff (managerStep_tracked prepareRequest h.tracked _)]
  simp only [managerStep, Manager.asyncI]
  split_ifs with hfree
  · obtain ⟨hroom, hempty⟩ := hfree
    by_cases hstarts : Starts prepareRequest ⟨request, m.submitted.length, callback⟩
    · obtain ⟨alive, connections, job, -, heq⟩ := start_of_starts hstarts
        { m with submitted := m.submitted ++ [⟨request, m.submitted.length, callback⟩] }
      rw [heq]
      exact iff_of_true ⟨fun hne => absurd hempty hne, h.dropped⟩ fun _ _ => hstarts
    · rw [start_of_not_starts hstarts]
      apply iff_of_false
      · intro hsound
        exact List.append_ne_nil_of_right_ne_nil _ (List.cons_ne_nil _ _) hsound.2
      · exact fun hstarting => hstarts (hstarting hroom hempty)
  · apply iff_of_true
    · refine ⟨fun _ => ?_, h.dropped⟩
      have hbound := h.tracked.bound
      by_cases hempty : m.waiting.store = []
      · have hfull : ¬ m.current < m.maxConnections := fun hroom => hfree ⟨hroom, hempty⟩
        dsimp only
        omega
      · exact h.busy hempty
    · exact fun hroom hempty => absurd ⟨hroom, hempty⟩ hfree

theorem doneI (h : Ready m) (sNow : UInt64) :
    Sound (managerStep prepareRequest m (.doneI sNow)) ↔
      Starting prepareRequest m (.doneI sNow) := by
  rw [sound_iff (managerStep_tracked prepareRequest h.tracked _)]
  have hle := h.tracked.posted_le
  rcases managerStep_doneI prepareRequest hle sNow with ⟨hzero, heq⟩ | ⟨hposted, heq⟩
  · rw [heq]
    exact iff_of_true ⟨h.busy, h.dropped⟩ fun hpos => absurd hzero (Nat.ne_of_gt hpos)
  · rw [heq]
    have hfind : (m.waiting.get sNow).2.1 = m.waiting.store.find? (sNow < ·.deadline) :=
      (getLoop_eq sNow m.waiting.store).2
    cases hnext : (m.waiting.get sNow).2.1 with
    | none =>
        have hrest : (m.waiting.get sNow).2.2.store = [] := getLoop_rest hnext
        apply iff_of_true
        · exact ⟨fun hne => absurd hrest hne, h.dropped⟩
        · intro _ sNew hnew
          rw [← hfind, hnext] at hnew
          cases hnew
    | some sNew =>
        dsimp only
        by_cases hstarts : Starts prepareRequest sNew.value
        · obtain ⟨alive, connections, job, -, hstart⟩ :=
            start_of_starts hstarts (released m sNow)
          rw [hstart]
          apply iff_of_true
          · refine ⟨fun _ => ?_, h.dropped⟩
            have hstore : m.waiting.store ≠ [] := by
              intro hnil
              rw [hfind, hnil] at hnext
              cases hnext
            have hfull := h.busy hstore
            change m.current - 1 + 1 = m.maxConnections
            omega
          · intro _ sNew' hnew
            rw [← hfind, hnext] at hnew
            cases hnew
            exact hstarts
        · rw [start_of_not_starts hstarts]
          apply iff_of_false
          · intro hsound
            exact List.append_ne_nil_of_right_ne_nil _ (List.cons_ne_nil _ _) hsound.2
          · intro hstarting
            apply hstarts
            apply hstarting hposted
            rw [← hfind, hnext]
            rfl

theorem finish (h : Ready m) (i : ℕ) (outcome : Outcome) (sTime : ℤ) :
    Sound (managerStep prepareRequest m (.finish i outcome sTime)) := by
  rw [sound_iff (managerStep_tracked prepareRequest h.tracked _)]
  rcases managerStep_finish prepareRequest m i outcome sTime with heq | ⟨job, -, heq⟩
  · rw [heq]
    exact ⟨h.busy, h.dropped⟩
  · rw [heq]
    exact ⟨h.busy, h.dropped⟩

theorem clean (h : Ready m) (sTime : ℤ) (sNow : UInt64) :
    Sound (managerStep prepareRequest m (.clean sTime sNow)) := by
  rw [sound_iff (managerStep_tracked prepareRequest h.tracked _)]
  simp only [managerStep, Manager.clean, expireAll_eq]
  refine ⟨fun hne => h.busy fun hnil => hne ?_, h.dropped⟩
  have hsub := (timerLoop_spec sNow h.tracked.ordered.nodup (Nat.le_refl _)).2.1
  rw [hnil] at hsub
  simp only [RequestQueue.onTimer, hnil]
  exact List.sublist_nil.mp hsub

end Ready

/-- In every run the manager is sound after each step exactly if every request that
a step starts passes the checks of `start`. -/
theorem sound_iff_starting (maxConnections : ℕ) (queueTimeoutMs : UInt64) (es : List Event) :
    Meets (managerStep prepareRequest) (fun m e => Sound (managerStep prepareRequest m e))
      { maxConnections := maxConnections, queueTimeoutMs := queueTimeoutMs } es ↔
    Meets (managerStep prepareRequest) (Starting prepareRequest)
      { maxConnections := maxConnections, queueTimeoutMs := queueTimeoutMs } es := by
  have hstart : Ready { maxConnections := maxConnections, queueTimeoutMs := queueTimeoutMs } :=
    ⟨Tracked.start maxConnections queueTimeoutMs, fun hne => absurd rfl hne, rfl⟩
  apply meets_iff _ _ hstart (meets_true _ _ es)
  · intro m e h _
    cases e with
    | asyncI request callback sNow => exact h.asyncI request callback sNow
    | finish i outcome sTime => exact iff_of_true (h.finish i outcome sTime) trivial
    | doneI sNow => exact h.doneI sNow
    | clean sTime sNow => exact iff_of_true (h.clean sTime sNow) trivial
  · intro m e h _ hsound
    have htracked := managerStep_tracked prepareRequest h.tracked e
    obtain ⟨hbusy, hdropped⟩ := (sound_iff htracked).mp hsound
    exact ⟨htracked, hbusy, hdropped⟩

/-- One slot, and three requests; the url of the second one is empty. -/
def badUrlRun : List Event :=
  [.asyncI { url := scheme } false 0, .asyncI { url := [] } false 0,
    .asyncI { url := scheme } false 0, .finish 0 .response 0, .doneI 1]

/-- The second promise is nowhere, and the third request waits though nothing
runs. -/
theorem lost_after_bad_url :
    let m := run (managerStep fun _ _ => Except.ok ()) { maxConnections := 1 } badUrlRun
    m.submitted.map RQ.promise = [0, 1, 2] ∧ settled m.log = [0] ∧ m.jobs = [] ∧ m.posted = 0 ∧
      m.current = 0 ∧ m.waiting.store.map (fun r => r.value.promise) = [2] := by
  decide

end Stuff.Http1Promises
