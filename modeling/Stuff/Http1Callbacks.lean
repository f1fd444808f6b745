import Stuff.Http1Manager

/-!
# The callbacks of the HTTP/1 client

A coroutine that ends completes the promise and then calls the callback, which
resumes whoever waits in `async_y`. The handler of the queue completes the promise
only: a request that is too old while it waits is never resumed.
-/
namespace Stuff.Http1Callbacks
open ParserUrl ContainerRequestQueue Http1Manager EventRuns

variable {Request : Type} {prepareRequest : ClientRequest → Parsed → Except String Request}

/-- What happened to one request. -/
def about (p : ℕ) (log : List Note) : List Note := log.filter fun note => note.promise = p

/-- Nothing happened yet to a request of `async_y`, or its promise was completed and
then its callback was called, each of them once. -/
def Resumed (m : Manager) : Prop :=
  ∀ rq ∈ m.submitted, rq.callback = true → about rq.promise m.log = [] ∨
    ∃ result, about rq.promise m.log = [.set rq.promise result, .callback rq.promise]

/-- The requests that a step finds too old in the queue: those before the first one
that `done_i` can start, and all of them when the timer fires. -/
def expiring (m : Manager) : Event → List RQ
  | .doneI sNow =>
      if 0 < m.posted then (m.waiting.store.takeWhile (·.deadline ≤ sNow)).map Rec.value else []
  | .clean _ sNow => (m.waiting.store.filter (·.deadline ≤ sNow)).map Rec.value
  | _ => []

/-- No request of `async_y` is too old. -/
def InTime (m : Manager) (e : Event) : Prop := ∀ rq ∈ expiring m e, rq.callback = false

/-! ## The log of one request -/

theorem about_append (p : ℕ) (log log' : List Note) :
    about p (log ++ log') = about p log ++ about p log' :=
  List.filter_append _ _

theorem about_eq_nil {p : ℕ} {log : List Note} :
    about p log = [] ↔ ∀ note ∈ log, note.promise ≠ p := by
  simp [about, List.filter_eq_nil_iff]

theorem mem_timeouts {xs : List (Rec RQ)} {note : Note} :
    note ∈ timeouts xs ↔
      ∃ x ∈ xs, note = .set x.value.promise (.exception "timeout in queue") := by
  unfold timeouts
  rw [List.mem_map]
  constructor
  · rintro ⟨x, hx, rfl⟩
    exact ⟨x, hx, rfl⟩
  · rintro ⟨x, hx, rfl⟩
    exact ⟨x, hx, rfl⟩

section Tracked
variable {m : Manager}

theorem submitted_inj (h : Tracked [] m) {rq rq' : RQ} (hrq : rq ∈ m.submitted)
    (hrq' : rq' ∈ m.submitted) (heq : rq.promise = rq'.promise) : rq = rq' := by
  have hnodup : (m.submitted.map RQ.promise).Nodup := h.numbered ▸ List.nodup_range
  exact List.inj_on_of_nodup_map hnodup hrq hrq' heq

/-- Nothing happened yet to a request that waits or runs. -/
theorem about_held (h : Tracked [] m) {rq : RQ} (hrq : rq ∈ held m) :
    about rq.promise m.log = [] := by
  rw [about_eq_nil]
  intro note hnote heq
  have hsettled := h.noted note hnote
  have hnodup : (m.submitted.map RQ.promise).Nodup := h.numbered ▸ List.nodup_range
  have hplaces := h.places.nodup_iff.mpr hnodup
  rw [List.append_nil] at hplaces
  exact (List.nodup_append.mp hplaces).2.2 _ (List.mem_map_of_mem hrq) _ hsettled heq.symm

theorem about_new (h : Tracked [] m) : about m.submitted.length m.log = [] := by
  rw [about_eq_nil]
  intro note hnote heq
  have hmem := h.places.mem_iff.mp (List.mem_append_right _ (h.noted note hnote))
  rw [h.numbered, List.mem_range, heq] at hmem
  exact Nat.lt_irrefl _ hmem

end Tracked

/-! ## The steps -/

/-- The queue hands over some requests. -/
theorem resumed_expired {m m' : Manager} (h : Tracked [] m) (hresumed : Resumed m)
    (xs : List (Rec RQ)) (hxs : ∀ x ∈ xs, x ∈ m.waiting.store)
    (hsubmitted : m'.submitted = m.submitted) (hlog : m'.log = m.log ++ timeouts xs) :
    Resumed m' ↔ ∀ x ∈ xs, x.value.callback = false := by
  have hheld : ∀ x ∈ xs, x.value ∈ held m := by
    intro x hx
    exact List.mem_append_left _ (List.mem_append_left _ (List.mem_map_of_mem (hxs x hx)))
  have hknown : ∀ x ∈ xs, x.value ∈ m.submitted := fun x hx =>
    h.known x.value (List.mem_append_left _ (hheld x hx))
  unfold Resumed
  rw [hsubmitted, hlog]
  constructor
  · intro hafter x hx
    by_contra hcallback
    rw [Bool.not_eq_false] at hcallback
    have hx' := hafter x.value (hknown x hx) hcallback
    rw [about_append, about_held h (hheld x hx), List.nil_append] at hx'
    rcases hx' with hnil | ⟨result, hboth⟩
    · exact about_eq_nil.mp hnil _ (mem_timeouts.mpr ⟨x, hx, rfl⟩) rfl
    · have hcalled : Note.callback x.value.promise ∈ about x.value.promise (timeouts xs) := by
        rw [hboth]
        simp
      obtain ⟨y, -, hy⟩ := mem_timeouts.mp (List.mem_of_mem_filter hcalled)
      cases hy
  · intro hplain rq hrq hcallback
    have hother : about rq.promise (timeouts xs) = [] := by
      rw [about_eq_nil]
      intro note hnote heq
      obtain ⟨x, hx, rfl⟩ := mem_timeouts.mp hnote
      have hsame := submitted_inj h (hknown x hx) hrq heq
      rw [← hsame, hplain x hx] at hcallback
      cases hcallback
    rw [about_append, hother, List.append_nil]
    exact hresumed rq hrq hcallback

theorem tryStart_history (m : Manager) (rq : RQ) :
    (m.tryStart prepareRequest rq).log = m.log ∧
      (m.tryStart prepareRequest rq).submitted = m.submitted := by
  by_cases hstarts : Starts prepareRequest rq
  · obtain ⟨alive, connections, job, -, heq⟩ := start_of_starts hstarts m
    rw [heq]
    exact ⟨rfl, rfl⟩
  · rw [start_of_not_starts hstarts]
    exact ⟨rfl, rfl⟩

variable {m : Manager}

theorem resumed_asyncI (h : Tracked [] m) (hresumed : Resumed m) (request : ClientRequest)
    (callback : Bool) (sNow : UInt64) :
    Resumed (managerStep prepareRequest m (.asyncI request callback sNow)) := by
  have hhistory : (managerStep prepareRequest m (.asyncI request callback sNow)).log = m.log ∧
      (managerStep prepareRequest m (.asyncI request callback sNow)).submitted =
        m.submitted ++ [⟨request, m.submitted.length, callback⟩] := by
    simp only [managerStep, Manager.asyncI]
    split_ifs
    · exact tryStart_history _ _
    · exact ⟨rfl, rfl⟩
  unfold Resumed
  rw [hhistory.1, hhistory.2]
  intro rq hrq hcallback
  rcases List.mem_append.mp hrq with hmem | hmem
  · exact hresumed rq hmem hcallback
  · rw [List.mem_singleton.mp hmem]
    exact Or.inl (about_new h)

theorem resumed_finish (h : Tracked [] m) (hresumed : Resumed m) (i : ℕ) (outcome : Outcome)
    (sTime : ℤ) : Resumed (managerStep prepareRequest m (.finish i outcome sTime)) := by
  rcases managerStep_finish prepareRequest m i outcome sTime with heq | ⟨job, hjob, heq⟩
  · rw [heq]
    exact hresumed
  · have hheld : job.rq ∈ held m :=
      List.mem_append_left _ (List.mem_append_right _ (List.mem_map_of_mem hjob))
    rw [heq]
    intro rq hrq hcallback
    simp only [Manager.finish, about_append]
    by_cases hsame : rq.promise = job.rq.promise
    · have hrq' := submitted_inj h hrq (h.known _ (List.mem_append_left _ hheld)) hsame
      rw [hrq', about_held h hheld, if_pos (hrq' ▸ hcallback)]
      right
      exact ⟨outcome.result, by simp [about, Note.promise]⟩
    · have hother : about rq.promise (.set job.rq.promise outcome.result ::
          (if job.rq.callback then [.callback job.rq.promise] else [])) = [] := by
        rw [about_eq_nil]
        intro note hnote hnote'
        apply hsame
        rw [← hnote']
        rcases List.mem_cons.mp hnote with hset | hmem
        · rw [hset]
          rfl
        · split_ifs at hmem with hcalled
          · rw [List.mem_singleton.mp hmem]
            rfl
          · cases hmem
      rw [hother, List.append_nil]
      exact hresumed rq hrq hcallback

theorem resumed_doneI_iff (h : Tracked [] m) (hresumed : Resumed m) (sNow : UInt64) :
    Resumed (managerStep prepareRequest m (.doneI sNow)) ↔ InTime m (.doneI sNow) := by
  rcases managerStep_doneI prepareRequest h.posted_le sNow with ⟨hzero, heq⟩ | ⟨hposted, heq⟩
  · rw [heq]
    apply iff_of_true hresumed
    simp [InTime, expiring, hzero]
  · have hhistory : (managerStep prepareRequest m (.doneI sNow)).log =
          m.log ++ timeouts (m.waiting.get sNow).1 ∧
        (managerStep prepareRequest m (.doneI sNow)).submitted = m.submitted := by
      rw [heq]
      cases (m.waiting.get sNow).2.1 with
      | none => exact ⟨rfl, rfl⟩
      | some sNew => exact tryStart_history (released m sNow) sNew.value
    have hgot : (m.waiting.get sNow).1 = m.waiting.store.takeWhile (·.deadline ≤ sNow) :=
      (getLoop_eq sNow m.waiting.store).1
    rw [hgot] at hhistory
    rw [resumed_expired h hresumed _ (fun x hx => (List.takeWhile_sublist _).subset hx) hhistory.2
      hhistory.1]
    simp only [InTime, expiring, if_pos hposted, List.forall_mem_map]

theorem resumed_clean_iff (h : Tracked [] m) (hresumed : Resumed m) (sTime : ℤ) (sNow : UInt64) :
    Resumed (managerStep prepareRequest m (.clean sTime sNow)) ↔
      InTime m (.clean sTime sNow) := by
  have hmem := fun r => h.ordered.mem_onTimer (r := r) sNow
  rw [resumed_expired h hresumed (m.waiting.onTimer sNow).1 (fun x hx => ((hmem x).mp hx).1)
    (by simp only [managerStep, Manager.clean, expireAll_eq])
    (by simp only [managerStep, Manager.clean, expireAll_eq])]
  simp only [InTime, expiring, List.forall_mem_map, List.mem_filter, decide_eq_true_eq, hmem]

/-- In every run each callback of `async_y` is called once and after its promise was
completed exactly if no request of `async_y` is found too old in the queue. -/
theorem resumed_iff_inTime (maxConnections : ℕ) (queueTimeoutMs : UInt64) (es : List Event) :
    Meets (managerStep prepareRequest) (fun m e => Resumed (managerStep prepareRequest m e))
      { maxConnections := maxConnections, queueTimeoutMs := queueTimeoutMs } es ↔
    Meets (managerStep prepareRequest) InTime
      { maxConnections := maxConnections, queueTimeoutMs := queueTimeoutMs } es := by
  have hstart : Tracked [] { maxConnections := maxConnections, queueTimeoutMs := queueTimeoutMs } ∧
      Resumed { maxConnections := maxConnections, queueTimeoutMs := queueTimeoutMs } :=
    ⟨Tracked.start maxConnections queueTimeoutMs, by simp [Resumed]⟩
  apply meets_iff (I := fun m => Tracked [] m ∧ Resumed m) _ _ hstart (meets_true _ _ es)
  · intro m e h _
    cases e with
    | asyncI request callback sNow =>
        exact iff_of_true (resumed_asyncI h.1 h.2 request callback sNow)
          (by simp [InTime, expiring])
    | finish i outcome sTime =>
        exact iff_of_true (resumed_finish h.1 h.2 i outcome sTime) (by simp [InTime, expiring])
    | doneI sNow => exact resumed_doneI_iff h.1 h.2 sNow
    | clean sTime sNow => exact resumed_clean_iff h.1 h.2 sTime sNow
  · intro m e h _ hresumed
    exact ⟨managerStep_tracked prepareRequest h.1 e, hresumed⟩

/-- One slot, taken by a request of `async`; one of `async_y` waits for a second. -/
def waitingRun : List Event :=
  [.asyncI { url := scheme } false 0, .asyncI { url := scheme } true 0, .clean 1 1000]

/-- The promise is completed, and the callback is not called; the request is gone. -/
theorem not_resumed_waiting :
    let m := run (managerStep fun _ _ => Except.ok ()) { maxConnections := 1 } waitingRun
    m.submitted.map (fun rq => (rq.promise, rq.callback)) = [(0, false), (1, true)] ∧
      about 1 m.log = [.set 1 (.exception "timeout in queue")] ∧ m.waiting.store = [] ∧
      m.jobs.map (fun j => j.rq.promise) = [0] := by
  decide

end Stuff.Http1Callbacks
