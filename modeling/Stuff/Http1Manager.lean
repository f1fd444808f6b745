import Stuff.ContainerPool
import Stuff.ContainerRequestQueue
import Stuff.ParserUrl

/-!
# The HTTP/1 client manager

`Manager` runs at most `max_connections` requests at a time, each in a coroutine
of its own; the others wait in a queue with a timeout. A finished coroutine posts
`done_i`, which gives its slot to the next request that waits. Everything runs in
one strand, so the handlers are the steps of the model.
-/
namespace Stuff.Http1Manager
open ParserUrl ContainerPool ContainerRequestQueue MachineWords EventRuns

structure ClientRequest where
  method : String := "GET"
  url : Bytes
  body : Bytes := []
  headers : List (Bytes × Bytes) := []
deriving DecidableEq, Repr

/-- Promises are numbered in the order of the requests. The callback of `async_y`
resumes the coroutine that waits; `async` has none. -/
structure RQ where
  request : ClientRequest
  promise : ℕ
  callback : Bool
deriving DecidableEq, Repr

/-- How a promise is completed. -/
inductive Result
  | value
  | exception (what : String)
deriving DecidableEq, Repr

/-- What happens to a request. -/
inductive Note
  | set (promise : ℕ) (result : Result)
  | callback (promise : ℕ)
deriving DecidableEq, Repr

def Note.promise : Note → ℕ
  | .set p _ => p
  | .callback p => p

/-- Host and port. -/
abbrev Addr := Bytes × Bytes

/-- A coroutine that was spawned by `start`: `create` for a new connection,
`perform` for one that was kept alive. -/
structure Job where
  rq : RQ
  addr : Addr
  connection : ℕ
  reused : Bool
deriving DecidableEq, Repr

/-- The fields of the class, the coroutines and handlers that it left to the
strand, and the history. A request that an exception took away is dropped, with
its promise. -/
structure Manager where
  maxConnections : ℕ := 32
  queueTimeoutMs : UInt64 := 1000
  alive : KeyPool Addr ℕ := {}
  current : ℕ := 0
  waiting : RequestQueue RQ := {}
  connections : ℕ := 0
  jobs : List Job := []
  posted : ℕ := 0
  log : List Note := []
  submitted : List RQ := []
  dropped : List RQ := []

/-- How a coroutine ends: the call that failed, with the message of its error. -/
inductive Outcome
  | resolve (message : String)
  | connect (message : String)
  | write (message : String)
  | read (message : String)
  | response
deriving DecidableEq, Repr

/-- The errors of `create` come before those of `perform`. -/
def Outcome.inCreate : Outcome → Bool
  | .resolve _ => true
  | .connect _ => true
  | _ => false

def Outcome.result : Outcome → Result
  | .resolve message => .exception ("resolve: " ++ message)
  | .connect message => .exception ("connect: " ++ message)
  | .write message => .exception ("write: " ++ message)
  | .read message => .exception ("read: " ++ message)
  | .response => .value

section Prepare
variable {Request : Type} (prepareRequest : ClientRequest → Parsed → Except String Request)

namespace Manager

/-- `prepareRequest` fills in a request of the library, which may throw. -/
def start (m : Manager) (aRQ : RQ) : Except String Manager := do
  let sParsed ← url aRQ.request.url
  let _ ← prepareRequest aRQ.request sParsed
  let sAddr := (sParsed.host, sParsed.port)
  let sAlive := m.alive.get sAddr
  let m := { m with alive := sAlive.2, current := m.current + 1 }
  match sAlive.1 with
  | some sPtr =>
      .ok { m with jobs := m.jobs ++ [⟨aRQ, sAddr, sPtr, true⟩] }
  | none =>
      .ok { m with
        jobs := m.jobs ++ [⟨aRQ, sAddr, m.connections, false⟩]
        connections := m.connections + 1 }

/-- A call of `start` at the end of a handler. An exception leaves the handler, and
the request is gone. -/
def tryStart (m : Manager) (aRQ : RQ) : Manager :=
  match m.start prepareRequest aRQ with
  | .ok m => m
  | .error _ => { m with dropped := m.dropped ++ [aRQ] }

def asyncI (m : Manager) (aRQ : RQ) (sNow : UInt64) : Manager :=
  if m.current < m.maxConnections ∧ m.waiting.store = [] then m.tryStart prepareRequest aRQ
  else { m with waiting := (m.waiting.insert aRQ m.queueTimeoutMs sNow).2 }

/-- The handler of the queue. -/
def expired (m : Manager) (x : RQ) : Manager :=
  { m with log := m.log ++ [.set x.promise (.exception "timeout in queue")] }

def expireAll (m : Manager) (xs : List (Rec RQ)) : Manager :=
  xs.foldl (fun m x => m.expired x.value) m

def doneI (m : Manager) (sNow : UInt64) : Manager :=
  let m := { m with current := if m.current > 0 then m.current - 1 else m.current }
  let x := m.waiting.get sNow
  let m := { m with waiting := x.2.2 }.expireAll x.1
  match x.2.1 with
  | none => m
  | some sNew => m.tryStart prepareRequest sNew.value

/-- The end of a coroutine: the promise, the connection if it is kept alive, the
post of `done_i`, and the callback. -/
def finish (m : Manager) (job : Job) (outcome : Outcome) (sTime : ℤ) : Manager :=
  { m with
    alive := if outcome = .response then m.alive.insert job.addr job.connection sTime else m.alive
    jobs := m.jobs.erase job
    posted := m.posted + 1
    log := m.log ++ .set job.rq.promise outcome.result ::
      (if job.rq.callback then [.callback job.rq.promise] else []) }

/-- The handler of the timer in `start_cleaner`. -/
def clean (m : Manager) (sTime : ℤ) (sNow : UInt64) : Manager :=
  let x := m.waiting.onTimer sNow
  { m with alive := m.alive.cleanup 10 sTime, waiting := x.2 }.expireAll x.1

end Manager

inductive Event
  | asyncI (request : ClientRequest) (callback : Bool) (sNow : UInt64)
  | finish (i : ℕ) (outcome : Outcome) (sTime : ℤ)
  | doneI (sNow : UInt64)
  | clean (sTime : ℤ) (sNow : UInt64)

/-- A coroutine that runs may end at any time, and a posted handler may run; an
event that is not possible changes nothing. -/
def managerStep (m : Manager) : Event → Manager
  | .asyncI request callback sNow =>
      let aRQ : RQ := ⟨request, m.submitted.length, callback⟩
      { m with submitted := m.submitted ++ [aRQ] }.asyncI prepareRequest aRQ sNow
  | .finish i outcome sTime =>
      match m.jobs[i]? with
      | none => m
      | some job =>
          if job.reused ∧ outcome.inCreate then m else m.finish job outcome sTime
  | .doneI sNow =>
      match m.posted with
      | 0 => m
      | posted + 1 => { m with posted := posted }.doneI prepareRequest sNow
  | .clean sTime sNow => m.clean sTime sNow

/-- The url and the rest of the request pass the checks of `start`. -/
def Starts (aRQ : RQ) : Prop :=
  ∃ sParsed sInternal, url aRQ.request.url = .ok sParsed ∧
    prepareRequest aRQ.request sParsed = .ok sInternal

variable {prepareRequest}

/-! ## What the operations change -/

theorem start_of_starts {aRQ : RQ} (h : Starts prepareRequest aRQ) (m : Manager) :
    ∃ alive connections job, job.rq = aRQ ∧ m.tryStart prepareRequest aRQ =
      { m with
        alive := alive
        connections := connections
        current := m.current + 1
        jobs := m.jobs ++ [job] } := by
  obtain ⟨sParsed, sInternal, hurl, hprepare⟩ := h
  unfold Manager.tryStart Manager.start
  simp only [hurl, hprepare, bind, Except.bind]
  cases (m.alive.get (sParsed.host, sParsed.port)).1 with
  | some sPtr => exact ⟨_, _, ⟨aRQ, _, sPtr, true⟩, rfl, rfl⟩
  | none => exact ⟨_, _, ⟨aRQ, _, m.connections, false⟩, rfl, rfl⟩

theorem start_of_not_starts {aRQ : RQ} (h : ¬ Starts prepareRequest aRQ) (m : Manager) :
    m.tryStart prepareRequest aRQ = { m with dropped := m.dropped ++ [aRQ] } := by
  unfold Manager.tryStart Manager.start
  cases hurl : url aRQ.request.url with
  | error what => rfl
  | ok sParsed =>
      cases hprepare : prepareRequest aRQ.request sParsed with
      | error what => simp [bind, Except.bind, hprepare]
      | ok sInternal => exact absurd ⟨sParsed, sInternal, hurl, hprepare⟩ h

/-- The notes of requests that are too old. -/
def timeouts (xs : List (Rec RQ)) : List Note :=
  xs.map fun x => .set x.value.promise (.exception "timeout in queue")

theorem expireAll_eq (m : Manager) (xs : List (Rec RQ)) :
    m.expireAll xs = { m with log := m.log ++ timeouts xs } := by
  unfold Manager.expireAll
  induction xs generalizing m with
  | nil => simp [timeouts]
  | cons x xs ih =>
      rw [List.foldl_cons, ih]
      simp [Manager.expired, timeouts]

/-- After `done_i` released the slot and looked at the queue. -/
def released (m : Manager) (sNow : UInt64) : Manager :=
  { m with
    posted := m.posted - 1
    current := m.current - 1
    waiting := (m.waiting.get sNow).2.2
    log := m.log ++ timeouts (m.waiting.get sNow).1 }

/-! ## The steps that are possible -/

variable (prepareRequest) in
theorem managerStep_finish (m : Manager) (i : ℕ) (outcome : Outcome) (sTime : ℤ) :
    managerStep prepareRequest m (.finish i outcome sTime) = m ∨
      ∃ job ∈ m.jobs, managerStep prepareRequest m (.finish i outcome sTime) =
        m.finish job outcome sTime := by
  simp only [managerStep]
  cases hjob : m.jobs[i]? with
  | none => exact Or.inl rfl
  | some job =>
      dsimp only
      split_ifs
      · exact Or.inl rfl
      · exact Or.inr ⟨job, List.mem_of_getElem? hjob, rfl⟩

variable (prepareRequest) in
theorem managerStep_doneI {m : Manager} (h : m.posted ≤ m.current) (sNow : UInt64) :
    m.posted = 0 ∧ managerStep prepareRequest m (.doneI sNow) = m ∨
      0 < m.posted ∧ managerStep prepareRequest m (.doneI sNow) =
        match (m.waiting.get sNow).2.1 with
        | none => released m sNow
        | some sNew => (released m sNow).tryStart prepareRequest sNew.value := by
  simp only [managerStep]
  cases hposted : m.posted with
  | zero => exact Or.inl ⟨rfl, rfl⟩
  | succ posted =>
      have hcurrent : 0 < m.current := by omega
      refine Or.inr ⟨Nat.succ_pos _, ?_⟩
      simp only [Manager.doneI, gt_iff_lt, if_pos hcurrent, expireAll_eq, released, hposted,
        Nat.add_sub_cancel]

/-! ## Where the requests are -/

/-- The promises that were completed. -/
def settled (log : List Note) : List ℕ :=
  log.filterMap fun
    | .set p _ => some p
    | .callback _ => none

def held (m : Manager) : List RQ :=
  m.waiting.store.map Rec.value ++ m.jobs.map Job.rq ++ m.dropped

/-- Every request submitted waits, runs, was dropped, is settled, or is in the
hand of the handler that runs. -/
structure Tracked (hand : List RQ) (m : Manager) : Prop where
  ordered : m.waiting.Ordered
  counted : m.jobs.length + m.posted = m.current
  bound : m.current ≤ m.maxConnections
  numbered : m.submitted.map RQ.promise = List.range m.submitted.length
  known : ∀ rq ∈ held m ++ hand, rq ∈ m.submitted
  places : ((held m ++ hand).map RQ.promise ++ settled m.log).Perm (m.submitted.map RQ.promise)
  noted : ∀ note ∈ m.log, note.promise ∈ settled m.log

@[simp] theorem count_held (m : Manager) (rq : RQ) :
    (held m).count rq = (m.waiting.store.map Rec.value).count rq + (m.jobs.map Job.rq).count rq +
      m.dropped.count rq := by
  unfold held
  rw [List.count_append, List.count_append]

@[simp] theorem settled_append (log log' : List Note) :
    settled (log ++ log') = settled log ++ settled log' := List.filterMap_append

namespace Tracked
variable {hand : List RQ} {m : Manager} {rq : RQ}

theorem start (maxConnections : ℕ) (queueTimeoutMs : UInt64) :
    Tracked [] { maxConnections := maxConnections, queueTimeoutMs := queueTimeoutMs } := by
  constructor
  · exact ⟨List.nodup_nil, by simp⟩
  · rfl
  · exact Nat.zero_le _
  · rfl
  · simp [held]
  · simp [held, settled]
  · simp

theorem submit (h : Tracked [] m) (request : ClientRequest) (callback : Bool) :
    Tracked [⟨request, m.submitted.length, callback⟩]
      { m with submitted := m.submitted ++ [⟨request, m.submitted.length, callback⟩] } := by
  constructor
  · exact h.ordered
  · exact h.counted
  · exact h.bound
  · simp [h.numbered, List.range_succ]
  · intro rq hrq
    rcases List.mem_append.mp hrq with hmem | hmem
    · exact List.mem_append_left _ (h.known rq (List.mem_append_left _ hmem))
    · exact List.mem_append_right _ hmem
  · have hplaces := h.places
    rw [List.perm_iff_count] at hplaces ⊢
    intro p
    have hcount := hplaces p
    simp only [List.map_append, List.count_append, List.append_nil] at hcount ⊢
    change ((held m).map RQ.promise).count p + _ + _ = _
    omega
  · exact h.noted

/-- A request goes from one place to another, or to the hand. -/
theorem move (h : Tracked hand m) {hand' : List RQ} {m' : Manager} (hordered : m'.waiting.Ordered)
    (hcounted : m'.jobs.length + m'.posted = m'.current) (hbound : m'.current ≤ m'.maxConnections)
    (hsubmitted : m'.submitted = m.submitted) (hlog : m'.log = m.log)
    (hheld : ∀ rq, (held m').count rq + hand'.count rq = (held m).count rq + hand.count rq) :
    Tracked hand' m' := by
  have hperm : (held m' ++ hand').Perm (held m ++ hand) := by
    rw [List.perm_iff_count]
    intro rq
    rw [List.count_append, List.count_append]
    exact hheld rq
  constructor
  · exact hordered
  · exact hcounted
  · exact hbound
  · rw [hsubmitted]
    exact h.numbered
  · intro rq hrq
    rw [hsubmitted]
    exact h.known rq (hperm.mem_iff.mp hrq)
  · rw [hsubmitted, hlog]
    exact ((hperm.map RQ.promise).append_right _).trans h.places
  · rw [hlog]
    exact h.noted

/-- A request leaves the hand with its promise completed, and perhaps a callback. -/
theorem settle (h : Tracked (rq :: hand) m) (result : Result) (called : Bool) :
    Tracked hand { m with log := m.log ++ .set rq.promise result ::
      (if called then [.callback rq.promise] else []) } := by
  have hsettled : settled (.set rq.promise result ::
      (if called then [.callback rq.promise] else [])) = [rq.promise] := by
    cases called <;> rfl
  constructor
  · exact h.ordered
  · exact h.counted
  · exact h.bound
  · exact h.numbered
  · intro rq' hrq'
    apply h.known rq'
    rcases List.mem_append.mp hrq' with hmem | hmem
    · exact List.mem_append_left _ hmem
    · exact List.mem_append_right _ (List.mem_cons_of_mem _ hmem)
  · have hplaces := h.places
    rw [List.perm_iff_count] at hplaces ⊢
    intro p
    have hcount := hplaces p
    simp only [List.map_append, List.map_cons, List.count_append, List.count_cons, settled_append,
      hsettled, List.count_nil] at hcount ⊢
    change ((held m).map RQ.promise).count p + _ + _ = _
    omega
  · intro note hnote
    rw [settled_append, hsettled, List.mem_append]
    rcases List.mem_append.mp hnote with hmem | hmem
    · exact Or.inl (h.noted note hmem)
    · right
      have hpromise : note.promise = rq.promise := by
        rcases List.mem_cons.mp hmem with heq | hmem
        · rw [heq]
          rfl
        · cases called with
          | false => cases hmem
          | true =>
              rw [List.mem_singleton.mp hmem]
              rfl
      rw [hpromise]
      exact List.mem_singleton_self _

theorem expire {xs : List (Rec RQ)} (h : Tracked (xs.map Rec.value ++ hand) m) :
    Tracked hand (m.expireAll xs) := by
  unfold Manager.expireAll
  induction xs generalizing m with
  | nil => exact h
  | cons x xs ih => exact ih (h.settle (.exception "timeout in queue") false)

theorem tryStart (h : Tracked [rq] m) (hroom : m.current < m.maxConnections) :
    Tracked [] (m.tryStart prepareRequest rq) := by
  by_cases hstarts : Starts prepareRequest rq
  · obtain ⟨alive, connections, job, hjob, hstart⟩ := start_of_starts hstarts m
    have hcounted := h.counted
    rw [hstart]
    refine h.move h.ordered ?_ hroom rfl rfl ?_
    · simp only [List.length_append, List.length_singleton]
      omega
    · intro rq'
      simp only [count_held, List.map_append, List.map_cons, List.map_nil, hjob, List.count_append,
        List.count_nil]
      omega
  · rw [start_of_not_starts hstarts]
    refine h.move h.ordered h.counted h.bound rfl rfl ?_
    intro rq'
    simp only [count_held, List.count_append, List.count_nil]
    omega

theorem asyncI (h : Tracked [rq] m) (sNow : UInt64) :
    Tracked [] (m.asyncI prepareRequest rq sNow) := by
  unfold Manager.asyncI
  split_ifs with hfree
  · exact h.tryStart hfree.1
  · refine h.move (h.ordered.insert rq m.queueTimeoutMs sNow) h.counted h.bound rfl rfl ?_
    intro rq'
    simp only [count_held, RequestQueue.insert, List.map_append, List.map_cons, List.map_nil,
      List.count_append, List.count_nil]
    omega

theorem posted_le (h : Tracked hand m) : m.posted ≤ m.current := by
  have hcounted := h.counted
  omega

theorem released (h : Tracked [] m) (hposted : 0 < m.posted) (sNow : UInt64) :
    Tracked ((m.waiting.get sNow).2.1.toList.map Rec.value) (released m sNow) := by
  have hcounted := h.counted
  have hbound := h.bound
  obtain ⟨hsplit, -⟩ := getLoop_spec sNow m.waiting.store
  have hmoved : Tracked ((m.waiting.get sNow).1.map Rec.value ++
      ((m.waiting.get sNow).2.1.toList.map Rec.value))
      { m with
        posted := m.posted - 1
        current := m.current - 1
        waiting := (m.waiting.get sNow).2.2 } := by
    refine h.move (h.ordered.get sNow) ?_ ?_ rfl rfl ?_
    · dsimp only
      omega
    · dsimp only
      omega
    · intro rq
      have hcount := congrArg (fun store => (store.map Rec.value).count rq) hsplit
      simp only [List.map_append, List.count_append] at hcount
      simp only [count_held, RequestQueue.get, List.count_append, List.count_nil]
      omega
  have hexpired := hmoved.expire
  rw [expireAll_eq] at hexpired
  exact hexpired

theorem doneI (h : Tracked [] m) (sNow : UInt64) :
    Tracked [] (managerStep prepareRequest m (.doneI sNow)) := by
  rcases managerStep_doneI prepareRequest h.posted_le sNow with ⟨-, heq⟩ | ⟨hposted, heq⟩
  · rw [heq]
    exact h
  · have hreleased := h.released hposted sNow
    rw [heq]
    cases hnext : (m.waiting.get sNow).2.1 with
    | none =>
        rw [hnext] at hreleased
        exact hreleased
    | some sNew =>
        rw [hnext] at hreleased
        apply hreleased.tryStart
        have hle := h.posted_le
        have hbound := h.bound
        change m.current - 1 < m.maxConnections
        omega

theorem finish (h : Tracked [] m) {job : Job} (hjob : job ∈ m.jobs) (outcome : Outcome)
    (sTime : ℤ) : Tracked [] (m.finish job outcome sTime) := by
  have hcounted := h.counted
  have hlen := List.length_erase_of_mem hjob
  have hpos := List.length_pos_of_mem hjob
  have hperm := (List.perm_cons_erase hjob).map Job.rq
  have hmoved : Tracked [job.rq] { m with
      alive := if outcome = .response then m.alive.insert job.addr job.connection sTime else m.alive
      jobs := m.jobs.erase job
      posted := m.posted + 1 } := by
    refine h.move h.ordered ?_ h.bound rfl rfl ?_
    · dsimp only
      omega
    · intro rq
      have hcount := hperm.count_eq rq
      simp only [count_held, List.map_cons, List.count_cons, List.count_nil] at hcount ⊢
      omega
  exact hmoved.settle outcome.result job.rq.callback

theorem clean (h : Tracked [] m) (sTime : ℤ) (sNow : UInt64) :
    Tracked [] (m.clean sTime sNow) := by
  obtain ⟨hperm, -⟩ := timerLoop_spec sNow h.ordered.nodup (Nat.le_refl _)
  unfold Manager.clean
  apply expire
  rw [List.append_nil]
  refine h.move (h.ordered.onTimer sNow) h.counted h.bound rfl rfl ?_
  intro rq
  have hcount := (hperm.map Rec.value).count_eq rq
  simp only [List.map_append, List.count_append] at hcount
  simp only [count_held, RequestQueue.onTimer, List.count_nil]
  omega

end Tracked

variable (prepareRequest) in
theorem managerStep_tracked {m : Manager} (h : Tracked [] m) (e : Event) :
    Tracked [] (managerStep prepareRequest m e) := by
  cases e with
  | asyncI request callback sNow => exact (h.submit request callback).asyncI sNow
  | finish i outcome sTime =>
      rcases managerStep_finish prepareRequest m i outcome sTime with heq | ⟨job, hjob, heq⟩
      · rw [heq]
        exact h
      · rw [heq]
        exact h.finish hjob outcome sTime
  | doneI sNow => exact h.doneI sNow
  | clean sTime sNow => exact h.clean sTime sNow

end Prepare

end Stuff.Http1Manager
