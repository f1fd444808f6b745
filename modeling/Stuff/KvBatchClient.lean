import Stuff.CoroWaiter
import Stuff.FairRuns
import Stuff.Holders
import Stuff.MachineWords
import Mathlib.Data.List.Nodup
import Mathlib.Data.List.Pairwise

/-!
# Requests that share an HTTP call

`KV::BatchClient` collects requests in a batch. The coroutine of a batch waits for its
timer, takes the batch off the queue if it is still there, and sends it. A call that
finds a full batch in the queue cancels the timer of that batch and begins a new one.
All coroutines run on one thread; what is spawned or posted runs at any later time.
-/
namespace Stuff.KvBatchClient
open CoroWaiter FairRuns Holders MachineWords

structure Request where
  key : Bytes
  value : Option Bytes := none
deriving DecidableEq, Repr

structure Response where
  key : Bytes := []
  value : Option Bytes := none
deriving DecidableEq, Repr

structure Info where
  request : Request
  response : Response := {}
  waiter : Waiter := {}
deriving DecidableEq, Repr

/-- A call is between `Put` and `wait`, suspended in `wait`, or has returned. -/
inductive CallPc
  | putting
  | suspended
  | returned (response : Response)
deriving DecidableEq, Repr

/-- A call with the `Info` that its `Put` made. -/
structure Call where
  info : Info
  pc : CallPc := .putting
deriving DecidableEq, Repr

/-- Where the coroutine of a batch is: spawned, in `async_wait`, with the wait over, in the
HTTP call with these requests, or at its end. -/
inductive BatchPc
  | spawned
  | lingering
  | expired
  | performing (sRequests : List Request)
  | done
  | threw
deriving DecidableEq, Repr

/-- An `Info` is known by the call that made it. -/
structure Batch where
  info : List ℕ := []
  pc : BatchPc := .spawned
deriving DecidableEq, Repr

/-- The fields of the class, with a batch known by its place among all batches, the calls,
and the history of the HTTP requests. -/
structure BatchClient where
  httpRequests : UInt64 := 0
  queue : Option ℕ := none
  batches : List Batch := []
  calls : List Call := []
  sent : List (ℕ × List Request) := []

/-- The wait for the timer ends, because it expired or by `cancel`. A timer that no
coroutine waits for yet is not affected by `cancel`. -/
def Batch.timeUp (sBatch : Batch) : Batch :=
  match sBatch.pc with
  | .lingering => { sBatch with pc := .expired }
  | _ => sBatch

def Batch.pushBack (sBatch : Batch) (i : ℕ) : Batch :=
  { sBatch with info := sBatch.info ++ [i] }

def Batch.start (sBatch : Batch) : Batch :=
  match sBatch.pc with
  | .spawned => { sBatch with pc := .lingering }
  | _ => sBatch

def Call.wait (call : Call) : Call :=
  match call.pc with
  | .putting => { info := { call.info with waiter := call.info.waiter.wait }, pc := .suspended }
  | _ => call

/-- The posted handler of the waiter runs. -/
def Call.resume (call : Call) : Call :=
  match call.pc with
  | .suspended =>
      if 0 < call.info.waiter.invoked then { call with pc := .returned call.info.response }
      else call
  | _ => call

def Call.answer (call : Call) (y : Response) : Call :=
  { call with info := { call.info with response := y, waiter := call.info.waiter.notify } }

namespace BatchClient

/-- A new batch in the queue, with its coroutine. -/
def create (s : BatchClient) : BatchClient :=
  { s with queue := some s.batches.length, batches := s.batches ++ [{}] }

/-- The request goes to the batch in the queue. -/
def push (s : BatchClient) (aRequest : Request) : BatchClient :=
  match s.queue with
  | none => s
  | some b =>
      { s with
        batches := s.batches.modify b fun sBatch => sBatch.pushBack s.calls.length
        calls := s.calls ++ [{ info := { request := aRequest } }] }

def put (batch_size : ℕ) (s : BatchClient) (aRequest : Request) : BatchClient :=
  match s.queue with
  | none => s.create.push aRequest
  | some b =>
      match s.batches[b]? with
      | none => s
      | some sBatch =>
          if batch_size ≤ sBatch.info.length then
            let sCancelled := { s with batches := s.batches.modify b Batch.timeUp }
            sCancelled.create.push aRequest
          else s.push aRequest

/-- The requests of a batch, in its order. -/
def requests (s : BatchClient) (sBatch : Batch) : List Request :=
  sBatch.info.filterMap fun i => s.calls[i]?.map fun call => call.info.request

/-- The coroutine of the batch goes on after the wait, up to the HTTP call. -/
def wake (s : BatchClient) (b : ℕ) : BatchClient :=
  match s.batches[b]? with
  | none => s
  | some sBatch =>
      match sBatch.pc with
      | .expired =>
          let sRequests := s.requests sBatch
          { s with
            httpRequests := s.httpRequests + 1
            queue := if s.queue = some b then none else s.queue
            batches := s.batches.set b { sBatch with pc := .performing sRequests }
            sent := s.sent ++ [(b, sRequests)] }
      | _ => s

/-- The loop over the infos and the responses, which ends with the shorter of the two. -/
def answered (calls : List Call) (ys : List (ℕ × Response)) : List Call :=
  ys.foldl (fun calls y => calls.modify y.1 fun call => call.answer y.2) calls

/-- The HTTP call returns, or throws. -/
def complete (server : ℕ → List Request → Option (List Response)) (s : BatchClient) (b : ℕ) :
    BatchClient :=
  match s.batches[b]? with
  | none => s
  | some sBatch =>
      match sBatch.pc with
      | .performing sRequests =>
          match server b sRequests with
          | none => { s with batches := s.batches.set b { sBatch with pc := .threw } }
          | some sResponses =>
              { s with
                batches := s.batches.set b { sBatch with pc := .done }
                calls := answered s.calls (sBatch.info.zip sResponses) }
      | _ => s

end BatchClient

inductive Event
  | call (aRequest : Request)
  | waits (i : ℕ)
  | starts (b : ℕ)
  | expires (b : ℕ)
  | wakes (b : ℕ)
  | completes (b : ℕ)
  | resumes (i : ℕ)
deriving DecidableEq, Repr

/-- The answer of the server to a batch, by the number of the batch; no answer is an HTTP
error. -/
abbrev Server := ℕ → List Request → Option (List Response)

def step (batch_size : ℕ) (server : Server) (s : BatchClient) : Event → BatchClient
  | .call aRequest => s.put batch_size aRequest
  | .waits i => { s with calls := s.calls.modify i Call.wait }
  | .starts b => { s with batches := s.batches.modify b Batch.start }
  | .expires b => { s with batches := s.batches.modify b Batch.timeUp }
  | .wakes b => s.wake b
  | .completes b => s.complete server b
  | .resumes i => { s with calls := s.calls.modify i Call.resume }

/-- The `Info` at this place of this batch. -/
def BatchClient.place (s : BatchClient) (p : ℕ × ℕ) : Option ℕ :=
  (s.batches[p.1]?).bind fun sBatch => sBatch.info[p.2]?

/-- Every call is in one batch at one place, batches are small and sent at most once, with
all their requests and when they are not in the queue, and who has returned has the
response at the own place. -/
structure Routed (batch_size : ℕ) (server : Server) (s : BatchClient) : Prop where
  placed : ∀ i < s.calls.length, ∃! p, s.place p = some i
  small : ∀ sBatch ∈ s.batches, sBatch.info.length ≤ batch_size
  once : (s.sent.map Prod.fst).Nodup
  complete : ∀ b sRequests, (b, sRequests) ∈ s.sent → s.queue ≠ some b ∧
    ∃ sBatch, s.batches[b]? = some sBatch ∧ sRequests = s.requests sBatch
  returned : ∀ i call y, s.calls[i]? = some call → call.pc = .returned y →
    ∃ b j sRequests sResponses, s.place (b, j) = some i ∧ (b, sRequests) ∈ s.sent ∧
      sRequests[j]? = some call.info.request ∧ server b sRequests = some sResponses ∧
      sResponses[j]? = some y

/-! ## One call and one batch -/

/-- Before the batch takes off, requests may still be added to it. -/
def BatchPc.collects : BatchPc → Bool
  | .spawned => true
  | .lingering => true
  | .expired => true
  | .performing _ => false
  | .done => false
  | .threw => false

/-- How many steps the coroutine has left. -/
def BatchPc.rank : BatchPc → ℕ
  | .spawned => 4
  | .lingering => 3
  | .expired => 2
  | .performing _ => 1
  | .done => 0
  | .threw => 0

/-- What is true of a call by the response that its `Info` got. -/
def Stage : Option Response → Call → Prop
  | none, call => call.pc = .putting ∧ call.info.waiter = {} ∨
      call.pc = .suspended ∧ call.info.waiter = { state := .waiting }
  | some y, call => call.info.response = y ∧
      (call.pc = .putting ∧ call.info.waiter.state = .ready ∨
        call.pc = .suspended ∧ 0 < call.info.waiter.invoked ∨ call.pc = .returned y)

@[simp] theorem wait_request (call : Call) : call.wait.info.request = call.info.request := by
  unfold Call.wait
  split <;> rfl

@[simp] theorem resume_request (call : Call) : call.resume.info.request = call.info.request := by
  unfold Call.resume
  split
  · split_ifs <;> rfl
  · rfl

@[simp] theorem answer_request (call : Call) (y : Response) :
    (call.answer y).info.request = call.info.request := rfl

@[simp] theorem timeUp_info (sBatch : Batch) : sBatch.timeUp.info = sBatch.info := by
  unfold Batch.timeUp
  split <;> rfl

@[simp] theorem start_info (sBatch : Batch) : sBatch.start.info = sBatch.info := by
  unfold Batch.start
  split <;> rfl

theorem timeUp_collects (sBatch : Batch) : sBatch.timeUp = sBatch ∨
    sBatch.pc.collects = true ∧ sBatch.timeUp.pc.collects = true := by
  unfold Batch.timeUp
  split
  next hpc => exact Or.inr ⟨by rw [hpc]; rfl, rfl⟩
  next => exact Or.inl rfl

theorem start_collects (sBatch : Batch) : sBatch.start = sBatch ∨
    sBatch.pc.collects = true ∧ sBatch.start.pc.collects = true := by
  unfold Batch.start
  split
  next hpc => exact Or.inr ⟨by rw [hpc]; rfl, rfl⟩
  next => exact Or.inl rfl

@[simp] theorem pushBack_pc (sBatch : Batch) (i : ℕ) : (sBatch.pushBack i).pc = sBatch.pc := rfl

theorem Stage.wait {o : Option Response} {call : Call} (h : Stage o call) :
    Stage o call.wait := by
  cases o with
  | none =>
      rcases h with ⟨hpc, hwaiter⟩ | ⟨hpc, hwaiter⟩
      · exact Or.inr (by simp [Call.wait, Waiter.wait, hpc, hwaiter])
      · exact Or.inr (by simp [Call.wait, hpc, hwaiter])
  | some y =>
      obtain ⟨hresponse, ⟨hpc, hwaiter⟩ | ⟨hpc, hwaiter⟩ | hpc⟩ := h
      · exact ⟨by simp [Call.wait, hpc, hresponse],
          Or.inr (Or.inl (by simp [Call.wait, Waiter.wait, hpc, hwaiter]))⟩
      · exact ⟨by simp [Call.wait, hpc, hresponse],
          Or.inr (Or.inl (by simp [Call.wait, hpc, hwaiter]))⟩
      · exact ⟨by simp [Call.wait, hpc, hresponse], Or.inr (Or.inr (by simp [Call.wait, hpc]))⟩

theorem Stage.resume {o : Option Response} {call : Call} (h : Stage o call) :
    Stage o call.resume := by
  cases o with
  | none =>
      rcases h with ⟨hpc, hwaiter⟩ | ⟨hpc, hwaiter⟩
      · exact Or.inl (by simp [Call.resume, hpc, hwaiter])
      · exact Or.inr (by simp [Call.resume, hpc, hwaiter])
  | some y =>
      obtain ⟨hresponse, ⟨hpc, hwaiter⟩ | ⟨hpc, hwaiter⟩ | hpc⟩ := h
      · exact ⟨by simp [Call.resume, hpc, hresponse],
          Or.inl (by simp [Call.resume, hpc, hwaiter])⟩
      · exact ⟨by simp [Call.resume, hpc, hwaiter, hresponse],
          Or.inr (Or.inr (by simp [Call.resume, hpc, hwaiter, hresponse]))⟩
      · exact ⟨by simp [Call.resume, hpc, hresponse], Or.inr (Or.inr (by simp [Call.resume, hpc]))⟩

theorem Stage.answer {call : Call} (h : Stage none call) (y : Response) :
    Stage (some y) (call.answer y) := by
  rcases h with ⟨hpc, hwaiter⟩ | ⟨hpc, hwaiter⟩
  · exact ⟨rfl, Or.inl ⟨hpc, by simp [Call.answer, Waiter.notify, hwaiter]⟩⟩
  · exact ⟨rfl, Or.inr (Or.inl ⟨hpc, by simp [Call.answer, Waiter.notify, hwaiter]⟩)⟩

/-! ## The requests of a batch -/

theorem zip_fst_sublist {α β : Type} (l : List α) (l' : List β) :
    ((l.zip l').map Prod.fst).Sublist l := by
  induction l generalizing l' with
  | nil => exact List.nil_sublist _
  | cons a l ih =>
      cases l' with
      | nil => exact List.nil_sublist _
      | cons b l' => exact (ih l').cons_cons a

theorem nodup_index {α : Type} {l : List α} {x : α} {i j : ℕ} (h : l.Nodup) (hi : l[i]? = some x)
    (hj : l[j]? = some x) : i = j := by
  obtain ⟨hlt, hget⟩ := List.getElem?_eq_some_iff.mp hi
  obtain ⟨hlt', hget'⟩ := List.getElem?_eq_some_iff.mp hj
  exact (List.Nodup.getElem_inj_iff h).mp (hget.trans hget'.symm)

theorem getElem?_set_cases {α : Type} {l : List α} {i j : ℕ} {x y : α}
    (h : (l.set i x)[j]? = some y) : j = i ∧ y = x ∨ j ≠ i ∧ l[j]? = some y := by
  rw [List.getElem?_set] at h
  split_ifs at h with hij hlt
  · exact Or.inl ⟨hij.symm, (Option.some.inj h).symm⟩
  · exact Or.inr ⟨Ne.symm hij, h⟩

namespace BatchClient
variable {s t : BatchClient}

theorem requests_congr {sBatch : Batch}
    (h : ∀ i ∈ sBatch.info, (t.calls[i]?.map fun call => call.info.request) =
      s.calls[i]?.map fun call => call.info.request) : t.requests sBatch = s.requests sBatch := by
  unfold requests
  exact List.filterMap_congr h

theorem requests_modify {sBatch : Batch} {i : ℕ} {f : Call → Call}
    (hf : ∀ call, (f call).info.request = call.info.request)
    (h : t.calls = s.calls.modify i f) : t.requests sBatch = s.requests sBatch := by
  apply requests_congr
  intro j _
  rw [h, List.getElem?_modify]
  cases s.calls[j]? with
  | none => rfl
  | some call =>
      by_cases hij : i = j
      · simp [hij, hf]
      · simp [hij]

/-- What no answer changes. -/
theorem answered_map {γ : Type} {g : Call → γ} (hg : ∀ call y, g (call.answer y) = g call)
    (calls : List Call) (ys : List (ℕ × Response)) (i : ℕ) :
    (answered calls ys)[i]?.map g = calls[i]?.map g := by
  induction ys generalizing calls with
  | nil => rfl
  | cons y ys ih =>
      have hstep := ih (calls.modify y.1 fun call => call.answer y.2)
      unfold answered at hstep ⊢
      rw [List.foldl_cons, hstep, List.getElem?_modify]
      cases calls[i]? with
      | none => rfl
      | some call =>
          by_cases hi : y.1 = i
          · simp [hi, hg]
          · simp [hi]

theorem answered_length (calls : List Call) (ys : List (ℕ × Response)) :
    (answered calls ys).length = calls.length := by
  induction ys generalizing calls with
  | nil => rfl
  | cons y ys ih =>
      have hstep := ih (calls.modify y.1 fun call => call.answer y.2)
      unfold answered at hstep ⊢
      rw [List.foldl_cons, hstep, List.length_modify]

theorem answered_of_notMem (calls : List Call) {ys : List (ℕ × Response)} {i : ℕ}
    (h : i ∉ ys.map Prod.fst) : (answered calls ys)[i]? = calls[i]? := by
  induction ys generalizing calls with
  | nil => rfl
  | cons y ys ih =>
      rw [List.map_cons, List.mem_cons, not_or] at h
      have hstep := ih (calls.modify y.1 fun call => call.answer y.2) h.2
      unfold answered at hstep ⊢
      rw [List.foldl_cons, hstep, List.getElem?_modify_ne _ _ (Ne.symm h.1)]

/-- Every `Info` takes its own response, if it is in the batch once. -/
theorem answered_of_mem (calls : List Call) {ys : List (ℕ × Response)} {i : ℕ} {y : Response}
    (hys : (ys.map Prod.fst).Nodup) (h : (i, y) ∈ ys) :
    (answered calls ys)[i]? = calls[i]?.map fun call => call.answer y := by
  induction ys generalizing calls with
  | nil => cases h
  | cons z ys ih =>
      rw [List.map_cons, List.nodup_cons] at hys
      rcases List.mem_cons.mp h with heq | hrest
      · subst heq
        have hstep := answered_of_notMem (calls.modify i fun call => call.answer y) hys.1
        unfold answered at hstep ⊢
        rw [List.foldl_cons, hstep, List.getElem?_modify_eq]
        rfl
      · have hne : z.1 ≠ i := by
          intro heq
          exact hys.1 (heq ▸ List.mem_map_of_mem hrest)
        have hstep := ih (calls.modify z.1 fun call => call.answer z.2) hys.2 hrest
        unfold answered at hstep ⊢
        rw [List.foldl_cons, hstep, List.getElem?_modify_ne _ _ hne]

end BatchClient

/-! ## The invariant -/

section
variable {batch_size : ℕ} {server : Server} {s : BatchClient}

/-- The response that the loop gave to the place of a batch. -/
def answerTo (server : Server) (s : BatchClient) (b : ℕ) (sBatch : Batch) (j : ℕ) :
    Option Response :=
  if sBatch.pc = .done then (server b (s.requests sBatch)).bind fun sResponses => sResponses[j]?
  else none

structure Sound (batch_size : ℕ) (server : Server) (s : BatchClient) : Prop where
  places : (held Batch.info s.batches).Perm (List.range s.calls.length)
  queued : ∀ b, s.queue = some b →
    ∃ sBatch, s.batches[b]? = some sBatch ∧ sBatch.pc.collects = true
  small : ∀ (b : ℕ) (sBatch : Batch), s.batches[b]? = some sBatch → sBatch.info.length ≤ batch_size
  once : (s.sent.map Prod.fst).Nodup
  sent : ∀ b sRequests, (b, sRequests) ∈ s.sent ↔ ∃ sBatch, s.batches[b]? = some sBatch ∧
    sBatch.pc.collects = false ∧ sRequests = s.requests sBatch
  performing : ∀ (b : ℕ) (sBatch : Batch) sRequests, s.batches[b]? = some sBatch →
    sBatch.pc = .performing sRequests → sRequests = s.requests sBatch
  threw : ∀ (b : ℕ) (sBatch : Batch), s.batches[b]? = some sBatch → sBatch.pc = .threw →
    server b (s.requests sBatch) = none
  calls : ∀ (b : ℕ) (sBatch : Batch) j i call, s.batches[b]? = some sBatch →
    sBatch.info[j]? = some i → s.calls[i]? = some call → Stage (answerTo server s b sBatch j) call

theorem answerTo_of_collects {b j : ℕ} {sBatch : Batch} (h : sBatch.pc.collects = true) :
    answerTo server s b sBatch j = none := by
  unfold answerTo
  rw [if_neg]
  intro hdone
  rw [hdone] at h
  cases h

theorem answerTo_congr {t : BatchClient} {b j : ℕ} {sBatch : Batch}
    (h : t.requests sBatch = s.requests sBatch) :
    answerTo server t b sBatch j = answerTo server s b sBatch j := by
  unfold answerTo
  rw [h]

/-- What the invariant says of one batch. -/
structure Fits (batch_size : ℕ) (server : Server) (s : BatchClient) (b : ℕ) (sBatch : Batch) :
    Prop where
  small : sBatch.info.length ≤ batch_size
  sent : ∀ sRequests, (b, sRequests) ∈ s.sent ↔
    sBatch.pc.collects = false ∧ sRequests = s.requests sBatch
  performing : ∀ sRequests, sBatch.pc = .performing sRequests → sRequests = s.requests sBatch
  threw : sBatch.pc = .threw → server b (s.requests sBatch) = none
  calls : ∀ (j i : ℕ) (call : Call), sBatch.info[j]? = some i → s.calls[i]? = some call →
    Stage (answerTo server s b sBatch j) call

namespace Fits
variable {t : BatchClient} {b i : ℕ} {sBatch : Batch} {call : Call}

/-- Before its take-off a batch is not sent and its calls have no response. -/
theorem of_collects (hcollects : sBatch.pc.collects = true)
    (hsmall : sBatch.info.length ≤ batch_size) (hunsent : b ∉ s.sent.map Prod.fst)
    (hcalls : ∀ i ∈ sBatch.info, ∀ call, s.calls[i]? = some call → Stage none call) :
    Fits batch_size server s b sBatch := by
  refine ⟨hsmall, ?_, ?_, ?_, ?_⟩
  · intro sRequests
    constructor
    · intro hsent
      exact absurd (List.mem_map_of_mem hsent) hunsent
    · rintro ⟨hsent, -⟩
      rw [hcollects] at hsent
      cases hsent
  · intro sRequests hpc
    rw [hpc] at hcollects
    cases hcollects
  · intro hpc
    rw [hpc] at hcollects
    cases hcollects
  · intro j i call hj hcall
    rw [answerTo_of_collects hcollects]
    exact hcalls i (List.mem_of_getElem? hj) call hcall

theorem unsent (h : Fits batch_size server s b sBatch) (hcollects : sBatch.pc.collects = true) :
    b ∉ s.sent.map Prod.fst := by
  intro hmem
  obtain ⟨⟨b', sRequests⟩, hsent, rfl⟩ := List.mem_map.mp hmem
  have hnot := ((h.sent sRequests).mp hsent).1
  rw [hcollects] at hnot
  cases hnot

theorem unanswered (h : Fits batch_size server s b sBatch) (hcollects : sBatch.pc.collects = true)
    (hi : i ∈ sBatch.info) (hcall : s.calls[i]? = some call) : Stage none call := by
  obtain ⟨j, hj⟩ := List.mem_iff_getElem?.mp hi
  have hstage := h.calls j i call hj hcall
  rw [answerTo_of_collects hcollects] at hstage
  exact hstage

/-- A step that leaves the calls of a batch alone and sends nothing of it. -/
theorem frame (h : Fits batch_size server s b sBatch)
    (hcalls : ∀ i ∈ sBatch.info, t.calls[i]? = s.calls[i]?)
    (hsent : ∀ sRequests, (b, sRequests) ∈ t.sent ↔ (b, sRequests) ∈ s.sent) :
    Fits batch_size server t b sBatch := by
  have hrequests : t.requests sBatch = s.requests sBatch := by
    apply BatchClient.requests_congr
    intro i hi
    rw [hcalls i hi]
  refine ⟨h.small, ?_, ?_, ?_, ?_⟩
  · intro sRequests
    rw [hsent, hrequests]
    exact h.sent sRequests
  · rw [hrequests]
    exact h.performing
  · rw [hrequests]
    exact h.threw
  · intro j i call hj hcall
    rw [hcalls i (List.mem_of_getElem? hj)] at hcall
    rw [answerTo_congr hrequests]
    exact h.calls j i call hj hcall

end Fits

namespace Sound

theorem mem_lt (h : Sound batch_size server s) {b i : ℕ} {sBatch : Batch}
    (hb : s.batches[b]? = some sBatch) (hi : i ∈ sBatch.info) : i < s.calls.length :=
  List.mem_range.mp (h.places.mem_iff.mp (mem_held hb hi))

/-- The requests of a batch are at the places of their calls. -/
theorem requests_eq (h : Sound batch_size server s) {b : ℕ} {sBatch : Batch}
    (hb : s.batches[b]? = some sBatch) :
    (s.requests sBatch).map some =
      sBatch.info.map fun i => s.calls[i]?.map fun call => call.info.request := by
  have hlt : ∀ i ∈ sBatch.info, i < s.calls.length := fun i => h.mem_lt hb
  unfold BatchClient.requests
  generalize sBatch.info = info at hlt
  induction info with
  | nil => rfl
  | cons i info ih =>
      have hget := List.getElem?_eq_getElem (hlt i List.mem_cons_self)
      have hrest := ih fun k hk => hlt k (List.mem_cons_of_mem i hk)
      rw [List.filterMap_cons, hget, Option.map_some]
      simp only [List.map_cons, hrest, hget, Option.map_some]

theorem request_at (h : Sound batch_size server s) {b j i : ℕ} {sBatch : Batch} {call : Call}
    (hb : s.batches[b]? = some sBatch) (hj : sBatch.info[j]? = some i)
    (hcall : s.calls[i]? = some call) : (s.requests sBatch)[j]? = some call.info.request := by
  have hmap := congrArg (·[j]?) (h.requests_eq hb)
  simp only [List.getElem?_map, hj, Option.map_some, hcall] at hmap
  obtain ⟨aRequest, hget, heq⟩ := Option.map_eq_some_iff.mp hmap
  rw [hget, heq]

theorem requests_length (h : Sound batch_size server s) {b : ℕ} {sBatch : Batch}
    (hb : s.batches[b]? = some sBatch) : (s.requests sBatch).length = sBatch.info.length := by
  have hlength := congrArg List.length (h.requests_eq hb)
  rw [List.length_map, List.length_map] at hlength
  exact hlength

theorem start (batch_size : ℕ) (server : Server) : Sound batch_size server {} where
  places := List.Perm.refl _
  queued := by simp
  small := by simp
  once := List.nodup_nil
  sent := by simp
  performing := by simp
  threw := by simp
  calls := by simp

/-- A step of one call, in which its request stays. -/
theorem calls_modify (h : Sound batch_size server s) (i : ℕ) {f : Call → Call}
    (hrequest : ∀ call, (f call).info.request = call.info.request)
    (hstage : ∀ o call, Stage o call → Stage o (f call)) :
    Sound batch_size server { s with calls := s.calls.modify i f } := by
  have hrequests : ∀ sBatch, BatchClient.requests { s with calls := s.calls.modify i f } sBatch =
      s.requests sBatch := fun sBatch => BatchClient.requests_modify hrequest rfl
  refine ⟨?_, h.queued, h.small, h.once, ?_, ?_, ?_, ?_⟩
  · dsimp only
    rw [List.length_modify]
    exact h.places
  · intro b sRequests
    simp only [hrequests]
    exact h.sent b sRequests
  · intro b sBatch sRequests hb hpc
    rw [hrequests]
    exact h.performing b sBatch sRequests hb hpc
  · intro b sBatch hb hpc
    rw [hrequests]
    exact h.threw b sBatch hb hpc
  · intro b sBatch j k call hb hj hcall
    rw [answerTo_congr (hrequests sBatch)]
    dsimp only at hb hcall
    rw [List.getElem?_modify] at hcall
    cases hold : s.calls[k]? with
    | none =>
        rw [hold] at hcall
        cases hcall
    | some call₀ =>
        have hcall₀ := h.calls b sBatch j k call₀ hb hj hold
        rw [hold] at hcall
        cases hcall
        split_ifs
        · exact hstage _ _ hcall₀
        · exact hcall₀

theorem fits (h : Sound batch_size server s) {b : ℕ} {sBatch : Batch}
    (hb : s.batches[b]? = some sBatch) : Fits batch_size server s b sBatch := by
  refine ⟨h.small b sBatch hb, ?_, ?_, h.threw b sBatch hb, ?_⟩
  · intro sRequests
    rw [h.sent b sRequests]
    constructor
    · rintro ⟨sBatch', hb', hrest⟩
      rw [hb] at hb'
      cases hb'
      exact hrest
    · intro hrest
      exact ⟨sBatch, hb, hrest⟩
  · intro sRequests
    exact h.performing b sBatch sRequests hb
  · intro j i call
    exact h.calls b sBatch j i call hb

theorem of_fits (hplaces : (held Batch.info s.batches).Perm (List.range s.calls.length))
    (hqueued : ∀ b, s.queue = some b →
      ∃ sBatch, s.batches[b]? = some sBatch ∧ sBatch.pc.collects = true)
    (honce : (s.sent.map Prod.fst).Nodup) (hsent : ∀ p ∈ s.sent, p.1 < s.batches.length)
    (hfits : ∀ (b : ℕ) (sBatch : Batch), s.batches[b]? = some sBatch →
      Fits batch_size server s b sBatch) : Sound batch_size server s := by
  refine ⟨hplaces, hqueued, fun b sBatch hb => (hfits b sBatch hb).small, honce, ?_,
    fun b sBatch sRequests hb => (hfits b sBatch hb).performing sRequests,
    fun b sBatch hb => (hfits b sBatch hb).threw,
    fun b sBatch j i call hb => (hfits b sBatch hb).calls j i call⟩
  intro b sRequests
  constructor
  · intro hmem
    have hb := List.getElem?_eq_getElem (hsent _ hmem)
    exact ⟨_, hb, ((hfits b _ hb).sent sRequests).mp hmem⟩
  · rintro ⟨sBatch, hb, hrest⟩
    exact ((hfits b sBatch hb).sent sRequests).mpr hrest

theorem sent_lt (h : Sound batch_size server s) : ∀ p ∈ s.sent, p.1 < s.batches.length := by
  rintro ⟨b, sRequests⟩ hmem
  obtain ⟨sBatch, hb, -⟩ := (h.sent b sRequests).mp hmem
  exact (List.getElem?_eq_some_iff.mp hb).1

/-- No call is in two batches. -/
theorem notMem_of_ne (h : Sound batch_size server s) {b b' i : ℕ} {sBatch sBatch' : Batch}
    (hb : s.batches[b]? = some sBatch) (hb' : s.batches[b']? = some sBatch') (hne : b' ≠ b)
    (hi : i ∈ sBatch'.info) : i ∉ sBatch.info := by
  intro hmem
  have hnodup : (held Batch.info s.batches).Nodup := h.places.nodup_iff.mpr List.nodup_range
  obtain ⟨j, hj⟩ := List.mem_iff_getElem?.mp hi
  obtain ⟨k, hk⟩ := List.mem_iff_getElem?.mp hmem
  exact hne (place_unique hnodup hb' hj hb hk).1

theorem places_set (h : Sound batch_size server s) {b : ℕ} {sBatch sBatch' : Batch}
    (hb : s.batches[b]? = some sBatch) (hinfo : sBatch'.info = sBatch.info) :
    (held Batch.info (s.batches.set b sBatch')).Perm (List.range s.calls.length) := by
  have hperm := held_set_perm hb Batch.info sBatch'
  rw [hinfo] at hperm
  exact ((List.perm_append_right_iff _).mp hperm).trans h.places

/-- A step that replaces one batch and leaves the calls of the others alone. What is left to
show of the batches is that the new one fits. -/
theorem replaced (h : Sound batch_size server s) {t : BatchClient} {b : ℕ}
    {sBatch sBatch' : Batch} (hb : s.batches[b]? = some sBatch)
    (hbatches : t.batches = s.batches.set b sBatch')
    (hplaces : (held Batch.info t.batches).Perm (List.range t.calls.length))
    (hqueued : ∀ b', t.queue = some b' →
      s.queue = some b' ∧ (b' = b → sBatch'.pc.collects = true))
    (honce : (t.sent.map Prod.fst).Nodup)
    (hsent : ∀ b' ≠ b, ∀ sRequests, (b', sRequests) ∈ t.sent ↔ (b', sRequests) ∈ s.sent)
    (hcalls : ∀ i < s.calls.length, i ∉ sBatch.info → t.calls[i]? = s.calls[i]?)
    (hfits : Fits batch_size server t b sBatch') : Sound batch_size server t := by
  obtain ⟨hlt, -⟩ := List.getElem?_eq_some_iff.mp hb
  refine of_fits hplaces ?_ honce ?_ ?_
  · intro b' hqueue
    obtain ⟨hqueue', hown⟩ := hqueued b' hqueue
    rw [hbatches]
    by_cases hne : b = b'
    · subst hne
      exact ⟨sBatch', List.getElem?_set_self hlt, hown rfl⟩
    · obtain ⟨sBatch'', hb', hcollects⟩ := h.queued b' hqueue'
      exact ⟨sBatch'', (List.getElem?_set_ne hne).trans hb', hcollects⟩
  · rintro ⟨b', sRequests⟩ hmem
    rw [hbatches, List.length_set]
    by_cases hne : b' = b
    · subst hne
      exact hlt
    · exact h.sent_lt _ ((hsent b' hne sRequests).mp hmem)
  · intro b' sBatch'' hb'
    rw [hbatches] at hb'
    rcases getElem?_set_cases hb' with ⟨rfl, rfl⟩ | ⟨hne, hget⟩
    · exact hfits
    · refine (h.fits hget).frame ?_ (hsent b' hne)
      intro i hi
      exact hcalls i (h.mem_lt hget hi) (h.notMem_of_ne hb hget hne hi)

/-- A step of one coroutine before its batch takes off. -/
theorem batches_modify (h : Sound batch_size server s) (b : ℕ) {f : Batch → Batch}
    (hinfo : ∀ sBatch, (f sBatch).info = sBatch.info)
    (hpc : ∀ sBatch, f sBatch = sBatch ∨
      sBatch.pc.collects = true ∧ (f sBatch).pc.collects = true) :
    Sound batch_size server { s with batches := s.batches.modify b f } := by
  rw [List.modify_eq_set_getElem?]
  cases hb : s.batches[b]? with
  | none => exact h
  | some sBatch =>
      have hfits := h.fits hb
      rcases hpc sBatch with hsame | ⟨hcollects, hcollects'⟩
      · have hset : s.batches.set b (f sBatch) = s.batches := by
          obtain ⟨hlt, rfl⟩ := List.getElem?_eq_some_iff.mp hb
          rw [hsame, List.set_getElem_self]
        change Sound batch_size server { s with batches := s.batches.set b (f sBatch) }
        rw [hset]
        exact h
      · refine h.replaced hb rfl (h.places_set hb (hinfo sBatch))
          (fun b' hqueue => ⟨hqueue, fun _ => hcollects'⟩) h.once (fun _ _ _ => Iff.rfl)
          (fun _ _ _ => rfl) (Fits.of_collects hcollects' ?_ (hfits.unsent hcollects) ?_)
        · rw [hinfo]
          exact hfits.small
        · intro i hi call hcall
          rw [hinfo] at hi
          exact hfits.unanswered hcollects hi hcall

theorem create (h : Sound batch_size server s) : Sound batch_size server s.create := by
  refine of_fits ?_ ?_ h.once ?_ ?_
  · have hheld : held Batch.info (s.batches ++ [({} : Batch)]) = held Batch.info s.batches := by
      simp [held]
    exact hheld ▸ h.places
  · intro b hqueue
    cases hqueue
    exact ⟨{}, List.getElem?_concat_length, rfl⟩
  · intro p hp
    have hlt := h.sent_lt p hp
    rw [BatchClient.create, List.length_append]
    omega
  · intro b sBatch hb
    rw [BatchClient.create, List.getElem?_append] at hb
    split_ifs at hb with hlt
    · exact (h.fits hb).frame (fun _ _ => rfl) fun _ => Iff.rfl
    · rw [List.getElem?_singleton] at hb
      split_ifs at hb
      cases hb
      refine Fits.of_collects rfl (Nat.zero_le _) ?_ (by simp)
      intro hmem
      obtain ⟨p, hp, rfl⟩ := List.mem_map.mp hmem
      exact hlt (h.sent_lt p hp)

/-- The batch in the queue has room for one more request. -/
theorem push (h : Sound batch_size server s) {b : ℕ} {sBatch : Batch} (hqueue : s.queue = some b)
    (hb : s.batches[b]? = some sBatch) (hroom : sBatch.info.length < batch_size)
    (aRequest : Request) : Sound batch_size server (s.push aRequest) := by
  obtain ⟨sBatch₀, hb₀, hcollects⟩ := h.queued b hqueue
  rw [hb] at hb₀
  cases hb₀
  have hfits := h.fits hb
  have hstate : s.push aRequest = { s with
      batches := s.batches.set b (sBatch.pushBack s.calls.length)
      calls := s.calls ++ [{ info := { request := aRequest } }] } := by
    rw [BatchClient.push, hqueue]
    simp only [BatchClient.mk.injEq, and_true, true_and]
    rw [List.modify_eq_set_getElem?, hb]
    rfl
  rw [hstate]
  refine h.replaced hb rfl ?_ (fun b' hqueue' => ⟨hqueue', fun _ => hcollects⟩) h.once
    (fun _ _ _ => Iff.rfl) (fun i hi _ => List.getElem?_append_left hi)
    (Fits.of_collects hcollects ?_ (hfits.unsent hcollects) ?_)
  · have hperm := held_set_perm hb Batch.info (sBatch.pushBack s.calls.length)
    have hswap : (held Batch.info s.batches ++ (sBatch.info ++ [s.calls.length])).Perm
        ((held Batch.info s.batches ++ [s.calls.length]) ++ sBatch.info) := by
      rw [List.append_assoc]
      exact List.perm_append_comm.append_left _
    dsimp only
    rw [List.length_append, List.length_singleton, List.range_succ]
    exact ((List.perm_append_right_iff _).mp (hperm.trans hswap)).trans (h.places.append_right _)
  · rw [Batch.pushBack, List.length_append]
    exact hroom
  · intro i hi call hcall
    dsimp only at hcall
    rw [Batch.pushBack, List.mem_append, List.mem_singleton] at hi
    rcases hi with hi | rfl
    · rw [List.getElem?_append_left (h.mem_lt hb hi)] at hcall
      exact hfits.unanswered hcollects hi hcall
    · rw [List.getElem?_concat_length] at hcall
      cases hcall
      exact Or.inl ⟨rfl, rfl⟩

/-- A batch goes from one state to another that is not before its take-off, and the calls
take what it brings them. -/
theorem set_pc (h : Sound batch_size server s) {b : ℕ} {sBatch : Batch} {pc : BatchPc}
    {calls : List Call} (hb : s.batches[b]? = some sBatch) (hcollects : sBatch.pc.collects = false)
    (hpc : pc.collects = false) (hperforming : ∀ sRequests, pc ≠ .performing sRequests)
    (hthrew : pc = .threw → server b (s.requests sBatch) = none)
    (hrequests : ∀ i : ℕ, (calls[i]?.map fun call : Call => call.info.request) =
      s.calls[i]?.map fun call => call.info.request)
    (hlength : calls.length = s.calls.length)
    (hown : ∀ j i call, sBatch.info[j]? = some i → calls[i]? = some call →
      Stage (answerTo server s b { sBatch with pc := pc } j) call)
    (hothers : ∀ i, i ∉ sBatch.info → calls[i]? = s.calls[i]?) :
    Sound batch_size server
      { s with batches := s.batches.set b { sBatch with pc := pc }, calls := calls } := by
  have hsame : ∀ sBatch', BatchClient.requests
      { s with batches := s.batches.set b { sBatch with pc := pc }, calls := calls } sBatch' =
        s.requests sBatch' :=
    fun sBatch' => BatchClient.requests_congr fun i _ => hrequests i
  have hfits := h.fits hb
  refine h.replaced hb rfl ?_ ?_ h.once (fun _ _ _ => Iff.rfl) (fun i _ => hothers i)
    ⟨hfits.small, ?_, ?_, ?_, ?_⟩
  · dsimp only
    rw [hlength]
    exact h.places_set hb rfl
  · intro b' hqueue
    refine ⟨hqueue, ?_⟩
    rintro rfl
    obtain ⟨sBatch', hb', hcollects'⟩ := h.queued b' hqueue
    rw [hb] at hb'
    cases hb'
    rw [hcollects] at hcollects'
    cases hcollects'
  · intro sRequests
    rw [hsame, hfits.sent sRequests, hcollects, hpc]
    exact Iff.rfl
  · intro sRequests hpc'
    exact absurd hpc' (hperforming sRequests)
  · intro hpc'
    rw [hsame]
    exact hthrew hpc'
  · intro j i call hj hcall
    rw [answerTo_congr (hsame _)]
    exact hown j i call hj hcall

theorem complete (h : Sound batch_size server s) (b : ℕ) :
    Sound batch_size server (s.complete server b) := by
  unfold BatchClient.complete
  split
  · exact h
  rename_i sBatch hb
  split
  swap
  · exact h
  rename_i sRequests hperforming
  have hcollects : sBatch.pc.collects = false := by
    rw [hperforming]
    rfl
  have hwaits : ∀ (j i : ℕ) (call : Call), sBatch.info[j]? = some i →
      s.calls[i]? = some call → Stage none call := by
    intro j i call hj hcall
    have hstage := h.calls b sBatch j i call hb hj hcall
    unfold answerTo at hstage
    rw [hperforming, if_neg (by simp)] at hstage
    exact hstage
  split
  · rename_i hserver
    refine h.set_pc hb hcollects rfl (by simp) (fun _ => ?_) (fun _ => rfl) rfl ?_ (fun _ _ => rfl)
    · rw [← h.performing b sBatch sRequests hb hperforming]
      exact hserver
    · intro j i call hj hcall
      exact hwaits j i call hj hcall
  rename_i sResponses hserver
  have hinfo : sBatch.info.Nodup := by
    have hnodup : (held Batch.info s.batches).Nodup := h.places.nodup_iff.mpr List.nodup_range
    exact (List.nodup_flatMap.mp hnodup).1 sBatch (List.mem_of_getElem? hb)
  have hkeys : ((sBatch.info.zip sResponses).map Prod.fst).Nodup :=
    (zip_fst_sublist sBatch.info sResponses).nodup hinfo
  refine h.set_pc hb hcollects rfl (by simp) (by simp)
    (BatchClient.answered_map answer_request s.calls _)
    (BatchClient.answered_length s.calls _) ?_ ?_
  · intro j i call hj hcall
    have hanswer : answerTo server s b { sBatch with pc := .done } j = sResponses[j]? := by
      have hrequests : s.requests { sBatch with pc := .done } = sRequests :=
        (h.performing b sBatch sRequests hb hperforming).symm
      unfold answerTo
      rw [if_pos rfl, hrequests, hserver]
      rfl
    rw [hanswer]
    cases hy : sResponses[j]? with
    | some y =>
        have hmem : (i, y) ∈ sBatch.info.zip sResponses := by
          apply List.mem_of_getElem? (i := j)
          rw [List.getElem?_zip_eq_some]
          exact ⟨hj, hy⟩
        rw [BatchClient.answered_of_mem s.calls hkeys hmem] at hcall
        cases hold : s.calls[i]? with
        | none =>
            rw [hold] at hcall
            cases hcall
        | some call₀ =>
            rw [hold] at hcall
            cases hcall
            exact (hwaits j i call₀ hj hold).answer y
    | none =>
        have hnot : i ∉ (sBatch.info.zip sResponses).map Prod.fst := by
          intro hmem
          obtain ⟨⟨i', y⟩, hpair, rfl⟩ := List.mem_map.mp hmem
          obtain ⟨k, hk⟩ := List.mem_iff_getElem?.mp hpair
          rw [List.getElem?_zip_eq_some] at hk
          have hjk : j = k := nodup_index hinfo hj hk.1
          rw [hjk, hk.2] at hy
          cases hy
        rw [BatchClient.answered_of_notMem s.calls hnot] at hcall
        exact hwaits j i call hj hcall
  · intro i hi
    apply BatchClient.answered_of_notMem
    intro hmem
    exact hi ((zip_fst_sublist sBatch.info sResponses).subset hmem)

theorem wake (h : Sound batch_size server s) (b : ℕ) : Sound batch_size server (s.wake b) := by
  unfold BatchClient.wake
  split
  · exact h
  rename_i sBatch hb
  split
  swap
  · exact h
  rename_i hexpired
  have hcollects : sBatch.pc.collects = true := by
    rw [hexpired]
    rfl
  have hfits := h.fits hb
  have hunsent := hfits.unsent hcollects
  refine h.replaced hb rfl (h.places_set hb rfl) ?_ ?_ ?_ (fun _ _ _ => rfl)
    ⟨hfits.small, ?_, ?_, ?_, ?_⟩
  · intro b' hqueue
    dsimp only at hqueue
    split_ifs at hqueue with hreset
    refine ⟨hqueue, ?_⟩
    rintro rfl
    exact absurd hqueue hreset
  · dsimp only
    rw [List.map_append, List.map_singleton]
    exact List.nodup_append.mpr ⟨h.once, List.nodup_singleton b, by
      rintro x hx y hy rfl
      cases List.mem_singleton.mp hy
      exact hunsent hx⟩
  · intro b' hne sRequests
    simp [hne]
  · intro sRequests
    dsimp only
    rw [List.mem_append, List.mem_singleton]
    constructor
    · rintro (hsent | heq)
      · exact absurd (List.mem_map_of_mem hsent) hunsent
      · exact ⟨rfl, (Prod.ext_iff.mp heq).2⟩
    · rintro ⟨-, heq⟩
      exact Or.inr (Prod.ext rfl heq)
  · intro sRequests hpc
    cases hpc
    rfl
  · intro hpc
    cases hpc
  · intro j i call hj hcall
    exact hfits.unanswered hcollects (List.mem_of_getElem? hj) hcall

theorem put (h : Sound batch_size server s) (hsize : 1 ≤ batch_size) (aRequest : Request) :
    Sound batch_size server (s.put batch_size aRequest) := by
  have hcreate : ∀ t, Sound batch_size server t →
      Sound batch_size server (t.create.push aRequest) := by
    intro t ht
    exact ht.create.push rfl List.getElem?_concat_length hsize aRequest
  unfold BatchClient.put
  split
  · exact hcreate s h
  · rename_i b hqueue
    split
    · exact h
    · rename_i sBatch hb
      split_ifs with hfull
      · exact hcreate _ (h.batches_modify b timeUp_info timeUp_collects)
      · exact h.push hqueue hb (Nat.lt_of_not_le hfull) aRequest

theorem step (h : Sound batch_size server s) (hsize : 1 ≤ batch_size) (e : Event) :
    Sound batch_size server (step batch_size server s e) := by
  cases e with
  | call aRequest => exact h.put hsize aRequest
  | waits i => exact h.calls_modify i wait_request fun _ _ => Stage.wait
  | starts b => exact h.batches_modify b start_info start_collects
  | expires b => exact h.batches_modify b timeUp_info timeUp_collects
  | wakes b => exact h.wake b
  | completes b => exact h.complete b
  | resumes i => exact h.calls_modify i resume_request fun _ _ => Stage.resume

/-- The response of a call is the one at its place. -/
theorem routed (h : Sound batch_size server s) : Routed batch_size server s := by
  have hnodup : (held Batch.info s.batches).Nodup := h.places.nodup_iff.mpr List.nodup_range
  have hplace : ∀ b j i, s.place (b, j) = some i ↔
      ∃ sBatch, s.batches[b]? = some sBatch ∧ sBatch.info[j]? = some i := by
    intro b j i
    exact Option.bind_eq_some_iff
  have hexists : ∀ i < s.calls.length, ∃ (b : ℕ) (sBatch : Batch) (j : ℕ),
      s.batches[b]? = some sBatch ∧ sBatch.info[j]? = some i := by
    intro i hi
    exact exists_place (h.places.mem_iff.mpr (List.mem_range.mpr hi))
  constructor
  · intro i hi
    obtain ⟨b, sBatch, j, hb, hj⟩ := hexists i hi
    refine ⟨(b, j), (hplace b j i).mpr ⟨sBatch, hb, hj⟩, ?_⟩
    rintro ⟨b', j'⟩ hp
    obtain ⟨sBatch', hb', hj'⟩ := (hplace b' j' i).mp hp
    obtain ⟨rfl, rfl⟩ := place_unique hnodup hb' hj' hb hj
    rfl
  · intro sBatch hmem
    obtain ⟨b, hb⟩ := List.mem_iff_getElem?.mp hmem
    exact h.small b sBatch hb
  · exact h.once
  · intro b sRequests hsent
    obtain ⟨sBatch, hb, hcollects, heq⟩ := (h.sent b sRequests).mp hsent
    refine ⟨?_, sBatch, hb, heq⟩
    intro hqueue
    obtain ⟨sBatch', hb', hcollects'⟩ := h.queued b hqueue
    rw [hb] at hb'
    cases hb'
    rw [hcollects] at hcollects'
    cases hcollects'
  · intro i call y hcall hreturned
    obtain ⟨b, sBatch, j, hb, hj⟩ := hexists i (List.getElem?_eq_some_iff.mp hcall).1
    have hstage := h.calls b sBatch j i call hb hj hcall
    cases hanswer : answerTo server s b sBatch j with
    | none =>
        rw [hanswer] at hstage
        rcases hstage with ⟨hpc, -⟩ | ⟨hpc, -⟩ <;>
        · rw [hreturned] at hpc
          cases hpc
    | some y' =>
        rw [hanswer] at hstage
        obtain ⟨-, ⟨hpc, -⟩ | ⟨hpc, -⟩ | hpc⟩ := hstage
        · rw [hreturned] at hpc
          cases hpc
        · rw [hreturned] at hpc
          cases hpc
        · rw [hreturned] at hpc
          cases hpc
          unfold answerTo at hanswer
          split_ifs at hanswer with hdone
          obtain ⟨sResponses, hserver, hy⟩ := Option.bind_eq_some_iff.mp hanswer
          refine ⟨b, j, s.requests sBatch, sResponses, (hplace b j i).mpr ⟨sBatch, hb, hj⟩,
            (h.sent b _).mpr ⟨sBatch, hb, ?_, rfl⟩, h.request_at hb hj hcall, hserver, hy⟩
          rw [hdone]
          rfl

end Sound

end

end Stuff.KvBatchClient
