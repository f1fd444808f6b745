import Stuff.EventRuns
import Stuff.Http2Output
import Mathlib.Data.List.Perm.Basic

/-!
# The client's peer

A `Peer` starts requests as streams, up to a limit, and keeps the others in a
list of pending ones; a response completes a stream and makes room for the next
pending request; a failure completes everything with an exception. Promises are
numbered in the order in which the strand runs their `async_i`. What is not
modelled here is the traffic of the output once a request is queued.
-/
namespace Stuff.Http2Peer
open MachineWords Http2Frames Http2Hpack Http2Output EventRuns
open Std (TreeMap)

variable {N : Nghttp2} {R : Type}

structure PendingStream where
  request : ClientRequest
  promise : ℕ

inductive Outcome (R : Type)
  | value (response : R)
  | exception (what : String)

/-- The last four fields are history: how the process fares, how many requests
were submitted, which promises were completed, which requests were initiated
and under which ids. -/
structure Peer (N : Nghttp2) (R : Type) where
  serial : UInt32 := 1
  pending : List PendingStream := []
  streams : TreeMap UInt32 ℕ := {}
  output : Output N := { deflater := N.deflateNew }
  failReason : String := ""
  exit : Exit := .done
  submitted : ℕ := 0
  completed : List (ℕ × Outcome R) := []
  initiated : List (UInt32 × ℕ) := []

namespace Peer

/-- The promises of the active streams, in the order of their ids. -/
def active (p : Peer N R) : List ℕ := p.streams.toList.map Prod.snd

def fail (p : Peer N R) (aMsg : String) : Peer N R :=
  let reason := if p.failReason = "" then aMsg else p.failReason
  { p with
    failReason := reason
    completed := p.completed ++
      (p.active ++ p.pending.map PendingStream.promise).map fun q => (q, .exception reason)
    streams := {}
    pending := [] }

/-- A request is registered under the next id. -/
def started (p : Peer N R) (o : Output N) (q : ℕ) : Peer N R :=
  { p with
    serial := p.serial + 2
    output := o
    streams := p.streams.insert p.serial q
    initiated := p.initiated ++ [(p.serial, q)] }

/-- The second component is the exception, if one is thrown: the serial has
advanced then, and the promise is not registered. -/
def initiate (p : Peer N R) (aRequest : ClientRequest) (aPromise : ℕ) :
    Peer N R × Option String :=
  let r := p.output.enqueueRequest p.serial aRequest
  match r.2 with
  | some e => ({ p with serial := p.serial + 2, output := r.1 }, some e)
  | none => (p.started r.1 aPromise, none)

def asyncI (p : Peer N R) (aRequest : ClientRequest) (aPromise : ℕ) :
    Peer N R × Option String :=
  if p.failReason ≠ "" then
    ({ p with completed := p.completed ++ [(aPromise, .exception p.failReason)] }, none)
  else if concurrentStreams ≤ p.streams.size then
    ({ p with pending := p.pending ++ [⟨aRequest, aPromise⟩] }, none)
  else p.initiate aRequest aPromise

/-- A stream is completed and its place is free. -/
def freed (p : Peer N R) (aID : UInt32) (q : ℕ) (response : R) : Peer N R :=
  { p with
    completed := p.completed ++ [(q, .value response)]
    streams := p.streams.erase aID }

/-- A message for a stream that is not active fails an assertion; without
assertions the iterator behind the last stream is used. -/
def processMessage (debug : Bool) (p : Peer N R) (aID : UInt32) (aMessage : R) :
    Peer N R × Option String :=
  match p.streams[aID]? with
  | none =>
      ({ p with exit := if debug then .aborted "sIt != m_Streams.end()" else .undefined }, none)
  | some promise =>
      match p.pending with
      | [] => (p.freed aID promise aMessage, none)
      | w :: rest =>
          let r := (p.freed aID promise aMessage).initiate w.request w.promise
          match r.2 with
          | none => ({ r.1 with pending := rest }, none)
          | some e => (r.1, some e)

/-- What happens on the strand. `exception` and `error` are failures that the
read and the write coroutine catch. -/
inductive Event (R : Type)
  | async (aRequest : ClientRequest)
  | message (aID : UInt32) (aMessage : R)
  | exception (what : String)
  | error (what : String)

def failException (p : Peer N R) (what : String) : Peer N R := p.fail ("exception: " ++ what)

def failError (p : Peer N R) (what : String) : Peer N R := p.fail ("beast error: " ++ what)

/-- An exception out of `async_i` leaves the handler on the strand and the
promise is gone with it; one out of `process_message` reaches the read
coroutine, which fails the peer. -/
def step (debug : Bool) (p : Peer N R) (e : Event R) : Peer N R :=
  if p.exit = .done then
    match e with
    | .async aRequest =>
        { (p.asyncI aRequest p.submitted).1 with submitted := p.submitted + 1 }
    | .message aID aMessage =>
        let r := p.processMessage debug aID aMessage
        match r.2 with
        | none => r.1
        | some what => r.1.failException what
    | .exception what => p.failException what
    | .error what => p.failError what
  else p

/-- The header block of a request compresses. -/
def Accepted (p : Peer N R) (aRequest : ClientRequest) : Prop :=
  ∃ block, (deflateRequest p.output.deflater aRequest).1 = .ok block

theorem accepted_iff (hN : DeflateTotal N) (p : Peer N R) (aRequest : ClientRequest) :
    p.Accepted aRequest ↔ ParserUrl.WellFormed aRequest.url :=
  deflateRequest_ok_iff hN p.output.deflater aRequest

/-! ## What the operations do -/

/-- An `initiate` throws, or it registers the stream. -/
theorem initiate_cases (p : Peer N R) (aRequest : ClientRequest) (aPromise : ℕ) :
    (∃ o e, ¬ p.Accepted aRequest ∧ p.initiate aRequest aPromise =
      ({ p with serial := p.serial + 2, output := o }, some e)) ∨
    ∃ o, p.Accepted aRequest ∧ p.initiate aRequest aPromise = (p.started o aPromise, none) := by
  have hcases := p.output.enqueueBlock_cases p.serial aRequest.body
    (deflateRequest p.output.deflater aRequest)
  unfold initiate Accepted Output.enqueueRequest
  rcases hcases with ⟨e, herror, heq⟩ | ⟨block, hblock, heq⟩
  · refine .inl ⟨{ p.output with deflater := (deflateRequest p.output.deflater aRequest).2 }, e,
      by simp [herror], ?_⟩
    rw [heq]
  · refine .inr ⟨p.output.withMessage p.serial aRequest.body block
      (deflateRequest p.output.deflater aRequest).2, ⟨block, hblock⟩, ?_⟩
    rw [heq]

/-- Everything a step can do, with the guards under which it does it. -/
inductive Move (p : Peer N R) : Event R → Peer N R → Prop
  | refused {r : ClientRequest} (hfail : p.failReason ≠ "") :
      Move p (.async r) { p with
        completed := p.completed ++ [(p.submitted, .exception p.failReason)]
        submitted := p.submitted + 1 }
  | queued {r : ClientRequest} (hfail : p.failReason = "")
      (hfull : concurrentStreams ≤ p.streams.size) :
      Move p (.async r) { p with
        pending := p.pending ++ [⟨r, p.submitted⟩]
        submitted := p.submitted + 1 }
  | dropped {r : ClientRequest} (o : Output N) (hfail : p.failReason = "")
      (hroom : p.streams.size < concurrentStreams) (hno : ¬ p.Accepted r) :
      Move p (.async r) { p with
        serial := p.serial + 2
        output := o
        submitted := p.submitted + 1 }
  | initiated {r : ClientRequest} (o : Output N) (hfail : p.failReason = "")
      (hroom : p.streams.size < concurrentStreams) (hyes : p.Accepted r) :
      Move p (.async r) { p.started o p.submitted with submitted := p.submitted + 1 }
  | unknown {id : UInt32} {response : R} {exit : Exit} (hid : id ∉ p.streams)
      (hexit : exit ≠ .done) : Move p (.message id response) { p with exit := exit }
  | completed {id : UInt32} {response : R} {q : ℕ} (hq : p.streams[id]? = some q)
      (hpending : p.pending = []) : Move p (.message id response) (p.freed id q response)
  | replaced {id : UInt32} {response : R} {q : ℕ} {w : PendingStream} {rest : List PendingStream}
      (o : Output N) (hq : p.streams[id]? = some q) (hpending : p.pending = w :: rest)
      (hyes : p.Accepted w.request) :
      Move p (.message id response)
        { (p.freed id q response).started o w.promise with pending := rest }
  | broken {id : UInt32} {response : R} {q : ℕ} {w : PendingStream} {rest : List PendingStream}
      (o : Output N) (e : String) (hq : p.streams[id]? = some q) (hpending : p.pending = w :: rest)
      (hno : ¬ p.Accepted w.request) :
      Move p (.message id response)
        ({ p.freed id q response with serial := p.serial + 2, output := o }.failException e)
  | exception (what : String) : Move p (.exception what) (p.failException what)
  | error (what : String) : Move p (.error what) (p.failError what)

theorem async_move (p : Peer N R) (r : ClientRequest) :
    Move p (.async r) { (p.asyncI r p.submitted).1 with submitted := p.submitted + 1 } := by
  unfold asyncI
  split_ifs with hfail hfull
  · exact .refused hfail
  · exact .queued (not_not.mp hfail) hfull
  · rcases p.initiate_cases r p.submitted with ⟨o, e, hno, heq⟩ | ⟨o, hyes, heq⟩
    · rw [heq]
      exact .dropped o (not_not.mp hfail) (Nat.lt_of_not_le hfull) hno
    · rw [heq]
      exact .initiated o (not_not.mp hfail) (Nat.lt_of_not_le hfull) hyes

theorem message_move (debug : Bool) (p : Peer N R) (id : UInt32) (response : R) :
    Move p (.message id response)
      (match (p.processMessage debug id response).2 with
        | none => (p.processMessage debug id response).1
        | some what => (p.processMessage debug id response).1.failException what) := by
  unfold processMessage
  cases hq : p.streams[id]? with
  | none =>
      have hid : id ∉ p.streams := by
        rw [← TreeMap.isSome_getElem?_iff_mem, hq]
        simp
      exact .unknown hid (by cases debug <;> simp)
  | some q =>
      cases hpending : p.pending with
      | nil => exact .completed hq hpending
      | cons w rest =>
          rcases (p.freed id q response).initiate_cases w.request w.promise with
            ⟨o, e, hno, heq⟩ | ⟨o, hyes, heq⟩
          · simp only [heq]
            exact .broken o e hq hpending hno
          · simp only [heq]
            exact .replaced o hq hpending hyes

theorem step_move (debug : Bool) {p : Peer N R} (h : p.exit = .done) (e : Event R) :
    Move p e (p.step debug e) := by
  unfold step
  rw [if_pos h]
  cases e with
  | async r => exact p.async_move r
  | message id response => exact p.message_move debug id response
  | exception what => exact .exception what
  | error what => exact .error what

end Peer

/-! ## The promises of a map -/

section Values
variable {β : Type} {m : TreeMap UInt32 β} {k : UInt32}

theorem insert_values (h : k ∉ m) (v : β) :
    ((m.insert k v).toList.map Prod.snd).Perm (v :: m.toList.map Prod.snd) := by
  have hperm := (TreeMap.toList_insert_perm (t := m) (k := k) (v := v)).map Prod.snd
  have hfilter : m.toList.filter (fun e => ¬ (k == e.1) = true) = m.toList := by
    rw [List.filter_eq_self]
    intro e he
    have hmem : m[e.1]? = some e.2 := TreeMap.mem_toList_iff_getElem?_eq_some.mp he
    have hne : k ≠ e.1 := by
      rintro rfl
      apply h
      rw [← TreeMap.isSome_getElem?_iff_mem, hmem]
      rfl
    simp [hne]
  rw [hfilter] at hperm
  exact hperm

theorem erase_values {v : β} (h : m[k]? = some v) :
    (m.toList.map Prod.snd).Perm (v :: (m.erase k).toList.map Prod.snd) := by
  have hsame : TreeMap.Equiv m ((m.erase k).insert k v) := by
    apply TreeMap.Equiv.of_forall_constGet?_eq
    intro j
    by_cases hj : k = j
    · subst hj
      simp [h]
    · simp [TreeMap.getElem?_insert, TreeMap.getElem?_erase, hj]
  rw [TreeMap.Equiv.toList_eq hsame]
  exact insert_values (by simp) v

theorem mem_of_getElem? {v : β} (h : m[k]? = some v) : k ∈ m := by
  rw [← TreeMap.isSome_getElem?_iff_mem, h]
  rfl

theorem size_erase_add_one {v : β} (h : m[k]? = some v) : (m.erase k).size + 1 = m.size := by
  have hperm := (erase_values h).length_eq
  simpa [TreeMap.length_toList] using hperm.symm

end Values

/-- A `GET` of `"http://h/"`. -/
def getRequest : ClientRequest :=
  { method := [0x47, 0x45, 0x54],
    url := [0x68, 0x74, 0x74, 0x70, 0x3a, 0x2f, 0x2f, 0x68, 0x2f] }

def okResponse : Response := { resultInt := 200 }

end Stuff.Http2Peer
