import Stuff.EventRuns
import Stuff.Http2Hpack
import Mathlib.Data.List.Basic
import Std.Data.TreeMap.Lemmas

/-!
# The sending half of a connection

`Output` holds two queues of frames that may be written at once and, per
stream, the rest of a body that waits for window. `flush` moves body bytes to
the write queue as far as the connection window and the stream windows allow.
`coro` writes the queues out; it is a coroutine, so its write is split into the
moment it hands the frames to the socket and the moment it resumes.
-/
namespace Stuff.Http2Output
open MachineWords Http2Frames Http2Hpack
open Std (TreeMap)

structure Info where
  body : Bytes := []
  budget : UInt32 := defaultWindowSize
deriving DecidableEq, Repr

structure Output (N : Nghttp2) where
  deflater : N.Deflater
  priorityQueue : List Frame := []
  writeQueue : List Frame := []
  info : TreeMap UInt32 Info := {}
  budget : UInt32 := defaultWindowSize

variable {N : Nghttp2}

/-- The loop of `enqueue(id, data, last)`. Every round removes at least one
byte, so the length of the data is enough fuel. -/
def dataFrames (id : UInt32) (last : Bool) : ℕ → Bytes → List Frame
  | 0, _ => []
  | fuel + 1, aData =>
      if aData.isEmpty then [] else
        let len := min aData.length defaultMaxFrameSize
        let flags := if len = aData.length ∧ last then Flags.endStream else 0
        Frame.make .data flags id (aData.take len) :: dataFrames id last fuel (aData.drop len)

namespace Output

def enqueueData (o : Output N) (id : UInt32) (aData : Bytes) (last : Bool) : Output N :=
  { o with writeQueue := o.writeQueue ++ dataFrames id last aData.length aData }

/-- How much of a body one visit of `flush` may take. -/
def flushLen (budget : UInt32) (d : Info) : ℕ :=
  min (min (min budget.toNat d.budget.toNat) d.body.length) maxStreamExclusive

/-- `sNoBudget`: too little to be worth a frame, and not the end of the body. -/
def NoBudget (budget : UInt32) (d : Info) : Prop :=
  flushLen budget d < minFrameSize ∧ flushLen budget d < d.body.length

instance (budget : UInt32) (d : Info) : Decidable (NoBudget budget d) :=
  inferInstanceAs (Decidable (_ ∧ _))

/-- The body of a visit that sends: `len` bytes of stream `id` go out. -/
def sendChunk (o : Output N) (id : UInt32) (d : Info) (len : ℕ) : Output N :=
  let last : Bool := len = d.body.length
  let sent := o.enqueueData id (d.body.take len) last
  { sent with
    budget := o.budget - UInt32.ofNat len
    info :=
      if last then o.info.erase id
      else o.info.insert id ⟨d.body.drop len, d.budget - UInt32.ofNat len⟩ }

/-- One round of the loop in `flush`, for the stream the iterator points to.
The flag says that the loop goes on. -/
def flushVisit (o : Output N) (id : UInt32) : Output N × Bool :=
  match o.info[id]? with
  | none => (o, true)
  | some d =>
      if d.body.length = 0 then ({ o with info := o.info.erase id }, true)
      else if NoBudget o.budget d then (o, true)
      else
        let next := o.sendChunk id d (flushLen o.budget d)
        (next, minFrameSize ≤ next.budget.toNat)

def flushFrom (o : Output N) : List UInt32 → Output N
  | [] => o
  | id :: ids =>
      let r := o.flushVisit id
      if r.2 then flushFrom r.1 ids else r.1

/-- The loop only ever erases the entry it stands on, so it visits the keys
that are present when it starts, in their order. -/
def flush (o : Output N) : Output N := o.flushFrom o.info.keys

def idle (o : Output N) : Bool := o.info.isEmpty && o.writeQueue.isEmpty

/-- `process_window_update` up to its call of `flush`. -/
def credit (o : Output N) (id inc : UInt32) : Output N :=
  if id = 0 then { o with budget := o.budget + inc }
  else
    let d := o.info.getD id {}
    { o with info := o.info.insert id { d with budget := d.budget + inc } }

def processWindowUpdate (o : Output N) (id inc : UInt32) : Output N := (o.credit id inc).flush

def send (o : Output N) (f : Frame) : Output N :=
  { o with priorityQueue := o.priorityQueue ++ [f] }

/-- Both `enqueue` overloads from the compressed header block on; the second
component is the exception, if one is thrown. Only a non-empty body touches
the stream's entry, and only its `body` field. -/
def enqueueBlock (o : Output N) (id : UInt32) (body : Bytes)
    (deflated : Except String Bytes × N.Deflater) : Output N × Option String :=
  let o₁ := { o with deflater := deflated.2 }
  match deflated.1 with
  | .error e => (o₁, some e)
  | .ok block =>
      let flags := if body.isEmpty then Flags.endHeaders ||| Flags.endStream else Flags.endHeaders
      let o₂ := { o₁ with writeQueue := o.writeQueue ++ [Frame.make .headers flags id block] }
      if body.isEmpty then (o₂, none)
      else ({ o₂ with info := o.info.insert id { (o.info.getD id {}) with body := body } }, none)

def enqueueResponse (o : Output N) (id : UInt32) (aResponse : Response) :
    Output N × Option String :=
  o.enqueueBlock id aResponse.body (deflateResponse o.deflater aResponse)

def enqueueRequest (o : Output N) (id : UInt32) (aRequest : ClientRequest) :
    Output N × Option String :=
  o.enqueueBlock id aRequest.body (deflateRequest o.deflater aRequest)

end Output

def maxMerge : ℕ := 16

/-- How many frames one write merges; `count` and `length` are `sCount` and
`sLength` of the loop. -/
def mergeCount : List Frame → (count length : ℕ) → ℕ
  | [], count, _ => count
  | f :: fs, count, length =>
      if count < maxMerge ∧ length < maxStreamExclusive then
        mergeCount fs (count + 1) (length + f.bytes.length)
      else count

/-- Where `coro` is suspended: at the timer, or inside `sWriteOut` of one of
the queues with the first `count` frames handed to the socket. A failed write
ends it. -/
inductive Coro
  | idle
  | priority (count : ℕ)
  | write (count : ℕ)
  | failed
deriving DecidableEq, Repr

/-- An `Output` with its coroutine. The last three fields are history: the
frames already popped from the write queue, the messages whose `enqueue`
returned, the window updates received. -/
structure Sender (N : Nghttp2) where
  output : Output N
  coro : Coro := .idle
  popped : List Frame := []
  messages : List (UInt32 × Bytes) := []
  updates : List (UInt32 × UInt32) := []

namespace Sender

def start : Sender N := { output := { deflater := N.deflateNew } }

/-- Resume `coro` where it is suspended; the second component is what it hands
to the socket. After a write of the write queue it calls `flush` only with more
than `MIN_FRAME_SIZE` of connection window. -/
def resume (s : Sender N) : Sender N × List Frame :=
  match s.coro with
  | .idle =>
      if !s.output.priorityQueue.isEmpty then
        let n := mergeCount s.output.priorityQueue 0 0
        ({ s with coro := .priority n }, s.output.priorityQueue.take n)
      else if !s.output.writeQueue.isEmpty then
        let n := mergeCount s.output.writeQueue 0 0
        ({ s with coro := .write n }, s.output.writeQueue.take n)
      else (s, [])
  | .priority n =>
      ({ s with
          output := { s.output with priorityQueue := s.output.priorityQueue.drop n }
          coro := .idle }, [])
  | .write n =>
      let o := { s.output with writeQueue := s.output.writeQueue.drop n }
      ({ s with
          output := if minFrameSize < o.budget.toNat then o.flush else o
          coro := .idle
          popped := s.popped ++ s.output.writeQueue.take n }, [])
  | .failed => (s, [])

inductive Event
  | response (id : UInt32) (aResponse : Response)
  | request (id : UInt32) (aRequest : ClientRequest)
  | windowUpdate (id inc : UInt32)
  | flush
  | send (f : Frame)
  | resume
  | writeError

/-- Note a message in the history when its `enqueue` did not throw. -/
def noted (s : Sender N) (id : UInt32) (body : Bytes) (r : Output N × Option String) :
    Sender N :=
  { s with
    output := r.1
    messages := if r.2.isNone then s.messages ++ [(id, body)] else s.messages }

def step (s : Sender N) : Event → Sender N
  | .response id r => s.noted id r.body (s.output.enqueueResponse id r)
  | .request id r => s.noted id r.body (s.output.enqueueRequest id r)
  | .windowUpdate id inc =>
      { s with
        output := s.output.processWindowUpdate id inc
        updates := s.updates ++ [(id, inc)] }
  | .flush => { s with output := s.output.flush }
  | .send f => { s with output := s.output.send f }
  | .resume => s.resume.1
  | .writeError =>
      match s.coro with
      | .priority _ | .write _ => { s with coro := .failed }
      | _ => s

/-- Every frame ever put in the write queue, in order. -/
def pushed (s : Sender N) : List Frame := s.popped ++ s.output.writeQueue

/-- The stream id an event enqueues a message under. -/
def Event.enqueues : Event → Option UInt32
  | .response id _ | .request id _ => some id
  | _ => none

/-- No message went out under this id before. -/
def Fresh (s : Sender N) (e : Event) : Prop :=
  ∀ id ∈ e.enqueues, id ∉ s.messages.map Prod.fst

instance (s : Sender N) (e : Event) : Decidable (Fresh s e) :=
  Option.decidableForallMem e.enqueues

end Sender

/-! ## The frames of one chunk -/

/-- Every DATA frame carries between one byte and the maximum frame size. -/
def IsData (id : UInt32) (f : Frame) : Prop :=
  f.header.type = .data ∧ f.stream = id ∧
    1 ≤ f.payload.length ∧ f.payload.length ≤ defaultMaxFrameSize

theorem dataFrames_isData (id : UInt32) (last : Bool) (fuel : ℕ) (aData : Bytes) :
    ∀ f ∈ dataFrames id last fuel aData, IsData id f := by
  induction fuel generalizing aData with
  | zero => simp [dataFrames]
  | succ fuel ih =>
      intro f hf
      unfold dataFrames at hf
      split_ifs at hf with he
      · simp at hf
      · have hpos : 0 < aData.length := by
          cases aData with
          | nil => simp at he
          | cons => simp
        rcases List.mem_cons.mp hf with rfl | hf
        · refine ⟨rfl, rfl, ?_, ?_⟩ <;>
            simp only [Frame.make_payload, List.length_take, defaultMaxFrameSize] <;> omega
        · exact ih _ f hf

theorem dataFrames_payload (id : UInt32) (last : Bool) (fuel : ℕ) (aData : Bytes)
    (h : aData.length ≤ fuel) :
    (dataFrames id last fuel aData).flatMap Frame.payload = aData := by
  induction fuel generalizing aData with
  | zero => simp [dataFrames, List.length_eq_zero_iff.mp (Nat.le_zero.mp h)]
  | succ fuel ih =>
      unfold dataFrames
      split_ifs with he
      · simpa using he
      · have hlen : (aData.drop (min aData.length defaultMaxFrameSize)).length ≤ fuel := by
          simp only [List.length_drop, defaultMaxFrameSize]
          omega
        simp only [List.flatMap_cons, Frame.make_payload, ih _ hlen, List.take_append_drop]

/-- Only the last frame of a chunk can end the stream. -/
theorem dataFrames_flags (id : UInt32) (last : Bool) (fuel : ℕ) (aData : Bytes)
    (h : aData.length ≤ fuel) (hne : aData ≠ []) :
    ∃ init f, dataFrames id last fuel aData = init ++ [f] ∧
      (∀ g ∈ init, g.header.flags = 0) ∧
      f.header.flags = if last then Flags.endStream else 0 := by
  induction fuel generalizing aData with
  | zero => exact absurd (List.length_eq_zero_iff.mp (Nat.le_zero.mp h)) hne
  | succ fuel ih =>
      have hpos := List.length_pos_iff.mpr hne
      unfold dataFrames
      rw [if_neg (by simpa using hne)]
      by_cases hmore : defaultMaxFrameSize < aData.length
      · have hmin : min aData.length defaultMaxFrameSize = defaultMaxFrameSize := by omega
        have hrest : aData.drop defaultMaxFrameSize ≠ [] := by
          simpa [List.drop_eq_nil_iff] using hmore
        obtain ⟨init, f, heq, hinit, hf⟩ := ih (aData.drop defaultMaxFrameSize)
          (by simp only [List.length_drop, defaultMaxFrameSize]; omega) hrest
        have hflags : ¬ (defaultMaxFrameSize = aData.length ∧ last = true) := by omega
        refine ⟨Frame.make .data 0 id (aData.take defaultMaxFrameSize) :: init, f, ?_, ?_, hf⟩
        · simp only [hmin, heq, if_neg hflags, List.cons_append]
        · intro g hg
          rcases List.mem_cons.mp hg with rfl | hg
          · rfl
          · exact hinit g hg
      · have hmin : min aData.length defaultMaxFrameSize = aData.length := by omega
        have hend : dataFrames id last fuel [] = [] := by cases fuel <;> rfl
        refine ⟨[], Frame.make .data (if last then Flags.endStream else 0) id aData, ?_, by simp,
          rfl⟩
        simp only [hmin, true_and, List.take_length, List.drop_length, hend, List.nil_append]

/-! ## What `flush` can do

A call of `flush` is a sequence of two kinds of moves: it erases an entry
without body, or it sends a chunk that both windows allow. `Q` restricts the
entries that may be erased; `erased` lists those a given call does erase. -/

namespace Output

theorem flushLen_le_budget (b : UInt32) (d : Info) : flushLen b d ≤ b.toNat := by
  unfold flushLen
  omega

theorem flushLen_le_window (b : UInt32) (d : Info) : flushLen b d ≤ d.budget.toNat := by
  unfold flushLen
  omega

theorem flushLen_le_body (b : UInt32) (d : Info) : flushLen b d ≤ d.body.length := by
  unfold flushLen
  omega

theorem flushLen_pos {b : UInt32} {d : Info} (hd : d.body.length ≠ 0) (h : ¬ NoBudget b d) :
    0 < flushLen b d := by
  simp only [NoBudget, minFrameSize] at h
  omega

/-- One move on a stream whose entry is `d`. -/
inductive FlushMove (Q : UInt32 → Info → Prop) (o : Output N) : Output N → Prop
  | erase {id : UInt32} {d : Info} (hd : o.info[id]? = some d) (hbody : d.body = [])
      (hQ : Q id d) : FlushMove Q o { o with info := o.info.erase id }
  | chunk {id : UInt32} {d : Info} {len : ℕ} (hd : o.info[id]? = some d) (hpos : 0 < len)
      (hbudget : len ≤ o.budget.toNat) (hwindow : len ≤ d.budget.toNat)
      (hbody : len ≤ d.body.length) : FlushMove Q o (o.sendChunk id d len)

/-- The entry a visit of `id` erases as having no more data to send. -/
def erasedAt (o : Output N) (id : UInt32) : List (UInt32 × Info) :=
  match o.info[id]? with
  | none => []
  | some d => if d.body.length = 0 then [(id, d)] else []

def erasedFrom (o : Output N) : List UInt32 → List (UInt32 × Info)
  | [] => []
  | id :: ids =>
      let r := o.flushVisit id
      o.erasedAt id ++ if r.2 then erasedFrom r.1 ids else []

/-- The entries without body that `flush` reaches, with their windows. -/
def erased (o : Output N) : List (UInt32 × Info) := o.erasedFrom o.info.keys

theorem flushVisit_move {Q : UInt32 → Info → Prop} (o : Output N) (id : UInt32)
    (hQ : ∀ x ∈ o.erasedAt id, Q x.1 x.2) :
    (o.flushVisit id).1 = o ∨ FlushMove Q o (o.flushVisit id).1 := by
  unfold flushVisit
  split
  · exact .inl rfl
  · rename_i d hd
    split_ifs with hbody hlow
    · refine .inr (.erase hd (List.length_eq_zero_iff.mp hbody) ?_)
      exact hQ (id, d) (by simp [erasedAt, hd, hbody])
    · exact .inl rfl
    · exact .inr (.chunk hd (flushLen_pos hbody hlow) (flushLen_le_budget _ _)
        (flushLen_le_window _ _) (flushLen_le_body _ _))

theorem flushFrom_invariant {Q : UInt32 → Info → Prop} {I : Output N → Prop}
    (hmove : ∀ o o', I o → FlushMove Q o o' → I o') (ids : List UInt32) {o : Output N}
    (hQ : ∀ x ∈ o.erasedFrom ids, Q x.1 x.2) (ho : I o) : I (o.flushFrom ids) := by
  induction ids generalizing o with
  | nil => exact ho
  | cons id ids ih =>
      simp only [erasedFrom, List.mem_append] at hQ
      have hv : I (o.flushVisit id).1 := by
        rcases o.flushVisit_move id (fun x hx => hQ x (.inl hx)) with h | h
        · rwa [h]
        · exact hmove _ _ ho h
      simp only [flushFrom]
      split_ifs with hgo
      · exact ih (fun x hx => hQ x (.inr (by rwa [if_pos hgo]))) hv
      · exact hv

/-- What every move keeps, a whole `flush` keeps. -/
theorem flush_invariant {Q : UInt32 → Info → Prop} {I : Output N → Prop}
    (hmove : ∀ o o', I o → FlushMove Q o o' → I o') {o : Output N}
    (hQ : ∀ x ∈ o.erased, Q x.1 x.2) (ho : I o) : I o.flush :=
  flushFrom_invariant hmove _ hQ ho

/-! ## The fields after each operation -/

@[simp] theorem sendChunk_budget (o : Output N) (id : UInt32) (d : Info) (len : ℕ) :
    (o.sendChunk id d len).budget = o.budget - UInt32.ofNat len := rfl

/-- The frames a chunk becomes. -/
def chunkFrames (id : UInt32) (d : Info) (len : ℕ) : List Frame :=
  dataFrames id (len = d.body.length) (d.body.take len).length (d.body.take len)

@[simp] theorem sendChunk_writeQueue (o : Output N) (id : UInt32) (d : Info) (len : ℕ) :
    (o.sendChunk id d len).writeQueue = o.writeQueue ++ chunkFrames id d len := rfl

theorem sendChunk_info (o : Output N) (id k : UInt32) (d : Info) (len : ℕ) :
    (o.sendChunk id d len).info[k]? =
      if id = k then
        if len = d.body.length then none
        else some ⟨d.body.drop len, d.budget - UInt32.ofNat len⟩
      else o.info[k]? := by
  unfold sendChunk
  by_cases hlast : len = d.body.length <;> simp [hlast, Std.TreeMap.getElem?_insert,
    Std.TreeMap.getElem?_erase]

theorem erase_info (o : Output N) (id k : UInt32) :
    ({ o with info := o.info.erase id } : Output N).info[k]? =
      if id = k then none else o.info[k]? := by
  simp [Std.TreeMap.getElem?_erase]

@[simp] theorem credit_priorityQueue (o : Output N) (id inc : UInt32) :
    (o.credit id inc).priorityQueue = o.priorityQueue := by
  unfold credit
  split_ifs <;> rfl

@[simp] theorem credit_writeQueue (o : Output N) (id inc : UInt32) :
    (o.credit id inc).writeQueue = o.writeQueue := by
  unfold credit
  split_ifs <;> rfl

theorem credit_budget (o : Output N) (id inc : UInt32) :
    (o.credit id inc).budget = if id = 0 then o.budget + inc else o.budget := by
  unfold credit
  split_ifs <;> rfl

theorem credit_info (o : Output N) (id inc k : UInt32) :
    (o.credit id inc).info[k]? =
      if id ≠ 0 ∧ id = k then
        some { (o.info.getD id {}) with budget := (o.info.getD id {}).budget + inc }
      else o.info[k]? := by
  unfold credit
  split_ifs with h₀ h h <;> simp_all [Std.TreeMap.getElem?_insert]

/-- The write queue and the entry that `enqueue` leaves for a message. -/
def withMessage (o : Output N) (id : UInt32) (body block : Bytes) (d : N.Deflater) : Output N :=
  { o with
    deflater := d
    writeQueue := o.writeQueue ++ [Frame.make .headers
      (if body.isEmpty then Flags.endHeaders ||| Flags.endStream else Flags.endHeaders) id block]
    info :=
      if body.isEmpty then o.info
      else o.info.insert id { (o.info.getD id {}) with body := body } }

theorem withMessage_info (o : Output N) (id k : UInt32) (body block : Bytes) (d : N.Deflater) :
    (o.withMessage id body block d).info[k]? =
      if body ≠ [] ∧ id = k then some { (o.info.getD id {}) with body := body }
      else o.info[k]? := by
  unfold withMessage
  by_cases hbody : body = [] <;> simp [hbody, Std.TreeMap.getElem?_insert]

/-- An `enqueue` either throws and leaves all but the compressor as it was, or
queues the message. -/
theorem enqueueBlock_cases (o : Output N) (id : UInt32) (body : Bytes)
    (deflated : Except String Bytes × N.Deflater) :
    (∃ e, deflated.1 = .error e ∧
      o.enqueueBlock id body deflated = ({ o with deflater := deflated.2 }, some e)) ∨
    ∃ block, deflated.1 = .ok block ∧
      o.enqueueBlock id body deflated = (o.withMessage id body block deflated.2, none) := by
  obtain ⟨result, d⟩ := deflated
  cases result with
  | error e => exact .inl ⟨e, rfl, rfl⟩
  | ok block =>
      refine .inr ⟨block, rfl, ?_⟩
      cases body <;> rfl

end Output

/-! ## What a step can do -/

namespace Sender

/-- The moves the events are made of, with `Q` on the entries that may be
erased given the messages so far, and `C` on the window updates that may
arrive. `other` covers the steps that leave the windows, the bodies and the
frames pushed so far alone. -/
inductive Move (Q : List (UInt32 × Bytes) → UInt32 → Info → Prop)
    (C : Sender N → UInt32 → UInt32 → Prop) (s : Sender N) : Sender N → Prop
  | flush {o : Output N} (h : Output.FlushMove (Q s.messages) s.output o) :
      Move Q C s { s with output := o }
  | credit (id inc : UInt32) (hC : C s id inc) :
      Move Q C s { s with
        output := s.output.credit id inc
        updates := s.updates ++ [(id, inc)] }
  | message {id : UInt32} (body block : Bytes) (d : N.Deflater)
      (hfresh : id ∉ s.messages.map Prod.fst) :
      Move Q C s { s with
        output := s.output.withMessage id body block d
        messages := s.messages ++ [(id, body)] }
  | other {s' : Sender N} (hinfo : s'.output.info = s.output.info)
      (hbudget : s'.output.budget = s.output.budget) (hpushed : s'.pushed = s.pushed)
      (hmessages : s'.messages = s.messages) (hupdates : s'.updates = s.updates) : Move Q C s s'

/-- The window update an event delivers. -/
def update : Event → Option (UInt32 × UInt32)
  | .windowUpdate id inc => some (id, inc)
  | _ => none

/-- The output on which an event calls `flush`, if it does. -/
def flushes (s : Sender N) : Event → Option (Output N)
  | .windowUpdate id inc => some (s.output.credit id inc)
  | .flush => some s.output
  | .resume =>
      match s.coro with
      | .write n =>
          if minFrameSize < s.output.budget.toNat then
            some { s.output with writeQueue := s.output.writeQueue.drop n }
          else none
      | _ => none
  | _ => none

section
variable {Q : List (UInt32 × Bytes) → UInt32 → Info → Prop}
variable {C : Sender N → UInt32 → UInt32 → Prop}
variable {I : Sender N → Prop}

theorem flush_keeps (hmove : ∀ s s', I s → Move Q C s s' → I s') {s : Sender N} (hs : I s)
    (hQ : ∀ x ∈ s.output.erased, Q s.messages x.1 x.2) : I { s with output := s.output.flush } :=
  Output.flush_invariant (I := fun o => I { s with output := o })
    (fun _ _ ho hm => hmove _ _ ho (.flush hm)) hQ hs

theorem noted_keeps (hmove : ∀ s s', I s → Move Q C s s' → I s') {s : Sender N} (hs : I s)
    {id : UInt32} (hid : id ∉ s.messages.map Prod.fst) (body : Bytes)
    (deflated : Except String Bytes × N.Deflater) :
    I (s.noted id body (s.output.enqueueBlock id body deflated)) := by
  rcases s.output.enqueueBlock_cases id body deflated with ⟨e, -, h⟩ | ⟨block, -, h⟩
  · rw [h]
    exact hmove _ _ hs (.other rfl rfl rfl rfl rfl)
  · rw [h]
    exact hmove _ _ hs (.message body block _ hid)

theorem resume_keeps (hmove : ∀ s s', I s → Move Q C s s' → I s') {s : Sender N} (hs : I s)
    (hQ : ∀ o ∈ s.flushes .resume, ∀ x ∈ o.erased, Q s.messages x.1 x.2) : I s.resume.1 := by
  unfold resume
  split
  · split_ifs <;> first | exact hs | exact hmove _ _ hs (.other rfl rfl rfl rfl rfl)
  · exact hmove _ _ hs (.other rfl rfl rfl rfl rfl)
  · rename_i n hn
    let t : Sender N := { s with
      output := { s.output with writeQueue := s.output.writeQueue.drop n }
      coro := .idle
      popped := s.popped ++ s.output.writeQueue.take n }
    have ht : I t := by
      refine hmove _ _ hs (.other rfl rfl ?_ rfl rfl)
      simp only [t, pushed, List.append_assoc, List.take_append_drop]
    by_cases hb : minFrameSize < s.output.budget.toNat
    · simp only [hb, if_true]
      exact flush_keeps (s := t) hmove ht (hQ _ (by simp [flushes, hn, hb, t]))
    · simp only [hb, if_false]
      exact ht
  · exact hs

/-- What every move keeps, every event keeps. -/
theorem step_keeps (hmove : ∀ s s', I s → Move Q C s s' → I s') {s : Sender N} {e : Event}
    (hs : I s) (hfresh : Fresh s e)
    (hQ : ∀ o ∈ s.flushes e, ∀ x ∈ o.erased, Q s.messages x.1 x.2)
    (hC : ∀ u ∈ update e, C s u.1 u.2) : I (s.step e) := by
  cases e with
  | response id r => exact noted_keeps hmove hs (hfresh id rfl) _ _
  | request id r => exact noted_keeps hmove hs (hfresh id rfl) _ _
  | windowUpdate id inc =>
      exact flush_keeps hmove (hmove _ _ hs (.credit id inc (hC _ rfl))) (hQ _ rfl)
  | flush => exact flush_keeps hmove hs (hQ _ rfl)
  | send f => exact hmove _ _ hs (.other rfl rfl rfl rfl rfl)
  | resume => exact resume_keeps hmove hs hQ
  | writeError =>
      unfold step
      dsimp only
      split <;> first | exact hs | exact hmove _ _ hs (.other rfl rfl rfl rfl rfl)

end
end Sender
end Stuff.Http2Output
