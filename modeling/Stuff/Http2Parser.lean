import Stuff.Http2Hpack
import Std.Data.TreeMap.Lemmas

/-!
# The receiving half of a connection

`parser::Main` is a state machine over buffers. `hint` says how many bytes the
next call of `process` wants; `process` moves on to the next stage and calls
back into its API. The model returns these calls as a list. The two assertions
in `process_data` are checked when `debug` holds; without it the counters wrap.
-/
namespace Stuff.Http2Parser
open MachineWords Http2Frames Http2Hpack ContainerStream
open Std (TreeMap)

inductive Mode
  | client
  | server
deriving DecidableEq, Repr

inductive Stage
  | hello
  | header
  | body
  | clientHello
  | clientWait
deriving DecidableEq, Repr

structure Info (M : Type) where
  message : Option M := none
  budget : UInt32 := defaultWindowSize
  noBody : Bool := false

structure Main (N : Nghttp2) (M : Type) where
  stage : Stage
  header : Header := {}
  body : Bytes := []
  info : TreeMap UInt32 (Info M) := {}
  inflater : N.Inflater
  budget : UInt32 := defaultWindowSize

/-- The calls into `parser::API`. `sendHello` is the client's first buffer, the
preface in front of a frame. -/
inductive ApiCall (M : Type)
  | established
  | newMessage (id : UInt32)
  | processMessage (id : UInt32) (m : M)
  | windowUpdate (id inc : UInt32)
  | send (f : Frame)
  | sendHello (f : Frame)

structure Processed (N : Nghttp2) (M : Type) where
  main : Main N M
  calls : List (ApiCall M) := []
  exit : Exit := .done

variable {N : Nghttp2} {M : Type}

def createSettings (aAck : Bool) : Frame :=
  Frame.make .settings (if aAck then Flags.ackSettings else 0) 0 []

/-- The increment is always the default window; its bytes are the memory of the
word after `htobe32`. -/
def windowUpdateFrame (id : UInt32) : Frame :=
  let inc := byteSwap defaultWindowSize.toNat
  Frame.make .windowUpdate 0 id [digit inc 0, digit inc 1, digit inc 2, digit inc 3]

@[simp] theorem windowUpdateFrame_type (id : UInt32) :
    (windowUpdateFrame id).header.type = .windowUpdate := rfl

@[simp] theorem windowUpdateFrame_stream (id : UInt32) : (windowUpdateFrame id).stream = id := rfl

@[simp] theorem increment_windowUpdateFrame (id : UInt32) :
    increment (windowUpdateFrame id) = 65535 := rfl

/-- `send_window_update`: the buffer that is sent and the counter after it. -/
def sendWindowUpdate (id current : UInt32) : ApiCall M × UInt32 :=
  (.send (windowUpdateFrame id), current + defaultWindowSize)

namespace Main

def start (mode : Mode) : Main N M :=
  { stage := if mode = .client then .clientHello else .hello, inflater := N.inflateNew }

def hint (m : Main N M) : ℕ :=
  match m.stage with
  | .hello => preface.length
  | .header => Header.sizeOf
  | .body => m.header.size.toNat
  | .clientHello => 0
  | .clientWait => Header.sizeOf

def throws (m : Main N M) (what : String) : Processed N M := { main := m, exit := .thrown what }

def recvHello (m : Main N M) (aBuffer : Bytes) : Processed N M :=
  if aBuffer ≠ preface then m.throws "http2: invalid preface"
  else { main := { m with stage := .header }
         calls := [.send (createSettings false), .established] }

def recvHeader (m : Main N M) (aBuffer : Bytes) : Processed N M :=
  match Header.ofImage aBuffer with
  | none => m.throws "http2: not a frame header"
  | some h => { main := { m with header := h.toHost, stage := .body } }

/-- `push`: the message goes to the API and its entry goes away. -/
def push (m : Main N M) (id : UInt32) (message : M) : Processed N M :=
  { main := { m with info := m.info.erase id }, calls := [.processMessage id message] }

/-- `process_headers` behind the decompression. -/
def headersDone (m : Main N M) (id : UInt32) (info : Info M) (message : M) : Processed N M :=
  let noBody := info.noBody || m.header.has Flags.endStream
  let next := { m with info := m.info.insert id { info with message := some message, noBody } }
  if m.header.has Flags.endHeaders && noBody then next.push id message else { main := next }

def processHeaders (A : Messages M) (m : Main N M) : Processed N M :=
  let id := m.header.stream
  if id = 0 then m.throws "http2: zero stream id" else
    let info := m.info.getD id {}
    let (message, created) :=
      match info.message with
      | some message => (message, [])
      | none => (A.newMessage id, [ApiCall.newMessage id])
    let r := inflateFrame A m.inflater m.header m.body message
    let inflated := { m with inflater := r.inflater }
    match r.exit with
    | .done =>
        let done := inflated.headersDone id info r.message
        { done with calls := created ++ done.calls }
    | exit =>
        { main :=
            { inflated with info := m.info.insert id { info with message := some r.message } }
          calls := created
          exit := exit }

/-- A counter below the default window is topped up if `wanted` holds: the
update that is sent, if any, and the counter after it. -/
def topUp (id current : UInt32) (wanted : Bool) : List (ApiCall M) × UInt32 :=
  if current < defaultWindowSize && wanted then
    let r := sendWindowUpdate id current
    ([r.1], r.2)
  else ([], current)

/-- The accounting of `process_data` for an open stream: both counters go down
by the size of the body and each is topped up once it is below the default. -/
def account (m : Main N M) (id : UInt32) (info : Info M) (message : M) : Processed N M :=
  let more := !m.header.has Flags.endStream
  let n := UInt32.ofNat m.body.length
  let connection := topUp 0 (m.budget - n) true
  let stream := topUp id (info.budget - n) more
  let next : Main N M := { m with
    budget := connection.2
    info := m.info.insert id { info with message := some message, budget := stream.2 } }
  let last : Processed N M := if more then { main := next } else next.push id message
  { last with calls := connection.1 ++ stream.1 ++ last.calls }

def processData (A : Messages M) (debug : Bool) (m : Main N M) : Processed N M :=
  let id := m.header.stream
  if id = 0 then m.throws "http2: zero stream id" else
    match m.info[id]? with
    | none => m.throws "http2: stream not found"
    | some info =>
        if debug && m.budget.toNat < m.body.length then
          { main := m, exit := .aborted "m_Budget >= m_Body.size()" }
        else if debug && info.budget.toNat < m.body.length then
          { main := m, exit := .aborted "sInfo.budget >= m_Body.size()" }
        else
          match info.message with
          | none => { main := m, exit := .undefined }
          | some message => m.account id info (A.appendBody message m.body)

/-- The loop of `process_settings`. A setting takes six bytes, so the length of
the body is enough fuel. -/
def readSettings : ℕ → Imemstream → Except String Unit
  | 0, _ => .ok ()
  | fuel + 1, sData =>
      if sData.eof then .ok () else
        match sData.substring 6 with
        | .error e => .error e
        | .ok (_, sData) => readSettings fuel sData

def processSettings (m : Main N M) : Processed N M :=
  if m.header.flags ≠ 0 then { main := m } else
    match readSettings m.body.length { data := m.body } with
    | .error e => m.throws e
    | .ok () => { main := m, calls := [.send (createSettings true)] }

/-- The mask that should clear the reserved bit is wider than the increment and
leaves it as it is. -/
def processWindowUpdate (m : Main N M) : Processed N M :=
  match m.body with
  | [a, b, c, d] =>
      let inc := UInt32.ofNat (byteSwap (word a b c d) &&& 0x7FFFFFFFFFFFFFFF)
      { main := m, calls := [.windowUpdate m.header.stream inc] }
  | _ => m.throws "http2: invalid window update"

def processPacket (A : Messages M) (debug : Bool) (m : Main N M) : Processed N M :=
  match m.header.type with
  | .data => m.processData A debug
  | .headers => m.processHeaders A
  | .settings => m.processSettings
  | .windowUpdate => m.processWindowUpdate
  | .continuation => m.processHeaders A
  | _ => { main := m }

/-- The packet of a header and a body that were received; on success the parser
waits for the next header. -/
def packet (A : Messages M) (debug : Bool) (m : Main N M) (aBuffer : Bytes) : Processed N M :=
  let r := { m with body := aBuffer }.processPacket A debug
  if r.exit = .done then
    { r with main := { r.main with stage := .header, header := {}, body := [] } }
  else r

def recvBody (A : Messages M) (debug : Bool) (m : Main N M) (aBuffer : Bytes) : Processed N M :=
  if aBuffer.length ≠ m.header.size.toNat then m.throws "http2: not a frame body"
  else m.packet A debug aBuffer

def clientHello (m : Main N M) : Processed N M :=
  { main := { m with stage := .clientWait }, calls := [.sendHello (createSettings false)] }

def clientCheck (m : Main N M) (aBuffer : Bytes) : Processed N M :=
  let r := m.recvHeader aBuffer
  if r.exit ≠ .done then r
  else if r.main.header.type ≠ .settings then r.main.throws "http2: not a HTTP/2 peer"
  else { r with calls := r.calls ++ [.established] }

def process (A : Messages M) (debug : Bool) (m : Main N M) (aBuffer : Bytes) : Processed N M :=
  match m.stage with
  | .hello => m.recvHello aBuffer
  | .header => m.recvHeader aBuffer
  | .body => m.recvBody A debug aBuffer
  | .clientHello => m.clientHello
  | .clientWait => m.clientCheck aBuffer

/-! ## What the packets do -/

/-- Whether a counter that lost `n` bytes is topped up. -/
def Low (current : UInt32) (n : ℕ) : Prop := current.toNat - n < 65535

instance (current : UInt32) (n : ℕ) : Decidable (Low current n) :=
  inferInstanceAs (Decidable (_ < _))

theorem low_iff {current : UInt32} {n : ℕ} (h : n ≤ current.toNat) :
    current - UInt32.ofNat n < defaultWindowSize ↔ Low current n := by
  rw [UInt32.lt_iff_toNat_lt, toNat_sub_ofNat h, defaultWindowSize_toNat, Low]

theorem topUp_calls (id : UInt32) {current : UInt32} {n : ℕ} (h : n ≤ current.toNat)
    (wanted : Bool) :
    (topUp id (current - UInt32.ofNat n) wanted : List (ApiCall M) × UInt32).1 =
      if Low current n ∧ wanted then [.send (windowUpdateFrame id)] else [] := by
  have hlow := low_iff h
  by_cases hl : Low current n <;> cases wanted <;> simp [topUp, sendWindowUpdate, hl, hlow]

theorem topUp_counter (id : UInt32) {current : UInt32} {n : ℕ} (h : n ≤ current.toNat)
    (wanted : Bool) :
    (topUp id (current - UInt32.ofNat n) wanted : List (ApiCall M) × UInt32).2.toNat =
      current.toNat - n + if Low current n ∧ wanted then 65535 else 0 := by
  have hlow := low_iff h
  have hsub := toNat_sub_ofNat h
  by_cases hl : Low current n <;> cases wanted <;> simp [topUp, sendWindowUpdate, hl, hlow, hsub]
  unfold Low at hl
  omega

section Account
variable (m : Main N M) (id : UInt32) (d : Info M) (message : M)

@[simp] theorem account_exit : (m.account id d message).exit = .done := by
  unfold account
  dsimp only
  split_ifs <;> rfl

theorem account_budget :
    (m.account id d message).main.budget =
      (topUp 0 (m.budget - UInt32.ofNat m.body.length) true : List (ApiCall M) × UInt32).2 := by
  unfold account
  dsimp only
  split_ifs <;> rfl

theorem account_info (k : UInt32) :
    (m.account id d message).main.info[k]? =
      if id = k then
        if m.header.has Flags.endStream then none
        else some { d with
          message := some message
          budget := (topUp id (d.budget - UInt32.ofNat m.body.length) true :
            List (ApiCall M) × UInt32).2 }
      else m.info[k]? := by
  cases hend : m.header.has Flags.endStream <;>
    simp [account, push, hend, Std.TreeMap.getElem?_insert, Std.TreeMap.getElem?_erase]
  split_ifs <;> rfl

theorem account_calls :
    (m.account id d message).calls =
      (topUp 0 (m.budget - UInt32.ofNat m.body.length) true).1 ++
        if m.header.has Flags.endStream then [.processMessage id message]
        else (topUp id (d.budget - UInt32.ofNat m.body.length) true).1 := by
  cases hend : m.header.has Flags.endStream <;> simp [account, push, hend, topUp]

end Account

/-- The outcome of a DATA frame, by what the parser checks in order. -/
theorem processData_eq (A : Messages M) (debug : Bool) (m : Main N M) {d : Info M} {x : M}
    (hid : m.header.stream ≠ 0) (hd : m.info[m.header.stream]? = some d)
    (hx : d.message = some x) (hb : m.body.length ≤ m.budget.toNat)
    (hs : m.body.length ≤ d.budget.toNat) :
    m.processData A debug = m.account m.header.stream d (A.appendBody x m.body) := by
  have hb' : ¬ m.budget.toNat < m.body.length := by omega
  have hs' : ¬ d.budget.toNat < m.body.length := by omega
  simp [processData, hid, hd, hx, hb', hs']

/-- What a HEADERS frame leaves behind: the stream's entry, or the message
handed on and the entry gone. -/
inductive HeadersResult (m : Main N M) (r : Processed N M) : Prop
  | kept {created : List (ApiCall M)} {x : M} {noBody : Bool}
      (hcreated : ∀ c ∈ created, c = .newMessage m.header.stream)
      (hcalls : r.calls = created)
      (hinfo : r.main.info[m.header.stream]? =
        some ⟨some x, (m.info.getD m.header.stream {}).budget, noBody⟩)
      (hdone : r.exit = .done → noBody = ((m.info.getD m.header.stream {}).noBody ||
        m.header.has Flags.endStream) ∧ (m.header.has Flags.endHeaders && noBody) = false)
  | pushed {created : List (ApiCall M)} {x : M}
      (hcreated : ∀ c ∈ created, c = .newMessage m.header.stream)
      (hcalls : r.calls = created ++ [.processMessage m.header.stream x])
      (hinfo : r.main.info[m.header.stream]? = none) (hexit : r.exit = .done)
      (hflags : (m.header.has Flags.endHeaders && ((m.info.getD m.header.stream {}).noBody ||
        m.header.has Flags.endStream)) = true)

section Headers
variable (A : Messages M) (m : Main N M)

/-- The message a HEADERS frame adds to, and the call that creates it. -/
def headersMessage : M × List (ApiCall M) :=
  match (m.info.getD m.header.stream {}).message with
  | some message => (message, [])
  | none => (A.newMessage m.header.stream, [ApiCall.newMessage m.header.stream])

def headersInflated : InflateResult N M :=
  inflateFrame A m.inflater m.header m.body (m.headersMessage A).1

theorem processHeaders_eq (hid : m.header.stream ≠ 0) :
    m.processHeaders A =
      if (m.headersInflated A).exit = .done then
        let done := { m with inflater := (m.headersInflated A).inflater }.headersDone
          m.header.stream (m.info.getD m.header.stream {}) (m.headersInflated A).message
        { done with calls := (m.headersMessage A).2 ++ done.calls }
      else
        { main := { m with
            inflater := (m.headersInflated A).inflater
            info := m.info.insert m.header.stream { (m.info.getD m.header.stream {}) with
              message := some (m.headersInflated A).message } }
          calls := (m.headersMessage A).2
          exit := (m.headersInflated A).exit } := by
  unfold processHeaders
  rw [if_neg hid]
  change (match (m.headersInflated A).exit with
    | .done => _
    | exit => _) = _
  cases hexit : (m.headersInflated A).exit <;> rfl

theorem headersDone_exit (id : UInt32) (info : Info M) (x : M) :
    (m.headersDone id info x).exit = .done := by
  unfold headersDone
  dsimp only
  split_ifs <;> rfl

theorem processHeaders_exit :
    (m.processHeaders A).exit =
      if m.header.stream = 0 then .thrown "http2: zero stream id"
      else (m.headersInflated A).exit := by
  split_ifs with hid
  · simp [processHeaders, hid, throws]
  · rw [processHeaders_eq A m hid]
    split_ifs with hexit
    · rw [hexit]
      exact headersDone_exit _ _ _ _
    · rfl

theorem processHeaders_budget : (m.processHeaders A).main.budget = m.budget := by
  by_cases hid : m.header.stream = 0
  · simp [processHeaders, hid, throws]
  · rw [processHeaders_eq A m hid]
    unfold headersDone
    dsimp only
    split_ifs <;> rfl

theorem processHeaders_info_ne {k : UInt32} (hk : m.header.stream ≠ k) :
    (m.processHeaders A).main.info[k]? = m.info[k]? := by
  by_cases hid : m.header.stream = 0
  · simp [processHeaders, hid, throws]
  · rw [processHeaders_eq A m hid]
    unfold headersDone push
    dsimp only
    split_ifs <;> simp [Std.TreeMap.getElem?_insert, Std.TreeMap.getElem?_erase, hk]

theorem headersMessage_created :
    ∀ c ∈ (m.headersMessage A).2, c = .newMessage m.header.stream := by
  unfold headersMessage
  split <;> simp

theorem processHeaders_result (hid : m.header.stream ≠ 0) :
    HeadersResult m (m.processHeaders A) := by
  have hcreated := headersMessage_created A m
  rw [processHeaders_eq A m hid]
  split_ifs with hexit
  · cases hpush : m.header.has Flags.endHeaders && ((m.info.getD m.header.stream {}).noBody ||
        m.header.has Flags.endStream) with
    | true =>
        refine .pushed (x := (m.headersInflated A).message) hcreated ?_ ?_
          (headersDone_exit _ _ _ _) hpush <;>
          simp [headersDone, push, hpush]
    | false =>
        refine .kept (x := (m.headersInflated A).message) hcreated ?_ ?_ (fun _ => ⟨rfl, hpush⟩) <;>
          simp [headersDone, hpush]
  · exact .kept hcreated rfl Std.TreeMap.getElem?_insert_self (fun h => absurd h hexit)

/-- Behind the check of the stream id, only a pad length that is too large is
neither a success nor an exception. -/
theorem processHeaders_reported_iff (hlen : m.body.length < 2 ^ 24) :
    Exit.Reported (m.processHeaders A).exit ↔
      (m.header.stream ≠ 0 → ¬ Overpadded m.header m.body) := by
  rw [processHeaders_exit]
  split_ifs with hid
  · simp [hid, Exit.reported_thrown]
  · have hnone := inflateFrame_undefined_iff A m.inflater m.header m.body (m.headersMessage A).1
    rw [headerBlock_eq_none_iff _ hlen] at hnone
    have habort := inflateFrame_not_aborted A m.inflater m.header m.body (m.headersMessage A).1
    simp only [Exit.Reported, ne_eq, headersInflated, hnone, hid, not_false_eq_true, true_imp_iff]
    exact ⟨fun h => h.1, fun h => ⟨h, habort⟩⟩

end Headers
end Main
end Stuff.Http2Parser
