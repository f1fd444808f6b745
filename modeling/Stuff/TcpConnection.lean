import Stuff.EPoll
import Stuff.MassClient

/-!
# A connection on the event loop

`Tcp::Connection` sends strings over a socket, at once or from a buffer, and hands the requests
that its parser finds to a handler, one after another. What the socket and the parser do is given
with the events. The handlers run between an event that calls and one that returns; `write` and
`notify` may be called at any time, from any thread, and calls of `write` take turns.
-/
namespace Stuff.TcpConnection
open EventRuns MachineWords
open EPoll (Result)
open MassClient (ECONNABORTED ENOTCONN ETIMEDOUT EINPROGRESS)

variable {Request : Type}

/-- The parameters of the class template. -/
structure P (Request : Type) where
  keep_alive : Request → Bool
  WRITE_BUFFER_SIZE : ℕ
  TASK_LIMIT : ℕ
  READ_BUFFER_SIZE : ℕ

/-- `httpd::Server` and `httpd::Client`; of a request, only whether it keeps the connection. -/
def httpd : P Bool where
  keep_alive := id
  WRITE_BUFFER_SIZE := 1 * 1024 * 1024
  TASK_LIMIT := 100
  READ_BUFFER_SIZE := 128 * 1024

inductive UserResult
  | DONE
  | ASYNC
  | CLOSE
deriving DecidableEq, Repr

/-- What `m_Socket.write` does. -/
inductive Sent
  | size (sSize : ℕ)
  | again
  | throws
deriving DecidableEq, Repr

/-- What `m_Socket.read` does, apart from EAGAIN, and with the bytes what the parser makes of them;
there is no `sUsed` when it throws. -/
inductive Received (Request : Type)
  | size (sSize : ℕ) (requests : List Request) (sUsed : Option ℕ)
  | eof
  | throws
deriving DecidableEq, Repr

/-- A request that was passed to the handler, what it returned, and whether `notify` was called. -/
structure Task (Request : Type) where
  request : Request
  sResult : Option UserResult := none
  notified : Bool := false
deriving DecidableEq, Repr

def Task.Finished (t : Task Request) : Prop :=
  t.sResult = some .DONE ∨ t.sResult = some .CLOSE ∨ t.sResult = some .ASYNC ∧ t.notified = true

/-- Where `process_request` returns to. -/
inductive Caller
  | on_read (sSize : ℤ)
  | posted
deriving DecidableEq, Repr

/-- The handler that is running on the thread of the event loop. -/
inductive Call
  | idle
  | request (caller : Caller)
  /-- The connect handler, with the timer or without. -/
  | connected (timer : Bool)
deriving DecidableEq, Repr

/-- What was posted to the event loop: the end of a request, or `erase`. -/
inductive Posted
  | done
  | erase
deriving DecidableEq, Repr

/-- `m_Incoming.count()` is the length of `produced`. The strings given to `write` and the bytes
that the socket took are recorded, and whether the last write of the socket was short; `timers` are
the write-out timers that are pending. -/
structure State (Request : Type) where
  m_Server : Bool
  m_Incoming : List Request := []
  m_Done : ℕ := 0
  m_Busy : Bool := false
  m_Error : Bool := false
  m_Closing : Bool := false
  m_Connected : ℕ
  m_WriteOut : Bytes := []
  timers : ℕ := 0
  external : List Posted := []
  call : Call := .idle
  /-- Of the last handler of the event loop. -/
  result : Result := .OK
  written : Bytes := []
  accepted : Bytes := []
  short : Bool := false
  produced : List Request := []
  tasks : List (Task Request) := []

namespace State

def queueSize (s : State Request) : ℕ := s.produced.length - s.m_Done

def self_close (s : State Request) : State Request :=
  { s with external := s.external ++ [.erase] }

def on_error (s : State Request) (get_error : ℕ) : State Request :=
  { s with
    m_Error := true
    m_Connected :=
      if s.m_Closing then ECONNABORTED
      else if s.m_Connected = 0 then get_error
      else s.m_Connected }

/-- A handler of the event loop returns, with `on_error` after CLOSE. -/
def ended (s : State Request) (sResult : Result) (get_error : ℕ) : State Request :=
  let t := { s with call := .idle, result := sResult }
  if sResult = .CLOSE then t.on_error get_error else t

/-! ## Sending -/

def connect (s : State Request) : State Request := { s with m_Connected := EINPROGRESS }

def write (s : State Request) (aData : Bytes) (aForceBuffer : Bool) (sent : Sent)
    (get_error : ℕ) : State Request :=
  let s := { s with written := s.written ++ aData }
  if s.m_Error then s
  else if s.m_WriteOut = [] then
    if aForceBuffer ∨ 1 < s.queueSize then
      { s with m_WriteOut := s.m_WriteOut ++ aData, timers := s.timers + 1 }
    else
      match sent with
      | .throws => (s.on_error get_error).self_close
      | .again =>
          { s with m_WriteOut := s.m_WriteOut ++ aData, timers := s.timers + 1, short := true }
      | .size sSize =>
          let s := { s with
            accepted := s.accepted ++ aData.take sSize
            short := decide (sSize < aData.length) }
          if sSize = aData.length then s
          else { s with m_WriteOut := s.m_WriteOut ++ aData.drop sSize, timers := s.timers + 1 }
  else { s with m_WriteOut := s.m_WriteOut ++ aData }

def on_write (s : State Request) (sent : Sent) (get_error : ℕ) : State Request :=
  if s.m_Connected = EINPROGRESS then
    { s with m_Connected := get_error, call := .connected false }
  else if s.m_Error then s.ended .CLOSE get_error
  else if s.m_WriteOut = [] then s.ended .OK get_error
  else
    match sent with
    | .throws => s.ended .CLOSE get_error
    | .again => { s with short := true }.ended .OK get_error
    | .size sSize =>
        let s := { s with
          accepted := s.accepted ++ s.m_WriteOut.take sSize
          m_WriteOut := s.m_WriteOut.drop sSize
          short := decide (sSize < s.m_WriteOut.length) }
        if s.m_WriteOut = [] ∧ s.m_Closing ∧ !s.m_Busy then s.ended .CLOSE get_error
        else s.ended .OK get_error

/-- With the timer of `write`. -/
def on_timer (s : State Request) (sent : Sent) (get_error : ℕ) : State Request :=
  { s with timers := s.timers - 1 }.on_write sent get_error

/-- With the timer of `connect`. -/
def on_timer_connecting (s : State Request) (get_error : ℕ) : State Request :=
  if s.m_Connected = EINPROGRESS then
    { s with m_Connected := ETIMEDOUT, call := .connected true }
  else s.ended .OK get_error

/-- The connect handler returns. -/
def connected (s : State Request) (get_error : ℕ) : State Request :=
  match s.call with
  | .connected timer =>
      s.ended (if timer = false ∧ s.m_Connected = 0 then .OK else .CLOSE) get_error
  | _ => s

/-! ## Requests -/

/-- The end of `on_read`. -/
def readEnd (p : P Request) (s : State Request) (sSize : ℤ) (get_error : ℕ) : State Request :=
  if s.m_Closing ∧ !s.m_Busy ∧ s.m_WriteOut = [] then s.ended .CLOSE get_error
  else s.ended (if sSize < p.READ_BUFFER_SIZE then .OK else .RETRY) get_error

/-- `process_request` returns. -/
def leave (p : P Request) (s : State Request) (caller : Caller) (get_error : ℕ) :
    State Request :=
  match caller with
  | .on_read sSize => s.readEnd p sSize get_error
  | .posted => { s with call := .idle }

/-- A turn of the loop of `process_request`, up to the handler. -/
def next (p : P Request) (s : State Request) (caller : Caller) (get_error : ℕ) : State Request :=
  match s.m_Incoming with
  | [] =>
      let s := { s with m_Busy := false }
      let s := if s.m_Closing ∧ s.m_WriteOut = [] then s.self_close else s
      s.leave p caller get_error
  | sItem :: m_Incoming =>
      { s with
        m_Incoming
        m_Closing := s.m_Closing || !p.keep_alive sItem
        call := .request caller
        tasks := s.tasks ++ [{ request := sItem }] }

def process_request (p : P Request) (s : State Request) (caller : Caller) (get_error : ℕ) :
    State Request :=
  if s.m_Error then s.leave p caller get_error
  else { s with m_Busy := true }.next p caller get_error

/-- The handler returns. -/
def returned (p : P Request) (s : State Request) (sResult : UserResult) (get_error : ℕ) :
    State Request :=
  match s.call with
  | .request caller =>
      let s := { s with
        tasks := s.tasks.modify (s.tasks.length - 1) fun t => { t with sResult := some sResult } }
      match sResult with
      | .ASYNC => s.leave p caller get_error
      | .CLOSE => { s with m_Closing := true, m_Done := s.m_Done + 1 }.next p caller get_error
      | .DONE => { s with m_Done := s.m_Done + 1 }.next p caller get_error
  | _ => s

/-- For the task `i`. -/
def notify (s : State Request) (i : ℕ) (sResult : UserResult) : State Request :=
  if sResult = .ASYNC then s
  else
    { s with
      m_Closing := s.m_Closing || decide (sResult = .CLOSE)
      external := s.external ++ [.done]
      tasks := s.tasks.modify i fun t => { t with notified := true } }

/-- The next function that was posted. -/
def posted (p : P Request) (s : State Request) (get_error : ℕ) : State Request :=
  match s.external with
  | [] => s
  | .erase :: external => { s with external }
  | .done :: external =>
      { s with external, m_Done := s.m_Done + 1 }.process_request p .posted get_error

/-- The loop of `on_read`, with the last size; there is none when it returns CLOSE or throws. -/
def readLoop (p : P Request) (sQueueSize : ℕ) :
    List (Received Request) → State Request → State Request × Option ℤ
  | [], s => (s, some (-1))
  | .eof :: _, s => (s, none)
  | .throws :: _, s => (s, none)
  | .size sSize requests sUsed :: received, s =>
      let t := { s with
        m_Incoming := s.m_Incoming ++ requests
        produced := s.produced ++ requests }
      match sUsed with
      | none => (t, none)
      | some sUsed =>
          if sUsed < sSize then (t, none)
          else if sQueueSize + p.TASK_LIMIT < t.produced.length then (t, some sSize)
          else readLoop p sQueueSize received t

def on_read (p : P Request) (s : State Request) (received : List (Received Request))
    (get_error : ℕ) : State Request :=
  if s.m_Error then s.ended .CLOSE get_error
  else if s.m_Closing then s.ended .OK get_error
  else if p.TASK_LIMIT < s.queueSize ∨
      s.m_Server = true ∧ p.WRITE_BUFFER_SIZE < s.m_WriteOut.length then s.ended .RETRY get_error
  else
    match readLoop p s.queueSize received s with
    | (t, none) => t.ended .CLOSE get_error
    | (t, some sSize) =>
        if t.m_Busy = false ∧ t.m_Incoming ≠ [] then
          t.process_request p (.on_read sSize) get_error
        else t.readEnd p sSize get_error

end State

/-! ## Events -/

inductive Event (Request : Type)
  | connect
  | write (aData : Bytes) (aForceBuffer : Bool) (sent : Sent) (get_error : ℕ)
  | on_write (sent : Sent) (get_error : ℕ)
  | on_timer (sent : Sent) (get_error : ℕ)
  | on_timer_connecting (get_error : ℕ)
  | connected (get_error : ℕ)
  | on_read (received : List (Received Request)) (get_error : ℕ)
  | returned (sResult : UserResult) (get_error : ℕ)
  | notify (i : ℕ) (sResult : UserResult)
  | posted (get_error : ℕ)
  | on_error (get_error : ℕ)
deriving DecidableEq

def step (p : P Request) (s : State Request) : Event Request → State Request
  | .connect => s.connect
  | .write aData aForceBuffer sent get_error => s.write aData aForceBuffer sent get_error
  | .on_write sent get_error => s.on_write sent get_error
  | .on_timer sent get_error => s.on_timer sent get_error
  | .on_timer_connecting get_error => s.on_timer_connecting get_error
  | .connected get_error => s.connected get_error
  | .on_read received get_error => s.on_read p received get_error
  | .returned sResult get_error => s.returned p sResult get_error
  | .notify i sResult => s.notify i sResult
  | .posted get_error => s.posted p get_error
  | .on_error get_error => s.on_error get_error

/-- The socket does not take more than it is given. -/
def Sent.AtMost (size : ℕ) : Sent → Prop
  | .size sSize => sSize ≤ size
  | _ => True

instance (size : ℕ) : (sent : Sent) → Decidable (sent.AtMost size)
  | .size sSize => inferInstanceAs (Decidable (sSize ≤ size))
  | .again => inferInstanceAs (Decidable True)
  | .throws => inferInstanceAs (Decidable True)

/-- The task may be notified: the handler runs, or has returned ASYNC. -/
def Task.Open (t : Task Request) : Prop :=
  t.notified = false ∧ (t.sResult = none ∨ t.sResult = some .ASYNC)

instance (t : Task Request) : Decidable t.Open :=
  inferInstanceAs (Decidable (t.notified = false ∧ (t.sResult = none ∨ t.sResult = some .ASYNC)))

/-- The event loop calls its handlers one after another. A task that is notified is the one of a
handler that returns ASYNC, and this comes once. -/
def Enabled (s : State Request) : Event Request → Prop
  | .connect => True
  | .write aData _ sent _ => sent.AtMost aData.length
  | .on_write sent _ => s.call = .idle ∧ sent.AtMost s.m_WriteOut.length
  | .on_timer sent _ => s.call = .idle ∧ 0 < s.timers ∧ sent.AtMost s.m_WriteOut.length
  | .on_timer_connecting _ => s.call = .idle
  | .connected _ => True
  | .on_read _ _ => s.call = .idle
  | .returned sResult _ =>
      ∀ t ∈ s.tasks.getLast?, t.notified = true → sResult = .ASYNC
  | .notify i sResult => sResult = .ASYNC ∨ ∃ t ∈ s.tasks[i]?, t.Open
  | .posted _ => s.call = .idle
  | .on_error _ => s.call = .idle

instance decidableEnabled (s : State Request) : (e : Event Request) → Decidable (Enabled s e)
  | .connect => inferInstanceAs (Decidable True)
  | .write aData _ sent _ => inferInstanceAs (Decidable (sent.AtMost aData.length))
  | .on_write sent _ =>
      inferInstanceAs (Decidable (s.call = .idle ∧ sent.AtMost s.m_WriteOut.length))
  | .on_timer sent _ =>
      inferInstanceAs (Decidable (s.call = .idle ∧ 0 < s.timers ∧
        sent.AtMost s.m_WriteOut.length))
  | .on_timer_connecting _ => inferInstanceAs (Decidable (s.call = .idle))
  | .connected _ => inferInstanceAs (Decidable True)
  | .on_read _ _ => inferInstanceAs (Decidable (s.call = .idle))
  | .returned sResult _ =>
      inferInstanceAs (Decidable (∀ t ∈ s.tasks.getLast?, t.notified = true → sResult = .ASYNC))
  | .notify i sResult =>
      inferInstanceAs (Decidable (sResult = .ASYNC ∨ ∃ t ∈ s.tasks[i]?, t.Open))
  | .posted _ => inferInstanceAs (Decidable (s.call = .idle))
  | .on_error _ => inferInstanceAs (Decidable (s.call = .idle))

/-- Of a server, or of a client that is not connected. -/
def start (m_Server : Bool) : State Request :=
  { m_Server, m_Connected := if m_Server then 0 else ENOTCONN }

end Stuff.TcpConnection
