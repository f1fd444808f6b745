import Stuff.EventRuns
import Stuff.MachineWords
import Mathlib.Logic.Function.Basic

/-!
# A client with one queue for its connections

`httpd::MassClient` answers its queries in the order of one queue, whatever connection a
response comes from. Queries are inserted by any thread; the connections and the timer run on the
thread of the `EPoll`, which can be stopped between any two of its accesses to what it shares with
`insert`.
-/
namespace Stuff.MassClient
open EventRuns MachineWords

def ECONNABORTED : ℕ := 103
def ENOTCONN : ℕ := 107
def ETIMEDOUT : ℕ := 110
def EINPROGRESS : ℕ := 115

/-- Queries are numbered as they are inserted. -/
structure Query where
  id : ℕ
  request : Bytes
deriving DecidableEq, Repr

structure XQuery extends Query where
  deadline : ℕ
deriving DecidableEq, Repr

/-- A call of a query's callback. A response answers the request of one of the queries. -/
structure Callback where
  query : ℕ
  aCode : ℕ
  answers : Option ℕ
deriving DecidableEq, Repr

/-- `queries` are those that were inserted for the connection, and `ready` says that its connect
handler was called with 0 while it was `m_Connection`; the program has neither. -/
structure Connection where
  m_Connected : ℕ := ENOTCONN
  m_Error : Bool := false
  m_Closing : Bool := false
  written : List Query := []
  answered : ℕ := 0
  queries : List Query := []
  ready : Bool := false
deriving DecidableEq, Repr

/-- `Connection::write`; how the bytes leave is not looked at. -/
def Connection.write (c : Connection) (q : Query) : Connection :=
  if c.m_Error then c else { c with written := c.written ++ [q] }

/-- The server answers one more request. -/
def Connection.answer (c : Connection) (keep_alive : Bool) : Connection :=
  { c with m_Closing := c.m_Closing || !keep_alive, answered := c.answered + 1 }

/-- `m_Connected` after `on_error`. -/
def Connection.errorStatus (c : Connection) (get_error : ℕ) : ℕ :=
  if c.m_Closing then ECONNABORTED else if c.m_Connected = 0 then get_error else c.m_Connected

/-- Where the thread of the `EPoll` is. -/
inductive Thread
  | idle
  /-- `m_Connected` is set, and the connect handler is next. -/
  | connected (c aCode : ℕ)
  /-- In `on_error`, with `m_Error` set. -/
  | failing (c : ℕ)
  /-- In `on_error`, with `m_Connected` set and the connect handler next. -/
  | failed (c aCode : ℕ)
deriving DecidableEq, Repr

/-- The connection whose connect handler is next, with the code 0. -/
def Thread.succeeds : Thread → Option ℕ
  | .connected c aCode => if aCode = 0 then some c else none
  | .failed c aCode => if aCode = 0 then some c else none
  | _ => none

structure State where
  timeout_ms : ℕ
  m_Connection : Option ℕ := none
  m_Queue : List XQuery := []
  m_TimerStarted : Bool := false
  m_QueueWritten : Bool := false
  connections : ℕ → Connection := fun _ => {}
  made : ℕ := 0
  inserted : ℕ := 0
  callbacks : List Callback := []
  epoll : Thread := .idle

namespace State

def modify (s : State) (c : ℕ) (f : Connection → Connection) : State :=
  { s with connections := Function.update s.connections c (f (s.connections c)) }

/-- `m_Connection->write`; the pointer is not null where this is called. -/
def write (s : State) (q : Query) : State :=
  match s.m_Connection with
  | none => s
  | some c => s.modify c (·.write q)

def flushI (s : State) (aCode : ℕ) : State :=
  { s with
    callbacks := s.callbacks ++ s.m_Queue.map fun x => ⟨x.id, aCode, none⟩
    m_Queue := [] }

def onTimer (s : State) (sNow : ℕ) : State :=
  match s.m_Queue with
  | [] => { s with m_TimerStarted := false }
  | x :: _ =>
      if x.deadline ≤ sNow then
        { s.flushI ETIMEDOUT with m_Connection := none, m_TimerStarted := false }
      else s

/-- `notify(const Response&)` -/
def notifyResponse (s : State) (answers : ℕ) : State :=
  match s.m_Queue with
  | [] => s
  | x :: m_Queue =>
      { s with
        m_Queue := m_Queue
        callbacks := s.callbacks ++ [⟨x.id, 0, some answers⟩] }

/-- `notify(int)` -/
def notifyCode (s : State) (aCode : ℕ) : State :=
  if aCode = 0 then
    { s.m_Queue.foldl (fun s x => s.write x.toQuery) s with m_QueueWritten := true }
  else { s.flushI aCode with m_Connection := none }

def initiateI (s : State) : State :=
  { s with
    connections := Function.update s.connections s.made { m_Connected := EINPROGRESS }
    m_Connection := some s.made
    made := s.made + 1 }

/-- The status that `insert` reads. -/
def sStatus (s : State) : ℕ :=
  match s.m_Connection with
  | none => ENOTCONN
  | some c => (s.connections c).m_Connected

/-- The query belongs to the connection there is now. -/
def assign (s : State) (q : Query) : State :=
  match s.m_Connection with
  | none => s
  | some c => s.modify c fun x => { x with queries := x.queries ++ [q] }

def insert (s : State) (sNow : ℕ) (request : Bytes) : State :=
  let q : Query := { id := s.inserted, request := request }
  let t := if s.sStatus ≠ 0 ∧ s.sStatus ≠ EINPROGRESS then s.initiateI else s
  let t := if s.sStatus = 0 ∧ s.m_QueueWritten then t.write q else t
  { t.assign q with
    m_TimerStarted := true
    m_Queue := s.m_Queue ++ [{ q with deadline := sNow + s.timeout_ms }]
    inserted := s.inserted + 1 }

/-- The connect handler, and what the caller does after it. -/
def handler (s : State) : State :=
  match s.epoll with
  | .connected c aCode =>
      let t := s.notifyCode aCode
      if aCode = 0 then
        let ready := s.m_Connection = some c
        { t.modify c fun x => { x with ready := x.ready || ready } with epoll := .idle }
      else { t.modify c fun x => { x with m_Error := true } with epoll := .failing c }
  | .failed _ aCode => { s.notifyCode aCode with epoll := .idle }
  | _ => s

end State

inductive Event
  | insert (sNow : ℕ) (request : Bytes)
  | timer (sNow : ℕ)
  /-- `on_write`, or `on_timer` with the time over, while the connection is in progress. -/
  | connecting (c get_error : ℕ)
  | handler
  /-- `on_error` begins. -/
  | error (c : ℕ)
  | status (get_error : ℕ)
  /-- The next answer of the server on the connection. -/
  | response (c : ℕ) (keep_alive : Bool)
deriving DecidableEq, Repr

/-- What may come. An error of a socket is never that it is in progress. -/
def Enabled (s : State) : Event → Prop
  | .insert _ _ => True
  | .timer _ => s.epoll = .idle
  | .connecting c get_error =>
      s.epoll = .idle ∧ c < s.made ∧ (s.connections c).m_Connected = EINPROGRESS ∧
        get_error ≠ EINPROGRESS
  | .handler => s.epoll ≠ .idle
  | .error c => s.epoll = .idle ∧ c < s.made
  | .status get_error => get_error ≠ EINPROGRESS
  | .response c _ =>
      s.epoll = .idle ∧ c < s.made ∧ (s.connections c).m_Error = false ∧
        (s.connections c).answered < (s.connections c).written.length

instance decidableEnabled (s : State) : (e : Event) → Decidable (Enabled s e)
  | .insert _ _ => inferInstanceAs (Decidable True)
  | .timer _ => inferInstanceAs (Decidable (s.epoll = .idle))
  | .connecting c get_error =>
      inferInstanceAs (Decidable (s.epoll = .idle ∧ c < s.made ∧
        (s.connections c).m_Connected = EINPROGRESS ∧ get_error ≠ EINPROGRESS))
  | .handler => inferInstanceAs (Decidable (s.epoll ≠ .idle))
  | .error c => inferInstanceAs (Decidable (s.epoll = .idle ∧ c < s.made))
  | .status get_error => inferInstanceAs (Decidable (get_error ≠ EINPROGRESS))
  | .response c _ =>
      inferInstanceAs (Decidable (s.epoll = .idle ∧ c < s.made ∧
        (s.connections c).m_Error = false ∧
        (s.connections c).answered < (s.connections c).written.length))

def step (s : State) : Event → State
  | .insert sNow request => s.insert sNow request
  | .timer sNow => s.onTimer sNow
  | .connecting c get_error =>
      { s.modify c fun x => { x with m_Connected := get_error } with
        epoll := .connected c get_error }
  | .handler => s.handler
  | .error c => { s.modify c fun x => { x with m_Error := true } with epoll := .failing c }
  | .status get_error =>
      match s.epoll with
      | .failing c =>
          let m_Connected := (s.connections c).errorStatus get_error
          { s.modify c fun x => { x with m_Connected := m_Connected } with
            epoll := .failed c m_Connected }
      | _ => s
  | .response c keep_alive =>
      let x := s.connections c
      match x.written[x.answered]? with
      | none => s
      | some q => (s.modify c (·.answer keep_alive)).notifyResponse q.id

def start (timeout_ms : ℕ) : State := { timeout_ms := timeout_ms }

/-! ## What a run must avoid -/

/-- An insert may not find the status of a connection 0 whose connect handler is still to come,
with the flag of an earlier connection; and what comes late from another connection must have
nothing to work on. -/
def Timely (s : State) : Event → Prop
  | .insert _ _ => ∀ c ∈ s.m_Connection, s.epoll = .connected c 0 → s.m_QueueWritten = false
  | .handler =>
      ∀ c ∈ s.epoll.succeeds, s.m_Queue = [] ∨ s.m_Connection = some c ∨
        ∃ d ∈ s.m_Connection, (s.connections d).m_Error = true
  | .response c _ =>
      s.m_Queue = [] ∨ s.m_Connection = some c ∨
        ∃ d ∈ s.m_Connection, (s.connections d).m_Connected = 0
  | _ => True

instance decidableTimely (s : State) : (e : Event) → Decidable (Timely s e)
  | .insert _ _ =>
      inferInstanceAs (Decidable (∀ c ∈ s.m_Connection,
        s.epoll = .connected c 0 → s.m_QueueWritten = false))
  | .handler =>
      inferInstanceAs (Decidable (∀ c ∈ s.epoll.succeeds, s.m_Queue = [] ∨
        s.m_Connection = some c ∨ ∃ d ∈ s.m_Connection, (s.connections d).m_Error = true))
  | .response c _ =>
      inferInstanceAs (Decidable (s.m_Queue = [] ∨ s.m_Connection = some c ∨
        ∃ d ∈ s.m_Connection, (s.connections d).m_Connected = 0))
  | .timer _ | .connecting _ _ | .error _ | .status _ => inferInstanceAs (Decidable True)

/-- No response comes late to a queue with a query. -/
def Current (s : State) : Event → Prop
  | .response c _ => s.m_Queue = [] ∨ s.m_Connection = some c
  | _ => True

instance decidableCurrent (s : State) : (e : Event) → Decidable (Current s e)
  | .response c _ => inferInstanceAs (Decidable (s.m_Queue = [] ∨ s.m_Connection = some c))
  | .insert _ _ | .timer _ | .connecting _ _ | .handler | .error _ | .status _ =>
      inferInstanceAs (Decidable True)

/-- No query is inserted for a connection that has failed with the status 0. -/
def Alive (s : State) : Event → Prop
  | .insert _ _ =>
      ∀ c ∈ s.m_Connection, (s.connections c).m_Connected = 0 → (s.connections c).m_Error = false
  | _ => True

instance decidableAlive (s : State) : (e : Event) → Decidable (Alive s e)
  | .insert _ _ =>
      inferInstanceAs (Decidable (∀ c ∈ s.m_Connection, (s.connections c).m_Connected = 0 →
        (s.connections c).m_Error = false))
  | .timer _ | .connecting _ _ | .handler | .error _ | .status _ | .response _ _ =>
      inferInstanceAs (Decidable True)

/-! ## The two properties -/

/-- A response goes to the query whose request it answers. -/
def Matched (s : State) : Prop := ∀ x ∈ s.callbacks, x.aCode = 0 → x.answers = some x.query

/-- The requests written to a connection are the queries of its queue: none before its connect
handler is called, and all of them since. -/
def WritesOnce (s : State) : Prop :=
  ∀ c, (s.connections c).written =
    if (s.connections c).ready then (s.connections c).queries else []

end Stuff.MassClient
