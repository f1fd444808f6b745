import Stuff.ContainerRequestQueue
import Mathlib.Data.Finset.Insert

/-!
# The event loop on epoll

`Util::EPoll` calls the handlers of descriptors. One whose `on_read` asks for a retry gets an entry
in a backlog, and its descriptor is remembered, so that there is one entry at a time. Handlers run
to their end one after another, and may insert, erase and schedule while they run; so each call and
each return is an event of its own.
-/
namespace Stuff.EPoll
open EventRuns ContainerRequestQueue

abbrev Fd := ℤ

/-- Handlers are numbered; the number of one that is gone does not come back. -/
abbrev HandlerPtr := ℕ

inductive Result
  | OK
  | RETRY
  | CLOSE
deriving DecidableEq, Repr

inductive Action
  | READ
  | TIMER (timer_id : ℤ)
deriving DecidableEq, Repr

/-- The pointer is a weak one. -/
structure Backlog where
  ptr : HandlerPtr
  action : Action
deriving DecidableEq, Repr

/-- The handler that is running. -/
inductive Call
  | idle
  /-- `on_write` in `process`, and whether `on_read` is to follow. -/
  | writing (aFd : Fd) (sFace : HandlerPtr) (aIn : Bool)
  /-- `on_read` in `process`. -/
  | reading (aFd : Fd) (sFace : HandlerPtr)
  /-- `on_error`, with the descriptor to clean up. -/
  | failing (aFd : Fd)
  /-- `on_read` in `on_backlog`. -/
  | retrying (sPtr : HandlerPtr)
  /-- `on_timer` in `on_backlog`. -/
  | timing (sPtr : HandlerPtr)
deriving DecidableEq, Repr

/-- `sList` is the local list of `RequestQueue::on_timer`, and `reads` are the calls of `on_read`
from the backlog so far. -/
structure State where
  m_Handlers : List (Fd × HandlerPtr) := []
  m_Retry : Finset Fd := ∅
  m_CleanupQueue : Finset Fd := ∅
  m_Backlog : RequestQueue Backlog := {}
  sList : List Backlog := []
  call : Call := .idle
  reads : List HandlerPtr := []

namespace State

def find (s : State) (aFd : Fd) : Option HandlerPtr :=
  (s.m_Handlers.find? fun x => x.1 = aFd).map Prod.snd

/-- Handlers that `m_Handlers` has are alive. -/
def Registered (s : State) (h : HandlerPtr) : Prop := ∃ x ∈ s.m_Handlers, x.2 = h

instance (s : State) (h : HandlerPtr) : Decidable (s.Registered h) :=
  inferInstanceAs (Decidable (∃ x ∈ s.m_Handlers, x.2 = h))

def insert (s : State) (aFd : Fd) (aHandler : HandlerPtr) : State :=
  { s with m_Handlers := s.m_Handlers ++ [(aFd, aHandler)] }

def erase (s : State) (aFd : Fd) : State :=
  { s with m_Handlers := s.m_Handlers.filter fun x => x.1 ≠ aFd }

def schedule (s : State) (b : Backlog) (aDelayMS sNow : UInt64) : State :=
  { s with m_Backlog := (s.m_Backlog.insert b aDelayMS sNow).2 }

/-- `process` up to the first handler. -/
def process (s : State) (aFd : Fd) (aHup aOut aIn : Bool) : State :=
  match s.find aFd with
  | none => s
  | some sFace =>
      if aHup then { s with call := .failing aFd }
      else if aOut then { s with call := .writing aFd sFace aIn }
      else if aIn then { s with call := .reading aFd sFace }
      else s

/-- The end of a handler; there is no result when it throws. `get_fd` is that of the handlers. -/
def returned (get_fd : HandlerPtr → Fd) (s : State) (sResult : Option Result) (sNow : UInt64) :
    State :=
  let sClose := sResult = some .CLOSE ∨ sResult = none
  match s.call with
  | .idle => s
  | .writing aFd sFace aIn =>
      if sClose then { s with call := .failing aFd }
      else if aIn then { s with call := .reading aFd sFace }
      else { s with call := .idle }
  | .reading aFd sFace =>
      if sClose then { s with call := .failing aFd }
      else if sResult = some .RETRY ∧ aFd ∉ s.m_Retry then
        { s.schedule ⟨sFace, .READ⟩ 0 sNow with
          m_Retry := Insert.insert aFd s.m_Retry
          call := .idle }
      else { s with call := .idle }
  | .failing aFd =>
      { s with m_CleanupQueue := Insert.insert aFd s.m_CleanupQueue, call := .idle }
  | .retrying sPtr =>
      match sResult with
      | some .RETRY => { s.schedule ⟨sPtr, .READ⟩ 0 sNow with call := .idle }
      | some .OK => { s with m_Retry := s.m_Retry.erase (get_fd sPtr), call := .idle }
      | some .CLOSE =>
          { s with m_Retry := s.m_Retry.erase (get_fd sPtr), call := .failing (get_fd sPtr) }
      | none => { s with call := .failing (get_fd sPtr) }
  | .timing sPtr =>
      if sClose then { s with call := .failing (get_fd sPtr) } else { s with call := .idle }

/-- `m_Backlog.on_timer` up to the first handler. -/
def onTimer (s : State) (sNow : UInt64) : State :=
  let x := s.m_Backlog.onTimer sNow
  { s with m_Backlog := x.2, sList := x.1.map Rec.value }

/-- `on_backlog` with the next entry of the list. -/
def onBacklog (s : State) (expired : Bool) : State :=
  match s.sList with
  | [] => s
  | aData :: sList =>
      if expired then { s with sList := sList }
      else
        match aData.action with
        | .READ =>
            { s with
              sList := sList
              call := .retrying aData.ptr
              reads := s.reads ++ [aData.ptr] }
        | .TIMER _ => { s with sList := sList, call := .timing aData.ptr }

/-- The end of `dispatch`. -/
def cleanup (s : State) : State :=
  { s with
    m_Handlers := s.m_Handlers.filter fun x => x.1 ∉ s.m_CleanupQueue
    m_CleanupQueue := ∅ }

end State

inductive Event
  | insert (aFd : Fd) (aHandler : HandlerPtr)
  | erase (aFd : Fd)
  | schedule (aPtr : HandlerPtr) (aDelayMS : UInt64) (aTimerID : ℤ) (sNow : UInt64)
  | process (aFd : Fd) (aHup aOut aIn : Bool)
  | returned (sResult : Option Result) (sNow : UInt64)
  | onTimer (sNow : UInt64)
  | onBacklog (expired : Bool)
  | cleanup
deriving DecidableEq

def step (get_fd : HandlerPtr → Fd) (s : State) : Event → State
  | .insert aFd aHandler => s.insert aFd aHandler
  | .erase aFd => s.erase aFd
  | .schedule aPtr aDelayMS aTimerID sNow => s.schedule ⟨aPtr, .TIMER aTimerID⟩ aDelayMS sNow
  | .process aFd aHup aOut aIn => s.process aFd aHup aOut aIn
  | .returned sResult sNow => s.returned get_fd sResult sNow
  | .onTimer sNow => s.onTimer sNow
  | .onBacklog expired => s.onBacklog expired
  | .cleanup => s.cleanup

/-- A descriptor is inserted once, and a handler does not expire while it is registered. The parts
of `dispatch` follow each other when no handler is running. -/
def Enabled (s : State) : Event → Prop
  | .insert aFd _ => s.find aFd = none
  | .erase _ => True
  | .schedule _ _ _ _ => True
  | .process _ _ _ _ => s.call = .idle ∧ s.sList = []
  | .returned _ _ => s.call ≠ .idle
  | .onTimer _ => s.call = .idle ∧ s.sList = []
  | .onBacklog expired =>
      s.call = .idle ∧ ∀ aData ∈ s.sList.head?, expired = true → ¬s.Registered aData.ptr
  | .cleanup => s.call = .idle ∧ s.sList = []

instance decidableEnabled (s : State) : (e : Event) → Decidable (Enabled s e)
  | .insert aFd _ => inferInstanceAs (Decidable (s.find aFd = none))
  | .erase _ => inferInstanceAs (Decidable True)
  | .schedule _ _ _ _ => inferInstanceAs (Decidable True)
  | .process _ _ _ _ => inferInstanceAs (Decidable (s.call = .idle ∧ s.sList = []))
  | .returned _ _ => inferInstanceAs (Decidable (s.call ≠ .idle))
  | .onTimer _ => inferInstanceAs (Decidable (s.call = .idle ∧ s.sList = []))
  | .onBacklog expired =>
      inferInstanceAs (Decidable (s.call = .idle ∧
        ∀ aData ∈ s.sList.head?, expired = true → ¬s.Registered aData.ptr))
  | .cleanup => inferInstanceAs (Decidable (s.call = .idle ∧ s.sList = []))

/-- The constructor inserts the handler of the event descriptor. -/
def start (eventFd : Fd) : State := { m_Handlers := [(eventFd, 0)] }

/-! ## Retries -/

namespace State

def readPtr (b : Backlog) : Option HandlerPtr :=
  match b.action with
  | .READ => some b.ptr
  | .TIMER _ => none

/-- The handlers with a READ entry, also the one that is under way. -/
def pending (s : State) : List HandlerPtr :=
  (match s.call with
    | .retrying sPtr => [sPtr]
    | _ => []) ++ s.sList.filterMap readPtr ++
    s.m_Backlog.store.filterMap fun r => readPtr r.value

/-- A descriptor is in `m_Retry` just when its handler has a READ entry. -/
def Synced (s : State) : Prop :=
  ∀ aFd, aFd ∈ s.m_Retry ↔ ∃ h, s.find aFd = some h ∧ h ∈ s.pending

end State

/-- The end of a handler keeps the two in step: a retry is asked for by the handler that is
registered, and only there; and when a retry is over, there was no exception, and the descriptor of
the handler is where it is registered. -/
def EndsInStep (get_fd : HandlerPtr → Fd) (s : State) (sResult : Option Result) : Call → Prop
  | .reading aFd sFace =>
      sResult = some .RETRY → aFd ∉ s.m_Retry →
        s.find aFd = some sFace ∧ ∀ x ∈ s.m_Handlers, x.2 = sFace → x.1 = aFd
  | .retrying sPtr =>
      sResult ≠ none ∧ (sResult ≠ some .RETRY → s.find (get_fd sPtr) = some sPtr)
  | _ => True

instance decidableEndsInStep (get_fd : HandlerPtr → Fd) (s : State) (sResult : Option Result) :
    (call : Call) → Decidable (EndsInStep get_fd s sResult call)
  | .reading aFd sFace =>
      inferInstanceAs (Decidable (sResult = some .RETRY → aFd ∉ s.m_Retry →
        s.find aFd = some sFace ∧ ∀ x ∈ s.m_Handlers, x.2 = sFace → x.1 = aFd))
  | .retrying sPtr =>
      inferInstanceAs (Decidable (sResult ≠ none ∧
        (sResult ≠ some .RETRY → s.find (get_fd sPtr) = some sPtr)))
  | .idle => inferInstanceAs (Decidable True)
  | .writing _ _ _ => inferInstanceAs (Decidable True)
  | .failing _ => inferInstanceAs (Decidable True)
  | .timing _ => inferInstanceAs (Decidable True)

/-- Handlers with an entry are neither erased nor inserted once more. -/
def InStep (get_fd : HandlerPtr → Fd) (s : State) : Event → Prop
  | .insert _ aHandler => aHandler ∉ s.pending
  | .erase aFd => aFd ∉ s.m_Retry
  | .cleanup => ∀ aFd ∈ s.m_CleanupQueue, aFd ∉ s.m_Retry
  | .returned sResult _ => EndsInStep get_fd s sResult s.call
  | _ => True

instance decidableInStep (get_fd : HandlerPtr → Fd) (s : State) :
    (e : Event) → Decidable (InStep get_fd s e)
  | .insert _ aHandler => inferInstanceAs (Decidable (aHandler ∉ s.pending))
  | .erase aFd => inferInstanceAs (Decidable (aFd ∉ s.m_Retry))
  | .cleanup => inferInstanceAs (Decidable (∀ aFd ∈ s.m_CleanupQueue, aFd ∉ s.m_Retry))
  | .returned sResult _ => inferInstanceAs (Decidable (EndsInStep get_fd s sResult s.call))
  | .schedule _ _ _ _ => inferInstanceAs (Decidable True)
  | .process _ _ _ _ => inferInstanceAs (Decidable True)
  | .onTimer _ => inferInstanceAs (Decidable True)
  | .onBacklog _ => inferInstanceAs (Decidable True)

end Stuff.EPoll
