import Stuff.CborRoundTrip
import Stuff.KvBatchClient
import Stuff.Linearization
import Mathlib.Logic.Function.Basic

/-!
# Clients and the server of the key-value store

`KV::Server` keeps the values in a map and answers the requests of one HTTP request in their order.
The bodies are lists in CBOR of keys with an optional value. Any number of `KV::BatchClient`
objects send requests. The server handles an HTTP request once, at any time after it was sent; the
client gets the answer later, or an error, also if the request was handled or will be.
-/
namespace Stuff.KvServer
open MachineWords ByteSources Cbor ContainerStream KvBatchClient Linearization

/-! ## The bodies -/

/-- `cbor_read` and `cbor_write` of a request and of a response. -/
abbrev recordTy : Ty .elements := .cons .string (.cons (.optional .string) .nil)

/-- The `max_size` of the types. -/
structure Limits where
  maxSize : Ty .type → ℕ
  requests : ℕ

def readRecords {σ : Type} (I : Istream σ) (limits : Limits) : Parser σ (List (Val recordTy)) := do
  let mt ← readSize I cborList
  resize limits.requests mt
  readN (read I limits.maxSize recordTy) mt

def writeRecords (l : List (Val recordTy)) : Bytes := writeAll cborList (write recordTy) l

def requestRecord (x : Request) : Val recordTy := (x.key, x.value, ())

def requestOf (v : Val recordTy) : Request := { key := v.1, value := v.2.1 }

def responseRecord (x : Response) : Val recordTy := (x.key, x.value, ())

def responseOf (v : Val recordTy) : Response := { key := v.1, value := v.2.1 }

/-- `str()` of the stream. A string that would be longer than it can be throws. -/
def str (limits : Limits) (bs : Bytes) : Except String Bytes :=
  if bs.length ≤ limits.maxSize .string then .ok bs else .error "length_error"

def fromBody (limits : Limits) (body : Bytes) : Except String (List (Val recordTy)) :=
  (readRecords imemstream limits { data := body }).map Prod.fst

/-! ## The server -/

abbrev Data := Bytes → Option Bytes

def get (m_Data : Data) (aRequest : Request) : Response :=
  { key := aRequest.key, value := m_Data aRequest.key }

def set (m_Data : Data) (aRequest : Request) (value : Bytes) : Data × Response :=
  (Function.update m_Data aRequest.key (some value), { key := aRequest.key })

/-- The turn of the loop. -/
def apply (m_Data : Data) (x : Request) : Data × Response :=
  match x.value with
  | some value => set m_Data x value
  | none => (m_Data, get m_Data x)

/-- The loop over the requests. -/
def applyAll : Data → List Request → Data × List Response
  | m_Data, [] => (m_Data, [])
  | m_Data, x :: sRequests =>
      let sNext := applyAll (apply m_Data x).1 sRequests
      (sNext.1, (apply m_Data x).2 :: sNext.2)

structure HttpResponse where
  result : ℕ
  body : Bytes := []

/-- The handler of `/kv`. An exception behind the loop leaves what the loop has done. -/
def handler (limits : Limits) (m_Data : Data) (post : Bool) (body : Bytes) :
    Data × Except String HttpResponse :=
  if post then
    match fromBody limits body with
    | .error e => (m_Data, .error e)
    | .ok l =>
        let sNext := applyAll m_Data (l.map requestOf)
        (sNext.1, (str limits (writeRecords (sNext.2.map responseRecord))).map fun sOutput =>
          { result := 200, body := sOutput })
  else (m_Data, .ok { result := 405 })

/-! ## The clients -/

/-- The body of `Client::Call`. -/
def Client.body (limits : Limits) (aRequests : List Request) : Except String Bytes :=
  str limits (writeRecords (aRequests.map requestRecord))

/-- `Client::Call` behind `perform`. Without a result it throws. -/
def Client.result (limits : Limits) (sResult : Except String HttpResponse) :
    Option (List Response) :=
  match sResult with
  | .error _ => none
  | .ok sResult =>
      if sResult.result ≠ 200 then none
      else (fromBody limits sResult.body).toOption.map fun l => l.map responseOf

/-! ## All of them -/

/-- A call is known by its client and its place there, an HTTP request by its client and its
batch. The history has the requests in the order in which the server has taken them. -/
structure System where
  m_Data : Data := fun _ => none
  clients : List BatchClient
  replies : ℕ × ℕ → Option (Except String HttpResponse) := fun _ => none
  log : List (Entry (ℕ × ℕ) Request Response) := []

/-- The requests that the loop takes, by the calls that made them. -/
def entries (c : ℕ) : Data → List (ℕ × Request) → List (Entry (ℕ × ℕ) Request Response)
  | _, [] => []
  | m_Data, (i, x) :: l => ⟨(c, i), x, (apply m_Data x).2⟩ :: entries c (apply m_Data x).1 l

/-- The server handles the HTTP request of a batch. -/
def System.serve (limits : Limits) (s : System) (c b : ℕ) (info : List ℕ) (sBody : Bytes) :
    System :=
  let sTaken := ((fromBody limits sBody).toOption.getD []).map requestOf
  let sNext := handler limits s.m_Data true sBody
  { s with
    m_Data := sNext.1
    replies := Function.update s.replies (c, b) (some sNext.2)
    log := s.log ++ entries c s.m_Data (info.zip sTaken) }

/-- What is on its way to the server: the calls of the batch and the body. -/
def System.request (limits : Limits) (s : System) (c b : ℕ) : Option (List ℕ × Bytes) := do
  let client ← s.clients[c]?
  let sBatch ← client.batches[b]?
  let sRequests ← client.sent.lookup b
  let sBody ← (Client.body limits sRequests).toOption
  return (sBatch.info, sBody)

inductive Event
  | client (c : ℕ) (e : KvBatchClient.Event)
  | serves (c b : ℕ)
  | fails (c b : ℕ)

/-- A step of a client to which the HTTP call of a batch gives this answer. -/
def System.moves (batch_size : ℕ → ℕ) (s : System) (c : ℕ) (answer : Option (List Response))
    (e : KvBatchClient.Event) : System :=
  { s with clients := s.clients.modify c fun client =>
      KvBatchClient.step (batch_size c) (fun _ _ => answer) client e }

def step (limits : Limits) (batch_size : ℕ → ℕ) (s : System) : Event → System
  | .client c (.completes b) =>
      match s.replies (c, b) with
      | none => s
      | some sResult => s.moves batch_size c (Client.result limits sResult) (.completes b)
  | .client c e => s.moves batch_size c none e
  | .serves c b =>
      match s.replies (c, b), s.request limits c b with
      | none, some (info, sBody) => s.serve limits c b info sBody
      | _, _ => s
  | .fails c b => s.moves batch_size c none (.completes b)

/-- The calls that were made, with their requests, and those that have returned. -/
def System.view (s : System) : View (ℕ × ℕ) Request Response where
  invoked i := do
    let client ← s.clients[i.1]?
    let call ← client.calls[i.2]?
    return call.info.request
  returned i := do
    let client ← s.clients[i.1]?
    let call ← client.calls[i.2]?
    match call.pc with
    | .returned y => some y
    | _ => none

end Stuff.KvServer
