import Stuff.Http2Accounts
import Stuff.Http2Parser

/-!
# Two endpoints and the channels between them

Each endpoint runs both halves: an `Output` with its coroutine, and a parser
whose API calls go to that output. What the coroutine hands to the socket is
appended to the channel; a delivery takes the first frame of a channel and
gives header and payload to the parser, as the read loop does. The channels
carry whole frames. An exception out of the parser ends the read loop.
-/
namespace Stuff.Http2Net
open MachineWords Http2Frames Http2Hpack Http2Output Http2Accounts Http2Parser EventRuns

variable {N : Nghttp2} {M : Type}

inductive Side
  | client
  | server
deriving DecidableEq, Repr

namespace Side

def other : Side → Side
  | client => server
  | server => client

@[simp] theorem other_other (x : Side) : x.other.other = x := by cases x <;> rfl

@[simp] theorem other_ne (x : Side) : x.other ≠ x := by cases x <;> decide

@[simp] theorem ne_other (x : Side) : x ≠ x.other := by cases x <;> decide

theorem eq_or_eq_other (x y : Side) : y = x ∨ y = x.other := by
  cases x <;> cases y <;> simp [other]

end Side

structure Endpoint (N : Nghttp2) (M : Type) where
  sender : Sender N := .start
  main : Main N M
  exit : Exit := .done

namespace Endpoint

/-- The API of the endpoint. Messages go to the application, which is not part
of the model. -/
def call (s : Sender N) : ApiCall M → Sender N
  | .windowUpdate id inc => s.step (.windowUpdate id inc)
  | .send f | .sendHello f => s.step (.send f)
  | .established | .newMessage _ | .processMessage _ _ => s

def feed (A : Messages M) (debug : Bool) (e : Endpoint N M) (aBuffer : Bytes) :
    Endpoint N M :=
  if e.exit = .done then
    let r := e.main.process A debug aBuffer
    ⟨r.calls.foldl call e.sender, r.main, r.exit⟩
  else e

def receive (A : Messages M) (debug : Bool) (e : Endpoint N M) (f : Frame) : Endpoint N M :=
  (e.feed A debug f.header.toNet.image).feed A debug f.payload

end Endpoint

structure Net (N : Nghttp2) (M : Type) where
  ends : Side → Endpoint N M
  wire : Side → List Frame

inductive Event
  | response (id : UInt32) (aResponse : Response)
  | request (id : UInt32) (aRequest : ClientRequest)
  | flush
  | resume
  | deliver

namespace Net

/-- The server has read the preface and the SETTINGS frames of both sides are
on their way. -/
def start (A : Messages M) (debug : Bool) : Net N M where
  ends
    | .client => { main := ((Main.start .client).process A debug []).main }
    | .server => { main := ((Main.start .server).process A debug preface).main }
  wire _ := [createSettings false]

def act (n : Net N M) (x : Side) (e : Sender.Event) : Net N M :=
  let next := { n.ends x with sender := (n.ends x).sender.step e }
  { n with ends := Function.update n.ends x next }

/-- The coroutine of a side resumes; what it hands out joins the channel. -/
def resume (n : Net N M) (x : Side) : Net N M :=
  let handed := (n.ends x).sender.resume.2
  { n.act x .resume with wire := Function.update n.wire x (n.wire x ++ handed) }

/-- The side reads the next frame, if there is one and it still reads. -/
def deliver (A : Messages M) (debug : Bool) (n : Net N M) (x : Side) : Net N M :=
  match n.wire x.other with
  | [] => n
  | f :: rest =>
      if (n.ends x).exit = .done then
        { ends := Function.update n.ends x ((n.ends x).receive A debug f)
          wire := Function.update n.wire x.other rest }
      else n

def step (A : Messages M) (debug : Bool) (n : Net N M) : Side × Event → Net N M
  | (x, .response id r) => n.act x (.response id r)
  | (x, .request id r) => n.act x (.request id r)
  | (x, .flush) => n.act x .flush
  | (x, .resume) => n.resume x
  | (x, .deliver) => n.deliver A debug x

/-- A side sends one message under an id, and none under id zero. -/
def Fresh (n : Net N M) : Side × Event → Prop
  | (x, .response id _) | (x, .request id _) =>
      id ≠ 0 ∧ id ∉ (n.ends x).sender.messages.map Prod.fst
  | _ => True

instance (n : Net N M) : (e : Side × Event) → Decidable (Fresh n e)
  | (_, .response _ _) | (_, .request _ _) => inferInstanceAs (Decidable (_ ∧ _))
  | (_, .flush) | (_, .resume) | (_, .deliver) => inferInstanceAs (Decidable True)

end Net

/-! ## Receiving one frame -/

/-- The size field of a frame is the size of its payload. -/
def Sized (f : Frame) : Prop := f.payload.length = f.header.size.toNat

theorem sized_make (t : FrameType) (flags : UInt8) (id : UInt32) {payload : Bytes}
    (h : payload.length < 2 ^ 24) : Sized (Frame.make t flags id payload) := by
  simp only [Sized, Frame.make, BitVec.toNat_ofNat]
  omega

theorem dataFrames_sized (id : UInt32) (last : Bool) (fuel : ℕ) (aData : Bytes) :
    ∀ f ∈ dataFrames id last fuel aData, Sized f := by
  induction fuel generalizing aData with
  | zero => simp [dataFrames]
  | succ fuel ih =>
      intro f hf
      unfold dataFrames at hf
      split_ifs at hf
      · simp at hf
      · rcases List.mem_cons.mp hf with rfl | hf
        · apply sized_make
          simp only [List.length_take, defaultMaxFrameSize]
          omega
        · exact ih _ f hf

theorem chunkFrames_sized (id : UInt32) (d : Http2Output.Info) (len : ℕ) :
    ∀ f ∈ Output.chunkFrames id d len, Sized f :=
  dataFrames_sized _ _ _ _

namespace Endpoint
variable (A : Messages M) (debug : Bool)

/-- The next frame is one that the endpoint can take: on the client the first
frame is checked to be a SETTINGS frame. -/
structure Ready (e : Endpoint N M) (f : Frame) : Prop where
  exit : e.exit = .done
  stage : e.main.stage = .header ∨ e.main.stage = .clientWait ∧ f.header.type = .settings

/-- The parser as `process_packet` sees it. -/
def loaded (e : Endpoint N M) (f : Frame) : Main N M :=
  { e.main with stage := .body, header := f.header, body := f.payload }

@[simp] theorem loaded_header (e : Endpoint N M) (f : Frame) :
    (e.loaded f).header = f.header := rfl

@[simp] theorem loaded_body (e : Endpoint N M) (f : Frame) : (e.loaded f).body = f.payload := rfl

@[simp] theorem loaded_info (e : Endpoint N M) (f : Frame) : (e.loaded f).info = e.main.info := rfl

@[simp] theorem loaded_budget (e : Endpoint N M) (f : Frame) :
    (e.loaded f).budget = e.main.budget := rfl

theorem feed_header {e : Endpoint N M} {f : Frame} (h : e.Ready f) :
    e.feed A debug f.header.toNet.image =
      { e with main := { e.main with stage := .body, header := f.header } } := by
  obtain ⟨hexit, hstage | ⟨hstage, htype⟩⟩ := h
  · simp [feed, hexit, Main.process, hstage, Main.recvHeader]
  · simp [feed, hexit, Main.process, hstage, Main.clientCheck, Main.recvHeader, htype, call]

theorem receive_eq {e : Endpoint N M} {f : Frame} (h : e.Ready f) (hs : Sized f) :
    e.receive A debug f =
      let r := (e.loaded f).processPacket A debug
      { sender := r.calls.foldl call e.sender
        main := if r.exit = .done then { r.main with stage := .header, header := {}, body := [] }
          else r.main
        exit := r.exit } := by
  rw [receive, feed_header A debug h]
  have hs' : f.payload.length = f.header.size.toNat := hs
  simp only [feed, h.exit, Main.process, Main.recvBody, hs', ne_eq, not_true_eq_false, if_false,
    if_true, Main.packet]
  unfold loaded
  split_ifs <;> rfl

theorem receive_unsized {e : Endpoint N M} {f : Frame} (h : e.Ready f) (hs : ¬ Sized f) :
    e.receive A debug f =
      { sender := e.sender
        main := { e.main with stage := .body, header := f.header }
        exit := .thrown "http2: not a frame body" } := by
  have hs' : ¬ f.payload.length = f.header.size.toNat := hs
  rw [receive, feed_header A debug h]
  simp [feed, h.exit, Main.process, Main.recvBody, hs', Main.throws]

theorem receive_windowUpdate {e : Endpoint N M} {k : UInt32} (h : e.Ready (windowUpdateFrame k)) :
    e.receive A debug (windowUpdateFrame k) =
      { sender := e.sender.step (.windowUpdate k defaultWindowSize)
        main := { e.main with stage := .header, header := {}, body := [] }
        exit := .done } := by
  rw [receive_eq A debug h (sized_make _ _ _ (by simp))]
  rfl

theorem receive_settings {e : Endpoint N M} {ack : Bool} (h : e.Ready (createSettings ack)) :
    e.receive A debug (createSettings ack) =
      { sender := if ack then e.sender else e.sender.step (.send (createSettings true))
        main := { e.main with stage := .header, header := {}, body := [] }
        exit := .done } := by
  rw [receive_eq A debug h (sized_make _ _ _ (by simp))]
  cases ack <;> rfl

end Endpoint
end Stuff.Http2Net
