import Stuff.Http2Carried
import Stuff.Http2Progress

/-!
# Every message once

Two endpoints with a record of what each side enqueued and of what each side's
application was given. The record does not change what the endpoints do. In
every run the application of a side gets the messages of the other side, each
at most once and with all its headers and its whole body, however the frames
of several messages are mixed; and it has got all of them when nothing is on
its way, unless its reader had to refuse one.
-/
namespace Stuff.Http2Delivery
open MachineWords Http2Frames Http2Hpack Http2Output Http2Accounts Http2Parser Http2Net
open Http2OutputFraming (ends pending pending_of_none)
open CoderSync Http2HpackSync Http2Streams Http2Flow Http2SenderFlow Http2FlowControl
open Http2Progress Http2Carried EventRuns

variable {N : Nghttp2} {M : Type}

/-! ## The record of a run -/

/-- The message a call of the parser hands over. -/
def handedBy : ApiCall M → Option (UInt32 × M)
  | .processMessage id x => some (id, x)
  | _ => none

/-- What the application gets out of one buffer. -/
def taken (A : Messages M) (debug : Bool) (e : Endpoint N M) (aBuffer : Bytes) :
    List (UInt32 × M) :=
  if e.exit = .done then (e.main.process A debug aBuffer).calls.filterMap handedBy else []

/-- What it gets out of one frame. -/
def given (A : Messages M) (debug : Bool) (e : Endpoint N M) (f : Frame) : List (UInt32 × M) :=
  taken A debug e f.header.toNet.image ++
    taken A debug (e.feed A debug f.header.toNet.image) f.payload

structure Traced (N : Nghttp2) (M : Type) where
  net : Net N M
  sent : Side → List Sent := fun _ => []
  handed : Side → List (UInt32 × M) := fun _ => []

namespace Traced

def start (A : Messages M) (debug : Bool) : Traced N M := { net := Net.start A debug }

/-- What an event enqueues. -/
def enqueued (n : Net N M) : Side × Event → List Sent
  | (x, .response id r) =>
      Faithful.compressed (n.ends x).sender.output.deflater id (responsePairs r) r.body
  | (x, .request id r) =>
      match ParserUrl.url r.url with
      | .ok parsed =>
          Faithful.compressed (n.ends x).sender.output.deflater id (requestPairs r parsed) r.body
      | .error _ => []
  | _ => []

/-- What a delivery hands over. -/
def delivered (A : Messages M) (debug : Bool) (n : Net N M) (x : Side) : List (UInt32 × M) :=
  match n.wire x.other with
  | [] => []
  | f :: _ => if (n.ends x).exit = .done then given A debug (n.ends x) f else []

def received (A : Messages M) (debug : Bool) (n : Net N M) : Side × Event → List (UInt32 × M)
  | (x, .deliver) => delivered A debug n x
  | _ => []

def step (A : Messages M) (debug : Bool) (t : Traced N M) (e : Side × Event) : Traced N M where
  net := t.net.step A debug e
  sent := Function.update t.sent e.1 (t.sent e.1 ++ enqueued t.net e)
  handed := Function.update t.handed e.1 (t.handed e.1 ++ received A debug t.net e)

def Fresh (t : Traced N M) (e : Side × Event) : Prop := Net.Fresh t.net e

instance (t : Traced N M) (e : Side × Event) : Decidable (Fresh t e) :=
  inferInstanceAs (Decidable (Net.Fresh _ _))

end Traced

/-! ## What a frame hands over -/

section Frames
variable (A : Messages M) (debug : Bool) {e : Endpoint N M} {f : Frame}

theorem given_eq (h : e.Ready f) :
    given A debug e f = taken A debug { e with
      main := { e.main with stage := .body, header := f.header } } f.payload := by
  have hfeed := Endpoint.feed_header A debug h
  obtain ⟨hexit, hstage | ⟨hstage, htype⟩⟩ := h
  · have hnone : taken A debug e f.header.toNet.image = [] := by
      simp [taken, hexit, Main.process, hstage, Main.recvHeader]
    rw [given, hnone, List.nil_append, hfeed]
  · have hnone : taken A debug e f.header.toNet.image = [] := by
      simp [taken, hexit, Main.process, hstage, Main.clientCheck, Main.recvHeader, htype, handedBy]
    rw [given, hnone, List.nil_append, hfeed]

theorem given_sized (h : e.Ready f) (hs : Sized f) :
    given A debug e f = ((e.loaded f).processPacket A debug).calls.filterMap handedBy := by
  have hs' : f.payload.length = f.header.size.toNat := hs
  rw [given_eq A debug h]
  simp only [taken, h.exit, Main.process, Main.recvBody, hs', ne_eq, not_true_eq_false, if_false,
    if_true, Main.packet]
  unfold Endpoint.loaded
  split_ifs <;> rfl

theorem given_unsized (h : e.Ready f) (hs : ¬ Sized f) : given A debug e f = [] := by
  have hs' : ¬ f.payload.length = f.header.size.toNat := hs
  rw [given_eq A debug h]
  simp [taken, h.exit, Main.process, Main.recvBody, hs', Main.throws]

theorem given_control (h : e.Ready f) (hf : IsControl f) : given A debug e f = [] := by
  rcases hf with ⟨id, rfl⟩ | ⟨ack, rfl⟩
  · rw [given_sized A debug h (sized_make _ _ _ (by simp))]
    rfl
  · rw [given_sized A debug h (sized_make _ _ _ (by simp))]
    cases ack <;> rfl

end Frames

section Opens
variable (A : Messages M) {m : Main N M}

theorem headersMessage_new (hnone : m.info[m.header.stream]? = none) : m.headersMessage A =
    (A.newMessage m.header.stream, [ApiCall.newMessage m.header.stream]) := by
  rw [Main.headersMessage, Std.TreeMap.getD_eq_getD_getElem?, hnone]
  rfl

theorem headersInflated_new (hnone : m.info[m.header.stream]? = none) : m.headersInflated A =
    inflateFrame A m.inflater m.header m.body (A.newMessage m.header.stream) := by
  rw [Main.headersInflated, headersMessage_new A hnone]

/-- The outcome of a HEADERS frame that opens its stream. -/
theorem processHeaders_opens (hid : m.header.stream ≠ 0)
    (hnone : m.info[m.header.stream]? = none) {i : N.Inflater} {x : M}
    (hinflated : inflateFrame A m.inflater m.header m.body (A.newMessage m.header.stream) =
      ⟨.done, i, x⟩)
    (hflag : m.header.has Flags.endHeaders = true) :
    (m.processHeaders A).main.inflater = i ∧ (m.processHeaders A).exit = .done ∧
    (m.processHeaders A).main.info[m.header.stream]? =
      (if m.header.has Flags.endStream then none
        else some ⟨some x, defaultWindowSize, false⟩) ∧
    (m.processHeaders A).calls.filterMap handedBy =
      if m.header.has Flags.endStream then [(m.header.stream, x)] else [] := by
  have hgetD : m.info.getD m.header.stream {} = {} := by
    rw [Std.TreeMap.getD_eq_getD_getElem?, hnone]
    rfl
  rw [Main.processHeaders_eq A m hid, headersInflated_new A hnone, hinflated,
    headersMessage_new A hnone, if_pos rfl, hgetD]
  cases hend : m.header.has Flags.endStream <;>
    simp [Main.headersDone, Main.push, hflag, hend, handedBy, List.filterMap_cons]

/-- Decompression that fails hands nothing over. -/
theorem processHeaders_failed (hid : m.header.stream ≠ 0)
    (hnone : m.info[m.header.stream]? = none)
    (hfailed : (inflateFrame A m.inflater m.header m.body
      (A.newMessage m.header.stream)).exit ≠ .done) :
    (m.processHeaders A).exit ≠ .done ∧
      (m.processHeaders A).calls.filterMap handedBy = [] := by
  rw [← headersInflated_new A hnone] at hfailed
  rw [Main.processHeaders_eq A m hid, if_neg hfailed, headersMessage_new A hnone]
  exact ⟨hfailed, rfl⟩

theorem account_inflater (m : Main N M) (id : UInt32) (d : Http2Parser.Info M) (x : M) :
    (m.account id d x).main.inflater = m.inflater := by
  unfold Main.account
  dsimp only
  split_ifs <;> rfl

theorem account_handed (m : Main N M) (id : UInt32) (d : Http2Parser.Info M) (x : M) :
    (m.account id d x).calls.filterMap handedBy =
      if m.header.has Flags.endStream then [(id, x)] else [] := by
  have hnone (k current : UInt32) (wanted : Bool) :
      (Main.topUp k current wanted : List (ApiCall M) × UInt32).1.filterMap handedBy = [] := by
    unfold Main.topUp
    split_ifs <;> rfl
  rw [Main.account_calls, List.filterMap_append, hnone, List.nil_append]
  split_ifs
  · rfl
  · exact hnone _ _ _

end Opens

/-! ## A frame of a message is read -/

section Reads
variable {C : Codec N} {A : Messages M} {sent : List Sent} {handed : List (UInt32 × M)}
variable {F : Flow N M} {f : Frame} {rest : List Frame} {m : Main N M}

/-- The oldest HEADERS frame on its way is that of a message, and its block is
what the decompressor has to read next. -/
theorem headers_next (h : Faithful C A sent handed F) (hexit : F.exit = .done)
    (htransit : F.transit = f :: rest) (htype : f.header.type = .headers) :
    ∃ c ∈ sent, f = c.frame ∧ ∃ l : List Sent, (∀ c ∈ l, c ∈ sent) ∧
      headerFrames rest = l.map Sent.frame ∧ Coded C.toInStep F.main.inflater
        ((c.block, c.pairs) :: l.map fun c => (c.block, c.pairs)) F.output.deflater := by
  obtain ⟨l, hl, hheaders, hcoded⟩ := h.coded hexit
  have hhead : headerFrames (f :: rest) = f :: headerFrames rest := by simp [headerFrames, htype]
  rw [htransit, hhead] at hheaders
  cases l with
  | nil => cases hheaders
  | cons c l =>
      rw [List.map_cons, List.cons.injEq] at hheaders
      exact ⟨c, hl c (by simp), hheaders.1, l, fun c' hc' => hl c' (by simp [hc']), hheaders.2,
        hcoded⟩

theorem frame_plain (c : Sent) : c.frame.header.has Flags.endHeaders = true ∧
    c.frame.header.has Flags.padded = false ∧ c.frame.header.has Flags.priority = false := by
  cases hbody : c.body <;>
    simp [Sent.frame, headersFrame, Header.has, hbody] <;> decide

theorem inbound_frame (c : Sent) (fs : List Frame) :
    inbound c.id (c.frame :: fs) = c.frame :: inbound c.id fs :=
  Flow.Inv.inbound_head (f := c.frame) (.inl rfl)

theorem block_lt {c : Sent} (hs : Sized c.frame) : c.block.length < 2 ^ 24 := by
  have hlen : c.block.length = c.frame.header.size.toNat := hs
  rw [hlen]
  exact c.frame.header.size.isLt

theorem inflateFrame_frame (A : Messages M) {c : Sent} (hs : Sized c.frame) (i : N.Inflater)
    (x : M) : inflateFrame A i c.frame.header c.frame.payload x =
      inflateLoop A c.block.length i c.block x := by
  obtain ⟨-, hpad, hprio⟩ := frame_plain c
  have hlen : c.frame.payload.length < 2 ^ 24 := block_lt hs
  rw [inflateFrame, headerBlock_plain hpad hprio hlen]
  rfl

/-- The message is with the parser once its HEADERS frame is read; one without
a body is handed over. -/
theorem content_opens {c : Sent} {pending : Bytes} {fs : List Frame} {xs : List M} {x : M}
    (hA : Appends A) (h : Content A c pending none (c.frame :: fs) xs)
    (htail : if ends c.frame then pending = [] ∧ fs = [] else Tail c.id pending fs)
    (hset : setHeaders A (A.newMessage c.id) c.pairs = .ok x) :
    Content A c pending (if ends c.frame then none else some ⟨some x, defaultWindowSize, false⟩) fs
      (xs ++ if ends c.frame then [x] else []) := by
  obtain ⟨rfl, hpayload⟩ := h.unread
  have hfilled : filled A c.id c.pairs [] = .ok x := by
    rw [filled, hset]
    exact congrArg Except.ok (hA.nil x)
  rw [List.nil_append]
  split_ifs at htail ⊢
  · obtain ⟨rfl, rfl⟩ := htail
    refine .finished rfl rfl ?_
    rw [← hpayload]
    exact hfilled
  · exact .receiving rfl rfl hfilled hpayload

/-- A HEADERS frame opens its stream, or the reader fails at a message that it
has to refuse. -/
theorem faithful_headers (h : Faithful C A sent handed F) (hA : Appends A) (hinv : F.Inv)
    (hexit : F.exit = .done) (htransit : F.transit = f :: rest)
    (htype : f.header.type = .headers) (hs : Sized f) (hheader : m.header = f.header)
    (hbody : m.body = f.payload) (hinfo : m.info = F.main.info)
    (hinflater : m.inflater = F.main.inflater) :
    Faithful C A sent (handed ++ (m.processHeaders A).calls.filterMap handedBy) { F with
      transit := rest
      main := (m.processHeaders A).main
      exit := (m.processHeaders A).exit } := by
  obtain ⟨c, hc, rfl, l, hl, hrest, hcoded⟩ := headers_next h hexit htransit htype
  have hstream : m.header.stream = c.id := by rw [hheader]; rfl
  have hphase := hinv.phase hexit c.id
  have hcontent := h.content hexit c hc
  rw [htransit, inbound_frame] at hphase hcontent
  obtain ⟨hopened, hnone, -, -, htail⟩ := hphase.headers htype
  have hzero : m.header.stream ≠ 0 := by
    intro hzero
    rw [← hstream, hzero] at hopened
    exact hinv.zero.1 hopened
  have hnone' : m.info[m.header.stream]? = none := by rw [hinfo, hstream, hnone]
  have hloop := inflateFrame_frame A hs F.main.inflater (A.newMessage c.id)
  rw [← hheader, ← hbody, ← hinflater, ← hstream] at hloop
  have hfail (hrefused : Refused C A c) (hexit' : (inflateLoop A c.block.length m.inflater c.block
      (A.newMessage m.header.stream)).exit ≠ .done) :
      Faithful C A sent (handed ++ (m.processHeaders A).calls.filterMap handedBy) { F with
        transit := rest
        main := (m.processHeaders A).main
        exit := (m.processHeaders A).exit } := by
    obtain ⟨hexit', hnil⟩ := processHeaders_failed A hzero hnone' (by rwa [hloop])
    rw [hnil, List.append_nil]
    exact h.refuse hc hrefused rfl hexit'
  rw [← hinflater] at hcoded
  cases hcoded with
  | stuck hreadable hfails =>
      exact hfail (.inr (.inl hreadable)) (inflateLoop_fails A hfails le_rfl _)
  | cons hreadable hreads hcoded =>
      obtain ⟨hok, herror⟩ := inflateLoop_inflates A hreads le_rfl (A.newMessage m.header.stream)
      cases hset : setHeaders A (A.newMessage m.header.stream) c.pairs with
      | error e =>
          refine hfail (.inr (.inr ⟨e, ?_⟩)) ?_
          · rw [filled, ← hstream, hset]
            rfl
          · rw [herror e hset]
            simp
      | ok x =>
          obtain ⟨hi, hexit', hentry, hcalls⟩ := processHeaders_opens A hzero hnone'
            (hloop.trans (hok x hset)) (by rw [hheader]; exact (frame_plain c).1)
          have hends : m.header.has Flags.endStream = ends c.frame := by rw [hheader]; rfl
          rw [hstream] at hentry hcalls hset
          rw [hends] at hentry hcalls
          rw [hcalls]
          refine h.received hexit hc ?_ rfl rfl hexit' ⟨l, hl, hrest, ?_⟩ ?_ ?_
          · intro p hp
            split_ifs at hp
            · rw [List.mem_singleton] at hp
              rw [hp]
            · cases hp
          · rw [hi]
            exact hcoded
          · intro k hk
            rw [Main.processHeaders_info_ne A m (by rw [hstream]; exact Ne.symm hk), hinfo,
              htransit, Flow.Inv.inbound_head_ne (f := c.frame) (Ne.symm hk)]
            exact ⟨rfl, rfl⟩
          · have hgot : got (if ends c.frame then [(c.id, x)] else []) c.id =
                if ends c.frame then [x] else [] := by
              split_ifs
              · exact (got_single c.id c.id x).trans (if_pos rfl)
              · rfl
            rw [hnone] at hcontent
            rw [hentry, hgot]
            exact content_opens hA hcontent htail hset

/-- A DATA frame adds to its message; the last one hands it over. -/
theorem content_data {c : Sent} {pending : Bytes} {fs : List Frame} {xs : List M}
    {d : Http2Parser.Info M} {y : M} (hA : Appends A)
    (h : Content A c pending (some d) (f :: fs) xs) (hy : d.message = some y)
    (htail : Tail c.id pending (f :: fs)) (budget : UInt32) :
    Content A c pending
      (if ends f then none else some ⟨some (A.appendBody y f.payload), budget, d.noBody⟩) fs
      (xs ++ if ends f then [A.appendBody y f.payload] else []) := by
  obtain ⟨rfl, x, part, hx, hpart, hpayload⟩ := h.partly
  cases hx.symm.trans hy
  rw [List.flatMap_cons, List.append_assoc] at hpayload
  have hfilled : filled A c.id c.pairs (part ++ f.payload) = .ok (A.appendBody y f.payload) := by
    unfold filled at hpart ⊢
    cases hset : setHeaders A (A.newMessage c.id) c.pairs with
    | error e =>
        rw [hset] at hpart
        cases hpart
    | ok z =>
        rw [hset] at hpart
        cases hpart
        exact congrArg Except.ok (hA.append z part f.payload).symm
  rw [List.nil_append]
  split_ifs with hends
  · obtain ⟨rfl, rfl⟩ := htail.final hends
    refine .finished rfl rfl ?_
    rw [← hpayload]
    simpa using hfilled
  · exact .receiving rfl rfl hfilled (by rw [List.append_assoc]; exact hpayload)

theorem faithful_data (h : Faithful C A sent handed F) (hA : Appends A) (hinv : F.Inv)
    (hexit : F.exit = .done) (htransit : F.transit = f :: rest) (htype : f.header.type = .data)
    (hheader : m.header = f.header) (hinfo : m.info = F.main.info)
    (hinflater : m.inflater = F.main.inflater) {d : Http2Parser.Info M} {y : M}
    (hd : F.main.info[f.stream]? = some d) (hy : d.message = some y) {g : UInt32 → ℕ} :
    Faithful C A sent (handed ++ (m.account f.stream d
      (A.appendBody y f.payload)).calls.filterMap handedBy) { F with
      transit := rest
      main := (m.account f.stream d (A.appendBody y f.payload)).main
      grants := g } := by
  have hphase := hinv.phase hexit f.stream
  rw [htransit, Flow.Inv.inbound_head (.inr htype)] at hphase
  obtain ⟨hopened, -, htail⟩ := hphase.data htype
  obtain ⟨c, hc, hid⟩ := List.mem_map.mp ((h.opened_iff f.stream).mp hopened)
  have hcontent := h.content hexit c hc
  rw [hid, htransit, Flow.Inv.inbound_head (.inr htype), hd] at hcontent
  have hends : m.header.has Flags.endStream = ends f := by rw [hheader]; rfl
  have hentry (k : UInt32) := m.account_info f.stream d (A.appendBody y f.payload) k
  simp only [hends] at hentry
  rw [account_handed, hends]
  refine h.received hexit hc ?_ rfl rfl hexit ?_ ?_ ?_
  · intro p hp
    split_ifs at hp
    · rw [List.mem_singleton] at hp
      rw [hp, hid]
    · cases hp
  · obtain ⟨l, hl, hheaders, hcoded⟩ := h.coded hexit
    have hskip : headerFrames (f :: rest) = headerFrames rest := by simp [headerFrames, htype]
    rw [htransit, hskip] at hheaders
    refine ⟨l, hl, hheaders, ?_⟩
    rw [account_inflater, hinflater]
    exact hcoded
  · intro k hk
    have hne : f.stream ≠ k := by
      rw [← hid]
      exact Ne.symm hk
    rw [hentry, if_neg hne, hinfo, htransit, Flow.Inv.inbound_head_ne hne]
    exact ⟨rfl, rfl⟩
  · have hgot : got (if ends f then [(f.stream, A.appendBody y f.payload)] else []) f.stream =
        if ends f then [A.appendBody y f.payload] else [] := by
      split_ifs
      · exact (got_single f.stream f.stream _).trans (if_pos rfl)
      · rfl
    rw [hid, hentry, if_pos rfl, hgot]
    exact content_data hA hcontent hy (by rwa [hid]) _

end Reads
/-! ## The network -/

/-- The direction that starts at a side. -/
def flow (n : Net N M) (x : Side) : Flow N M :=
  flowOf (n.ends x).sender (n.wire x) (n.ends x.other).main (n.ends x.other).exit (grants n x)

theorem feed_calls (A : Messages M) (debug : Bool) (e : Endpoint N M) (aBuffer : Bytes) :
    ∃ cs : List (ApiCall M), (e.feed A debug aBuffer).sender = cs.foldl Endpoint.call e.sender := by
  unfold Endpoint.feed
  split_ifs
  · exact ⟨_, rfl⟩
  · exact ⟨[], rfl⟩

theorem receive_calls (A : Messages M) (debug : Bool) (e : Endpoint N M) (f : Frame) :
    ∃ cs : List (ApiCall M), (e.receive A debug f).sender = cs.foldl Endpoint.call e.sender := by
  obtain ⟨cs, hcs⟩ := feed_calls A debug e f.header.toNet.image
  obtain ⟨cs', hcs'⟩ := feed_calls A debug (e.feed A debug f.header.toNet.image) f.payload
  exact ⟨cs ++ cs', by rw [Endpoint.receive, hcs', hcs, List.foldl_append]⟩

section Deliver
variable {C : Codec N} {A : Messages M} {n : Net N M} {x : Side} {f : Frame} {rest : List Frame}
variable {sent : List Sent} {handed : List (UInt32 × M)}

/-- The direction towards a side that reads a frame. -/
def towards (n : Net N M) (x : Side) (rest : List Frame) (e : Endpoint N M) : Flow N M :=
  flowOf (n.ends x.other).sender rest e.main e.exit (grants n x.other)

theorem faithful_control (h : Faithful C A sent handed (towards n x (f :: rest) (n.ends x)))
    (hf : IsControl f) {e : Endpoint N M} (hinfo : e.main.info = (n.ends x).main.info)
    (hinflater : e.main.inflater = (n.ends x).main.inflater) (hexit : e.exit = (n.ends x).exit) :
    Faithful C A sent handed (towards n x rest e) := by
  refine h.congr (fun _ => rfl) rfl rfl ?_ hinfo hinflater hexit
  have hne := control_not_message hf
  simp [towards, flowOf, messageFrames, hne.1, hne.2]

theorem unsized_refused {c : Sent} (hs : ¬ Sized c.frame) : Refused C A c := by
  refine .inl ?_
  by_contra hlen
  exact hs (sized_make _ _ _ (Nat.lt_of_not_le hlen))

/-- A frame that a side reads keeps the direction it came on. -/
theorem faithful_received (debug : Bool) (hA : Appends A) (h : Agreeing n)
    (hwire : n.wire x.other = f :: rest) (hexit : (n.ends x).exit = .done)
    (hf : Faithful C A sent handed (towards n x (f :: rest) (n.ends x))) :
    Faithful C A sent (handed ++ given A debug (n.ends x) f)
      (towards n x rest ((n.ends x).receive A debug f)) := by
  have hready := h.ready hwire hexit
  have hinv := (h.towards hwire hexit).inv
  have hinv' : (towards n x (f :: rest) (n.ends x)).Inv := by
    unfold towards
    rw [hexit]
    exact hinv
  have hmem : f ∈ n.wire x.other := by rw [hwire]; simp
  have hcontrol (hcontrol : IsControl f) (hinfo : ((n.ends x).receive A debug f).main.info =
        (n.ends x).main.info)
      (hinflater : ((n.ends x).receive A debug f).main.inflater = (n.ends x).main.inflater)
      (hdone : ((n.ends x).receive A debug f).exit = .done) :
      Faithful C A sent (handed ++ given A debug (n.ends x) f)
        (towards n x rest ((n.ends x).receive A debug f)) := by
    rw [given_control A debug hready hcontrol, List.append_nil]
    exact faithful_control hf hcontrol hinfo hinflater (hdone.trans hexit.symm)
  rcases h.carried x.other f hmem with (htype | htype) | ⟨id, rfl⟩ | ⟨ack, rfl⟩
  · by_cases hs : Sized f
    · have hpacket : ((n.ends x).loaded f).processPacket A debug =
          ((n.ends x).loaded f).processHeaders A := by
        simp only [Main.processPacket, Endpoint.loaded_header, htype]
      have hnext := faithful_headers (m := (n.ends x).loaded f) hf hA hinv' hexit rfl
        htype hs rfl rfl rfl rfl
      rw [given_sized A debug hready hs, Endpoint.receive_eq A debug hready hs, hpacket]
      refine hnext.congr (fun _ => rfl) rfl rfl rfl ?_ ?_ rfl <;>
        simp only [towards, flowOf] <;> split_ifs <;> rfl
    · obtain ⟨c, hc, rfl, -⟩ := headers_next hf hexit rfl htype
      rw [given_unsized A debug hready hs, Endpoint.receive_unsized A debug hready hs,
        List.append_nil]
      exact hf.refuse hc (unsized_refused hs) rfl (by simp [towards, flowOf])
  · obtain ⟨hid, hsized, -, hb, d, y, hd, hy, -, hw⟩ := hinv.data_fits rfl rfl htype
    have hpacket : ((n.ends x).loaded f).processPacket A debug =
        ((n.ends x).loaded f).account f.stream d (A.appendBody y f.payload) := by
      simp only [Main.processPacket, Endpoint.loaded_header, htype]
      exact Main.processData_eq A debug _ hid hd hy hb hw
    have hnext := faithful_data (m := (n.ends x).loaded f) hf hA hinv' hexit rfl htype
      rfl rfl rfl hd hy (g := grants n x.other)
    rw [given_sized A debug hready hsized, Endpoint.receive_eq A debug hready hsized, hpacket]
    simp only [Main.account_exit, if_true]
    exact hnext.congr (fun _ => rfl) rfl rfl rfl rfl rfl hexit.symm
  · apply hcontrol (.inl ⟨id, rfl⟩) <;> rw [Endpoint.receive_windowUpdate A debug hready]
  · apply hcontrol (.inr ⟨ack, rfl⟩) <;> rw [Endpoint.receive_settings A debug hready]

end Deliver

/-! ## Every step -/

structure Tracking (C : Codec N) (A : Messages M) (t : Traced N M) : Prop where
  agreeing : Agreeing t.net
  waiting : ∀ x, Waiting (t.net.ends x).sender.output
  faithful : ∀ x, Faithful C A (t.sent x) (t.handed x.other) (flow t.net x)

section Steps
variable {C : Codec N} {A : Messages M} {n : Net N M} {sent : Side → List Sent}
variable {handed : Side → List (UInt32 × M)}

/-- A side acts alone and may enqueue messages. -/
theorem faithful_act (h : ∀ y, Faithful C A (sent y) (handed y.other) (flow n y)) {x : Side}
    {e : Sender.Event} {more : List Sent}
    (hx : Faithful C A (sent x ++ more) (handed x.other) (flowOf ((n.ends x).sender.step e)
      (n.wire x) (n.ends x.other).main (n.ends x.other).exit (grants n x))) (y : Side) :
    Faithful C A (Function.update sent x (sent x ++ more) y) (handed y.other)
      (flow (n.act x e) y) := by
  revert y
  rw [Side.forall_iff x]
  constructor
  · rw [Function.update_self]
    refine hx.congr ?_ ?_ ?_ ?_ ?_ ?_ ?_ <;> simp [flow, flowOf]
  · rw [Function.update_of_ne (Side.other_ne x)]
    refine (h x.other).congr ?_ ?_ ?_ ?_ ?_ ?_ ?_ <;> simp [flow, flowOf]

theorem faithful_resume (h : ∀ y, Faithful C A (sent y) (handed y.other) (flow n y))
    (hagree : Agreeing n) (x : Side) (y : Side) :
    Faithful C A (sent y) (handed y.other) (flow (n.resume x) y) := by
  have hself : (n.resume x).ends x =
      { n.ends x with sender := (n.ends x).sender.resume.1 } := act_self x .resume
  have hother : (n.resume x).ends x.other = n.ends x.other := act_other x .resume
  have hwire : (n.resume x).wire x = n.wire x ++ (n.ends x).sender.resume.2 := by
    simp [Net.resume]
  have hwire' : (n.resume x).wire x.other = n.wire x.other := by
    simp [Net.resume]
  revert y
  rw [Side.forall_iff x]
  constructor
  · have hnext := (h x).resume (hagree.good x).queues
    refine hnext.congr ?_ ?_ ?_ ?_ ?_ ?_ ?_ <;> simp [flow, flowOf, hself, hother, hwire]
  · refine (h x.other).congr ?_ ?_ ?_ ?_ ?_ ?_ ?_ <;> simp [flow, flowOf, hself, hother, hwire']

theorem faithful_deliver (debug : Bool) (hA : Appends A)
    (h : ∀ y, Faithful C A (sent y) (handed y.other) (flow n y)) (hagree : Agreeing n)
    (x : Side) (y : Side) :
    Faithful C A (sent y) (Function.update handed x
      (handed x ++ Traced.delivered A debug n x) y.other) (flow (n.deliver A debug x) y) := by
  unfold Net.deliver Traced.delivered
  cases hwire : n.wire x.other with
  | nil =>
      dsimp only
      rw [List.append_nil, Function.update_eq_self]
      exact h y
  | cons f rest =>
      dsimp only
      by_cases hexit : (n.ends x).exit = .done
      swap
      · rw [if_neg hexit, if_neg hexit, List.append_nil, Function.update_eq_self]
        exact h y
      rw [if_pos hexit, if_pos hexit]
      revert y
      rw [Side.forall_iff x]
      constructor
      · obtain ⟨cs, hcs⟩ := receive_calls A debug (n.ends x) f
        rw [Function.update_of_ne (Side.other_ne x)]
        have hnext := Faithful.calls cs (h x) (hagree.good x).queues.write
        refine hnext.congr ?_ ?_ ?_ ?_ ?_ ?_ ?_ <;> simp [flow, flowOf, hcs]
      · rw [Side.other_other, Function.update_self]
        have hbefore := h x.other
        rw [Side.other_other] at hbefore
        have hnext := faithful_received debug hA hagree hwire hexit
          (hbefore.congr ?_ ?_ ?_ ?_ ?_ ?_ ?_)
        · refine hnext.congr ?_ ?_ ?_ ?_ ?_ ?_ ?_ <;> simp [flow, towards, flowOf]
        all_goals simp [flow, towards, flowOf, hwire]

end Steps

theorem Tracking.step {C : Codec N} {A : Messages M} (debug : Bool) (hA : Appends A)
    {t : Traced N M} (h : Tracking C A t) {e : Side × Event} (he : Traced.Fresh t e) :
    Tracking C A (t.step A debug e) := by
  have hagree := h.agreeing.step A debug he
  have hwait := waiting_step A debug h.waiting e
  refine ⟨hagree, hwait, ?_⟩
  have hheld (x : Side) : Faithful.Held (t.net.ends x).sender := (h.agreeing.good x).queues.write
  have hsame (x : Side) (e : Event) (hnil : Traced.received A debug t.net (x, e) = []) :
      (t.step A debug (x, e)).handed = t.handed := by
    simp [Traced.step, hnil]
  obtain ⟨x, e⟩ := e
  cases e with
  | response id r =>
      rw [hsame x _ rfl]
      refine faithful_act h.faithful (e := .response id r) ?_
      exact (h.faithful x).noted (hheld x) (h.agreeing.good x).inv he.2 (responsePairs r) r.body
  | request id r =>
      rw [hsame x _ rfl]
      refine faithful_act h.faithful (e := .request id r) ?_
      simp only [Traced.enqueued, Sender.step, Output.enqueueRequest, deflateRequest]
      cases hurl : ParserUrl.url r.url with
      | error what =>
          rw [List.append_nil]
          exact (h.faithful x).notedError id r.body what
      | ok parsed =>
          exact (h.faithful x).noted (hheld x) (h.agreeing.good x).inv he.2
            (requestPairs r parsed) r.body
  | flush =>
      rw [hsame x _ rfl]
      have hflush := ((h.faithful x).flush (hheld x)).2
      rw [← List.append_nil (t.sent x)] at hflush
      exact faithful_act h.faithful (e := .flush) hflush
  | resume =>
      have hsent : (t.step A debug (x, .resume)).sent = t.sent := by
        simp [Traced.step, Traced.enqueued]
      rw [hsame x _ rfl, hsent]
      exact faithful_resume h.faithful h.agreeing x
  | deliver =>
      have hsent : (t.step A debug (x, .deliver)).sent = t.sent := by
        simp [Traced.step, Traced.enqueued]
      rw [hsent]
      exact faithful_deliver debug hA h.faithful h.agreeing x

/-! ## The delivery -/

/-- The application of a side has got messages of the other side, each once and
complete, and all of them when nothing is on its way and none had to be
refused. -/
structure Delivery (C : Codec N) (A : Messages M) (t : Traced N M) (y : Side) : Prop where
  sound : ∀ p ∈ t.handed y, ∃ c ∈ t.sent y.other, c.id = p.1 ∧
    filled A c.id c.pairs c.body = .ok p.2
  once : ((t.handed y).map Prod.fst).Nodup
  complete : AtRest t.net → (∀ c ∈ t.sent y.other, c.id ∈ (t.handed y).map Prod.fst) ∨
    ∃ c ∈ t.sent y.other, Refused C A c

theorem mem_got {handed : List (UInt32 × M)} {p : UInt32 × M} (hp : p ∈ handed) :
    p.2 ∈ got handed p.1 :=
  List.mem_map.mpr ⟨p, List.mem_filter.mpr ⟨hp, by simp⟩, rfl⟩

theorem mem_of_got {handed : List (UInt32 × M)} {id : UInt32} (h : got handed id ≠ []) :
    id ∈ handed.map Prod.fst := by
  obtain ⟨x, hx⟩ := List.exists_mem_of_ne_nil _ h
  obtain ⟨p, hp, -⟩ := List.mem_map.mp hx
  obtain ⟨hmem, hid⟩ := List.mem_filter.mp hp
  exact List.mem_map.mpr ⟨p, hmem, by simpa using hid⟩

/-- Ids under which at most one message was handed over do not repeat. -/
theorem nodup_of_got {handed : List (UInt32 × M)} (h : ∀ id, (got handed id).length ≤ 1) :
    (handed.map Prod.fst).Nodup := by
  induction handed with
  | nil => exact List.nodup_nil
  | cons p handed ih =>
      have hsplit (id : UInt32) : got (p :: handed) id = got [p] id ++ got handed id :=
        got_append [p] handed id
      rw [List.map_cons, List.nodup_cons]
      constructor
      · intro hmem
        obtain ⟨q, hq, hid⟩ := List.mem_map.mp hmem
        have hlen := h p.1
        rw [hsplit, got_single, if_pos rfl, List.length_append] at hlen
        have hpos := List.length_pos_of_mem (mem_got hq)
        rw [hid] at hpos
        simp only [List.length_singleton] at hlen
        omega
      · apply ih
        intro id
        have hlen := h id
        rw [hsplit, List.length_append] at hlen
        omega

theorem nothing_pending {n : Net N M} (h : AtRest n) (hagree : Agreeing n)
    (hwait : ∀ x, Waiting (n.ends x).sender.output) (x : Side) (id : UInt32) :
    bodyOf (n.ends x).sender.output.info[id]? = [] := by
  have hsame : bodyOf (n.ends x).sender.output.info[id]? = pending (n.ends x).sender.output id := by
    rw [pending, Std.TreeMap.getD_eq_getD_getElem?, bodyOf]
  by_contra hbody
  rw [hsame] at hbody
  obtain ⟨hbudget, hwindow⟩ := h.full_windows hagree x
  have hfull := hwindow id hbody
  rcases hwait x with hqueued | hstarved
  · exact hqueued (h x).2.1
  · have hlow := hstarved id hbody
    simp only [Starved, minFrameSize] at hlow
    omega

theorem transit_nil {n : Net N M} (h : AtRest n) (x : Side) : (flow n x).transit = [] := by
  obtain ⟨hwire, hwrite, -⟩ := h x
  have hunwritten : unwritten (n.ends x).sender = [] := by
    unfold unwritten
    split <;> simp [hwrite]
  simp only [flow, flowOf, hwire, hunwritten, List.append_nil]

theorem Tracking.delivery {C : Codec N} {A : Messages M} {t : Traced N M}
    (h : Tracking C A t) (y : Side) : Delivery C A t y := by
  have hf := h.faithful y.other
  rw [Side.other_other] at hf
  constructor
  · intro p hp
    have hgot := mem_got hp
    by_cases hid : p.1 ∈ (t.sent y.other).map Sent.id
    · obtain ⟨c, hc, hid⟩ := List.mem_map.mp hid
      rw [← hid] at hgot
      rcases hf.once c hc with hnil | ⟨x, hx, hfilled⟩
      · rw [hnil] at hgot
        cases hgot
      · rw [hx, List.mem_singleton] at hgot
        exact ⟨c, hc, hid, hgot ▸ hfilled⟩
    · rw [hf.unknown p.1 hid] at hgot
      cases hgot
  · apply nodup_of_got
    intro id
    by_cases hid : id ∈ (t.sent y.other).map Sent.id
    · obtain ⟨c, hc, rfl⟩ := List.mem_map.mp hid
      rcases hf.once c hc with hnil | ⟨x, hx, -⟩
      · rw [hnil]
        exact Nat.zero_le 1
      · rw [hx]
        exact le_rfl
    · rw [hf.unknown id hid]
      exact Nat.zero_le 1
  · intro hrest
    by_cases hexit : (flow t.net y.other).exit = .done
    swap
    · exact .inr (hf.refused hexit)
    refine .inl fun c hc => mem_of_got ?_
    have hcontent := hf.content hexit c hc
    have hphase := (h.agreeing.good y.other).inv.phase hexit c.id
    have hbody := nothing_pending hrest h.agreeing h.waiting y.other c.id
    intro hnone
    generalize hentry : (flow t.net y.other).main.info[c.id]? = entry at hcontent
    change Phase c.id _ (bodyOf (flow t.net y.other).output.info[c.id]?)
      (flow t.net y.other).main.info[c.id]? (inbound c.id (flow t.net y.other).transit) at hphase
    change bodyOf (flow t.net y.other).output.info[c.id]? = [] at hbody
    rw [transit_nil hrest, hbody] at hphase hcontent
    rw [hnone] at hcontent
    rw [hentry] at hphase
    cases hcontent with
    | receiving hsome =>
        cases hphase with
        | unopened _ _ hnil => cases hsome.symm.trans hnil
        | finished _ _ hnil => cases hsome.symm.trans hnil
        | receiving _ _ _ _ htail =>
            obtain ⟨init, f, hsplit, -⟩ := htail.last rfl
            cases init <;> cases hsplit

theorem tracking_start (C : Codec N) (A : Messages M) (debug : Bool) :
    Tracking C A (Traced.start A debug : Traced N M) := by
  refine ⟨agreeing_start A debug, ?_, ?_⟩
  · intro x
    right
    intro id hid
    refine absurd (pending_of_none ?_) hid
    cases x <;> simp [Traced.start, Net.start, Sender.start]
  · intro x
    constructor
    · exact List.nodup_nil
    · cases x <;> rfl
    · intro k _
      rfl
    · simp [Traced.start]
    · intro _
      refine ⟨[], by simp, ?_, .nil ?_⟩
      · cases x <;> rfl
      · cases x <;> exact C.start
    · simp [Traced.start]
    · intro hexit
      cases x <;> exact absurd rfl hexit

/-- For every interleaving of the two endpoints, the messages that one side
enqueues come to the application of the other. -/
theorem messages_delivered (C : Codec N) {A : Messages M} (hA : Appends A) (debug : Bool)
    (es : List (Side × Event))
    (h : Meets (Traced.step A debug) Traced.Fresh (Traced.start A debug : Traced N M) es)
    (y : Side) :
    Delivery C A (run (Traced.step A debug) (Traced.start A debug : Traced N M) es) y :=
  (run_invariant (I := Tracking C A) (fun _ _ ht he => ht.step debug hA he)
    (tracking_start C A debug) h).delivery y

/-- The server responds twice; the response without a body is complete first. -/
def twoResponses : List (Side × Event) :=
  [(.server, .response 1 { resultInt := 200, body := [7] }),
    (.server, .response 3 { resultInt := 200 }), (.server, .resume), (.server, .resume),
    (.server, .resume), (.server, .resume), (.client, .deliver), (.client, .deliver),
    (.client, .deliver), (.client, .deliver), (.client, .resume), (.client, .resume),
    (.server, .deliver), (.server, .deliver), (.server, .deliver), (.server, .resume),
    (.server, .resume), (.client, .deliver)]

theorem messages_delivered_twoResponses :
    Meets (Traced.step keptMessages true) Traced.Fresh
      (Traced.start keptMessages true : Traced plainNghttp2 _) twoResponses ∧
    let t := run (Traced.step keptMessages true)
      (Traced.start keptMessages true : Traced plainNghttp2 _) twoResponses
    AtRest t.net ∧ Delivery plainCodec keptMessages t .client ∧ t.handed .client =
      [(3, ([(Name.status, decimal 200)], [])), (1, ([(Name.status, decimal 200)], [7]))] := by
  have h : Meets (Traced.step keptMessages true) Traced.Fresh
      (Traced.start keptMessages true : Traced plainNghttp2 _) twoResponses := by decide
  refine ⟨h, ?_, messages_delivered plainCodec keptMessages_appends true twoResponses h .client,
    by decide⟩
  intro x
  cases x <;> decide

end Stuff.Http2Delivery
