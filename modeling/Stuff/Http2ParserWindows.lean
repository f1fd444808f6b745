import Stuff.EventRuns
import Stuff.Http2Parser

/-!
# The receiver against an arbitrary peer

The parser checks a DATA frame against its two counters by assertions only, and
it trusts the pad length of a HEADERS frame. The ledger is what the peer can
compute from the wire: the windows it was granted, less the payload it sent.
A run is free of faults exactly when the peer keeps to the ledger and pads no
frame beyond its end.
-/
namespace Stuff.Http2ParserWindows
open MachineWords Http2Frames Http2Hpack Http2Parser EventRuns
open Exit (Reported reported_done reported_thrown)

variable {N : Nghttp2} {M : Type}

/-- The windows the peer has left, as exact integers. -/
structure Ledger where
  connection : ℤ := 65535
  stream : UInt32 → ℤ := fun _ => 65535

namespace Ledger

def spend (l : Ledger) (id : UInt32) (n : ℕ) : Ledger :=
  ⟨l.connection - n, Function.update l.stream id (l.stream id - n)⟩

def grant (l : Ledger) (id : UInt32) (n : ℕ) : Ledger :=
  if id = 0 then { l with connection := l.connection + n }
  else { l with stream := Function.update l.stream id (l.stream id + n) }

/-- The peer sees the window updates; the end of a message closes its stream. -/
def call (l : Ledger) : ApiCall M → Ledger
  | .send f => if f.header.type = .windowUpdate then l.grant f.stream (increment f) else l
  | .processMessage id _ => { l with stream := Function.update l.stream id 65535 }
  | _ => l

end Ledger

/-- A parser in use: with the ledger of its peer, and how its last call ended.
A call that does not return ends the read loop. -/
structure Receiver (N : Nghttp2) (M : Type) where
  main : Main N M
  ledger : Ledger := {}
  exit : Exit := .done

namespace Receiver

def start (mode : Mode) : Receiver N M := { main := .start mode }

/-- The payload of a DATA frame counts once its last byte is received. -/
def spent (s : Receiver N M) (aBuffer : Bytes) : Ledger :=
  if s.main.stage = .body ∧ s.main.header.type = .data then
    s.ledger.spend s.main.header.stream aBuffer.length
  else s.ledger

def step (A : Messages M) (debug : Bool) (s : Receiver N M) (aBuffer : Bytes) : Receiver N M :=
  if s.exit = .done then
    let r := s.main.process A debug aBuffer
    ⟨r.main, r.calls.foldl Ledger.call (s.spent aBuffer), r.exit⟩
  else s

/-- The read loop hands over buffers of the size the parser asks for. -/
def AtHint (s : Receiver N M) (aBuffer : Bytes) : Prop := aBuffer.length = s.main.hint

/-- `process_data` would take more from a counter than it holds. -/
def Underflows (m : Main N M) (aBuffer : Bytes) : Prop :=
  m.stage = .body ∧ m.header.type = .data ∧ m.header.stream ≠ 0 ∧
    ∃ d, m.info[m.header.stream]? = some d ∧
      (m.budget.toNat < aBuffer.length ∨ d.budget.toNat < aBuffer.length)

/-- The call fails only by throwing, and takes no counter below zero. -/
def Faultless (A : Messages M) (debug : Bool) (s : Receiver N M) (aBuffer : Bytes) : Prop :=
  s.exit = .done →
    Reported (s.main.process A debug aBuffer).exit ∧ ¬ Underflows s.main aBuffer

/-- The peer sends data of an open stream only within its windows, and no
HEADERS or CONTINUATION frame with more padding than bytes. -/
def Obeys (s : Receiver N M) (aBuffer : Bytes) : Prop :=
  s.exit = .done → s.main.stage = .body → s.main.header.stream ≠ 0 →
    (s.main.header.type = .data → s.main.header.stream ∈ s.main.info →
      aBuffer.length ≤ s.ledger.connection ∧
      aBuffer.length ≤ s.ledger.stream s.main.header.stream) ∧
    (s.main.header.type = .headers ∨ s.main.header.type = .continuation →
      ¬ Overpadded s.main.header aBuffer)

/-- The counters of the parser are the peer's ledger. -/
structure Agrees (s : Receiver N M) : Prop where
  connection : s.ledger.connection = s.main.budget.toNat
  stream : ∀ id, s.ledger.stream id =
    ((s.main.info[id]?.map Info.budget).getD defaultWindowSize).toNat
  message : ∀ (id : UInt32) (d : Info M), s.main.info[id]? = some d → d.message.isSome

theorem agrees_start (mode : Mode) : Agrees (start mode : Receiver N M) where
  connection := rfl
  stream := by simp [start, Main.start]
  message := by simp [start, Main.start]

/-! ## How a call can end -/

section Exits
variable (A : Messages M) (debug : Bool) (m : Main N M) (aBuffer : Bytes)

theorem recvHello_reported : Reported (m.recvHello aBuffer).exit := by
  unfold Main.recvHello
  split_ifs
  · exact reported_thrown _
  · exact reported_done

theorem recvHeader_reported : Reported (m.recvHeader aBuffer).exit := by
  unfold Main.recvHeader
  split
  · exact reported_thrown _
  · exact reported_done

theorem clientCheck_reported : Reported (m.clientCheck aBuffer).exit := by
  have h := recvHeader_reported m aBuffer
  unfold Main.clientCheck
  dsimp only
  split_ifs
  · exact h
  · exact reported_thrown _
  · exact h

theorem processSettings_reported : Reported m.processSettings.exit := by
  unfold Main.processSettings
  split_ifs
  · exact reported_done
  · split
    · exact reported_thrown _
    · exact reported_done

theorem processWindowUpdate_reported : Reported m.processWindowUpdate.exit := by
  unfold Main.processWindowUpdate
  split
  · exact reported_done
  · exact reported_thrown _

theorem packet_exit : (m.packet A debug aBuffer).exit =
    ({ m with body := aBuffer }.processPacket A debug).exit := by
  unfold Main.packet
  dsimp only
  split_ifs <;> rfl

theorem process_body (hstage : m.stage = .body) (hat : aBuffer.length = m.hint) :
    m.process A debug aBuffer = m.packet A debug aBuffer := by
  have hsize : aBuffer.length = m.header.size.toNat := by simpa [Main.hint, hstage] using hat
  simp [Main.process, hstage, Main.recvBody, hsize]

theorem process_reported (hstage : m.stage ≠ .body) :
    Reported (m.process A debug aBuffer).exit := by
  unfold Main.process
  cases h : m.stage with
  | hello => exact recvHello_reported m aBuffer
  | header => exact recvHeader_reported m aBuffer
  | body => exact absurd h hstage
  | clientHello => exact reported_done
  | clientWait => exact clientCheck_reported m aBuffer

/-- A DATA frame within both counters returns or throws. -/
theorem processData_reported
    (hmessage : ∀ (id : UInt32) (d : Info M), m.info[id]? = some d → d.message.isSome)
    (hfits : m.header.stream ≠ 0 → ∀ d, m.info[m.header.stream]? = some d →
      m.body.length ≤ m.budget.toNat ∧ m.body.length ≤ d.budget.toNat) :
    Reported (m.processData A debug).exit := by
  by_cases hid : m.header.stream = 0
  · simp [Main.processData, hid, Main.throws, reported_thrown]
  · cases hd : m.info[m.header.stream]? with
    | none => simp [Main.processData, hid, hd, Main.throws, reported_thrown]
    | some d =>
        obtain ⟨x, hx⟩ := Option.isSome_iff_exists.mp (hmessage _ d hd)
        obtain ⟨hb, hs⟩ := hfits hid d hd
        rw [Main.processData_eq A debug m hid hd hx hb hs, Main.account_exit]
        exact reported_done

end Exits

/-- The ledger of an open stream is the counter of its entry. -/
theorem Agrees.stream_of_some {s : Receiver N M} (hs : Agrees s) {id : UInt32} {d : Info M}
    (hd : s.main.info[id]? = some d) : s.ledger.stream id = d.budget.toNat := by
  rw [hs.stream, hd]
  rfl

/-- The body a call of `process` sees in the body stage. -/
def received (s : Receiver N M) (aBuffer : Bytes) : Main N M := { s.main with body := aBuffer }

@[simp] theorem received_header (s : Receiver N M) (aBuffer : Bytes) :
    (s.received aBuffer).header = s.main.header := rfl

@[simp] theorem received_info (s : Receiver N M) (aBuffer : Bytes) :
    (s.received aBuffer).info = s.main.info := rfl

theorem data_faultless_iff (A : Messages M) (debug : Bool) {s : Receiver N M} {aBuffer : Bytes}
    (hs : Agrees s) (hstage : s.main.stage = .body) (htype : s.main.header.type = .data) :
    Reported ((s.received aBuffer).processPacket A debug).exit ∧ ¬ Underflows s.main aBuffer ↔
      (s.main.header.stream ≠ 0 → s.main.header.stream ∈ s.main.info →
        aBuffer.length ≤ s.ledger.connection ∧
        aBuffer.length ≤ s.ledger.stream s.main.header.stream) := by
  have hpacket : (s.received aBuffer).processPacket A debug =
      (s.received aBuffer).processData A debug := by
    simp only [Main.processPacket, received, htype]
  constructor
  · rintro ⟨-, hunder⟩ hid hmem
    obtain ⟨d, hd⟩ := Option.isSome_iff_exists.mp
      (by rwa [Std.TreeMap.isSome_getElem?_iff_mem] : s.main.info[s.main.header.stream]?.isSome)
    rw [hs.connection, hs.stream_of_some hd]
    by_contra hlow
    exact hunder ⟨hstage, htype, hid, d, hd, by omega⟩
  · intro hfits
    have hsome : s.main.header.stream ≠ 0 → ∀ d, s.main.info[s.main.header.stream]? = some d →
        aBuffer.length ≤ s.main.budget.toNat ∧ aBuffer.length ≤ d.budget.toNat := by
      intro hid d hd
      have hmem : s.main.header.stream ∈ s.main.info := by
        rw [← Std.TreeMap.isSome_getElem?_iff_mem, hd]
        rfl
      have h := hfits hid hmem
      rw [hs.connection, hs.stream_of_some hd] at h
      omega
    refine ⟨?_, ?_⟩
    · rw [hpacket]
      exact processData_reported A debug _ hs.message hsome
    · rintro ⟨-, -, hid, d, hd, hlow⟩
      have h := hsome hid d hd
      omega

/-- In a state that agrees with the ledger, the two conditions are the same. -/
theorem faultless_iff_obeys (A : Messages M) (debug : Bool) {s : Receiver N M}
    {aBuffer : Bytes} (hs : s.exit = .done → Agrees s) (hat : AtHint s aBuffer) :
    Faultless A debug s aBuffer ↔ Obeys s aBuffer := by
  unfold Faultless Obeys
  refine imp_congr_right fun hexit => ?_
  have ha := hs hexit
  by_cases hstage : s.main.stage = .body
  swap
  · have hr := process_reported A debug s.main aBuffer hstage
    simp [hstage, hr, Underflows]
  rw [process_body A debug s.main aBuffer hstage hat, packet_exit]
  have hlen : aBuffer.length < 2 ^ 24 := by
    have hsize : aBuffer.length = s.main.hint := hat
    rw [hsize, Main.hint, hstage]
    exact s.main.header.size.isLt
  have hheaders := Main.processHeaders_reported_iff A (s.received aBuffer) hlen
  change Reported ((s.received aBuffer).processPacket A debug).exit ∧ _ ↔ _
  cases htype : s.main.header.type with
  | data =>
      rw [data_faultless_iff A debug ha hstage htype]
      simp [hstage]
  | headers | continuation =>
      have hpacket : (s.received aBuffer).processPacket A debug =
          (s.received aBuffer).processHeaders A := by
        simp only [Main.processPacket, received, htype]
      rw [hpacket, hheaders]
      simp [hstage, Underflows, htype, received]
  | settings =>
      have hr := processSettings_reported (s.received aBuffer)
      simp only [Main.processPacket, received, htype] at hr ⊢
      simp [hr, Underflows, htype]
  | windowUpdate =>
      have hr := processWindowUpdate_reported (s.received aBuffer)
      simp only [Main.processPacket, received, htype] at hr ⊢
      simp [hr, Underflows, htype]
  | _ => simp [Main.processPacket, received, htype, reported_done, Underflows]

/-! ## The counters stay in step with the ledger -/

theorem foldl_call_topUp (l : Ledger) (id : UInt32) {current : UInt32} {n : ℕ}
    (h : n ≤ current.toNat) :
    (Main.topUp id (current - UInt32.ofNat n) true : List (ApiCall M) × UInt32).1.foldl
      Ledger.call l = if Main.Low current n then l.grant id 65535 else l := by
  rw [Main.topUp_calls id h]
  by_cases hlow : Main.Low current n <;> simp [hlow, Ledger.call, windowUpdateFrame]
  rfl

theorem foldl_call_created (l : Ledger) (id : UInt32) {created : List (ApiCall M)}
    (h : ∀ c ∈ created, c = .newMessage id) : created.foldl Ledger.call l = l := by
  induction created generalizing l with
  | nil => rfl
  | cons c created ih =>
      have hc := h c (by simp)
      subst hc
      exact ih _ (fun c hc => h c (by simp [hc]))

/-- A DATA frame within both windows moves counters and ledger alike. -/
theorem agrees_account {s : Receiver N M} (hs : Agrees s) {aBuffer : Bytes} {d : Info M}
    (hid : s.main.header.stream ≠ 0) (hd : s.main.info[s.main.header.stream]? = some d)
    (hb : aBuffer.length ≤ s.main.budget.toNat) (hw : aBuffer.length ≤ d.budget.toNat) (x : M) :
    Agrees
      { main := ((s.received aBuffer).account s.main.header.stream d x).main
        ledger := ((s.received aBuffer).account s.main.header.stream d x).calls.foldl Ledger.call
          (s.ledger.spend s.main.header.stream aBuffer.length)
        exit := .done } := by
  have hc := Main.topUp_counter (M := M) 0 hb true
  have hc' := Main.topUp_counter (M := M) s.main.header.stream hw true
  have hlc := hs.connection
  have hls := hs.stream_of_some hd
  refine ⟨?_, ?_, ?_⟩
  · simp only [Main.account_budget, Main.account_calls, received, List.foldl_append,
      foldl_call_topUp _ 0 hb, hc]
    by_cases hend : s.main.header.has Flags.endStream <;>
      by_cases hl : Main.Low s.main.budget aBuffer.length <;>
      by_cases hl' : Main.Low d.budget aBuffer.length <;>
      simp [hend, hl, hl', foldl_call_topUp _ _ hw, Ledger.call, Ledger.grant, Ledger.spend,
        hid] <;>
      omega
  · intro k
    simp only [Main.account_info, Main.account_calls, received, List.foldl_append,
      foldl_call_topUp _ 0 hb]
    have hk := hs.stream k
    by_cases hik : s.main.header.stream = k
    · subst hik
      by_cases hend : s.main.header.has Flags.endStream
      · simp [hend, Ledger.call]
      · by_cases hl : Main.Low s.main.budget aBuffer.length <;>
          by_cases hl' : Main.Low d.budget aBuffer.length <;>
          simp [hend, hl, hl', foldl_call_topUp _ _ hw, Ledger.grant, Ledger.spend, hid, hc'] <;>
          omega
    · by_cases hend : s.main.header.has Flags.endStream <;>
        by_cases hl : Main.Low s.main.budget aBuffer.length <;>
        by_cases hl' : Main.Low d.budget aBuffer.length <;>
        simp [hend, hl, hl', hik, foldl_call_topUp _ _ hw, Ledger.call, Ledger.grant, Ledger.spend,
          hid, hk, Function.update_of_ne (Ne.symm hik)]
  · intro k e he
    simp only [Main.account_info, received] at he
    split_ifs at he
    · cases he
      rfl
    · exact hs.message k e he

theorem agrees_headers (A : Messages M) {s : Receiver N M} (hs : Agrees s) {aBuffer : Bytes}
    (hid : s.main.header.stream ≠ 0) :
    Agrees
      { main := ((s.received aBuffer).processHeaders A).main
        ledger := ((s.received aBuffer).processHeaders A).calls.foldl Ledger.call s.ledger
        exit := .done } := by
  have hne {k : UInt32} (hk : s.main.header.stream ≠ k) :=
    Main.processHeaders_info_ne A (s.received aBuffer) hk
  have hbudget := Main.processHeaders_budget A (s.received aBuffer)
  have hgetD : ((s.main.info.getD s.main.header.stream {}).budget.toNat : ℤ) =
      s.ledger.stream s.main.header.stream := by
    rw [hs.stream, Std.TreeMap.getD_eq_getD_getElem?]
    cases s.main.info[s.main.header.stream]? <;> rfl
  cases Main.processHeaders_result A (s.received aBuffer) hid with
  | kept hcreated hcalls hinfo hdone =>
      simp only [received_header, received_info] at hcreated hinfo
      refine ⟨?_, ?_, ?_⟩
      · simp only [hcalls, foldl_call_created _ _ hcreated, hbudget]
        exact hs.connection
      · intro k
        simp only [hcalls, foldl_call_created _ _ hcreated]
        by_cases hk : s.main.header.stream = k
        · subst hk
          rw [hinfo]
          exact hgetD.symm
        · rw [hne hk]
          exact hs.stream k
      · intro k e he
        by_cases hk : s.main.header.stream = k
        · subst hk
          cases hinfo.symm.trans he
          rfl
        · exact hs.message k e ((hne hk).symm.trans he)
  | pushed hcreated hcalls hinfo hexit hflags =>
      simp only [received_header] at hcreated hcalls hinfo
      refine ⟨?_, ?_, ?_⟩
      · simp only [hcalls, List.foldl_append, foldl_call_created _ _ hcreated, hbudget]
        exact hs.connection
      · intro k
        simp only [hcalls, List.foldl_append, foldl_call_created _ _ hcreated, List.foldl_cons,
          List.foldl_nil, Ledger.call]
        by_cases hk : s.main.header.stream = k
        · subst hk
          rw [hinfo, Function.update_self]
          rfl
        · rw [hne hk, Function.update_of_ne (Ne.symm hk)]
          exact hs.stream k
      · intro k e he
        by_cases hk : s.main.header.stream = k
        · subst hk
          cases hinfo.symm.trans he
        · exact hs.message k e ((hne hk).symm.trans he)

theorem Agrees.congr {s t : Receiver N M} (hs : Agrees s) (hbudget : t.main.budget = s.main.budget)
    (hinfo : t.main.info = s.main.info) (hledger : t.ledger = s.ledger) : Agrees t := by
  obtain ⟨h₁, h₂, h₃⟩ := hs
  exact ⟨by rwa [hbudget, hledger], by rwa [hinfo, hledger], by rwa [hinfo]⟩

/-- Stages in front of a frame's body leave the counters and the ledger alone. -/
theorem process_quiet (A : Messages M) (debug : Bool) (m : Main N M) (aBuffer : Bytes)
    (hstage : m.stage ≠ .body) :
    (m.process A debug aBuffer).main.budget = m.budget ∧
    (m.process A debug aBuffer).main.info = m.info ∧
    ∀ l, (m.process A debug aBuffer).calls.foldl Ledger.call l = l := by
  have hheader : (m.recvHeader aBuffer).main.budget = m.budget ∧
      (m.recvHeader aBuffer).main.info = m.info ∧ (m.recvHeader aBuffer).calls = [] := by
    unfold Main.recvHeader
    split <;> exact ⟨rfl, rfl, rfl⟩
  unfold Main.process
  cases h : m.stage with
  | hello =>
      simp only [Main.recvHello]
      split_ifs <;> exact ⟨rfl, rfl, fun _ => rfl⟩
  | header => exact ⟨hheader.1, hheader.2.1, fun l => by rw [hheader.2.2]; rfl⟩
  | body => exact absurd h hstage
  | clientHello => exact ⟨rfl, rfl, fun _ => rfl⟩
  | clientWait =>
      simp only [Main.clientCheck]
      split_ifs
      · exact ⟨hheader.1, hheader.2.1, fun l => by rw [hheader.2.2]; rfl⟩
      · exact ⟨hheader.1, hheader.2.1, fun _ => rfl⟩
      · exact ⟨hheader.1, hheader.2.1, fun l => by rw [hheader.2.2]; rfl⟩

/-- The frames without accounting leave the counters and the ledger alone. -/
theorem processPacket_quiet (A : Messages M) (debug : Bool) (m : Main N M)
    (hdata : m.header.type ≠ .data) (hheaders : m.header.type ≠ .headers)
    (hcontinuation : m.header.type ≠ .continuation) :
    (m.processPacket A debug).main.budget = m.budget ∧
    (m.processPacket A debug).main.info = m.info ∧
    ∀ l, (m.processPacket A debug).calls.foldl Ledger.call l = l := by
  unfold Main.processPacket
  cases h : m.header.type with
  | data => exact absurd h hdata
  | headers => exact absurd h hheaders
  | continuation => exact absurd h hcontinuation
  | settings =>
      simp only [Main.processSettings]
      split_ifs
      · exact ⟨rfl, rfl, fun _ => rfl⟩
      · split <;> exact ⟨rfl, rfl, fun _ => rfl⟩
  | windowUpdate =>
      simp only [Main.processWindowUpdate]
      split <;> exact ⟨rfl, rfl, fun _ => rfl⟩
  | _ => exact ⟨rfl, rfl, fun _ => rfl⟩

/-- After a packet that was processed without fault, counters and ledger agree
again. -/
theorem agrees_packet (A : Messages M) (debug : Bool) {s : Receiver N M} {aBuffer : Bytes}
    (hs : Agrees s) (hstage : s.main.stage = .body) (hunder : ¬ Underflows s.main aBuffer)
    (hdone : ((s.received aBuffer).processPacket A debug).exit = .done) :
    Agrees
      { main := ((s.received aBuffer).processPacket A debug).main
        ledger := ((s.received aBuffer).processPacket A debug).calls.foldl Ledger.call
          (s.spent aBuffer)
        exit := .done } := by
  by_cases hdata : s.main.header.type = .data
  · have hpacket : (s.received aBuffer).processPacket A debug =
        (s.received aBuffer).processData A debug := by
      simp only [Main.processPacket, received, hdata]
    have hspent : s.spent aBuffer = s.ledger.spend s.main.header.stream aBuffer.length := by
      simp [spent, hstage, hdata]
    rw [hpacket] at hdone ⊢
    rw [hspent]
    have hid : s.main.header.stream ≠ 0 := by
      intro h
      simp [Main.processData, h, Main.throws] at hdone
    cases hd : s.main.info[s.main.header.stream]? with
    | none => simp [Main.processData, hid, hd, Main.throws] at hdone
    | some d =>
        obtain ⟨x, hx⟩ := Option.isSome_iff_exists.mp (hs.message _ d hd)
        have hfits : ¬ (s.main.budget.toNat < aBuffer.length ∨ d.budget.toNat < aBuffer.length) :=
          fun h => hunder ⟨hstage, hdata, hid, d, hd, h⟩
        have hb : aBuffer.length ≤ s.main.budget.toNat := by omega
        have hw : aBuffer.length ≤ d.budget.toNat := by omega
        rw [Main.processData_eq A debug (s.received aBuffer) hid hd hx hb hw]
        exact agrees_account hs hid hd hb hw _
  · have hspent : s.spent aBuffer = s.ledger := by simp [spent, hdata]
    rw [hspent]
    by_cases hheaders : s.main.header.type = .headers ∨ s.main.header.type = .continuation
    · have hpacket : (s.received aBuffer).processPacket A debug =
          (s.received aBuffer).processHeaders A := by
        rcases hheaders with h | h <;> simp only [Main.processPacket, received, h]
      rw [hpacket] at hdone ⊢
      have hid : s.main.header.stream ≠ 0 := by
        intro h
        rw [Main.processHeaders_exit, received_header, if_pos h] at hdone
        cases hdone
      exact agrees_headers A hs hid
    · obtain ⟨hb, hi, hl⟩ := processPacket_quiet A debug (s.received aBuffer) hdata
        (fun h => hheaders (.inl h)) (fun h => hheaders (.inr h))
      exact hs.congr hb hi (hl _)

theorem agrees_step (A : Messages M) (debug : Bool) {s : Receiver N M} {aBuffer : Bytes}
    (hs : s.exit = .done → Agrees s) (hat : AtHint s aBuffer)
    (hf : Faultless A debug s aBuffer) (hdone : (s.step A debug aBuffer).exit = .done) :
    Agrees (s.step A debug aBuffer) := by
  by_cases hexit : s.exit = .done
  swap
  · rw [step, if_neg hexit] at hdone
    exact absurd hdone hexit
  have ha := hs hexit
  rw [step, if_pos hexit] at hdone ⊢
  by_cases hstage : s.main.stage = .body
  · rw [process_body A debug s.main aBuffer hstage hat] at hdone ⊢
    have hpacket : ((s.received aBuffer).processPacket A debug).exit = .done :=
      (packet_exit A debug s.main aBuffer).symm.trans hdone
    have hp := agrees_packet A debug ha hstage (hf hexit).2 hpacket
    change ({ s.main with body := aBuffer }.processPacket A debug).exit = .done at hpacket
    simp only [Main.packet, hpacket, if_true]
    exact hp.congr rfl rfl rfl
  · obtain ⟨hb, hi, hl⟩ := process_quiet A debug s.main aBuffer hstage
    have hspent : s.spent aBuffer = s.ledger := by simp [spent, hstage]
    refine ha.congr hb hi ?_
    rw [hspent]
    exact hl _

/-- For every sequence of buffers, in debug and in release builds: all failures
are reported by throwing and no counter goes below zero exactly when the peer
obeys its windows and pads no frame beyond its end. -/
theorem faultless_iff_peer_obeys (A : Messages M) (debug : Bool) (mode : Mode)
    (bufs : List Bytes)
    (hat : Meets (step A debug) AtHint (start mode : Receiver N M) bufs) :
    Meets (step A debug) (Faultless A debug) (start mode : Receiver N M) bufs ↔
      Meets (step A debug) Obeys (start mode : Receiver N M) bufs :=
  meets_iff (I := fun s : Receiver N M => s.exit = .done → Agrees s)
    (fun _ _ hs h => faultless_iff_obeys A debug hs h)
    (fun _ _ hs h hf => agrees_step A debug hs h hf) (fun _ => agrees_start mode) hat

/-- A request of two frames within the windows: a HEADERS frame and a DATA
frame that ends the stream. -/
theorem faultless_iff_peer_obeys_sample :
    Meets (step keptMessages true) (Faultless keptMessages true)
      (start .server : Receiver staticNghttp2 _)
      [preface, [0, 0, 1, 1, 4, 0, 0, 0, 1], [0x82], [0, 0, 2, 0, 1, 0, 0, 0, 1], [7, 8]] := by
  refine (faultless_iff_peer_obeys keptMessages true .server _ ?_).mpr ?_
  · exact ⟨rfl, rfl, rfl, rfl, rfl, trivial⟩
  · refine ⟨?_, ?_, ?_, ?_, ?_, trivial⟩ <;> unfold Obeys <;> decide

/-- The buffers of a peer that opens stream 1 and announces a DATA frame of one
byte more than the default window. -/
def overrunOpening : List Bytes :=
  [preface, [0, 0, 1, 1, 4, 0, 0, 0, 1], [0x82], [1, 0, 0, 0, 0, 0, 0, 0, 1]]

/-- The body of that frame takes both counters below zero, and the first
assertion of `process_data` fails on it. -/
theorem overrun_not_faultless :
    Meets (step keptMessages true) AtHint (start .server : Receiver staticNghttp2 _)
      (overrunOpening ++ [List.replicate 65536 0]) ∧
    ¬ Meets (step keptMessages true) (Faultless keptMessages true)
      (start .server : Receiver staticNghttp2 _)
      (overrunOpening ++ [List.replicate 65536 0]) := by
  set s := run (step keptMessages true) (start .server : Receiver staticNghttp2 _) overrunOpening
    with hs
  have hbudget : s.main.budget.toNat = 65535 := by decide
  have hlen : (List.replicate 65536 (0 : UInt8)).length = 65536 := List.length_replicate
  constructor
  · rw [meets_concat]
    refine ⟨⟨rfl, rfl, rfl, rfl, trivial⟩, ?_⟩
    have hhint : s.main.hint = 65536 := by decide
    rw [← hs, AtHint, hlen, hhint]
  · rw [meets_concat, ← hs]
    rintro ⟨-, hf⟩
    have hopen : s.main.info[s.main.header.stream]?.isSome := by decide
    obtain ⟨d, hd⟩ := Option.isSome_iff_exists.mp hopen
    have hunder : Underflows s.main (List.replicate 65536 0) :=
      ⟨by decide, by decide, by decide, d, hd, .inl (by omega)⟩
    exact (hf (by decide)).2 hunder

end Receiver
end Stuff.Http2ParserWindows
