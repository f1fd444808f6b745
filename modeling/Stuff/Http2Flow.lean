import Stuff.Http2Streams

/-!
# One direction of a connection

All streams of one side together with the connection window. The invariant
says that the connection and every stream are in one of the states a stream can
be in; the lemmas show that every move of the sender and every frame that the
parser takes off the channel keep it.
-/
namespace Stuff.Http2Flow
open MachineWords Http2Frames Http2Hpack Http2Output Http2Accounts Http2Parser Http2Net
open Http2OutputFraming (ends)
open CreditWindow Http2Streams

variable {N : Nghttp2} {M : Type}

/-- One direction: the sender's output and its messages, what is queued or on
its way behind it, the parser at the other end, and the increments on their
way back for each target. -/
structure Flow (N : Nghttp2) (M : Type) where
  output : Output N
  messages : List (UInt32 × Bytes)
  transit : List Frame
  main : Main N M
  exit : Exit
  grants : UInt32 → ℕ

/-- The HEADERS and DATA frames of one stream. -/
def inbound (id : UInt32) (fs : List Frame) : List Frame :=
  fs.filter fun f => (f.header.type = .headers ∨ f.header.type = .data) ∧ f.stream = id

theorem inbound_append (id : UInt32) (fs gs : List Frame) :
    inbound id (fs ++ gs) = inbound id fs ++ inbound id gs :=
  List.filter_append fs gs

theorem inbound_chunk (k id : UInt32) (d : Http2Output.Info) (len : ℕ) :
    inbound k (Output.chunkFrames id d len) =
      if id = k then Output.chunkFrames id d len else [] := by
  have hall := chunkFrames_isData id d len
  split_ifs with hk
  · apply List.filter_eq_self.mpr
    intro f hf
    simp [(hall f hf).1, (hall f hf).2.1.trans hk]
  · apply List.filter_eq_nil_iff.mpr
    intro f hf
    have hne : f.stream ≠ k := fun h => hk ((hall f hf).2.1.symm.trans h)
    simp [hne]

namespace Flow

def opened (F : Flow N M) (id : UInt32) : Prop := id ∈ F.messages.map Prod.fst

/-- The invariant of one direction. The phases matter only as long as the
parser is in use. -/
structure Inv (F : Flow N M) : Prop where
  zero : ¬ F.opened 0 ∧ F.output.info[(0 : UInt32)]? = none
  connection : Account 65535 F.output.budget.toNat (total dataAny F.transit) (F.grants 0) 0
    F.main.budget.toNat
  ledger : ∀ k ≠ 0, Ledger (F.opened k) F.output.info[k]? (total (dataOn k) F.transit)
    (F.grants k) (counterOf F.main.info[k]?)
  phase : F.exit = .done → ∀ k, Phase k (F.opened k) (bodyOf F.output.info[k]?)
    F.main.info[k]? (inbound k F.transit)

namespace Inv
variable {F : Flow N M}

theorem chunk (h : Inv F) {id : UInt32} {d : Http2Output.Info} {len : ℕ}
    (hd : F.output.info[id]? = some d) (hpos : 0 < len) (hbudget : len ≤ F.output.budget.toNat)
    (hwindow : len ≤ d.budget.toNat) (hbody : len ≤ d.body.length) :
    Inv { F with
      output := F.output.sendChunk id d len
      transit := F.transit ++ Output.chunkFrames id d len } := by
  have hid : id ≠ 0 := by
    rintro rfl
    rw [h.zero.2] at hd
    cases hd
  constructor
  · refine ⟨h.zero.1, ?_⟩
    rw [Output.sendChunk_info, if_neg hid]
    exact h.zero.2
  · have hsend := h.connection.send hbudget
    simp only [Output.sendChunk_budget, toNat_sub_ofNat hbudget, total_append,
      total_dataAny_chunk id hbody]
    exact hsend
  · intro k hk
    simp only [Output.sendChunk_info, total_append, total_dataOn_chunk k id hbody]
    have hledger := h.ledger k hk
    by_cases hik : id = k
    · subst hik
      rw [hd] at hledger
      rw [if_pos rfl, if_pos rfl]
      exact hledger.chunk hpos hwindow hbody
    · rw [if_neg hik, if_neg hik]
      exact hledger
  · intro hexit k
    have hphase := h.phase hexit k
    simp only [Output.sendChunk_info, inbound_append, inbound_chunk]
    by_cases hik : id = k
    · subst hik
      rw [hd] at hphase
      rw [if_pos rfl, if_pos rfl]
      have hrest : bodyOf (if len = d.body.length then none
          else some ⟨d.body.drop len, d.budget - UInt32.ofNat len⟩) = d.body.drop len := by
        split_ifs with hlast
        · rw [hlast, List.drop_length, bodyOf_none]
        · rfl
      rw [hrest]
      exact hphase.chunk hpos hbody
    · rw [if_neg hik, if_neg hik, List.append_nil]
      exact hphase

theorem erase (h : Inv F) {id : UInt32} {d : Http2Output.Info}
    (hd : F.output.info[id]? = some d) (hbody : d.body = []) :
    Inv { F with output := { F.output with info := F.output.info.erase id } } := by
  constructor
  · refine ⟨h.zero.1, ?_⟩
    rw [Output.erase_info, h.zero.2, ite_self]
  · exact h.connection
  · intro k hk
    have hledger := h.ledger k hk
    rw [Output.erase_info]
    by_cases hik : id = k
    · subst hik
      rw [hd] at hledger
      rw [if_pos rfl]
      exact hledger.erase hbody
    · rw [if_neg hik]
      exact hledger
  · intro hexit k
    have hphase := h.phase hexit k
    have hsame : bodyOf (if id = k then none else F.output.info[k]?) =
        bodyOf F.output.info[k]? := by
      split_ifs with hik
      · subst hik
        rw [hd, bodyOf_none, bodyOf_some, hbody]
      · rfl
    rw [Output.erase_info, hsame]
    exact hphase

/-- What every move of `flush` keeps, given the frames that are not yet handed
to the socket. -/
theorem move {Q : UInt32 → Http2Output.Info → Prop} {o : Output N} (h : Inv F)
    (hm : Output.FlushMove Q F.output o) {fs : List Frame}
    (hfs : o.writeQueue = F.output.writeQueue ++ fs) :
    Inv { F with output := o, transit := F.transit ++ fs } := by
  cases hm with
  | erase hd hbody hQ =>
      have hnil : fs = [] := by simpa using hfs
      rw [hnil, List.append_nil]
      exact h.erase hd hbody
  | @chunk id d len hd hpos hbudget hwindow hbody =>
      have hchunk : fs = Output.chunkFrames id d len := by simpa using hfs.symm
      rw [hchunk]
      exact h.chunk hd hpos hbudget hwindow hbody

theorem credit (h : Inv F) (id : UInt32) {g : UInt32 → ℕ}
    (hg : ∀ k, F.grants k = (if id = k then 65535 else 0) + g k) :
    Inv { F with output := F.output.credit id defaultWindowSize, grants := g } := by
  constructor
  · refine ⟨h.zero.1, ?_⟩
    rw [Output.credit_info, if_neg (fun hk => hk.1 hk.2)]
    exact h.zero.2
  · have hconnection := h.connection
    rw [hg 0] at hconnection
    rw [Output.credit_budget]
    by_cases hid : id = 0
    · rw [if_pos hid] at hconnection
      have hlt := hconnection.credit_lt
      rw [if_pos hid, toNat_add_of_lt (by rw [defaultWindowSize_toNat]; omega)]
      exact hconnection.credit
    · rw [if_neg hid, Nat.zero_add] at hconnection
      rw [if_neg hid]
      exact hconnection
  · intro k hk
    have hledger := h.ledger k hk
    rw [hg k] at hledger
    rw [Output.credit_info]
    by_cases hik : id = k
    · subst hik
      rw [if_pos rfl] at hledger
      rw [if_pos ⟨hk, rfl⟩, Std.TreeMap.getD_eq_getD_getElem?]
      exact hledger.credit
    · rw [if_neg hik, Nat.zero_add] at hledger
      rw [if_neg (fun h => hik h.2)]
      exact hledger
  · intro hexit k
    have hphase := h.phase hexit k
    have hsame : bodyOf (F.output.credit id defaultWindowSize).info[k]? =
        bodyOf F.output.info[k]? := by
      rw [Output.credit_info]
      split_ifs with hk
      · obtain ⟨-, rfl⟩ := hk
        rw [bodyOf_some, Std.TreeMap.getD_eq_getD_getElem?, bodyOf]
      · rfl
    rw [hsame]
    exact hphase

theorem message (h : Inv F) {id : UInt32} (hid : id ≠ 0) (hnew : ¬ F.opened id)
    (body block : Bytes) (d : N.Deflater) :
    Inv { F with
      output := F.output.withMessage id body block d
      messages := F.messages ++ [(id, body)]
      transit := F.transit ++ [headersFrame id body block] } := by
  have hopened {k : UInt32} (hk : id ≠ k) :
      k ∈ (F.messages ++ [(id, body)]).map Prod.fst ↔ F.opened k := by
    simp [opened, Ne.symm hk]
  have hself : (id ∈ (F.messages ++ [(id, body)]).map Prod.fst) = True := by simp
  constructor
  · refine ⟨fun hzero => h.zero.1 ((hopened hid).mp hzero), ?_⟩
    rw [Output.withMessage_info, if_neg (fun hk => hid hk.2)]
    exact h.zero.2
  · simp only [total_append, total_cons, total_nil, dataAny_headersFrame, Nat.add_zero]
    exact h.connection
  · intro k hk
    have hledger := h.ledger k hk
    simp only [total_append, total_cons, total_nil, dataOn_headersFrame, Nat.add_zero, opened]
    rw [Output.withMessage_info]
    by_cases hik : id = k
    · subst hik
      have hmessage := hledger.message hnew body
      rw [hself]
      simpa [Std.TreeMap.getD_eq_getD_getElem?] using hmessage
    · rw [if_neg (fun h => hik h.2), propext (hopened hik)]
      exact hledger
  · intro hexit k
    have hphase := h.phase hexit k
    simp only [inbound_append, opened]
    by_cases hik : id = k
    · subst hik
      have hnone : F.output.info[id]? = none := by
        cases h.ledger id hid with
        | unopened _ hentry => exact hentry
        | sending hopen => exact absurd hopen hnew
        | sent hopen => exact absurd hopen hnew
        | finished hopen => exact absurd hopen hnew
      have hrest : bodyOf (F.output.withMessage id body block d).info[id]? = body := by
        rw [Output.withMessage_info, hnone]
        by_cases hbody : body = [] <;> simp [hbody]
      rw [hself, hrest]
      have hin : inbound id [headersFrame id body block] = [headersFrame id body block] := by
        simp [inbound, headersFrame]
      rw [hin]
      exact hphase.message hnew body block
    · have hin : inbound k [headersFrame id body block] = [] := by
        simp [inbound, headersFrame, hik]
      rw [hin, List.append_nil, Output.withMessage_info, if_neg (fun h => hik h.2),
        propext (hopened hik)]
      exact hphase

/-- Frames that carry no message may come and go, and the rest of the state
does not matter. -/
theorem congr {F' : Flow N M} (h : Inv F) (hinfo : F'.output.info = F.output.info)
    (hbudget : F'.output.budget = F.output.budget) (hmessages : F'.messages = F.messages)
    (hmain : F'.main.info = F.main.info) (hcounter : F'.main.budget = F.main.budget)
    (hexit : F'.exit = .done → F.exit = .done) (hgrants : F'.grants = F.grants)
    (hany : total dataAny F'.transit = total dataAny F.transit)
    (hon : ∀ k, total (dataOn k) F'.transit = total (dataOn k) F.transit)
    (hinbound : F'.exit = .done → ∀ k, inbound k F'.transit = inbound k F.transit) :
    Inv F' := by
  obtain ⟨hzero, hconnection, hledger, hphase⟩ := h
  constructor
  · rwa [opened, hmessages, hinfo]
  · rwa [hbudget, hany, hgrants, hcounter]
  · intro k hk
    rw [opened, hmessages, hinfo, hon, hgrants, hmain]
    exact hledger k hk
  · intro hdone k
    rw [opened, hmessages, hinfo, hmain, hinbound hdone]
    exact hphase (hexit hdone) k

theorem dataOn_of_inbound_nil {id : UInt32} {fs : List Frame} (h : inbound id fs = []) :
    total (dataOn id) fs = 0 := by
  rw [total_eq_zero]
  intro g hg
  rw [dataOn, if_neg]
  intro hdata
  have hmem : g ∈ inbound id fs := by simp [inbound, hg, hdata]
  rw [h] at hmem
  cases hmem

theorem inbound_head {f : Frame} {rest : List Frame}
    (htype : f.header.type = .headers ∨ f.header.type = .data) :
    inbound f.stream (f :: rest) = f :: inbound f.stream rest := by
  simp [inbound, htype]

theorem inbound_head_ne {f : Frame} {rest : List Frame} {k : UInt32} (hk : f.stream ≠ k) :
    inbound k (f :: rest) = inbound k rest := by
  simp [inbound, hk]

/-- A HEADERS frame is taken off the channel. -/
theorem headers (h : Inv F) (hexit : F.exit = .done) {f : Frame} {rest : List Frame}
    (htransit : F.transit = f :: rest) (htype : f.header.type = .headers) (A : Messages M)
    {m : Main N M} (hheader : m.header = f.header) (hinfo : m.info = F.main.info)
    (hbudget : m.budget = F.main.budget) :
    Inv { F with
      transit := rest
      main := (m.processHeaders A).main
      exit := (m.processHeaders A).exit } := by
  have hphase := h.phase hexit f.stream
  rw [htransit, inbound_head (.inl htype)] at hphase
  obtain ⟨hopened, hnone, hflag, -, htail⟩ := hphase.headers htype
  have hid : f.stream ≠ 0 := by
    intro hzero
    rw [hzero] at hopened
    exact h.zero.1 hopened
  have hstream : m.header.stream = f.stream := by rw [hheader]; rfl
  have hgetD : m.info.getD m.header.stream {} = {} := by
    rw [Std.TreeMap.getD_eq_getD_getElem?, hstream, hinfo, hnone]
    rfl
  have hne {k : UInt32} (hk : f.stream ≠ k) :
      (m.processHeaders A).main.info[k]? = F.main.info[k]? := by
    rw [Main.processHeaders_info_ne A m (by rwa [hstream]), hinfo]
  have hresult := Main.processHeaders_result A m (by rwa [hstream])
  constructor
  · exact h.zero
  · have hconnection := h.connection
    rw [htransit, total_cons, dataAny, if_neg (by simp [htype]), Nat.zero_add] at hconnection
    rw [Main.processHeaders_budget, hbudget]
    exact hconnection
  · intro k hk
    have hledger := h.ledger k hk
    rw [htransit, total_cons, dataOn, if_neg (by simp [htype]), Nat.zero_add] at hledger
    by_cases hik : f.stream = k
    · subst hik
      have hcounter : counterOf (m.processHeaders A).main.info[f.stream]? = 65535 := by
        cases hresult with
        | kept hcreated hcalls hentry hdone =>
            rw [← hstream, hentry, hgetD]
            rfl
        | pushed hcreated hcalls hentry => rw [← hstream, hentry, counterOf_none]
      rw [hnone, counterOf_none] at hledger
      rw [hcounter]
      exact hledger
    · rw [hne hik]
      exact hledger
  · intro hdone k
    by_cases hik : f.stream = k
    · subst hik
      cases hresult with
      | @kept _ x noBody hcreated hcalls hentry hflags =>
          obtain ⟨hnoBody, hopen⟩ := hflags hdone
          rw [hheader, hflag, Bool.true_and] at hopen
          rw [hgetD, hheader, hopen] at hnoBody
          have hends : ends f = false := by simpa [ends] using hnoBody.symm
          rw [hends, if_neg (by simp)] at htail
          rw [hstream] at hentry
          exact .receiving hopened hentry rfl hopen htail
      | pushed hcreated hcalls hentry hexit' hflags =>
          rw [hgetD, hheader, hflag] at hflags
          have hends : ends f = true := by simpa [ends] using hflags
          rw [hends, if_pos rfl] at htail
          rw [hstream] at hentry
          rw [htail.2]
          exact .finished hopened htail.1 hentry
    · have hphase := h.phase hexit k
      rw [htransit, inbound_head_ne hik] at hphase
      rw [hne hik]
      exact hphase

/-- What a DATA frame finds: the entry of its stream with a message, and two
counters that cover its payload. -/
theorem data_fits (h : Inv F) (hexit : F.exit = .done) {f : Frame} {rest : List Frame}
    (htransit : F.transit = f :: rest) (htype : f.header.type = .data) :
    f.stream ≠ 0 ∧ Sized f ∧ 0 < f.payload.length ∧
    f.payload.length ≤ F.main.budget.toNat ∧
    ∃ d x, F.main.info[f.stream]? = some d ∧ d.message = some x ∧ d.noBody = false ∧
      f.payload.length ≤ d.budget.toNat := by
  have hphase := h.phase hexit f.stream
  rw [htransit, inbound_head (.inr htype)] at hphase
  obtain ⟨hopened, ⟨d, hentry, hmessage, hnoBody⟩, htail⟩ := hphase.data htype
  obtain ⟨x, hx⟩ := Option.isSome_iff_exists.mp hmessage
  obtain ⟨⟨-, -, hpos, -⟩, hsized⟩ := htail.data f (by simp)
  have hid : f.stream ≠ 0 := by
    intro hzero
    rw [hzero] at hopened
    exact h.zero.1 hopened
  have hconnection := h.connection
  rw [htransit, total_cons, dataAny, if_pos htype] at hconnection
  have hledger := h.ledger f.stream hid
  rw [htransit, total_cons, dataOn, if_pos ⟨htype, rfl⟩, hentry, counterOf_some] at hledger
  have hbytes := hconnection.bytes_le
  have hcover := hledger.bytes_le (by omega)
  exact ⟨hid, hsized, hpos, by omega, d, x, hentry, hx, hnoBody, by omega⟩

/-- The increments that `process_data` sends for a target. -/
def due (F : Flow N M) (f : Frame) (d : Http2Parser.Info M) (k : UInt32) : ℕ :=
  if k = 0 then granted 65535 (F.main.budget.toNat - f.payload.length)
  else if f.stream = k ∧ ends f = false then granted 65535 (d.budget.toNat - f.payload.length)
  else 0

theorem counter_topUp (id : UInt32) {current : UInt32} {n : ℕ} (h : n ≤ current.toNat) :
    (Main.topUp id (current - UInt32.ofNat n) true : List (ApiCall M) × UInt32).2.toNat =
      current.toNat - n + granted 65535 (current.toNat - n) := by
  rw [Main.topUp_counter id h]
  unfold granted Main.Low
  by_cases hlow : current.toNat - n < 65535 <;> simp [hlow]

/-- A DATA frame is taken off the channel. -/
theorem data (h : Inv F) (hexit : F.exit = .done) {f : Frame} {rest : List Frame}
    (htransit : F.transit = f :: rest) (htype : f.header.type = .data)
    {m : Main N M} (hheader : m.header = f.header) (hpayload : m.body = f.payload)
    (hinfo : m.info = F.main.info) (hbudget : m.budget = F.main.budget)
    {d : Http2Parser.Info M} (hd : F.main.info[f.stream]? = some d) (x : M) :
    Inv { F with
      transit := rest
      main := (m.account f.stream d x).main
      grants := fun k => F.grants k + due F f d k } := by
  obtain ⟨hid, -, hpos, hfits, d', y, hd', hy, hnoBody, hwindow⟩ :=
    h.data_fits hexit htransit htype
  cases hd.symm.trans hd'
  have hphase := h.phase hexit f.stream
  rw [htransit, inbound_head (.inr htype)] at hphase
  obtain ⟨hopened, -, htail⟩ := hphase.data htype
  have hentry (k : UInt32) := m.account_info f.stream d x k
  have hends : m.header.has Flags.endStream = ends f := by rw [hheader]; rfl
  simp only [hends, hpayload, hinfo] at hentry
  constructor
  · exact h.zero
  · have hconnection := h.connection
    rw [htransit, total_cons, dataAny, if_pos htype] at hconnection
    rw [Main.account_budget, hbudget, hpayload, counter_topUp 0 hfits]
    exact hconnection.receive
  · intro k hk
    have hledger := h.ledger k hk
    rw [htransit, total_cons] at hledger
    change Ledger (F.opened k) F.output.info[k]? (total (dataOn k) rest)
      (F.grants k + due F f d k) (counterOf (m.account f.stream d x).main.info[k]?)
    rw [due, if_neg hk, hentry k]
    by_cases hik : f.stream = k
    · subst hik
      rw [dataOn, if_pos ⟨htype, rfl⟩, hd, counterOf_some] at hledger
      cases hends' : ends f with
      | true =>
          obtain ⟨hrest, hnil⟩ := htail.final hends'
          have hzero := dataOn_of_inbound_nil hnil
          rw [hzero, Nat.add_zero] at hledger
          have hfinish := hledger.finish hpos hrest
          simpa [hzero] using hfinish
      | false =>
          have hreceive := hledger.receive hpos
          rw [← counter_topUp (M := M) f.stream hwindow] at hreceive
          simpa using hreceive
    · rw [dataOn, if_neg (fun h => hik h.2), Nat.zero_add] at hledger
      rw [if_neg hik, if_neg (fun h => hik h.1), Nat.add_zero]
      exact hledger
  · intro _ k
    rw [hentry k]
    by_cases hik : f.stream = k
    · subst hik
      rw [if_pos rfl]
      cases hends' : ends f with
      | true =>
          obtain ⟨hrest, hnil⟩ := htail.final hends'
          rw [hnil]
          exact .finished hopened hrest (by simp)
      | false =>
          rw [if_neg (by simp)]
          exact .receiving hopened rfl rfl hnoBody (htail.next hends')
    · have hphase := h.phase hexit k
      rw [htransit, inbound_head_ne hik] at hphase
      rw [if_neg hik]
      exact hphase

end Inv
end Flow
end Stuff.Http2Flow
