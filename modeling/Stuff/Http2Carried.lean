import Stuff.Http2FlowControl
import Stuff.Http2HpackSync

/-!
# What a direction carries

Beside the counters, a direction of a connection carries messages: their
header blocks in the order in which they were compressed, and the pieces of
their bodies. `Faithful` says where every message is: the rest of its body with
the sender, its frames on their way, the part the parser has put together, or
handed over. Every move of the sender keeps it.
-/
namespace Stuff.Http2Carried
open MachineWords Http2Frames Http2Hpack Http2Output Http2Accounts Http2Parser Http2Net
open Http2OutputFraming (ends)
open CoderSync Http2HpackSync Http2Streams Http2Flow Http2SenderFlow

variable {N : Nghttp2} {M : Type}

/-- A message as `enqueue` accepted it, with its header block. -/
structure Sent where
  id : UInt32
  pairs : List Pair
  body : Bytes
  block : Bytes
deriving DecidableEq, Repr

namespace Sent

def frame (c : Sent) : Frame := headersFrame c.id c.body c.block

end Sent

/-- What was handed over under an id. -/
def got (handed : List (UInt32 × M)) (id : UInt32) : List M :=
  (handed.filter fun p => p.1 = id).map Prod.snd

theorem got_append (handed more : List (UInt32 × M)) (id : UInt32) :
    got (handed ++ more) id = got handed id ++ got more id := by
  simp [got]

theorem got_single (k id : UInt32) (x : M) : got [(k, x)] id = if k = id then [x] else [] := by
  by_cases hk : k = id <;> simp [got, hk]

/-- The frames of messages, and the first frame of each message. -/
def messageFrames (fs : List Frame) : List Frame :=
  fs.filter fun f => f.header.type = .headers ∨ f.header.type = .data

def headerFrames (fs : List Frame) : List Frame := fs.filter fun f => f.header.type = .headers

theorem messageFrames_append (fs gs : List Frame) :
    messageFrames (fs ++ gs) = messageFrames fs ++ messageFrames gs :=
  List.filter_append fs gs

theorem headerFrames_append (fs gs : List Frame) :
    headerFrames (fs ++ gs) = headerFrames fs ++ headerFrames gs :=
  List.filter_append fs gs

theorem messageFrames_control {fs : List Frame} (h : ∀ f ∈ fs, IsControl f) :
    messageFrames fs = [] := by
  apply List.filter_eq_nil_iff.mpr
  intro f hf
  have hne := control_not_message (h f hf)
  simp [hne.1, hne.2]

theorem headerFrames_of_messages (fs : List Frame) :
    headerFrames (messageFrames fs) = headerFrames fs := by
  unfold headerFrames messageFrames
  rw [List.filter_filter]
  congr 1
  funext f
  by_cases hf : f.header.type = .headers <;> simp [hf]

theorem inbound_of_messages (id : UInt32) (fs : List Frame) :
    inbound id (messageFrames fs) = inbound id fs := by
  unfold inbound messageFrames
  rw [List.filter_filter]
  congr 1
  funext f
  by_cases hf : f.header.type = .headers ∨ f.header.type = .data <;> simp [hf]

theorem headerFrames_congr {fs gs : List Frame} (h : messageFrames fs = messageFrames gs) :
    headerFrames fs = headerFrames gs := by
  rw [← headerFrames_of_messages fs, h, headerFrames_of_messages]

theorem inbound_congr {fs gs : List Frame} (h : messageFrames fs = messageFrames gs)
    (id : UInt32) : inbound id fs = inbound id gs := by
  rw [← inbound_of_messages id fs, h, inbound_of_messages]

theorem headerFrames_chunk (id : UInt32) (d : Http2Output.Info) (len : ℕ) :
    headerFrames (Output.chunkFrames id d len) = [] := by
  apply List.filter_eq_nil_iff.mpr
  intro f hf
  simp [(chunkFrames_isData id d len f hf).1]

/-! ## Where a message is -/

section Content
variable (A : Messages M) (c : Sent)

/-- A message is handed over at most once, and as it was sent. -/
def Once (xs : List M) : Prop := xs = [] ∨ ∃ x, xs = [x] ∧ filled A c.id c.pairs c.body = .ok x

/-- The rest of the body with the sender, the parser's entry, the frames between
them, and what was handed over. -/
inductive Content (rest : Bytes) (entry : Option (Http2Parser.Info M)) :
    List Frame → List M → Prop
  | queued {hd : Frame} {datas : List Frame} (hentry : entry = none)
      (hbody : datas.flatMap Frame.payload ++ rest = c.body) :
      Content rest entry (hd :: datas) []
  | receiving {d : Http2Parser.Info M} {x : M} {part : Bytes} {fs : List Frame}
      (hentry : entry = some d) (hmessage : d.message = some x)
      (hpart : filled A c.id c.pairs part = .ok x)
      (hbody : part ++ (fs.flatMap Frame.payload ++ rest) = c.body) : Content rest entry fs []
  | finished {x : M} (hentry : entry = none) (hrest : rest = [])
      (hx : filled A c.id c.pairs c.body = .ok x) : Content rest entry [] [x]

variable {A c}

theorem Content.once {rest : Bytes} {entry : Option (Http2Parser.Info M)} {fs : List Frame}
    {xs : List M} (h : Content A c rest entry fs xs) : Once A c xs := by
  cases h with
  | queued hentry hbody => exact .inl rfl
  | receiving hentry hmessage hpart hbody => exact .inl rfl
  | @finished x hentry hrest hx => exact .inr ⟨x, rfl, hx⟩

/-- A piece of the body goes from the sender to the channel. -/
theorem Content.chunk {id : UInt32} {d : Http2Output.Info} {len : ℕ}
    {entry : Option (Http2Parser.Info M)} {fs : List Frame} {xs : List M}
    (h : Content A c d.body entry fs xs) (hpos : 0 < len) (hlen : len ≤ d.body.length) :
    Content A c (d.body.drop len) entry (fs ++ Output.chunkFrames id d len) xs := by
  cases h with
  | @queued hd datas hentry hbody =>
      have hpayload : (datas ++ Output.chunkFrames id d len).flatMap Frame.payload ++
          d.body.drop len = c.body := by
        rw [List.flatMap_append, chunkFrames_payload, List.append_assoc, List.take_append_drop]
        exact hbody
      exact .queued hentry hpayload
  | receiving hentry hmessage hpart hbody =>
      refine .receiving hentry hmessage hpart ?_
      rw [List.flatMap_append, chunkFrames_payload, List.append_assoc, List.take_append_drop]
      exact hbody
  | finished hentry hrest hx =>
      rw [hrest] at hlen
      exact absurd hlen (Nat.not_le_of_lt hpos)

/-- Before its HEADERS frame is read, nothing of a message is at the parser. -/
theorem Content.unread {rest : Bytes} {f : Frame} {fs : List Frame} {xs : List M}
    (h : Content A c rest none (f :: fs) xs) :
    xs = [] ∧ fs.flatMap Frame.payload ++ rest = c.body := by
  cases h with
  | queued hentry hbody => exact ⟨rfl, hbody⟩
  | receiving hentry => cases hentry

/-- As long as the parser has an entry, it holds the first part of the body. -/
theorem Content.partly {rest : Bytes} {d : Http2Parser.Info M} {fs : List Frame} {xs : List M}
    (h : Content A c rest (some d) fs xs) :
    xs = [] ∧ ∃ x part, d.message = some x ∧ filled A c.id c.pairs part = .ok x ∧
      part ++ (fs.flatMap Frame.payload ++ rest) = c.body := by
  cases h with
  | queued hentry => cases hentry
  | @receiving d' x part _ hentry hmessage hpart hbody =>
      cases hentry
      exact ⟨rfl, x, part, hmessage, hpart, hbody⟩
  | finished hentry => cases hentry

end Content

/-! ## A direction that carries messages -/

/-- What makes the reader of a direction fail: a header block that does not fit
into a frame, pairs that the library does not read, or a message that refuses
one of them. -/
def Refused (C : Codec N) (A : Messages M) (c : Sent) : Prop :=
  2 ^ 24 ≤ c.block.length ∨ ¬ C.Readable c.pairs ∨ ∃ e, filled A c.id c.pairs c.body = .error e

structure Faithful (C : Codec N) (A : Messages M) (sent : List Sent) (handed : List (UInt32 × M))
    (F : Flow N M) : Prop where
  distinct : (sent.map Sent.id).Nodup
  messages : F.messages = sent.map fun c => (c.id, c.body)
  unknown : ∀ k, k ∉ sent.map Sent.id → got handed k = []
  once : ∀ c ∈ sent, Once A c (got handed c.id)
  coded : F.exit = .done → ∃ l : List Sent, (∀ c ∈ l, c ∈ sent) ∧
    headerFrames F.transit = l.map Sent.frame ∧
    Coded C.toInStep F.main.inflater (l.map fun c => (c.block, c.pairs)) F.output.deflater
  content : F.exit = .done → ∀ c ∈ sent, Content A c (bodyOf F.output.info[c.id]?)
    F.main.info[c.id]? (inbound c.id F.transit) (got handed c.id)
  refused : F.exit ≠ .done → ∃ c ∈ sent, Refused C A c

namespace Faithful
variable {C : Codec N} {A : Messages M} {sent : List Sent} {handed : List (UInt32 × M)}
variable {F F' : Flow N M}

theorem opened_iff (h : Faithful C A sent handed F) (id : UInt32) :
    F.opened id ↔ id ∈ sent.map Sent.id := by
  simp [Flow.opened, h.messages]

/-- Only the bodies, the messages' frames and the parser's state matter. -/
theorem congr (h : Faithful C A sent handed F)
    (hbody : ∀ k : UInt32, bodyOf F'.output.info[k]? = bodyOf F.output.info[k]?)
    (hdeflater : F'.output.deflater = F.output.deflater) (hmessages : F'.messages = F.messages)
    (hframes : messageFrames F'.transit = messageFrames F.transit)
    (hinfo : F'.main.info = F.main.info) (hinflater : F'.main.inflater = F.main.inflater)
    (hexit : F'.exit = F.exit) : Faithful C A sent handed F' := by
  constructor
  · exact h.distinct
  · rw [hmessages]
    exact h.messages
  · exact h.unknown
  · exact h.once
  · intro hdone
    rw [hdeflater, hinflater, headerFrames_congr hframes]
    exact h.coded (hexit ▸ hdone)
  · intro hdone c hc
    rw [hbody, hinfo, inbound_congr hframes]
    exact h.content (hexit ▸ hdone) c hc
  · rw [hexit]
    exact h.refused

/-- A failed compression only moves the compressor. -/
theorem failed (h : Faithful C A sent handed F) {pairs : List Pair} {d : N.Deflater}
    (hw : N.deflateHd F.output.deflater pairs = (none, d)) :
    Faithful C A sent handed { F with output := { F.output with deflater := d } } := by
  constructor
  · exact h.distinct
  · exact h.messages
  · exact h.unknown
  · exact h.once
  · intro hdone
    obtain ⟨l, hl, hheaders, hcoded⟩ := h.coded hdone
    exact ⟨l, hl, hheaders, hcoded.failed hw⟩
  · exact h.content
  · exact h.refused

theorem chunk (h : Faithful C A sent handed F) {id : UInt32} {d : Http2Output.Info} {len : ℕ}
    (hd : F.output.info[id]? = some d) (hpos : 0 < len) (hlen : len ≤ d.body.length) :
    Faithful C A sent handed { F with
      output := F.output.sendChunk id d len
      transit := F.transit ++ Output.chunkFrames id d len } := by
  constructor
  · exact h.distinct
  · exact h.messages
  · exact h.unknown
  · exact h.once
  · intro hdone
    obtain ⟨l, hl, hheaders, hcoded⟩ := h.coded hdone
    refine ⟨l, hl, ?_, hcoded⟩
    rw [headerFrames_append, headerFrames_chunk, List.append_nil]
    exact hheaders
  · intro hdone c hc
    have hcontent := h.content hdone c hc
    simp only [Output.sendChunk_info, inbound_append, inbound_chunk]
    by_cases hid : id = c.id
    · subst hid
      rw [hd] at hcontent
      rw [if_pos rfl, if_pos rfl]
      have hrest : bodyOf (if len = d.body.length then none
          else some ⟨d.body.drop len, d.budget - UInt32.ofNat len⟩) = d.body.drop len := by
        split_ifs with hlast
        · rw [hlast, List.drop_length, bodyOf_none]
        · rfl
      rw [hrest]
      exact hcontent.chunk hpos hlen
    · rw [if_neg hid, if_neg hid, List.append_nil]
      exact hcontent
  · exact h.refused

theorem erase (h : Faithful C A sent handed F) {id : UInt32} {d : Http2Output.Info}
    (hd : F.output.info[id]? = some d) (hbody : d.body = []) :
    Faithful C A sent handed { F with
      output := { F.output with info := F.output.info.erase id } } := by
  refine h.congr ?_ rfl rfl rfl rfl rfl rfl
  intro k
  rw [Output.erase_info]
  split_ifs with hk
  · subst hk
    rw [hd, bodyOf_none, bodyOf_some, hbody]
  · rfl

theorem move {Q : UInt32 → Http2Output.Info → Prop} {o : Output N}
    (h : Faithful C A sent handed F) (hm : Output.FlushMove Q F.output o) {fs : List Frame}
    (hfs : o.writeQueue = F.output.writeQueue ++ fs) :
    Faithful C A sent handed { F with output := o, transit := F.transit ++ fs } := by
  cases hm with
  | erase hd hbody hQ =>
      have hnil : fs = [] := by simpa using hfs
      rw [hnil, List.append_nil]
      exact h.erase hd hbody
  | @chunk id d len hd hpos hbudget hwindow hbody =>
      have hchunk : fs = Output.chunkFrames id d len := by simpa using hfs.symm
      rw [hchunk]
      exact h.chunk hd hpos hbody

/-- A new message: its block is the last one on the channel. -/
theorem message (h : Faithful C A sent handed F) (hinv : F.Inv) {c : Sent}
    (hnew : ¬ F.opened c.id) {d : N.Deflater}
    (hw : N.deflateHd F.output.deflater c.pairs = (some c.block, d)) :
    Faithful C A (sent ++ [c]) handed { F with
      output := F.output.withMessage c.id c.body c.block d
      messages := F.messages ++ [(c.id, c.body)]
      transit := F.transit ++ [c.frame] } := by
  have hfresh : c.id ∉ sent.map Sent.id := by rwa [← h.opened_iff]
  constructor
  · rw [List.map_append, List.nodup_append]
    refine ⟨h.distinct, by simp, ?_⟩
    rintro a ha b hb rfl
    rw [List.map_cons, List.map_nil, List.mem_singleton] at hb
    exact hfresh (hb ▸ ha)
  · simp [h.messages]
  · intro k hk
    apply h.unknown k
    intro hmem
    exact hk (by rw [List.map_append]; exact List.mem_append_left _ hmem)
  · intro c' hc'
    rcases List.mem_append.mp hc' with hc' | hc'
    · exact h.once c' hc'
    · rw [List.mem_singleton] at hc'
      subst hc'
      exact .inl (h.unknown _ hfresh)
  · intro hdone
    obtain ⟨l, hl, hheaders, hcoded⟩ := h.coded hdone
    refine ⟨l ++ [c], ?_, ?_, ?_⟩
    · intro c' hc'
      rcases List.mem_append.mp hc' with hc' | hc'
      · exact List.mem_append_left _ (hl c' hc')
      · exact List.mem_append_right _ hc'
    · rw [headerFrames_append, hheaders, List.map_append]
      rfl
    · rw [List.map_append]
      exact hcoded.written hw
  · intro hdone c' hc'
    have hphase := hinv.phase hdone c.id
    have hentries := Output.withMessage_info F.output c.id c'.id c.body c.block d
    simp only [inbound_append, hentries]
    rcases List.mem_append.mp hc' with hc' | hc'
    · have hne : c.id ≠ c'.id := by
        intro heq
        exact hfresh (heq ▸ List.mem_map_of_mem hc')
      have hin : inbound c'.id [c.frame] = [] := by simp [inbound, Sent.frame, headersFrame, hne]
      rw [if_neg (fun hk => hne hk.2), hin, List.append_nil]
      exact h.content hdone c' hc'
    · rw [List.mem_singleton] at hc'
      subst hc'
      have hin : inbound c'.id [c'.frame] = [c'.frame] := by
        simp [inbound, Sent.frame, headersFrame]
      rw [hin, h.unknown _ hfresh]
      generalize hfs : inbound c'.id F.transit = fs at hphase
      cases hphase with
      | unopened hopened hrest hentry =>
          refine .queued hentry ?_
          by_cases hbody : c'.body = []
          · rw [if_neg (fun hk => hk.1 hbody), hrest, hbody]
            rfl
          · rw [if_pos ⟨hbody, rfl⟩]
            rfl
      | queued hopened => exact absurd hopened hnew
      | receiving hopened => exact absurd hopened hnew
      | finished hopened => exact absurd hopened hnew
  · intro hexit
    obtain ⟨c', hc', hrefused⟩ := h.refused hexit
    exact ⟨c', List.mem_append_left _ hc', hrefused⟩

theorem eq_of_id (h : Faithful C A sent handed F) {c c' : Sent} (hc : c ∈ sent)
    (hc' : c' ∈ sent) (hid : c'.id = c.id) : c' = c :=
  List.inj_on_of_nodup_map h.distinct hc' hc hid

/-- A frame of the message `c` is read; the application may get the message. -/
theorem received (h : Faithful C A sent handed F) (hexit : F.exit = .done) {c : Sent}
    (hc : c ∈ sent) {more : List (UInt32 × M)} (hmore : ∀ p ∈ more, p.1 = c.id)
    (houtput : F'.output = F.output) (hmessages : F'.messages = F.messages)
    (hexit' : F'.exit = .done)
    (hcoded : ∃ l : List Sent, (∀ c ∈ l, c ∈ sent) ∧ headerFrames F'.transit = l.map Sent.frame ∧
      Coded C.toInStep F'.main.inflater (l.map fun c => (c.block, c.pairs)) F.output.deflater)
    (hother : ∀ k : UInt32, k ≠ c.id → F'.main.info[k]? = F.main.info[k]? ∧
      inbound k F'.transit = inbound k F.transit)
    (hcontent : Content A c (bodyOf F.output.info[c.id]?) F'.main.info[c.id]?
      (inbound c.id F'.transit) (got handed c.id ++ got more c.id)) :
    Faithful C A sent (handed ++ more) F' := by
  have hnone {k : UInt32} (hk : k ≠ c.id) : got (handed ++ more) k = got handed k := by
    have hnil : got more k = [] := by
      rw [got, List.map_eq_nil_iff, List.filter_eq_nil_iff]
      intro p hp
      simpa [hmore p hp] using hk.symm
    rw [got_append, hnil, List.append_nil]
  constructor
  · exact h.distinct
  · rw [hmessages]
    exact h.messages
  · intro k hk
    have hne : k ≠ c.id := by
      rintro rfl
      exact hk (List.mem_map_of_mem hc)
    rw [hnone hne]
    exact h.unknown k hk
  · intro c' hc'
    by_cases hid : c'.id = c.id
    · rw [h.eq_of_id hc hc' hid, got_append]
      exact hcontent.once
    · rw [hnone hid]
      exact h.once c' hc'
  · intro _
    rw [houtput]
    exact hcoded
  · intro _ c' hc'
    rw [houtput]
    by_cases hid : c'.id = c.id
    · rw [h.eq_of_id hc hc' hid, got_append]
      exact hcontent
    · rw [hnone hid, (hother c'.id hid).1, (hother c'.id hid).2]
      exact h.content hexit c' hc'
  · intro hne
    exact absurd hexit' hne

/-- The reader fails at a message. -/
theorem refuse (h : Faithful C A sent handed F) {c : Sent} (hc : c ∈ sent)
    (hrefused : Refused C A c) (hmessages : F'.messages = F.messages) (hexit' : F'.exit ≠ .done) :
    Faithful C A sent handed F' := by
  constructor
  · exact h.distinct
  · rw [hmessages]
    exact h.messages
  · exact h.unknown
  · exact h.once
  · exact fun hdone => absurd hdone hexit'
  · exact fun hdone => absurd hdone hexit'
  · exact fun _ => ⟨c, hc, hrefused⟩

/-! ## What a sender does -/

section Senders
variable {s : Sender N} {wire : List Frame} {m : Main N M} {exit : Exit} {g : UInt32 → ℕ}

/-- What was handed to the socket is still in the write queue. -/
def Held (s : Sender N) : Prop := ∀ n, s.coro = .write n → n ≤ s.output.writeQueue.length

theorem unwritten_grow (hs : Held s) {o : Output N} {fs : List Frame}
    (ho : o.writeQueue = s.output.writeQueue ++ fs) :
    unwritten { s with output := o } = unwritten s ++ fs ∧ Held { s with output := o } := by
  constructor
  · unfold unwritten
    cases hc : s.coro with
    | write n => simp only [ho, List.drop_append_of_le_length (hs n hc)]
    | _ => exact ho
  · intro n hn
    have hle := hs n hn
    simp only [ho, List.length_append]
    omega

theorem flush (h : Faithful C A sent handed (flowOf s wire m exit g)) (hs : Held s) :
    Held { s with output := s.output.flush } ∧
      Faithful C A sent handed (flowOf { s with output := s.output.flush } wire m exit g) := by
  refine Output.flush_invariant (Q := fun _ _ => True)
    (I := fun o => Held { s with output := o } ∧
      Faithful C A sent handed (flowOf { s with output := o } wire m exit g))
    ?_ (fun _ _ => trivial) ⟨hs, h⟩
  rintro o o' ⟨ho, hf⟩ hm
  have hgrows : ∃ fs, o'.writeQueue = o.writeQueue ++ fs := by
    cases hm with
    | erase => exact ⟨[], by simp⟩
    | @chunk id d len => exact ⟨Output.chunkFrames id d len, rfl⟩
  obtain ⟨fs, hfs⟩ := hgrows
  obtain ⟨hunwritten, hheld⟩ := unwritten_grow (s := { s with output := o }) ho hfs
  have hmoved := hf.move hm hfs
  refine ⟨hheld, ?_⟩
  simp only [flowOf, hunwritten, ← List.append_assoc]
  exact hmoved

theorem credit (h : Faithful C A sent handed F) (id inc : UInt32) :
    Faithful C A sent handed { F with output := F.output.credit id inc } := by
  refine h.congr ?_ ?_ rfl rfl rfl rfl rfl
  · intro k
    simp only [Output.credit_info]
    split_ifs with hk
    · obtain ⟨-, rfl⟩ := hk
      rw [bodyOf_some, Std.TreeMap.getD_eq_getD_getElem?, bodyOf]
    · rfl
  · simp only [Output.credit]
    split_ifs <;> rfl

theorem windowUpdate (h : Faithful C A sent handed (flowOf s wire m exit g)) (hs : Held s)
    (id inc : UInt32) : Held (s.step (.windowUpdate id inc)) ∧
      Faithful C A sent handed (flowOf (s.step (.windowUpdate id inc)) wire m exit g) := by
  let t : Sender N := { s with
    output := s.output.credit id inc
    updates := s.updates ++ [(id, inc)] }
  have hqueue : t.output.writeQueue = s.output.writeQueue := Output.credit_writeQueue _ _ _
  have hsame : unwritten t = unwritten s := by
    unfold unwritten
    rw [hqueue]
  have ht : Faithful C A sent handed (flowOf t wire m exit g) := by
    have hcredit := h.credit id inc
    simp only [flowOf, hsame]
    exact hcredit
  have hheld : Held t := by
    unfold Held
    rw [hqueue]
    exact hs
  exact ht.flush hheld

/-- Whatever the parser calls, the messages stay where they are. -/
theorem calls (cs : List (ApiCall M)) (h : Faithful C A sent handed (flowOf s wire m exit g))
    (hs : Held s) :
    Faithful C A sent handed (flowOf (cs.foldl Endpoint.call s) wire m exit g) := by
  induction cs generalizing s with
  | nil => exact h
  | cons c cs ih =>
      have hsend (f : Frame) :
          Faithful C A sent handed (flowOf (s.step (.send f)) wire m exit g) :=
        h.congr (fun _ => rfl) rfl rfl rfl rfl rfl rfl
      cases c with
      | windowUpdate id inc =>
          obtain ⟨hheld, hnext⟩ := h.windowUpdate hs id inc
          exact ih hnext hheld
      | send f => exact ih (hsend f) hs
      | sendHello f => exact ih (hsend f) hs
      | established => exact ih h hs
      | newMessage id => exact ih h hs
      | processMessage id x => exact ih h hs

/-- The message that an `enqueue` leaves behind, if the compressor accepts its
pairs. -/
def compressed (d : N.Deflater) (id : UInt32) (pairs : List Pair) (body : Bytes) : List Sent :=
  match (N.deflateHd d pairs).1 with
  | some block => [⟨id, pairs, body, block⟩]
  | none => []

theorem noted (h : Faithful C A sent handed (flowOf s wire m exit g)) (hs : Held s)
    (hinv : (flowOf s wire m exit g).Inv) {id : UInt32} (hnew : id ∉ s.messages.map Prod.fst)
    (pairs : List Pair) (body : Bytes) :
    Faithful C A (sent ++ compressed s.output.deflater id pairs body) handed
      (flowOf (s.noted id body (s.output.enqueueBlock id body (deflate s.output.deflater pairs)))
        wire m exit g) := by
  unfold compressed deflate
  cases hw : N.deflateHd s.output.deflater pairs with
  | mk result d =>
      cases result with
      | none =>
          rw [List.append_nil]
          exact h.failed hw
      | some block =>
          have hmessage := h.message hinv (c := ⟨id, pairs, body, block⟩) hnew hw
          obtain ⟨hunwritten, -⟩ := unwritten_grow (s := { s with
            messages := s.messages ++ [(id, body)] }) hs
            (o := s.output.withMessage id body block d) rfl
          have hblock : s.output.enqueueBlock id body (.ok block, d) =
              (s.output.withMessage id body block d, none) := by
            cases body <;> rfl
          simp only [hblock, flowOf, Sender.noted, Option.isNone_none, if_true, hunwritten,
            ← List.append_assoc]
          exact hmessage

/-- A url that does not parse throws before the compressor is called. -/
theorem notedError (h : Faithful C A sent handed (flowOf s wire m exit g)) (id : UInt32)
    (body : Bytes) (e : String) : Faithful C A sent handed
      (flowOf (s.noted id body (s.output.enqueueBlock id body (.error e, s.output.deflater)))
        wire m exit g) :=
  h.congr (fun _ => rfl) rfl rfl rfl rfl rfl rfl

/-- A resumption moves frames from the queues to the channel. -/
theorem resume (h : Faithful C A sent handed (flowOf s wire m exit g)) (hq : Queues s) :
    Faithful C A sent handed (flowOf s.resume.1 (wire ++ s.resume.2) m exit g) := by
  unfold Sender.resume
  cases hc : s.coro with
  | idle =>
      dsimp only
      split_ifs with hp hw
      · have hcontrol : ∀ f ∈ s.output.priorityQueue.take
            (mergeCount s.output.priorityQueue 0 0), IsControl f :=
          fun f hf => hq.control f (List.mem_of_mem_take hf)
        refine h.congr (fun _ => rfl) rfl rfl ?_ rfl rfl rfl
        simp only [flowOf, unwritten, hc, messageFrames_append, messageFrames_control hcontrol,
          List.append_nil]
      · refine h.congr (fun _ => rfl) rfl rfl ?_ rfl rfl rfl
        simp only [flowOf, unwritten, hc, List.append_assoc, List.take_append_drop]
      · simpa using h
  | priority n =>
      refine h.congr (fun _ => rfl) rfl rfl ?_ rfl rfl rfl
      simp only [flowOf, unwritten, hc, List.append_nil]
  | write n =>
      have hpop : Faithful C A sent handed (flowOf { s with
          output := { s.output with writeQueue := s.output.writeQueue.drop n }
          coro := .idle
          popped := s.popped ++ s.output.writeQueue.take n } wire m exit g) := by
        refine h.congr (fun _ => rfl) rfl rfl ?_ rfl rfl rfl
        simp only [flowOf, unwritten, hc]
      dsimp only
      rw [List.append_nil]
      split_ifs
      · exact (hpop.flush (fun n hn => by cases hn)).2
      · exact hpop
  | failed => simpa using h

end Senders
end Faithful
end Stuff.Http2Carried
