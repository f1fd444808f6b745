import Stuff.Http2OutputWindows

/-!
# The frames of one stream

Whatever else is interleaved, the frames a stream puts in the write queue are
its HEADERS frame and then pieces of its body in order, and END_STREAM marks
exactly the frame behind which nothing of the stream is left. `Progress` is
the invariant: it also accounts for the part of the body still pending.
-/
namespace Stuff.Http2OutputFraming
open MachineWords Http2Frames Http2Hpack Http2Output Http2Accounts Http2OutputWindows EventRuns

variable {N : Nghttp2}

/-- The frame ends its stream. -/
def ends (f : Frame) : Bool := f.header.has Flags.endStream

/-- What the frames of a stream with message body `body` look like at any
time. -/
structure Framed (id : UInt32) (body : Bytes) (fs : List Frame) : Prop where
  shape : ∃ hd datas, fs = hd :: datas ∧ hd.header.type = .headers ∧ hd.stream = id ∧
    (∀ f ∈ datas, IsData id f) ∧ datas.flatMap Frame.payload <+: body ∧
    (ends hd ↔ body = []) ∧
    ∀ pre f post, datas = pre ++ f :: post →
      (ends f ↔ (pre ++ [f]).flatMap Frame.payload = body)
  final : ∀ pre f post, fs = pre ++ f :: post → ends f → post = []

/-- The frames so far together with the pending rest of the body. -/
structure Progress (id : UInt32) (body pending : Bytes) (hd : Frame) (datas : List Frame) :
    Prop where
  headers : hd.header.type = .headers
  stream : hd.stream = id
  headers_ends : ends hd ↔ body = []
  data : ∀ f ∈ datas, IsData id f
  payload : datas.flatMap Frame.payload ++ pending = body
  open_flags : pending ≠ [] → ∀ f ∈ datas, f.header.flags = 0
  closed_flags : pending = [] → body ≠ [] → ∃ init f, datas = init ++ [f] ∧
    (∀ g ∈ init, g.header.flags = 0) ∧ f.header.flags = Flags.endStream

theorem not_ends {f : Frame} (h : f.header.flags = 0) : ends f = false := by
  simp only [ends, Header.has, h]
  decide

theorem ends_of_flags {f : Frame} (h : f.header.flags = Flags.endStream) : ends f = true := by
  simp only [ends, Header.has, h]
  decide

/-- Frames that carry data and together carry nothing are none. -/
theorem data_eq_nil {id : UInt32} {fs : List Frame} (h : ∀ f ∈ fs, IsData id f)
    (hp : fs.flatMap Frame.payload = []) : fs = [] := by
  cases fs with
  | nil => rfl
  | cons f fs =>
      have hf := (h f (by simp)).2.2.1
      simp only [List.flatMap_cons, List.append_eq_nil_iff] at hp
      simp [hp.1] at hf

namespace Progress

variable {id : UInt32} {body pending : Bytes} {hd : Frame} {datas : List Frame}

/-- Up to `f` the body is complete exactly when nothing follows `f` and
nothing is pending. -/
theorem complete_iff (h : Progress id body pending hd datas) {pre : List Frame} {f : Frame}
    {post : List Frame} (hd : datas = pre ++ f :: post) :
    (pre ++ [f]).flatMap Frame.payload = body ↔ post = [] ∧ pending = [] := by
  have hbody : (pre ++ [f]).flatMap Frame.payload ++ (post.flatMap Frame.payload ++ pending) =
      body := by
    rw [← h.payload, hd]
    simp
  constructor
  · intro heq
    have hnil : post.flatMap Frame.payload ++ pending = [] := by
      rw [heq] at hbody
      simpa using hbody
    rw [List.append_eq_nil_iff] at hnil
    have hdata : ∀ g ∈ post, IsData id g := by
      intro g hg
      exact h.data g (by simp [hd, hg])
    exact ⟨data_eq_nil hdata hnil.1, hnil.2⟩
  · rintro ⟨rfl, rfl⟩
    simpa using hbody

theorem ends_iff (h : Progress id body pending hd datas) {pre : List Frame} {f : Frame}
    {post : List Frame} (hd : datas = pre ++ f :: post) :
    ends f ↔ post = [] ∧ pending = [] := by
  have hf : f ∈ datas := by simp [hd]
  have hbody : body ≠ [] := by
    rintro rfl
    have hnil := (List.append_eq_nil_iff.mp h.payload).1
    rw [data_eq_nil h.data hnil] at hf
    simp at hf
  by_cases hpending : pending = []
  · obtain ⟨init, g, hg, hinit, hflags⟩ := h.closed_flags hpending hbody
    have hsplit : pre ++ f :: post = init ++ [g] := hd.symm.trans hg
    rcases post.eq_nil_or_concat' with rfl | ⟨rest, last, rfl⟩
    · have hfg := (List.append_inj' hsplit rfl).2
      cases hfg
      simp [ends_of_flags hflags, hpending]
    · have hpre : pre ++ f :: rest = init := by
        rw [← List.cons_append, ← List.append_assoc] at hsplit
        exact (List.append_inj' hsplit rfl).1
      have hz := hinit f (by simp [← hpre])
      simp [not_ends hz]
  · have hz := h.open_flags hpending f hf
    simp [not_ends hz, hpending]

theorem framed (h : Progress id body pending hd datas) : Framed id body (hd :: datas) := by
  constructor
  · refine ⟨hd, datas, rfl, h.headers, h.stream, h.data, ⟨pending, h.payload⟩, h.headers_ends, ?_⟩
    intro pre f post hsplit
    rw [h.ends_iff hsplit, h.complete_iff hsplit]
  · intro pre f post hsplit hf
    cases pre with
    | nil =>
        simp only [List.nil_append, List.cons.injEq] at hsplit
        obtain ⟨rfl, rfl⟩ := hsplit
        have hbody := h.headers_ends.mp hf
        subst hbody
        exact data_eq_nil h.data (List.append_eq_nil_iff.mp h.payload).1
    | cons g pre =>
        simp only [List.cons_append, List.cons.injEq] at hsplit
        exact ((h.ends_iff hsplit.2).mp hf).1

/-- A chunk of the pending body goes out. -/
theorem chunk {d : Info} {len : ℕ} (h : Progress id body d.body hd datas) (hpos : 0 < len)
    (hbody : len ≤ d.body.length) :
    Progress id body (d.body.drop len) hd (datas ++ Output.chunkFrames id d len) := by
  have hne : d.body ≠ [] := by
    intro hnil
    simp [hnil] at hbody
    omega
  have htake : d.body.take len ≠ [] := by
    intro hnil
    have hlen := congrArg List.length hnil
    simp only [List.length_take, List.length_nil] at hlen
    omega
  have hold := h.open_flags hne
  obtain ⟨init, f, hframes, hinit, hf⟩ := dataFrames_flags id (len = d.body.length)
    (d.body.take len).length (d.body.take len) le_rfl htake
  have hchunk : Output.chunkFrames id d len = init ++ [f] := hframes
  refine ⟨h.headers, h.stream, h.headers_ends, ?_, ?_, ?_, ?_⟩
  · intro g hg
    rcases List.mem_append.mp hg with hg | hg
    · exact h.data g hg
    · exact chunkFrames_isData id d len g hg
  · rw [List.flatMap_append, chunkFrames_payload, List.append_assoc, List.take_append_drop,
      h.payload]
  · intro hrest g hg
    have hlast : len ≠ d.body.length := by
      rintro rfl
      simp at hrest
    rcases List.mem_append.mp hg with hg | hg
    · exact hold g hg
    · rw [hchunk] at hg
      rcases List.mem_append.mp hg with hg | hg
      · exact hinit g hg
      · rw [List.mem_singleton] at hg
        subst hg
        simpa [hlast] using hf
  · intro hrest _
    have hlast : len = d.body.length := by
      have := List.drop_eq_nil_iff.mp hrest
      omega
    refine ⟨datas ++ init, f, by rw [hchunk, List.append_assoc], ?_, by simpa [hlast] using hf⟩
    intro g hg
    rcases List.mem_append.mp hg with hg | hg
    · exact hold g hg
    · exact hinit g hg

end Progress

/-- The frames of one stream, in the order they were pushed. -/
def framesOf (s : Sender N) (id : UInt32) : List Frame := s.pushed.filter fun f => f.stream = id

/-- The part of a body that waits for window. -/
def pending (o : Output N) (id : UInt32) : Bytes := (o.info.getD id {}).body

theorem pending_of_some {o : Output N} {id : UInt32} {d : Info} (h : o.info[id]? = some d) :
    pending o id = d.body := by
  rw [pending, Std.TreeMap.getD_eq_getD_getElem?, h]
  rfl

theorem pending_of_none {o : Output N} {id : UInt32} (h : o.info[id]? = none) :
    pending o id = [] := by
  rw [pending, Std.TreeMap.getD_eq_getD_getElem?, h]
  rfl

/-- Entries without body and missing entries are alike for the pending data. -/
theorem pending_congr {o o' : Output N} {id : UInt32} (h : o'.info[id]? = o.info[id]?) :
    pending o' id = pending o id := by
  rw [pending, pending, Std.TreeMap.getD_eq_getD_getElem?, Std.TreeMap.getD_eq_getD_getElem?, h]

theorem pending_chunk_self (o : Output N) (id : UInt32) (d : Info) (len : ℕ) :
    pending (o.sendChunk id d len) id = d.body.drop len := by
  by_cases hlast : len = d.body.length
  · rw [pending_of_none (by rw [Output.sendChunk_info]; simp [hlast]), hlast, List.drop_length]
  · have hd : (o.sendChunk id d len).info[id]? =
        some ⟨d.body.drop len, d.budget - UInt32.ofNat len⟩ := by
      rw [Output.sendChunk_info, if_pos rfl, if_neg hlast]
    exact pending_of_some hd

theorem pending_chunk_ne (o : Output N) {id k : UInt32} (d : Info) (len : ℕ) (h : id ≠ k) :
    pending (o.sendChunk id d len) k = pending o k :=
  pending_congr (by rw [Output.sendChunk_info, if_neg h])

theorem pending_erase (o : Output N) {id : UInt32} {d : Info} (hd : o.info[id]? = some d)
    (hbody : d.body = []) (k : UInt32) :
    pending { o with info := o.info.erase id } k = pending o k := by
  by_cases hk : id = k
  · subst hk
    rw [pending_of_none (by rw [Output.erase_info, if_pos rfl]), pending_of_some hd, hbody]
  · exact pending_congr (by rw [Output.erase_info, if_neg hk])

theorem pending_credit (o : Output N) (id inc k : UInt32) :
    pending (o.credit id inc) k = pending o k := by
  by_cases hk : id ≠ 0 ∧ id = k
  · obtain ⟨h₀, rfl⟩ := hk
    rw [pending_of_some (by rw [Output.credit_info, if_pos ⟨h₀, rfl⟩])]
    rfl
  · exact pending_congr (by rw [Output.credit_info, if_neg hk])

theorem pending_message_self (o : Output N) (id : UInt32) (body block : Bytes) (d : N.Deflater)
    (h : pending o id = []) : pending (o.withMessage id body block d) id = body := by
  by_cases hbody : body = []
  · rw [pending_congr (o := o) (by simp [Output.withMessage_info, hbody]), h, hbody]
  · have hd : (o.withMessage id body block d).info[id]? =
        some { (o.info.getD id {}) with body := body } := by
      rw [Output.withMessage_info, if_pos ⟨hbody, rfl⟩]
    exact pending_of_some hd

theorem pending_message_ne (o : Output N) {id k : UInt32} (body block : Bytes) (d : N.Deflater)
    (h : id ≠ k) : pending (o.withMessage id body block d) k = pending o k :=
  pending_congr (by rw [Output.withMessage_info, if_neg (fun hk => h hk.2)])

structure Framing (s : Sender N) : Prop where
  unopened : ∀ id, ¬ opened s id → framesOf s id = [] ∧ pending s.output id = []
  opened : ∀ id body, (id, body) ∈ s.messages →
    ∃ hd datas, framesOf s id = hd :: datas ∧ Progress id body (pending s.output id) hd datas

theorem framing_start : Framing (Sender.start : Sender N) where
  unopened := by
    intro id _
    exact ⟨rfl, pending_of_none (by simp [Sender.start])⟩
  opened := by simp [Sender.start]

theorem framesOf_chunk (s : Sender N) (id k : UInt32) (d : Info) (len : ℕ) :
    framesOf { s with output := s.output.sendChunk id d len } k =
      framesOf s k ++ if id = k then Output.chunkFrames id d len else [] := by
  have hall := chunkFrames_isData id d len
  simp only [framesOf, Sender.pushed, Output.sendChunk_writeQueue, List.filter_append,
    List.append_assoc, List.append_cancel_left_eq]
  split_ifs with hk
  · rw [List.filter_eq_self]
    intro f hf
    simpa using (hall f hf).2.1.trans hk
  · rw [List.filter_eq_nil_iff]
    intro f hf
    simpa using fun h => hk ((hall f hf).2.1.symm.trans h)

theorem Framing.chunk {s : Sender N} (hs : Framing s) {id : UInt32} {d : Info} {len : ℕ}
    (hd : s.output.info[id]? = some d) (hpos : 0 < len) (hbody : len ≤ d.body.length) :
    Framing { s with output := s.output.sendChunk id d len } := by
  constructor
  · intro k hk
    have hik : id ≠ k := by
      rintro rfl
      have hp := (hs.unopened id hk).2
      rw [pending_of_some hd] at hp
      simp [hp] at hbody
      omega
    rw [framesOf_chunk, if_neg hik, pending_chunk_ne _ _ _ hik, List.append_nil]
    exact hs.unopened k hk
  · intro k body hk
    obtain ⟨f, datas, hframes, hprogress⟩ := hs.opened k body hk
    by_cases hik : id = k
    · subst hik
      rw [pending_of_some hd] at hprogress
      refine ⟨f, datas ++ Output.chunkFrames id d len, ?_, ?_⟩
      · rw [framesOf_chunk, if_pos rfl, hframes, List.cons_append]
      · rw [pending_chunk_self]
        exact hprogress.chunk hpos hbody
    · rw [framesOf_chunk, if_neg hik, pending_chunk_ne _ _ _ hik, List.append_nil]
      exact ⟨f, datas, hframes, hprogress⟩

theorem Framing.message {s : Sender N} (hs : Framing s) {id : UInt32} (body block : Bytes)
    (d : N.Deflater) (hid : ¬ Http2OutputWindows.opened s id) :
    Framing { s with
      output := s.output.withMessage id body block d
      messages := s.messages ++ [(id, body)] } := by
  have hframes (k : UInt32) : framesOf { s with
      output := s.output.withMessage id body block d
      messages := s.messages ++ [(id, body)] } k = framesOf s k ++ if id = k then
        [Frame.make .headers (if body.isEmpty then Flags.endHeaders ||| Flags.endStream
          else Flags.endHeaders) id block] else [] := by
    simp only [framesOf, Sender.pushed, Output.withMessage, List.filter_append, List.append_assoc,
      List.append_cancel_left_eq]
    by_cases hk : id = k <;> simp [hk]
  constructor
  · intro k hk
    obtain ⟨hik, hk⟩ := not_opened_message s id hk
    rw [hframes, if_neg hik, List.append_nil, pending_message_ne _ _ _ _ hik]
    exact hs.unopened k hk
  · intro k content hk
    by_cases hik : id = k
    · subst hik
      have hcontent : content = body := by
        rcases List.mem_append.mp hk with h | h
        · exact absurd (List.mem_map.mpr ⟨_, h, rfl⟩) hid
        · simpa using h
      subst hcontent
      obtain ⟨hnone, hpending⟩ := hs.unopened id hid
      refine ⟨_, [], by rw [hframes, hnone, if_pos rfl, List.nil_append], ?_⟩
      rw [pending_message_self _ _ _ _ _ hpending]
      refine ⟨rfl, rfl, ?_, by simp, by simp, by simp, fun h h' => absurd h h'⟩
      cases content <;> simp [ends, Header.has] <;> decide
    · rw [hframes, if_neg hik, List.append_nil, pending_message_ne _ _ _ _ hik]
      refine hs.opened k content ?_
      rcases List.mem_append.mp hk with h | h
      · exact h
      · simp only [List.mem_singleton, Prod.mk.injEq] at h
        exact absurd h.1.symm hik

/-- Moves that touch neither the pushed frames nor the pending data. -/
theorem Framing.congr {s s' : Sender N} (hs : Framing s) (hpushed : s'.pushed = s.pushed)
    (hmessages : s'.messages = s.messages) (hpending : ∀ k, pending s'.output k =
      pending s.output k) : Framing s' := by
  constructor
  · intro k hk
    rw [framesOf, hpushed, hpending]
    exact hs.unopened k (by rwa [Http2OutputWindows.opened, hmessages] at hk)
  · intro k body hk
    rw [framesOf, hpushed, hpending]
    exact hs.opened k body (hmessages ▸ hk)

theorem Framing.move {Q : List (UInt32 × Bytes) → UInt32 → Info → Prop}
    {C : Sender N → UInt32 → UInt32 → Prop} {s s' : Sender N} (hs : Framing s)
    (h : Sender.Move Q C s s') : Framing s' := by
  cases h with
  | flush hm =>
      cases hm with
      | erase hd hbody hQ => exact hs.congr rfl rfl (pending_erase _ hd hbody)
      | chunk hd hpos hbudget hwindow hbody => exact hs.chunk hd hpos hbody
  | credit id inc hC => exact hs.congr (pushed_credit s id inc) rfl (pending_credit _ id inc)
  | message body block d hfresh => exact hs.message body block d hfresh
  | other hinfo hbudget hpushed hmessages hupdates =>
      exact hs.congr hpushed hmessages (fun k => pending_congr (by rw [hinfo]))

theorem Framing.step {s : Sender N} {e : Sender.Event} (hs : Framing s)
    (he : Sender.Fresh s e) : Framing (s.step e) :=
  Sender.step_keeps (Q := fun _ _ _ => True) (C := fun _ _ _ => True) (fun _ _ h hm => h.move hm)
    hs he (fun _ _ _ _ => trivial) (fun _ _ => trivial)

/-- At every time the frames of an enqueued message are framed as they should
be, and a stream without a message has no frames. -/
theorem output_framing (es : List Sender.Event)
    (h : Meets Sender.step Sender.Fresh (Sender.start : Sender N) es) :
    (∀ id body, (id, body) ∈ (run Sender.step (Sender.start : Sender N) es).messages →
      Framed id body (framesOf (run Sender.step (Sender.start : Sender N) es) id)) ∧
    ∀ id, id ∉ (run Sender.step (Sender.start : Sender N) es).messages.map Prod.fst →
      framesOf (run Sender.step (Sender.start : Sender N) es) id = [] := by
  have hf : Framing (run Sender.step (Sender.start : Sender N) es) :=
    run_invariant (fun _ _ hs he => hs.step he) framing_start h
  constructor
  · intro id body hid
    obtain ⟨hd, datas, hframes, hprogress⟩ := hf.opened id body hid
    rw [hframes]
    exact hprogress.framed
  · intro id hid
    exact (hf.unopened id hid).1

theorem output_framing_sample :
    Meets Sender.step Sender.Fresh (Sender.start : Sender staticNghttp2) sampleEvents ∧
    Framed 1 [1, 2, 3]
      (framesOf (run Sender.step (Sender.start : Sender staticNghttp2) sampleEvents) 1) :=
  have h : Meets Sender.step Sender.Fresh (Sender.start : Sender staticNghttp2) sampleEvents := by
    decide
  ⟨h, (output_framing sampleEvents h).1 1 [1, 2, 3] (by decide)⟩

end Stuff.Http2OutputFraming
