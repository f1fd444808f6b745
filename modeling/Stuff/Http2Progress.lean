import Stuff.Http2FlowControl

/-!
# No stream is left behind

A body waits only for window. Behind every call of `flush`, and behind a write
that ended without one, a pending stream is starved: its window or that of the
connection is at most the minimum frame size, unless frames are queued. When
nothing is queued and nothing is on its way, both windows are full, since the
receiver grants a whole window long before the sender starves. So a connection
at rest has no pending body.
-/
namespace Stuff.Http2Progress
open MachineWords Http2Frames Http2Hpack Http2Output Http2Accounts Http2Parser Http2Net
open Http2OutputFraming (pending pending_of_none pending_of_some pending_congr)
open CreditWindow Http2Streams Http2Flow Http2SenderFlow Http2FlowControl EventRuns

variable {N : Nghttp2} {M : Type}

/-- Too little window for `flush` to be worth calling. -/
def Starved (o : Output N) (id : UInt32) : Prop :=
  windowOf o.info[id]? ≤ minFrameSize ∨ o.budget.toNat ≤ minFrameSize

/-- Frames are queued, or every pending body waits for window. -/
def Waiting (o : Output N) : Prop :=
  o.writeQueue ≠ [] ∨ ∀ id, pending o id ≠ [] → Starved o id

theorem Waiting.congr {o o' : Output N} (h : Waiting o) (hqueue : o'.writeQueue = o.writeQueue)
    (hinfo : o'.info = o.info) (hbudget : o'.budget = o.budget) : Waiting o' := by
  unfold Waiting Starved at *
  rw [hqueue, hinfo, hbudget]
  refine h.imp_right ?_
  intro hstarved id hid
  have hsame : pending o' id = pending o id := pending_congr (by rw [hinfo])
  exact hstarved id (hsame ▸ hid)

/-! ## A flush that sends nothing -/

/-- `o'` differs from `o` by entries without body. -/
structure Unsent (o o' : Output N) : Prop where
  budget : o'.budget = o.budget
  info : ∀ id, pending o' id ≠ [] → o'.info[id]? = o.info[id]?

theorem Unsent.refl (o : Output N) : Unsent o o := ⟨rfl, fun _ _ => rfl⟩

theorem Unsent.trans {o o' o'' : Output N} (h : Unsent o o') (h' : Unsent o' o'') :
    Unsent o o'' := by
  constructor
  · exact h'.budget.trans h.budget
  · intro id hid
    have heq := h'.info id hid
    rw [pending_congr heq] at hid
    exact heq.trans (h.info id hid)

theorem Unsent.starved {o o' : Output N} (h : Unsent o o') {id : UInt32}
    (hid : pending o' id ≠ []) (hs : Starved o id) : Starved o' id := by
  unfold Starved
  rw [h.info id hid, h.budget]
  exact hs

theorem unsent_erase (o : Output N) (id : UInt32) :
    Unsent o { o with info := o.info.erase id } := by
  constructor
  · rfl
  · intro k hk
    rw [Output.erase_info]
    split_ifs with hik
    · subst hik
      exact absurd (pending_of_none (by rw [Output.erase_info, if_pos rfl])) hk
    · rfl

theorem starved_of_noBudget {o : Output N} {id : UInt32} {d : Http2Output.Info}
    (hd : o.info[id]? = some d) (h : Output.NoBudget o.budget d) : Starved o id := by
  unfold Starved
  simp only [Output.NoBudget, Output.flushLen, minFrameSize, maxStreamExclusive] at h
  simp only [hd, windowOf_some, minFrameSize]
  omega

theorem chunk_queued (o : Output N) (id : UInt32) {d : Http2Output.Info} {len : ℕ} (hpos : 0 < len)
    (hlen : len ≤ d.body.length) : (o.sendChunk id d len).writeQueue ≠ [] := by
  have hsum := total_dataAny_chunk id hlen
  rw [Output.sendChunk_writeQueue]
  intro hnil
  rw [(List.append_eq_nil_iff.mp hnil).2, total_nil] at hsum
  omega

/-- A visit queues frames, or leaves its stream starved and the others as they
are. -/
theorem flushVisit_cases (o : Output N) (id : UInt32) :
    (o.flushVisit id).1.writeQueue ≠ [] ∨
    (o.flushVisit id).2 = true ∧ Unsent o (o.flushVisit id).1 ∧
      (pending (o.flushVisit id).1 id ≠ [] → Starved (o.flushVisit id).1 id) := by
  unfold Output.flushVisit
  split
  · rename_i hnone
    exact .inr ⟨rfl, Unsent.refl o, fun hid => absurd (pending_of_none hnone) hid⟩
  · rename_i d hd
    split_ifs with hbody hlow
    · refine .inr ⟨rfl, unsent_erase o id, fun hid => absurd (pending_of_none ?_) hid⟩
      rw [Output.erase_info, if_pos rfl]
    · exact .inr ⟨rfl, Unsent.refl o, fun _ => starved_of_noBudget hd hlow⟩
    · exact .inl (chunk_queued o id (Output.flushLen_pos hbody hlow)
        (Output.flushLen_le_body _ _))

theorem flushFrom_queued (ids : List UInt32) {o : Output N} (h : o.writeQueue ≠ []) :
    (o.flushFrom ids).writeQueue ≠ [] := by
  refine Output.flushFrom_invariant (Q := fun _ _ => True)
    (I := fun o => o.writeQueue ≠ []) ?_ ids (fun _ _ => trivial) h
  intro o o' ho hm
  cases hm with
  | erase => exact ho
  | chunk => simp [ho]

theorem flushFrom_cases (ids : List UInt32) (o : Output N) :
    (o.flushFrom ids).writeQueue ≠ [] ∨ Unsent o (o.flushFrom ids) ∧
      ∀ id ∈ ids, pending (o.flushFrom ids) id ≠ [] → Starved (o.flushFrom ids) id := by
  induction ids generalizing o with
  | nil => exact .inr ⟨Unsent.refl o, by simp⟩
  | cons id ids ih =>
      simp only [Output.flushFrom]
      rcases flushVisit_cases o id with hqueued | ⟨hgo, hunsent, hstarved⟩
      · left
        split_ifs
        · exact flushFrom_queued ids hqueued
        · exact hqueued
      · rw [if_pos hgo]
        rcases ih (o.flushVisit id).1 with hqueued | ⟨hrest, hstarved'⟩
        · exact .inl hqueued
        · refine .inr ⟨hunsent.trans hrest, ?_⟩
          intro k hk hpending
          rcases List.mem_cons.mp hk with rfl | hk
          · have hbefore : pending (o.flushVisit k).1 k ≠ [] := by
              rwa [← pending_congr (hrest.info k hpending)]
            exact hrest.starved hpending (hstarved hbefore)
          · exact hstarved' k hk hpending

/-- Whatever the state it is called in, `flush` leaves no body behind that could
be sent. -/
theorem waiting_flush (o : Output N) : Waiting o.flush := by
  rcases flushFrom_cases o.info.keys o with hqueued | ⟨hunsent, hstarved⟩
  · exact .inl hqueued
  · right
    intro id hid
    refine hstarved id ?_ hid
    have hpending : pending o id ≠ [] := by rwa [← pending_congr (hunsent.info id hid)]
    rw [Std.TreeMap.mem_keys, ← Std.TreeMap.isSome_getElem?_iff_mem]
    cases hd : o.info[id]? with
    | none => exact absurd (pending_of_none hd) hpending
    | some d => rfl

/-! ## Every event keeps the sender waiting -/

theorem waiting_noted {s : Sender N} (h : Waiting s.output) (id : UInt32) (body : Bytes)
    (deflated : Except String Bytes × N.Deflater) :
    Waiting (s.noted id body (s.output.enqueueBlock id body deflated)).output := by
  rcases s.output.enqueueBlock_cases id body deflated with ⟨e, -, heq⟩ | ⟨block, -, heq⟩
  · rw [heq]
    exact h.congr rfl rfl rfl
  · rw [heq]
    exact .inl (by simp [Sender.noted, Output.withMessage])

theorem waiting_resume {s : Sender N} (h : Waiting s.output) : Waiting s.resume.1.output := by
  unfold Sender.resume
  cases s.coro with
  | idle =>
      dsimp only
      split_ifs <;> exact h
  | priority n => exact h.congr rfl rfl rfl
  | write n =>
      dsimp only
      split_ifs with hbudget
      · exact waiting_flush _
      · exact .inr (fun _ _ => .inr (Nat.le_of_not_lt hbudget))
  | failed => exact h

theorem waiting_call {s : Sender N} (h : Waiting s.output) (c : ApiCall M) :
    Waiting (Endpoint.call s c).output := by
  cases c with
  | windowUpdate id inc => exact waiting_flush _
  | send f => exact h.congr rfl rfl rfl
  | sendHello f => exact h.congr rfl rfl rfl
  | established => exact h
  | newMessage id => exact h
  | processMessage id m => exact h

theorem waiting_feed (A : Messages M) (debug : Bool) {e : Endpoint N M}
    (h : Waiting e.sender.output) (aBuffer : Bytes) :
    Waiting (e.feed A debug aBuffer).sender.output := by
  have hcalls (cs : List (ApiCall M)) {s : Sender N} (hs : Waiting s.output) :
      Waiting (cs.foldl Endpoint.call s).output := by
    induction cs generalizing s with
    | nil => exact hs
    | cons c cs ih => exact ih (waiting_call hs c)
  unfold Endpoint.feed
  split_ifs
  · exact hcalls _ h
  · exact h

theorem waiting_step (A : Messages M) (debug : Bool) {n : Net N M}
    (h : ∀ x, Waiting (n.ends x).sender.output) (e : Side × Event) :
    ∀ x, Waiting ((n.step A debug e).ends x).sender.output := by
  obtain ⟨x, e⟩ := e
  have hact (e : Sender.Event) (he : Waiting ((n.ends x).sender.step e).output) :
      ∀ y, Waiting ((n.act x e).ends y).sender.output := by
    rw [Side.forall_iff x, act_self, act_other]
    exact ⟨he, h x.other⟩
  cases e with
  | response id r => exact hact _ (waiting_noted (h x) id r.body _)
  | request id r => exact hact _ (waiting_noted (h x) id r.body _)
  | flush => exact hact _ (waiting_flush _)
  | resume => exact hact _ (waiting_resume (h x))
  | deliver =>
      simp only [Net.step, Net.deliver]
      split
      · exact h
      · split_ifs
        · rw [Side.forall_iff x]
          simp only [Function.update_self, Function.update_of_ne (Side.other_ne x)]
          exact ⟨waiting_feed A debug (waiting_feed A debug (h x) _) _, h x.other⟩
        · exact h

/-- Nothing is on its way and nothing is queued. -/
def AtRest (n : Net N M) : Prop :=
  ∀ x, n.wire x = [] ∧ (n.ends x).sender.output.writeQueue = [] ∧
    (n.ends x).sender.output.priorityQueue = []

/-- At rest, both windows of a pending stream are full. -/
theorem AtRest.full_windows {n : Net N M} (h : AtRest n) (hagree : Agreeing n) (x : Side) :
    65535 ≤ (n.ends x).sender.output.budget.toNat ∧
    ∀ id, pending (n.ends x).sender.output id ≠ [] →
      65535 ≤ windowOf (n.ends x).sender.output.info[id]? := by
  obtain ⟨hwire, hwrite, -⟩ := h x
  obtain ⟨hwire', -, hpriority⟩ := h x.other
  have hunwritten : unwritten (n.ends x).sender = [] := by
    unfold unwritten
    split <;> simp [hwrite]
  have hunsent : unsent (n.ends x.other).sender = [] := by
    unfold unsent
    split <;> simp [hpriority]
  have hgrants (id : UInt32) : grants n x id = 0 := by simp [grants, hwire', hunsent]
  have hinv := (hagree.good x).inv
  constructor
  · have hconnection := hinv.connection
    simp only [flowOf, hwire, hunwritten, List.append_nil, total_nil, hgrants] at hconnection
    exact hconnection.settled
  · intro id hid
    have hid₀ : id ≠ 0 := by
      rintro rfl
      exact hid (pending_of_none hinv.zero.2)
    have hbody : bodyOf (n.ends x).sender.output.info[id]? ≠ [] := by
      rwa [pending, Std.TreeMap.getD_eq_getD_getElem?] at hid
    have hledger := hinv.ledger id hid₀
    simp only [flowOf, hwire, hunwritten, List.append_nil, total_nil, hgrants] at hledger
    cases hledger with
    | unopened _ hentry =>
        rw [hentry] at hbody
        exact absurd rfl hbody
    | sending _ _ hacc => exact hacc.settled
    | sent _ hnil => exact absurd hnil hbody
    | finished _ hnil => exact absurd hnil hbody

theorem waiting_run (A : Messages M) (debug : Bool) {es : List (Side × Event)}
    (h : Meets (Net.step A debug) Net.Fresh (Net.start A debug : Net N M) es) (x : Side) :
    Waiting ((run (Net.step A debug) (Net.start A debug : Net N M) es).ends x).sender.output := by
  refine run_invariant (I := fun n : Net N M => ∀ x, Waiting (n.ends x).sender.output)
    (fun _ e hw _ => waiting_step A debug hw e) ?_ h x
  intro x
  right
  intro id hid
  refine absurd (pending_of_none ?_) hid
  cases x <;> simp [Net.start, Sender.start]

/-- In every reachable state without frames queued or on their way, no stream of
either side has a body left to send. -/
theorem no_stuck_stream (A : Messages M) (debug : Bool) (es : List (Side × Event))
    (h : Meets (Net.step A debug) Net.Fresh (Net.start A debug : Net N M) es)
    (hrest : AtRest (run (Net.step A debug) (Net.start A debug : Net N M) es)) :
    ∀ x id, pending ((run (Net.step A debug) (Net.start A debug : Net N M) es).ends x).sender.output
      id = [] := by
  intro x id
  by_contra hid
  obtain ⟨hbudget, hwindow⟩ := hrest.full_windows (agreeing_run A debug h) x
  have hfull := hwindow id hid
  rcases waiting_run A debug h x with hqueued | hstarved
  · exact hqueued (hrest x).2.1
  · have hlow := hstarved id hid
    simp only [Starved, minFrameSize] at hlow
    omega

/-- The server's response travels to the client and all acknowledgements and
updates are exchanged. -/
def wholeExchange : List (Side × Event) :=
  [(.server, .response 1 { resultInt := 200, body := [7] }), (.server, .resume),
    (.server, .resume), (.server, .resume), (.server, .resume), (.client, .deliver),
    (.client, .deliver), (.client, .deliver), (.client, .resume), (.client, .resume),
    (.server, .deliver), (.server, .deliver), (.server, .deliver), (.server, .resume),
    (.server, .resume), (.client, .deliver)]

theorem no_stuck_stream_sample :
    Meets (Net.step keptMessages true) Net.Fresh
      (Net.start keptMessages true : Net staticNghttp2 _) wholeExchange ∧
    AtRest (run (Net.step keptMessages true)
      (Net.start keptMessages true : Net staticNghttp2 _) wholeExchange) ∧
    ∀ x id, pending ((run (Net.step keptMessages true)
      (Net.start keptMessages true : Net staticNghttp2 _) wholeExchange).ends x).sender.output
      id = [] := by
  have h : Meets (Net.step keptMessages true) Net.Fresh
      (Net.start keptMessages true : Net staticNghttp2 _) wholeExchange := by decide
  have hrest : AtRest (run (Net.step keptMessages true)
      (Net.start keptMessages true : Net staticNghttp2 _) wholeExchange) := by
    intro x
    cases x <;> decide
  exact ⟨h, hrest, no_stuck_stream keptMessages true wholeExchange h hrest⟩

end Stuff.Http2Progress
