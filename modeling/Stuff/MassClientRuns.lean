import Stuff.MassClientInvariant

/-!
# Queries and responses of a client

Responses are for the queries whose requests they answer, and each query is written once, in runs
where nothing comes late.
-/
namespace Stuff.MassClient
open EventRuns MachineWords

/-! ## Writing -/

/-- What is written to a connection, and what should be. -/
def Connection.log (x : Connection) : List Query × List Query × Bool :=
  (x.written, x.queries, x.ready)

/-- What one connection keeps, all keep when only that one changes. -/
theorem same_of_update {α : Type*} (f : Connection → α) {s t : State} {c : ℕ} {x : Connection}
    (ht : t.connections = Function.update s.connections c x) (hx : f x = f (s.connections c))
    (d : ℕ) : f (t.connections d) = f (s.connections d) := by
  rw [ht]
  by_cases hdc : d = c
  · rw [hdc, Function.update_self, hx]
  · rw [Function.update_of_ne hdc]

/-- Queries are written together with their connection's other ones, in the order in which they
were inserted. -/
structure Written (inserted : ℕ) (log : List Query × List Query × Bool) : Prop where
  ready : log.2.2 = true → log.1 = log.2.1
  ids : log.2.1.Pairwise fun q q' => q.id < q'.id
  lt : ∀ q ∈ log.2.1, q.id < inserted

section
variable {s : State}

/-- Apart from inserts and connect handlers, nothing is written. -/
theorem step_log {e : Event} (hinsert : ∀ sNow request, e ≠ .insert sNow request)
    (hhandler : e ≠ .handler) :
    (∀ d, ((step s e).connections d).log = (s.connections d).log) ∧
      (step s e).inserted = s.inserted := by
  cases e with
  | insert sNow request => exact absurd rfl (hinsert sNow request)
  | handler => exact absurd rfl hhandler
  | timer sNow =>
      rw [step, State.onTimer]
      split
      · exact ⟨fun _ => rfl, rfl⟩
      · split <;> exact ⟨fun _ => rfl, rfl⟩
  | connecting c get_error => exact ⟨same_of_update Connection.log rfl rfl, rfl⟩
  | error c => exact ⟨same_of_update Connection.log rfl rfl, rfl⟩
  | status get_error =>
      rw [step]
      split
      · exact ⟨same_of_update Connection.log rfl rfl, rfl⟩
      · exact ⟨fun _ => rfl, rfl⟩
  | response c keep_alive =>
      rw [step]
      split
      · exact ⟨fun _ => rfl, rfl⟩
      · rw [State.notifyResponse]
        split <;> exact ⟨same_of_update Connection.log rfl rfl, rfl⟩

theorem Written.insert {inserted : ℕ} {log : List Query × List Query × Bool}
    (h : Written inserted log) {request : Bytes} {written : List Query}
    (hwritten : log.2.2 = true → written = log.1 ++ [⟨inserted, request⟩]) :
    Written (inserted + 1) (written, log.2.1 ++ [⟨inserted, request⟩], log.2.2) where
  ready := fun hready => (hwritten hready).trans (congrArg (· ++ _) (h.ready hready))
  ids := List.pairwise_append.mpr ⟨h.ids, List.pairwise_singleton _ _, fun q hq q' hq' => by
    rw [List.mem_singleton.mp hq']
    exact h.lt q hq⟩
  lt := by
    intro q hq
    rcases List.mem_append.mp hq with hq | hq
    · exact (h.lt q hq).trans (Nat.lt_succ_self _)
    · rw [List.mem_singleton.mp hq]
      exact Nat.lt_succ_self _

theorem Written.mono {inserted : ℕ} {log : List Query × List Query × Bool}
    (h : Written inserted log) : Written (inserted + 1) log :=
  ⟨h.ready, h.ids, fun q hq => (h.lt q hq).trans (Nat.lt_succ_self _)⟩

theorem written_insert (hs : Inv s) (h : ∀ d, Written s.inserted (s.connections d).log)
    {sNow : ℕ} {request : Bytes} (ha : Alive s (.insert sNow request)) (d : ℕ) :
    Written (s.insert sNow request).inserted ((s.insert sNow request).connections d).log := by
  rcases status_cases s with hstatus | ⟨c, hc, hstatus⟩
  · rw [insert_new hstatus]
    dsimp only
    by_cases hd : d = s.made
    · rw [hd, Function.update_self]
      exact {
        ready := fun heq => nomatch heq
        ids := List.pairwise_singleton _ _
        lt := fun q hq => List.mem_singleton.mp hq ▸ Nat.lt_succ_self _ }
    · rw [Function.update_of_ne hd]
      exact (h d).mono
  · rw [insert_old hc hstatus]
    dsimp only
    by_cases hd : d = c
    · subst hd
      rw [Function.update_self]
      obtain ⟨-, hheld⟩ := hs.held d hc
      have hwritten : (s.connections d).ready = true →
          ((s.connections d).take s.m_QueueWritten ⟨s.inserted, request⟩).written =
            (s.connections d).written ++ [⟨s.inserted, request⟩] := by
        intro hready
        have h0 : (s.connections d).m_Connected = 0 :=
          not_not.mp fun hne => hstatus ⟨hne, (hs.sound d).settled hready⟩
        rw [Connection.take, if_pos ⟨h0, hheld.flag hready⟩, Connection.write,
          if_neg (by rw [ha d hc h0]; decide)]
      obtain ⟨-, -, hready, hqueries, -⟩ :=
        take_fields (s.connections d) s.m_QueueWritten ⟨s.inserted, request⟩
      have hnext := (h d).insert hwritten
      rw [Connection.log, hqueries, hready]
      exact hnext
    · rw [Function.update_of_ne hd]
      exact (h d).mono

theorem written_handler (hs : Inv s) (h : ∀ d, Written s.inserted (s.connections d).log)
    (ht : Timely s .handler) (d : ℕ) :
    Written s.handler.inserted (s.handler.connections d).log := by
  have hcases := hs.handler_cases ht
  generalize s.handler = t at hcases ⊢
  cases hcases with
  | own c hepoll hc =>
      by_cases hd : d = c
      · subst hd
        obtain ⟨-, hheld⟩ := hs.held d hc
        rw [hepoll] at hheld
        have hready := hheld.first 0 rfl
        have hqueue := (hheld.waiting hready).resolve_left fun hdooms => hdooms rfl
        have herror : (s.connections d).m_Error = false := by
          rcases hheld.healthy (.inr rfl) with hok | hfailing | hdooms
          · exact hok
          · cases hfailing
          · exact absurd rfl hdooms
        have hlog : ((s.notified d).connections d).log =
            ((s.connections d).queries, (s.connections d).queries, true) := by
          rw [State.notified]
          dsimp only
          rw [State.modify_self, Connection.log, Connection.writes,
            if_neg (by change ¬(s.connections d).m_Error = true; rw [herror]; decide), hqueue]
          rw [(hs.sound d).unready hready]
          rfl
        rw [hlog]
        exact ⟨fun _ => rfl, (h d).ids, (h d).lt⟩
      · rw [State.notified]
        dsimp only
        rw [State.modify_ne _ hd]
        exact h d
  | nothing => exact h d
  | ends aCode h0 =>
      rw [State.notifyCode, if_neg h0]
      exact h d
  | fails c aCode _ h0 =>
      have hlog := same_of_update Connection.log (s := s)
        (t := step { s.notifyCode aCode with epoll := .idle } (.error c)) (c := c)
        (x := { s.connections c with m_Error := true })
        (by rw [State.notifyCode, if_neg h0]; rfl) rfl d
      rw [hlog, step, State.notifyCode, if_neg h0]
      exact h d
  | stays => exact h d

/-- Writing in runs where nothing comes late and no query is inserted for a dead connection. -/
theorem run_written (timeout_ms : ℕ) {es : List Event}
    (hes : Meets step (fun s e => Enabled s e ∧ Timely s e ∧ Alive s e) (start timeout_ms) es) :
    Inv (run step (start timeout_ms) es) ∧
      ∀ d, Written (run step (start timeout_ms) es).inserted
        ((run step (start timeout_ms) es).connections d).log := by
  refine run_invariant (I := fun s => Inv s ∧ ∀ d, Written s.inserted (s.connections d).log)
    ?_ ⟨inv_start timeout_ms, fun _ => ⟨fun heq => (nomatch heq), List.Pairwise.nil,
      fun _ hq => nomatch hq⟩⟩ hes
  rintro s e ⟨hs, hlog⟩ ⟨he, ht, ha⟩
  refine ⟨hs.step he ht, ?_⟩
  by_cases hinsert : ∃ sNow request, e = .insert sNow request
  · obtain ⟨sNow, request, rfl⟩ := hinsert
    exact written_insert hs hlog ha
  · by_cases hhandler : e = .handler
    · subst hhandler
      exact written_handler hs hlog ht
    · rw [not_exists] at hinsert
      obtain ⟨hsame, hinserted⟩ := step_log (s := s)
        (fun sNow request heq => hinsert sNow ⟨request, heq⟩) hhandler
      intro d
      rw [hsame d, hinserted]
      exact hlog d

/-- A connection is given the queries of its queue, each once and in their order, from its connect
handler on; before, the queue has them. -/
theorem run_writesOnce (timeout_ms : ℕ) {es : List Event}
    (hes : Meets step (fun s e => Enabled s e ∧ Timely s e ∧ Alive s e) (start timeout_ms) es) :
    WritesOnce (run step (start timeout_ms) es) ∧
      (∀ c, ((run step (start timeout_ms) es).connections c).queries.Pairwise
        fun q q' => q.id < q'.id) ∧
      ∀ c, (run step (start timeout_ms) es).m_Connection = some c →
        (run step (start timeout_ms) es).epoll = .idle →
        ((run step (start timeout_ms) es).connections c).ready = false →
        (run step (start timeout_ms) es).m_Queue.map XQuery.toQuery =
          ((run step (start timeout_ms) es).connections c).queries := by
  obtain ⟨hs, hwritten⟩ := run_written timeout_ms hes
  refine ⟨fun c => ?_, fun c => (hwritten c).ids, fun c hc hidle hready => ?_⟩
  · split
    case isTrue hready => exact (hwritten c).ready hready
    case isFalse hready => exact (hs.sound c).unready (by simpa using hready)
  · obtain ⟨-, hheld⟩ := hs.held c hc
    rw [hidle] at hheld
    exact ((hheld.rest (Thread.off_idle c)).2.1 hready).1

/-- A query before the connection is there, one between its status and its handler, one after. -/
theorem writesOnce_three :
    WritesOnce (run step (start 3000) [.insert 0 [65], .connecting 0 0, .insert 1 [66], .handler,
      .insert 2 [67]]) :=
  (run_writesOnce 3000 (by decide)).1

/-- The flag of the first connection is still set when the second one has its status but has not
called its handler: the query that is inserted then is written before the one that was there, and
once more after it. -/
theorem second_connection_writes_twice :
    ∃ es, Meets step Enabled (start 3000) es ∧
      ((run step (start 3000) es).connections 1).queries = [⟨1, [66]⟩, ⟨2, [67]⟩] ∧
      ((run step (start 3000) es).connections 1).written = [⟨2, [67]⟩, ⟨1, [66]⟩, ⟨2, [67]⟩] ∧
      ¬WritesOnce (run step (start 3000) es) := by
  refine ⟨[.insert 0 [65], .connecting 0 0, .handler, .timer 3000, .insert 3000 [66],
    .connecting 1 0, .insert 3001 [67], .handler], by decide, by decide, by decide, ?_⟩
  intro hwrites
  exact absurd (hwrites 1) (by decide)

/-! ## Callbacks -/

/-- Each query that was inserted waits, or its callback was called. -/
structure Once (s : State) : Prop where
  nodup : (s.callbacks.map Callback.query ++ s.m_Queue.map (·.id)).Nodup
  lt : ∀ i ∈ s.callbacks.map Callback.query ++ s.m_Queue.map (·.id), i < s.inserted

theorem Once.of_same {t : State} (hs : Once s)
    (hsame : t.callbacks.map Callback.query ++ t.m_Queue.map (·.id) =
      s.callbacks.map Callback.query ++ s.m_Queue.map (·.id))
    (hinserted : t.inserted = s.inserted) : Once t :=
  ⟨hsame ▸ hs.nodup, hinserted ▸ hsame ▸ hs.lt⟩

theorem once_flushI (hs : Once s) (aCode : ℕ) : Once (s.flushI aCode) := by
  refine hs.of_same ?_ rfl
  simp only [State.flushI, List.map_append, List.map_map, List.map_nil, List.append_nil]
  rfl

theorem notifyCode_zero (s : State) :
    (s.notifyCode 0).m_Queue = s.m_Queue ∧ (s.notifyCode 0).callbacks = s.callbacks ∧
      (s.notifyCode 0).inserted = s.inserted := by
  rw [State.notifyCode, if_pos rfl]
  cases hc : s.m_Connection with
  | none =>
      have hfold : ∀ xs : List XQuery, xs.foldl (fun s x => s.write x.toQuery) s = s := by
        intro xs
        induction xs with
        | nil => rfl
        | cons x xs ih =>
            have hwrite : s.write x.toQuery = s := by rw [State.write, hc]
            rw [List.foldl_cons, hwrite, ih]
      rw [hfold]
      exact ⟨rfl, rfl, rfl⟩
  | some d =>
      rw [foldl_write hc]
      exact ⟨rfl, rfl, rfl⟩

theorem once_notifyCode (hs : Once s) (aCode : ℕ) : Once (s.notifyCode aCode) := by
  by_cases h0 : aCode = 0
  · subst h0
    obtain ⟨hqueue, hcallbacks, hinserted⟩ := notifyCode_zero s
    exact hs.of_same (by rw [hqueue, hcallbacks]) hinserted
  · rw [State.notifyCode, if_neg h0]
    exact (once_flushI hs aCode).of_same rfl rfl

theorem insert_callbacks (s : State) (sNow : ℕ) (request : Bytes) :
    (s.insert sNow request).callbacks = s.callbacks := by
  have hassign : ∀ (t : State) (q : Query), (t.assign q).callbacks = t.callbacks := by
    intro t q
    rw [State.assign]
    split <;> rfl
  have hwrite : ∀ (t : State) (q : Query), (t.write q).callbacks = t.callbacks := by
    intro t q
    rw [State.write]
    split <;> rfl
  rw [State.insert]
  dsimp only
  rw [hassign]
  split
  · rw [hwrite]
    split <;> rfl
  · split <;> rfl

theorem once_step (hs : Once s) (e : Event) : Once (step s e) := by
  cases e with
  | insert sNow request =>
      have hids : (s.insert sNow request).callbacks.map Callback.query ++
            (s.insert sNow request).m_Queue.map (·.id) =
          (s.callbacks.map Callback.query ++ s.m_Queue.map (·.id)) ++ [s.inserted] := by
        rw [insert_callbacks, List.append_assoc]
        congr 1
        exact List.map_append
      constructor
      · rw [step, hids]
        refine List.nodup_append.mpr ⟨hs.nodup, List.nodup_singleton _, ?_⟩
        intro i hi j hj
        rw [List.mem_singleton.mp hj]
        exact (hs.lt i hi).ne
      · rw [step, hids]
        intro i hi
        rcases List.mem_append.mp hi with hi | hi
        · exact (hs.lt i hi).trans (Nat.lt_succ_self _)
        · rw [List.mem_singleton.mp hi]
          exact Nat.lt_succ_self _
  | timer sNow =>
      rw [step, State.onTimer]
      split
      · exact hs.of_same rfl rfl
      · split
        · exact (once_flushI hs ETIMEDOUT).of_same rfl rfl
        · exact hs
  | connecting c get_error => exact hs.of_same rfl rfl
  | handler =>
      rw [step, State.handler]
      split
      · dsimp only
        split <;> exact (once_notifyCode hs _).of_same rfl rfl
      · exact (once_notifyCode hs _).of_same rfl rfl
      · exact hs
  | error c => exact hs.of_same rfl rfl
  | status get_error =>
      rw [step]
      split <;> exact hs.of_same rfl rfl
  | response c keep_alive =>
      rw [step]
      split
      · exact hs
      · rw [State.notifyResponse]
        split
        case h_1 => exact hs.of_same rfl rfl
        case h_2 x m_Queue hqueue =>
          refine hs.of_same ?_ rfl
          change (s.callbacks ++ _).map Callback.query ++ _ = _ ++ (State.m_Queue s).map _
          have hqueue : s.m_Queue = x :: m_Queue := hqueue
          rw [hqueue, List.map_append, List.append_assoc]
          rfl

/-! ## Matching -/

/-- The queue of `m_Connection` has the queries that the server has not answered yet. -/
structure Paired (s : State) : Prop where
  answered : ∀ c, (s.connections c).answered ≤ (s.connections c).written.length
  queue : ∀ c, s.m_Connection = some c → s.epoll.Dooms ∨
    s.m_Queue.map XQuery.toQuery = (s.connections c).queries.drop (s.connections c).answered
  matched : Matched s

/-- The queue and `m_Connection` stay, and so do the queries of each connection. -/
theorem Paired.of_same {t : State} (hs : Paired s)
    (hanswered : ∀ c, (t.connections c).answered = (s.connections c).answered)
    (hwritten : ∀ c, (s.connections c).written.length ≤ (t.connections c).written.length)
    (hqueries : ∀ c, (t.connections c).queries = (s.connections c).queries)
    (hconnection : t.m_Connection = s.m_Connection) (hqueue : t.m_Queue = s.m_Queue)
    (hcallbacks : t.callbacks = s.callbacks)
    (hdooms : ∀ c ∈ s.m_Connection, s.epoll.Dooms → t.epoll.Dooms) : Paired t where
  answered := fun c => (hanswered c).trans_le ((hs.answered c).trans (hwritten c))
  queue := by
    intro c hc
    rw [hqueue, hqueries, hanswered]
    have hold := hconnection.symm.trans hc
    exact (hs.queue c hold).imp_left (hdooms c hold)
  matched := fun x hx => hs.matched x (hcallbacks ▸ hx)

/-- Without a connection, and with no callbacks but those with an error. -/
theorem Paired.of_end {t : State} (hs : Paired s)
    (hanswered : ∀ c, (t.connections c).answered = (s.connections c).answered)
    (hwritten : ∀ c, (t.connections c).written = (s.connections c).written)
    (hconnection : t.m_Connection = none) {aCode : ℕ} (h0 : aCode ≠ 0)
    (hcallbacks : t.callbacks = (s.flushI aCode).callbacks) : Paired t where
  answered := fun c => by
    rw [hanswered, hwritten]
    exact hs.answered c
  queue := fun c hc => nomatch hconnection.symm.trans hc
  matched := by
    intro x hx
    rw [hcallbacks, State.flushI] at hx
    rcases List.mem_append.mp hx with hold | hnew
    · exact hs.matched x hold
    · obtain ⟨y, -, rfl⟩ := List.mem_map.mp hnew
      exact fun heq => absurd heq h0

/-- Only the status, the flags or the thread have changed. -/
theorem Paired.of_update {t : State} (hs : Paired s) {c : ℕ} {x : Connection}
    (ht : t.connections = Function.update s.connections c x)
    (hx : x.answered = (s.connections c).answered ∧ x.written = (s.connections c).written ∧
      x.queries = (s.connections c).queries)
    (hconnection : t.m_Connection = s.m_Connection) (hqueue : t.m_Queue = s.m_Queue)
    (hcallbacks : t.callbacks = s.callbacks) (hdooms : ¬s.epoll.Dooms) : Paired t := by
  refine hs.of_same (same_of_update _ ht hx.1) (fun d => ?_) (same_of_update _ ht hx.2.2)
    hconnection hqueue hcallbacks fun _ _ h => absurd h hdooms
  rw [same_of_update Connection.written ht hx.2.1 d]

theorem paired_handler (hs : Inv s) (hp : Paired s) (ht : Timely s .handler) :
    Paired s.handler := by
  have hcases := hs.handler_cases ht
  generalize s.handler = t at hcases ⊢
  cases hcases with
  | own c hepoll hc =>
      have hdooms : ¬s.epoll.Dooms := hepoll ▸ fun h => h rfl
      obtain ⟨-, hheld⟩ := hs.held c hc
      rw [hepoll] at hheld
      have hready := hheld.first 0 rfl
      refine hp.of_same (same_of_update Connection.answered rfl ?_) (fun d => ?_)
        (same_of_update Connection.queries rfl ?_) rfl rfl rfl fun _ _ h => absurd h hdooms
      · dsimp only [Connection.writes]
        split <;> rfl
      · by_cases hd : d = c
        · rw [hd, (hs.sound c).unready hready]
          exact Nat.zero_le _
        · rw [State.notified]
          dsimp only
          rw [State.modify_ne _ hd]
      · dsimp only [Connection.writes]
        split <;> rfl
  | nothing hoff =>
      exact hp.of_same (fun _ => rfl) (fun _ => le_rfl) (fun _ => rfl) rfl rfl rfl
        fun c hc h => absurd h (hoff c hc).dooms
  | ends aCode h0 =>
      rw [State.notifyCode, if_neg h0]
      exact hp.of_end (fun _ => rfl) (fun _ => rfl) rfl h0 rfl
  | fails c aCode _ h0 =>
      rw [step, State.notifyCode, if_neg h0]
      exact hp.of_end (same_of_update Connection.answered rfl rfl)
        (same_of_update Connection.written rfl rfl) rfl h0 rfl
  | stays => exact hp

theorem take_written (x : Connection) (m_QueueWritten : Bool) (q : Query) :
    x.written.length ≤ (x.take m_QueueWritten q).written.length := by
  rcases take_cases x m_QueueWritten q with ⟨-, -, heq⟩ | ⟨-, heq⟩
  · rw [heq, Connection.write]
    split
    · exact le_rfl
    · exact (List.prefix_append _ _).length_le
  · rw [heq]

theorem paired_insert (hs : Inv s) (hp : Paired s) (sNow : ℕ) (request : Bytes) :
    Paired (s.insert sNow request) := by
  have hmatched : Matched (s.insert sNow request) := fun x hx =>
    hp.matched x (insert_callbacks s sNow request ▸ hx)
  rcases status_cases s with hstatus | ⟨c, hc, hstatus⟩
  · rw [insert_new hstatus] at hmatched ⊢
    refine ⟨fun d => ?_, fun d hd => ?_, hmatched⟩
    · dsimp only
      by_cases hd : d = s.made
      · rw [hd, Function.update_self]
        exact le_rfl
      · rw [Function.update_of_ne hd]
        exact hp.answered d
    · obtain rfl : s.made = d := Option.some.inj hd
      dsimp only
      rw [Function.update_self]
      exact (hs.queue_left hstatus).imp_right fun hempty => by rw [hempty]; rfl
  · obtain ⟨-, -, -, hqueries, hanswered⟩ :=
      take_fields (s.connections c) s.m_QueueWritten ⟨s.inserted, request⟩
    rw [insert_old hc hstatus] at hmatched ⊢
    refine ⟨fun d => ?_, fun d hd => ?_, hmatched⟩
    · dsimp only
      by_cases hd : d = c
      · rw [hd, Function.update_self, hanswered]
        exact (hp.answered c).trans (take_written _ _ _)
      · rw [Function.update_of_ne hd]
        exact hp.answered d
    · obtain rfl := Option.some.inj (hc.symm.trans hd)
      dsimp only
      rw [Function.update_self, hanswered, hqueries, List.map_append,
        List.drop_append_of_le_length ((hp.answered c).trans (hs.sound c).written.length_le)]
      exact (hp.queue c hc).imp_right fun hqueue => by rw [hqueue]; rfl

theorem paired_response (hs : Inv s) (hp : Paired s) {c : ℕ} {keep_alive : Bool}
    (he : Enabled s (.response c keep_alive)) (hc : Current s (.response c keep_alive)) :
    Paired (step s (.response c keep_alive)) := by
  obtain ⟨hidle, -, -, hanswered⟩ := he
  rw [step]
  split
  case h_1 => exact hp
  case h_2 q hq =>
    have hanswers : ∀ d,
        ((s.modify c (·.answer keep_alive)).connections d).answered ≤
          ((s.modify c (·.answer keep_alive)).connections d).written.length := by
      intro d
      by_cases hd : d = c
      · rw [hd, State.modify_self]
        exact hanswered
      · rw [State.modify_ne s hd]
        exact hp.answered d
    have hrest : ∀ d, s.m_Connection = some d →
        s.m_Queue.map XQuery.toQuery =
          (s.connections d).queries.drop (s.connections d).answered := by
      intro d hd
      have hqueue := hp.queue d hd
      rw [hidle] at hqueue
      exact hqueue.resolve_left id
    rw [State.notifyResponse]
    split
    case h_1 hempty =>
      have hempty : s.m_Queue = [] := hempty
      refine ⟨hanswers, fun d hd => .inr ?_, hp.matched⟩
      have hdrop := hrest d hd
      change s.m_Queue.map XQuery.toQuery = _
      by_cases hdc : d = c
      · rw [hdc, State.modify_self, Connection.answer, ← List.drop_drop, ← hdc, ← hdrop, hempty]
        rfl
      · rw [State.modify_ne s hdc]
        exact hdrop
    case h_2 x m_Queue hqueue =>
      have hqueue : s.m_Queue = x :: m_Queue := hqueue
      have hown : s.m_Connection = some c := hc.resolve_left fun hempty => by
        rw [hempty] at hqueue
        cases hqueue
      have hdrop : (s.connections c).queries.drop (s.connections c).answered =
          q :: (s.connections c).queries.drop ((s.connections c).answered + 1) := by
        obtain ⟨hlt, rfl⟩ := List.getElem?_eq_some_iff.mp hq
        obtain ⟨rest, hrest⟩ := (hs.sound c).written
        rw [← hrest, List.drop_append_of_le_length hlt.le, List.drop_eq_getElem_cons hlt,
          List.drop_append_of_le_length hlt, List.cons_append]
      have hhead := hrest c hown
      rw [hdrop, hqueue, List.map_cons, List.cons.injEq] at hhead
      refine ⟨hanswers, fun d hd => .inr ?_, ?_⟩
      · obtain rfl := Option.some.inj (hown.symm.trans hd)
        dsimp only
        rw [State.modify_self]
        exact hhead.2
      · intro y hy
        rcases List.mem_append.mp hy with hold | hnew
        · exact hp.matched y hold
        · rw [List.mem_singleton.mp hnew]
          exact fun _ => congrArg (fun q : Query => some q.id) hhead.1.symm

theorem paired_step (hs : Inv s) (hp : Paired s) {e : Event} (he : Enabled s e) (ht : Timely s e)
    (hc : Current s e) : Paired (step s e) := by
  cases e with
  | insert sNow request => exact paired_insert hs hp sNow request
  | timer sNow =>
      rw [step, State.onTimer]
      split
      · exact hp.of_same (fun _ => rfl) (fun _ => le_rfl) (fun _ => rfl) rfl rfl rfl fun _ _ h => h
      · split
        · exact hp.of_end (fun _ => rfl) (fun _ => rfl) rfl (by decide : ETIMEDOUT ≠ 0) rfl
        · exact hp
  | connecting c get_error =>
      exact hp.of_update rfl ⟨rfl, rfl, rfl⟩ rfl rfl rfl (by rw [he.1]; exact id)
  | handler => exact paired_handler hs hp ht
  | error c => exact hp.of_update rfl ⟨rfl, rfl, rfl⟩ rfl rfl rfl (by rw [he.1]; exact id)
  | status get_error =>
      rw [step]
      split
      case h_1 c hfailing =>
        exact hp.of_update rfl ⟨rfl, rfl, rfl⟩ rfl rfl rfl (by rw [hfailing]; exact id)
      case h_2 => exact hp
  | response c keep_alive => exact paired_response hs hp he hc

end

theorem once_start (timeout_ms : ℕ) : Once (start timeout_ms) :=
  ⟨List.nodup_nil, fun _ hi => nomatch hi⟩

theorem paired_start (timeout_ms : ℕ) : Paired (start timeout_ms) where
  answered := fun _ => le_rfl
  queue := fun _ hc => nomatch hc
  matched := fun _ hx => nomatch hx

/-- No callback is called twice; and none is called with the answer to another query's request
where nothing comes late to a queue. -/
theorem callbacks_matched (timeout_ms : ℕ) {es : List Event}
    (hes : Meets step Enabled (start timeout_ms) es) :
    ((run step (start timeout_ms) es).callbacks.map Callback.query).Nodup ∧
      (Meets step (fun s e => Enabled s e ∧ Timely s e ∧ Current s e) (start timeout_ms) es →
        Matched (run step (start timeout_ms) es)) := by
  constructor
  · have honce : Once (run step (start timeout_ms) es) :=
      run_invariant (I := Once) (fun s e hs _ => once_step hs e) (once_start timeout_ms) hes
    exact (List.nodup_append.mp honce.nodup).1
  · intro hgood
    have hpaired : Inv (run step (start timeout_ms) es) ∧
        Paired (run step (start timeout_ms) es) := by
      refine run_invariant (I := fun s => Inv s ∧ Paired s) ?_
        ⟨inv_start timeout_ms, paired_start timeout_ms⟩ hgood
      rintro s e ⟨hs, hp⟩ ⟨he, ht, hc⟩
      exact ⟨hs.step he ht, paired_step hs hp he ht hc⟩
    exact hpaired.2.matched

/-- Two queries are answered; a third one waits too long, and a new connection is made. -/
theorem matched_two :
    Matched (run step (start 3000) [.insert 0 [65], .connecting 0 0, .handler, .insert 1 [66],
      .response 0 true, .response 0 true, .insert 2 [67], .timer 3002, .insert 3003 [68]]) :=
  (callbacks_matched 3000 (by decide)).2 (by decide)

/-- The answer to the first query comes when its connection was dropped and the second query waits
for another one. -/
theorem late_response_mismatched :
    ∃ es, Meets step Enabled (start 3000) es ∧
      (run step (start 3000) es).callbacks = [⟨0, ETIMEDOUT, none⟩, ⟨1, 0, some 0⟩] ∧
      ¬Matched (run step (start 3000) es) := by
  refine ⟨[.insert 0 [65], .connecting 0 0, .handler, .timer 3000, .insert 3000 [66],
    .response 0 true], by decide, by decide, ?_⟩
  intro hmatched
  exact absurd (hmatched ⟨1, 0, some 0⟩ (by decide) rfl) (by decide)

end Stuff.MassClient
