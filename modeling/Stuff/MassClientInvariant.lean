import Stuff.MassClient

/-!
# What is known of the connections of a client

As long as nothing comes late to a queue, the connection that is `m_Connection` was given the
queries of the queue once, whatever other connections still do.
-/
namespace Stuff.MassClient
open EventRuns MachineWords

/-- The handler that is next makes an end of the queue and of `m_Connection`. -/
def Thread.Dooms : Thread → Prop
  | .connected _ aCode => aCode ≠ 0
  | .failed _ aCode => aCode ≠ 0
  | _ => False

/-- What is known of `m_Connection`. -/
structure Held (c : ℕ) (epoll : Thread) (m_QueueWritten : Bool) (m_Queue : List XQuery)
    (x : Connection) : Prop where
  status : x.m_Connected = 0 ∨ x.m_Connected = EINPROGRESS ∨ epoll.Dooms
  waiting : x.ready = false → epoll.Dooms ∨ m_Queue.map XQuery.toQuery = x.queries
  unnotified : x.ready = false → x.m_Connected = 0 → epoll = .connected c 0
  first : ∀ aCode, epoll = .connected c aCode → x.ready = false
  healthy : x.m_Connected = EINPROGRESS ∨ epoll = .connected c 0 →
    x.m_Error = false ∨ epoll = .failing c ∨ epoll.Dooms
  flag : x.ready = true → m_QueueWritten = true
  live : x.ready = true → x.m_Error = false → x.written = x.queries

/-- What is known of any connection. -/
structure Sound (x : Connection) : Prop where
  unready : x.ready = false → x.written = []
  settled : x.ready = true → x.m_Connected ≠ EINPROGRESS
  written : x.written <+: x.queries

/-- What is known of the connection that the thread is at. -/
def Thread.At (made : ℕ) (connections : ℕ → Connection) : Thread → Prop
  | .idle => True
  | .connected c aCode =>
      c < made ∧ (connections c).m_Connected = aCode ∧ (connections c).m_Connected ≠ EINPROGRESS
  | .failing c => c < made ∧ (connections c).m_Error = true
  | .failed c _ => c < made ∧ (connections c).m_Error = true

/-- The thread has nothing under way for the connection, or for all of them. -/
structure Thread.Off (c : ℕ) (epoll : Thread) : Prop where
  dooms : ¬epoll.Dooms
  failing : epoll ≠ .failing c
  connected : ∀ aCode, epoll ≠ .connected c aCode

structure Inv (s : State) : Prop where
  held : ∀ c, s.m_Connection = some c →
    c < s.made ∧ Held c s.epoll s.m_QueueWritten s.m_Queue (s.connections c)
  empty : s.m_Connection = none → s.m_Queue = []
  sound : ∀ c, Sound (s.connections c)
  fresh : ∀ c, s.made ≤ c → s.connections c = {}
  epoll : s.epoll.At s.made s.connections

theorem inv_start (timeout_ms : ℕ) : Inv (start timeout_ms) where
  held := fun _ h => nomatch h
  empty := fun _ => rfl
  sound := fun _ => ⟨fun _ => rfl, fun h => (nomatch h), List.prefix_rfl⟩
  fresh := fun _ _ => rfl
  epoll := trivial

section
variable {s : State}

@[simp] theorem State.modify_self (s : State) (c : ℕ) (f : Connection → Connection) :
    (s.modify c f).connections c = f (s.connections c) := Function.update_self _ _ _

theorem State.modify_ne (s : State) {c d : ℕ} (h : d ≠ c) (f : Connection → Connection) :
    (s.modify c f).connections d = s.connections d := Function.update_of_ne h _ _

/-- One connection changes, and the thread goes on from there. -/
theorem Inv.modify (hs : Inv s) {c : ℕ} (hc : c < s.made) {f : Connection → Connection}
    {epoll : Thread}
    (hself : Held c s.epoll s.m_QueueWritten s.m_Queue (s.connections c) →
      Held c epoll s.m_QueueWritten s.m_Queue (f (s.connections c)))
    (hother : ∀ d x, d ≠ c → Held d s.epoll s.m_QueueWritten s.m_Queue x →
      Held d epoll s.m_QueueWritten s.m_Queue x)
    (hsound : Sound (s.connections c) → Sound (f (s.connections c)))
    (hepoll : epoll.At s.made (s.modify c f).connections) :
    Inv { s.modify c f with epoll := epoll } where
  held := by
    intro d hd
    obtain ⟨hmade, hheld⟩ := hs.held d hd
    refine ⟨hmade, ?_⟩
    by_cases hdc : d = c
    · subst hdc
      rw [State.modify_self]
      exact hself hheld
    · rw [State.modify_ne s hdc]
      exact hother d _ hdc hheld
  empty := hs.empty
  sound := by
    intro d
    by_cases hdc : d = c
    · subst hdc
      rw [State.modify_self]
      exact hsound (hs.sound d)
    · rw [State.modify_ne s hdc]
      exact hs.sound d
  fresh := by
    intro d hd
    have hne : d ≠ c := by
      have hmade : s.made ≤ d := hd
      omega
    rw [State.modify_ne s hne]
    exact hs.fresh d hd
  epoll := hepoll

section Held
variable {c : ℕ} {epoll : Thread} {m_QueueWritten : Bool} {m_Queue : List XQuery} {x : Connection}

theorem Thread.off_idle (c : ℕ) : Thread.Off c .idle where
  dooms := id
  failing := fun heq => nomatch heq
  connected := fun _ heq => nomatch heq

theorem Thread.off_connected {c d : ℕ} (hne : d ≠ c) : Thread.Off d (.connected c 0) where
  dooms := fun hdooms => hdooms rfl
  failing := fun heq => nomatch heq
  connected := fun _ heq => hne (by cases heq; rfl)

theorem Thread.off_failing {c d : ℕ} (hne : d ≠ c) : Thread.Off d (.failing c) where
  dooms := id
  failing := fun heq => hne (by cases heq; rfl)
  connected := fun _ heq => nomatch heq

theorem Thread.off_failed (c d : ℕ) : Thread.Off d (.failed c 0) where
  dooms := fun hdooms => hdooms rfl
  failing := fun heq => nomatch heq
  connected := fun _ heq => nomatch heq

/-- While nothing is under way for it, a connection is as it is at rest. -/
theorem Held.rest (h : Held c epoll m_QueueWritten m_Queue x) (hoff : epoll.Off c) :
    (x.m_Connected = 0 ∨ x.m_Connected = EINPROGRESS) ∧
      (x.ready = false → m_Queue.map XQuery.toQuery = x.queries ∧ x.m_Connected ≠ 0) ∧
      (x.m_Connected = EINPROGRESS → x.m_Error = false) := by
  refine ⟨?_, fun hready => ⟨(h.waiting hready).resolve_left hoff.dooms, ?_⟩, ?_⟩
  · rcases h.status with h0 | hprogress | hdooms
    · exact .inl h0
    · exact .inr hprogress
    · exact absurd hdooms hoff.dooms
  · exact fun h0 => hoff.connected 0 (h.unnotified hready h0)
  · intro hprogress
    rcases h.healthy (.inl hprogress) with hok | hfailing | hdooms
    · exact hok
    · exact absurd hfailing hoff.failing
    · exact absurd hdooms hoff.dooms

/-- The thread comes to, or goes on with, something else. -/
theorem Held.move (h : Held c epoll m_QueueWritten m_Queue x) (hoff : epoll.Off c)
    {epoll' : Thread} (hnot : ∀ aCode, epoll' ≠ .connected c aCode) :
    Held c epoll' m_QueueWritten m_Queue x := by
  obtain ⟨hstatus, hwaiting, herror⟩ := h.rest hoff
  exact {
    status := hstatus.imp_right .inl
    waiting := fun hready => .inr (hwaiting hready).1
    unnotified := fun hready h0 => absurd h0 (hwaiting hready).2
    first := fun aCode heq => absurd heq (hnot aCode)
    healthy := fun hor => .inl (herror (hor.resolve_right (hnot 0)))
    flag := h.flag
    live := h.live }

/-- Before its handler makes an end of all, little must be known. -/
theorem Held.doomed (hdooms : epoll.Dooms)
    (hfirst : ∀ aCode, epoll = .connected c aCode → x.ready = false)
    (hunnotified : x.ready = false → x.m_Connected = 0 → epoll = .connected c 0)
    (hflag : x.ready = true → m_QueueWritten = true)
    (hlive : x.ready = true → x.m_Error = false → x.written = x.queries) :
    Held c epoll m_QueueWritten m_Queue x where
  status := .inr (.inr hdooms)
  waiting := fun _ => .inl hdooms
  unnotified := hunnotified
  first := hfirst
  healthy := fun _ => .inr (.inr hdooms)
  flag := hflag
  live := hlive

end Held

theorem Inv.connecting (hs : Inv s) {c get_error : ℕ}
    (he : Enabled s (.connecting c get_error)) : Inv (step s (.connecting c get_error)) := by
  obtain ⟨hidle, hc, hprogress, hne⟩ := he
  have hready : (s.connections c).ready = false := by
    by_contra hready
    exact (hs.sound c).settled (by simpa using hready) hprogress
  refine hs.modify hc ?_ ?_ ?_ ?_
  · intro h
    rw [hidle] at h
    obtain ⟨-, hwaiting, herror⟩ := h.rest (Thread.off_idle c)
    by_cases h0 : get_error = 0
    · subst h0
      exact {
        status := .inl rfl
        waiting := fun _ => .inr (hwaiting hready).1
        unnotified := fun _ _ => rfl
        first := fun _ _ => hready
        healthy := fun _ => .inl (herror hprogress)
        flag := h.flag
        live := h.live }
    · exact Held.doomed h0 (fun _ _ => hready) (fun _ heq => absurd heq h0) h.flag h.live
  · intro d x hd h
    rw [hidle] at h
    exact h.move (Thread.off_idle d) fun aCode heq => hd (by cases heq; rfl)
  · exact fun h => ⟨h.unready, fun _ => hne, h.written⟩
  · exact ⟨hc, by rw [State.modify_self], by rw [State.modify_self]; exact hne⟩

theorem Inv.error (hs : Inv s) {c : ℕ} (he : Enabled s (.error c)) : Inv (step s (.error c)) := by
  obtain ⟨hidle, hc⟩ := he
  refine hs.modify hc ?_ ?_ ?_ ?_
  · intro h
    rw [hidle] at h
    obtain ⟨hstatus, hwaiting, -⟩ := h.rest (Thread.off_idle c)
    exact {
      status := hstatus.imp_right .inl
      waiting := fun hready => .inr (hwaiting hready).1
      unnotified := fun hready h0 => absurd h0 (hwaiting hready).2
      first := fun _ heq => nomatch heq
      healthy := fun _ => .inr (.inl rfl)
      flag := h.flag
      live := fun _ herror => nomatch herror }
  · intro d x _ h
    rw [hidle] at h
    exact h.move (Thread.off_idle d) fun aCode heq => nomatch heq
  · exact fun h => ⟨h.unready, h.settled, h.written⟩
  · exact ⟨hc, by rw [State.modify_self]⟩

theorem errorStatus_zero {x : Connection} {get_error : ℕ} (h : x.errorStatus get_error = 0) :
    x.m_Connected = 0 := by
  by_contra hne
  rw [Connection.errorStatus, if_neg hne] at h
  split at h
  · cases h
  · exact hne h

theorem errorStatus_ne {x : Connection} {get_error : ℕ} (he : get_error ≠ EINPROGRESS)
    (hx : x.m_Connected ≠ EINPROGRESS) : x.errorStatus get_error ≠ EINPROGRESS := by
  rw [Connection.errorStatus]
  split
  · decide
  · split
    · exact he
    · exact hx

theorem Inv.status (hs : Inv s) {get_error : ℕ} (he : Enabled s (.status get_error)) :
    Inv (step s (.status get_error)) := by
  rw [step]
  split
  case h_2 => exact hs
  case h_1 c hfailing =>
    have hat := hs.epoll
    rw [hfailing] at hat
    obtain ⟨hc, herror⟩ := hat
    refine hs.modify hc ?_ ?_ ?_ ?_
    · intro h
      rw [hfailing] at h
      by_cases h0 : (s.connections c).errorStatus get_error = 0
      · have hready : (s.connections c).ready = true := by
          by_contra hready
          cases h.unnotified (by simpa using hready) (errorStatus_zero h0)
        exact {
          status := .inl h0
          waiting := fun hnot => absurd (hready.symm.trans hnot) (by decide)
          unnotified := fun hnot => absurd (hready.symm.trans hnot) (by decide)
          first := fun _ heq => nomatch heq
          healthy := fun hor => by
            rcases hor with hprogress | heq
            · exact absurd (h0.symm.trans hprogress) (by decide)
            · cases heq
          flag := h.flag
          live := h.live }
      · exact Held.doomed h0 (fun _ heq => nomatch heq) (fun _ heq => absurd heq h0) h.flag h.live
    · intro d x hd h
      rw [hfailing] at h
      exact h.move (Thread.off_failing hd) fun _ heq => nomatch heq
    · exact fun h => ⟨h.unready, fun hready => errorStatus_ne he (h.settled hready), h.written⟩
    · exact ⟨hc, by rw [State.modify_self]; exact herror⟩

/-! ### The handler -/

/-- Without a queue and without a connection, little must be known. -/
theorem Inv.release (hs : Inv s) {t : State} (hconnection : t.m_Connection = none)
    (hqueue : t.m_Queue = []) (hmade : t.made = s.made)
    (hconnections : t.connections = s.connections) (hepoll : t.epoll = .idle) : Inv t where
  held := fun c hc => nomatch hconnection.symm.trans hc
  empty := fun _ => hqueue
  sound := hconnections ▸ hs.sound
  fresh := hmade ▸ hconnections ▸ hs.fresh
  epoll := by
    rw [hepoll]
    trivial

theorem Inv.flag (hs : Inv s) : Inv { s with m_QueueWritten := true } where
  held := by
    intro c hc
    obtain ⟨hmade, h⟩ := hs.held c hc
    exact ⟨hmade, h.status, h.waiting, h.unnotified, h.first, h.healthy, fun _ => rfl, h.live⟩
  empty := hs.empty
  sound := hs.sound
  fresh := hs.fresh
  epoll := hs.epoll

theorem Inv.rest (hs : Inv s) (hoff : ∀ c ∈ s.m_Connection, s.epoll.Off c) :
    Inv { s with epoll := .idle } where
  held := by
    intro c hc
    obtain ⟨hmade, h⟩ := hs.held c hc
    exact ⟨hmade, h.move (hoff c hc) fun _ heq => nomatch heq⟩
  empty := hs.empty
  sound := hs.sound
  fresh := hs.fresh
  epoll := trivial

/-- A series of writes. -/
def Connection.writes (x : Connection) (qs : List Query) : Connection :=
  if x.m_Error then x else { x with written := x.written ++ qs }

theorem Connection.writes_nil (x : Connection) : x.writes [] = x := by
  rw [Connection.writes]
  split
  · rfl
  · rw [List.append_nil]

theorem Connection.write_writes (x : Connection) (q : Query) (qs : List Query) :
    (x.write q).writes qs = x.writes (q :: qs) := by
  cases herror : x.m_Error <;> simp [Connection.write, Connection.writes, herror]

theorem State.modify_modify (s : State) (c : ℕ) (f g : Connection → Connection) :
    (s.modify c f).modify c g = s.modify c fun x => g (f x) := by
  simp only [State.modify, Function.update_self, Function.update_idem]

theorem State.modify_same (s : State) {c : ℕ} {f : Connection → Connection}
    (h : f (s.connections c) = s.connections c) : s.modify c f = s := by
  rw [State.modify, h, Function.update_eq_self]

theorem foldl_write {d : ℕ} (hd : s.m_Connection = some d) (xs : List XQuery) :
    xs.foldl (fun s x => s.write x.toQuery) s =
      s.modify d fun x => x.writes (xs.map XQuery.toQuery) := by
  induction xs generalizing s with
  | nil => exact (s.modify_same (Connection.writes_nil _)).symm
  | cons x xs ih =>
      have hwrite : s.write x.toQuery = s.modify d fun c => c.write x.toQuery := by
        rw [State.write, hd]
      rw [List.foldl_cons, hwrite, ih (by exact hd), State.modify_modify]
      simp only [Connection.write_writes, List.map_cons]

/-- Nothing is written where there is nothing to write, or the connection has failed. -/
theorem notifyCode_idle
    (h : s.m_Queue = [] ∨ ∃ d ∈ s.m_Connection, (s.connections d).m_Error = true) :
    s.notifyCode 0 = { s with m_QueueWritten := true } := by
  have hfold : s.m_Queue.foldl (fun s x => s.write x.toQuery) s = s := by
    rcases h with hempty | ⟨d, hd, herror⟩
    · rw [hempty, List.foldl_nil]
    · rw [foldl_write hd]
      exact s.modify_same (by rw [Connection.writes, if_pos herror])
  rw [State.notifyCode, if_pos rfl, hfold]

theorem notifyCode_own {c : ℕ} (hc : s.m_Connection = some c) :
    s.notifyCode 0 =
      ({ s with m_QueueWritten := true } : State).modify c fun x =>
        x.writes (s.m_Queue.map XQuery.toQuery) := by
  rw [State.notifyCode, if_pos rfl, foldl_write hc]
  rfl

theorem Sound.writes {x : Connection} (h : Sound x) {qs : List Query} (hready : x.ready = false)
    (hqs : qs = x.queries) (hne : x.m_Connected ≠ EINPROGRESS) :
    Sound { x.writes qs with ready := true } where
  unready := fun heq => nomatch heq
  settled := fun _ => by
    rw [Connection.writes]
    split <;> exact hne
  written := by
    rw [Connection.writes]
    split
    · exact h.written
    · rw [h.unready hready, hqs, List.nil_append]

/-- The connect handler of `m_Connection` writes the queue. -/
theorem Inv.notified (hs : Inv s) {c : ℕ} (hepoll : s.epoll = .connected c 0)
    (hc : s.m_Connection = some c) :
    Inv { ({ s with m_QueueWritten := true } : State).modify c fun x =>
      { x.writes (s.m_Queue.map XQuery.toQuery) with ready := true } with epoll := .idle } := by
  have hat := hs.epoll
  rw [hepoll] at hat
  obtain ⟨hmade, hstatus, hne⟩ := hat
  obtain ⟨-, hheld⟩ := hs.held c hc
  rw [hepoll] at hheld
  have hready := hheld.first 0 rfl
  have hqueue := (hheld.waiting hready).resolve_left fun hdooms => hdooms rfl
  refine hs.flag.modify hmade ?_ ?_ ?_ trivial
  · intro _
    exact {
      status := by
        rw [Connection.writes]
        split <;> exact .inl hstatus
      waiting := fun heq => nomatch heq
      unnotified := fun heq => nomatch heq
      first := fun _ heq => nomatch heq
      healthy := fun hor => by
        rw [Connection.writes] at hor
        rcases hor with hprogress | heq
        · split at hprogress <;> exact absurd hprogress hne
        · cases heq
      flag := fun _ => rfl
      live := by
        intro _ herror
        rw [Connection.writes] at herror ⊢
        split at herror
        case isTrue htrue => exact absurd (htrue.symm.trans herror) (by decide)
        case isFalse hfalse =>
          rw [if_neg hfalse, (hs.sound c).unready hready]
          exact hqueue }
  · intro d x hd h
    have hoff : s.epoll.Off d := hepoll ▸ Thread.off_connected hd
    exact h.move hoff fun _ heq => nomatch heq
  · exact fun h => h.writes hready hqueue hne

/-- The queue is written, and the connection is ready. -/
def State.notified (s : State) (c : ℕ) : State :=
  { ({ s with m_QueueWritten := true } : State).modify c fun x =>
      { x.writes (s.m_Queue.map XQuery.toQuery) with ready := true } with epoll := .idle }

/-- What a connect handler can do: write the queue of its own connection, nothing, or make an
end of the queue, when `on_error` may follow. -/
inductive HandlerCases (s : State) : State → Prop
  | own (c : ℕ) : s.epoll = .connected c 0 → s.m_Connection = some c → HandlerCases s (s.notified c)
  | nothing : (∀ c ∈ s.m_Connection, s.epoll.Off c) →
      HandlerCases s { s with m_QueueWritten := true, epoll := .idle }
  | ends (aCode : ℕ) : aCode ≠ 0 → HandlerCases s { s.notifyCode aCode with epoll := .idle }
  | fails (c aCode : ℕ) : s.epoll = .connected c aCode → aCode ≠ 0 →
      HandlerCases s (MassClient.step { s.notifyCode aCode with epoll := .idle } (.error c))
  | stays : HandlerCases s s

theorem Inv.handler_cases (hs : Inv s) (ht : Timely s .handler) : HandlerCases s s.handler := by
  have hat := hs.epoll
  rw [State.handler]
  split
  case h_1 c aCode hepoll =>
    split
    case isTrue h0 =>
      subst h0
      have hlate := ht c (by rw [hepoll]; rfl)
      by_cases hc : s.m_Connection = some c
      · have hown := HandlerCases.own c hepoll hc
        rw [State.notified] at hown
        simpa only [notifyCode_own hc, State.modify_modify, hc, decide_true, Bool.or_true]
          using hown
      · rw [notifyCode_idle (hlate.imp_right fun h => h.resolve_left hc)]
        dsimp only
        rw [State.modify_same _ (by simp only [hc, decide_false, Bool.or_false])]
        exact .nothing fun d hd => hepoll ▸ Thread.off_connected fun heq => hc (heq ▸ hd)
    case isFalse h0 => exact .fails c aCode hepoll h0
  case h_2 c aCode hepoll =>
    rw [hepoll] at hat
    by_cases h0 : aCode = 0
    · subst h0
      have hlate := ht c (by rw [hepoll]; rfl)
      rw [notifyCode_idle (hlate.imp_right fun h => h.elim (fun hc => ⟨c, hc, hat.2⟩) id)]
      exact .nothing fun d _ => hepoll ▸ Thread.off_failed c d
    · exact .ends aCode h0
  case h_3 => exact .stays

theorem Inv.ends (hs : Inv s) {aCode : ℕ} (h0 : aCode ≠ 0) :
    Inv { s.notifyCode aCode with epoll := .idle } := by
  refine hs.release ?_ ?_ ?_ ?_ rfl <;> rw [State.notifyCode, if_neg h0] <;> rfl

theorem Inv.handler (hs : Inv s) (ht : Timely s .handler) : Inv (step s .handler) := by
  have hcases := hs.handler_cases ht
  rw [step]
  generalize s.handler = t at hcases ⊢
  cases hcases with
  | own c hepoll hc => exact hs.notified hepoll hc
  | nothing hoff => exact hs.flag.rest hoff
  | ends aCode h0 => exact hs.ends h0
  | fails c aCode hepoll h0 =>
      have hat := hs.epoll
      rw [hepoll] at hat
      refine (hs.ends h0).error ⟨rfl, ?_⟩
      rw [State.notifyCode, if_neg h0]
      exact hat.1
  | stays => exact hs

/-! ### The other events -/

theorem Inv.timer (hs : Inv s) {sNow : ℕ} (he : Enabled s (.timer sNow)) :
    Inv (step s (.timer sNow)) := by
  rw [step, State.onTimer]
  split
  case h_1 => exact ⟨hs.held, hs.empty, hs.sound, hs.fresh, hs.epoll⟩
  case h_2 =>
    split
    case isTrue => exact hs.release rfl rfl rfl rfl he
    case isFalse => exact hs

/-- A query leaves the queue of a connection that it was written to. -/
theorem Inv.pop (hs : Inv s) (hidle : s.epoll = .idle)
    (hready : ∀ c ∈ s.m_Connection, (s.connections c).ready = true) {x : XQuery}
    {m_Queue : List XQuery} (hqueue : s.m_Queue = x :: m_Queue) (callbacks : List Callback) :
    Inv { s with m_Queue := m_Queue, callbacks := callbacks } where
  held := by
    intro c hc
    obtain ⟨hmade, h⟩ := hs.held c hc
    have hnot : ∀ {p : Prop}, (s.connections c).ready = false → p := fun heq =>
      absurd ((hready c hc).symm.trans heq) (by decide)
    exact ⟨hmade, h.status, hnot, hnot, h.first, h.healthy, h.flag, h.live⟩
  empty := by
    intro hnone
    have hempty := hs.empty hnone
    rw [hqueue] at hempty
    cases hempty
  sound := hs.sound
  fresh := hs.fresh
  epoll := by
    change s.epoll.At _ _
    rw [hidle]
    trivial

theorem Inv.answer (hs : Inv s) (hidle : s.epoll = .idle) {c : ℕ} (hc : c < s.made)
    (keep_alive : Bool) : Inv (s.modify c (·.answer keep_alive)) := by
  have hinv : Inv { s.modify c (·.answer keep_alive) with epoll := s.epoll } := by
    refine hs.modify hc ?_ (fun d x _ h => h) ?_ ?_
    · exact fun h => ⟨h.status, h.waiting, h.unnotified, h.first, h.healthy, h.flag, h.live⟩
    · exact fun h => ⟨h.unready, h.settled, h.written⟩
    · rw [hidle]
      trivial
  exact hinv

/-- At rest, a connection with the status 0 has been notified. -/
theorem Inv.ready (hs : Inv s) (hidle : s.epoll = .idle) {d : ℕ} (hd : s.m_Connection = some d)
    (h0 : (s.connections d).m_Connected = 0) : (s.connections d).ready = true := by
  obtain ⟨-, h⟩ := hs.held d hd
  rw [hidle] at h
  by_contra hnot
  exact ((h.rest (Thread.off_idle d)).2.1 (by simpa using hnot)).2 h0

theorem Inv.response (hs : Inv s) {c : ℕ} {keep_alive : Bool}
    (he : Enabled s (.response c keep_alive)) (ht : Timely s (.response c keep_alive)) :
    Inv (step s (.response c keep_alive)) := by
  obtain ⟨hidle, hc, -, hanswered⟩ := he
  rw [step]
  split
  case h_1 => exact hs
  case h_2 q hq =>
    have hanswer := hs.answer hidle hc keep_alive
    rw [State.notifyResponse]
    split
    case h_1 => exact hanswer
    case h_2 x m_Queue hqueue =>
      refine hanswer.pop hidle ?_ hqueue _
      intro d hd
      have hready : (s.connections d).ready = true := by
        rcases ht with hempty | hown | ⟨d', hd', h0⟩
        · exact nomatch hempty.symm.trans hqueue
        · obtain rfl := Option.some.inj (hown.symm.trans hd)
          by_contra hnot
          rw [(hs.sound c).unready (by simpa using hnot)] at hanswered
          exact absurd hanswered (Nat.not_lt_zero _)
        · obtain rfl := Option.some.inj (hd'.symm.trans hd)
          exact hs.ready hidle hd' h0
      by_cases hdc : d = c
      · rw [hdc, State.modify_self]
        exact hdc ▸ hready
      · rw [State.modify_ne s hdc]
        exact hready

/-! ### `insert` -/

/-- A new connection is made. -/
theorem insert_new (hstatus : s.sStatus ≠ 0 ∧ s.sStatus ≠ EINPROGRESS) (sNow : ℕ)
    (request : Bytes) :
    s.insert sNow request =
      { s with
        m_TimerStarted := true
        m_Queue := s.m_Queue ++ [⟨⟨s.inserted, request⟩, sNow + s.timeout_ms⟩]
        inserted := s.inserted + 1
        m_Connection := some s.made
        made := s.made + 1
        connections := Function.update s.connections s.made
          { m_Connected := EINPROGRESS, queries := [⟨s.inserted, request⟩] } } := by
  have hnot : ¬(s.sStatus = 0 ∧ s.m_QueueWritten = true) := fun h => hstatus.1 h.1
  rw [State.insert, if_pos hstatus, if_neg hnot]
  simp only [State.assign, State.initiateI, State.modify, Function.update_self,
    Function.update_idem, List.nil_append]

/-- What a query that is inserted makes of the connection there is. -/
def Connection.take (x : Connection) (m_QueueWritten : Bool) (q : Query) : Connection :=
  let y := if x.m_Connected = 0 ∧ m_QueueWritten then x.write q else x
  { y with queries := y.queries ++ [q] }

theorem insert_old {c : ℕ} (hc : s.m_Connection = some c)
    (hstatus : ¬((s.connections c).m_Connected ≠ 0 ∧ (s.connections c).m_Connected ≠ EINPROGRESS))
    (sNow : ℕ) (request : Bytes) :
    s.insert sNow request =
      { s with
        m_TimerStarted := true
        m_Queue := s.m_Queue ++ [⟨⟨s.inserted, request⟩, sNow + s.timeout_ms⟩]
        inserted := s.inserted + 1
        connections := Function.update s.connections c
          ((s.connections c).take s.m_QueueWritten ⟨s.inserted, request⟩) } := by
  have hsStatus : s.sStatus = (s.connections c).m_Connected := by rw [State.sStatus, hc]
  rw [State.insert, hsStatus, if_neg hstatus]
  by_cases hwrite : (s.connections c).m_Connected = 0 ∧ s.m_QueueWritten = true
  · simp only [if_pos hwrite, Connection.take, State.assign, State.write, hc, State.modify,
      Function.update_self, Function.update_idem]
  · simp only [if_neg hwrite, Connection.take, State.assign, hc, State.modify]

theorem Thread.At.mono {epoll : Thread} {made made' : ℕ} {connections connections' : ℕ → Connection}
    (h : epoll.At made connections) (hmade : made ≤ made')
    (hstatus : ∀ c < made, (connections' c).m_Connected = (connections c).m_Connected)
    (herror : ∀ c < made, (connections' c).m_Error = (connections c).m_Error) :
    epoll.At made' connections' := by
  cases epoll with
  | idle => trivial
  | connected c aCode =>
      obtain ⟨hc, heq, hne⟩ := h
      exact ⟨hc.trans_le hmade, (hstatus c hc).trans heq, (hstatus c hc).symm ▸ hne⟩
  | failing c => exact ⟨h.1.trans_le hmade, (herror c h.1).trans h.2⟩
  | failed c aCode => exact ⟨h.1.trans_le hmade, (herror c h.1).trans h.2⟩

/-- What `insert` finds: it makes a new connection, or goes on with the one there is. -/
theorem status_cases (s : State) :
    (s.sStatus ≠ 0 ∧ s.sStatus ≠ EINPROGRESS) ∨
      ∃ c, s.m_Connection = some c ∧
        ¬((s.connections c).m_Connected ≠ 0 ∧ (s.connections c).m_Connected ≠ EINPROGRESS) := by
  by_cases hstatus : s.sStatus ≠ 0 ∧ s.sStatus ≠ EINPROGRESS
  · exact .inl hstatus
  · cases hc : s.m_Connection with
    | none =>
        have hnew : ENOTCONN ≠ 0 ∧ ENOTCONN ≠ EINPROGRESS := by decide
        rw [State.sStatus, hc] at hstatus
        exact absurd hnew hstatus
    | some c =>
        rw [State.sStatus, hc] at hstatus
        exact .inr ⟨c, rfl, hstatus⟩

/-- A connection whose status is an error has a queue that its handler is about to end. -/
theorem Inv.queue_left (hs : Inv s) (hstatus : s.sStatus ≠ 0 ∧ s.sStatus ≠ EINPROGRESS) :
    s.epoll.Dooms ∨ s.m_Queue = [] := by
  cases hold : s.m_Connection with
  | none => exact .inr (hs.empty hold)
  | some d =>
      rw [State.sStatus, hold] at hstatus
      obtain ⟨-, h⟩ := hs.held d hold
      rcases h.status with h0 | hprogress | hdooms
      · exact absurd h0 hstatus.1
      · exact absurd hprogress hstatus.2
      · exact .inl hdooms

theorem Inv.insert_new (hs : Inv s) (hstatus : s.sStatus ≠ 0 ∧ s.sStatus ≠ EINPROGRESS) (sNow : ℕ)
    (request : Bytes) : Inv (s.insert sNow request) := by
  rw [MassClient.insert_new hstatus]
  constructor
  · intro c hc
    obtain rfl : s.made = c := Option.some.inj hc
    refine ⟨Nat.lt_succ_self _, ?_⟩
    dsimp only
    rw [Function.update_self]
    exact {
      status := .inr (.inl rfl)
      waiting := fun _ => (hs.queue_left hstatus).imp_right fun hempty => by rw [hempty]; rfl
      unnotified := fun _ h0 => absurd (show EINPROGRESS = 0 from h0) (by decide)
      first := fun _ _ => rfl
      healthy := fun _ => .inl rfl
      flag := fun heq => nomatch heq
      live := fun heq => nomatch heq }
  · exact fun hnone => nomatch hnone
  · intro c
    dsimp only
    by_cases hc : c = s.made
    · subst hc
      rw [Function.update_self]
      exact ⟨fun _ => rfl, fun heq => (nomatch heq), List.nil_prefix⟩
    · rw [Function.update_of_ne hc]
      exact hs.sound c
  · intro c hc
    have hlt : s.made < c := hc
    dsimp only
    rw [Function.update_of_ne hlt.ne']
    exact hs.fresh c hlt.le
  · refine hs.epoll.mono (Nat.le_succ _) ?_ ?_ <;> intro c hc <;> dsimp only <;>
      rw [Function.update_of_ne hc.ne]

section Take
variable {x : Connection} {m_QueueWritten : Bool} {q : Query}

/-- A connection takes the query to write it at once, or leaves it in the queue. -/
theorem take_cases (x : Connection) (m_QueueWritten : Bool) (q : Query) :
    (x.m_Connected = 0 ∧ m_QueueWritten = true ∧
        x.take m_QueueWritten q = { x.write q with queries := x.queries ++ [q] }) ∨
      ((x.m_Connected ≠ 0 ∨ m_QueueWritten = false) ∧
        x.take m_QueueWritten q = { x with queries := x.queries ++ [q] }) := by
  rw [Connection.take]
  by_cases h : x.m_Connected = 0 ∧ m_QueueWritten = true
  · rw [if_pos h]
    refine .inl ⟨h.1, h.2, ?_⟩
    rw [Connection.write]
    split <;> rfl
  · rw [if_neg h]
    rw [not_and_or, Bool.not_eq_true] at h
    exact .inr ⟨h, rfl⟩

theorem take_fields (x : Connection) (m_QueueWritten : Bool) (q : Query) :
    (x.take m_QueueWritten q).m_Connected = x.m_Connected ∧
      (x.take m_QueueWritten q).m_Error = x.m_Error ∧
      (x.take m_QueueWritten q).ready = x.ready ∧
      (x.take m_QueueWritten q).queries = x.queries ++ [q] ∧
      (x.take m_QueueWritten q).answered = x.answered := by
  rcases take_cases x m_QueueWritten q with ⟨-, -, heq⟩ | ⟨-, heq⟩
  · rw [heq, Connection.write]
    split <;> exact ⟨rfl, rfl, rfl, rfl, rfl⟩
  · rw [heq]
    exact ⟨rfl, rfl, rfl, rfl, rfl⟩

end Take

theorem Inv.insert_old (hs : Inv s) {c : ℕ} (hc : s.m_Connection = some c)
    (hstatus : ¬((s.connections c).m_Connected ≠ 0 ∧ (s.connections c).m_Connected ≠ EINPROGRESS))
    {sNow : ℕ} {request : Bytes} (ht : Timely s (.insert sNow request)) :
    Inv (s.insert sNow request) := by
  rw [MassClient.insert_old hc hstatus]
  obtain ⟨hmade, h⟩ := hs.held c hc
  have hx := hs.sound c
  set x := s.connections c with hxdef
  set q : Query := ⟨s.inserted, request⟩
  obtain ⟨hconnected, herror, hready, hqueries, -⟩ := take_fields x s.m_QueueWritten q
  have htake := take_cases x s.m_QueueWritten q
  -- What is written at once goes to a connection that has all its other queries.
  have hwrites : x.m_Connected = 0 → s.m_QueueWritten = true → x.ready = true := by
    intro h0 hflag
    by_contra hnot
    have hlate := ht c hc (h.unnotified (by simpa using hnot) h0)
    exact absurd (hflag.symm.trans hlate) (by decide)
  have hwaits : x.m_Connected ≠ 0 ∨ s.m_QueueWritten = false → x.ready = false := by
    intro hor
    by_contra hnot
    rw [Bool.not_eq_false] at hnot
    rcases hor with hne | hflag
    · exact hx.settled hnot (not_and_not_right.mp hstatus hne)
    · exact absurd ((h.flag hnot).symm.trans hflag) (by decide)
  have htaken : Sound (x.take s.m_QueueWritten q) ∧
      ((x.take s.m_QueueWritten q).ready = true → (x.take s.m_QueueWritten q).m_Error = false →
        (x.take s.m_QueueWritten q).written = (x.take s.m_QueueWritten q).queries) := by
    rcases htake with ⟨h0, hflag, heq⟩ | ⟨hor, heq⟩
    · have hnotified := hwrites h0 hflag
      have hsettled : (x.take s.m_QueueWritten q).m_Connected ≠ EINPROGRESS :=
        hconnected ▸ hx.settled hnotified
      have hunready : (x.take s.m_QueueWritten q).ready = false →
          (x.take s.m_QueueWritten q).written = [] := fun hnot =>
        absurd (hnotified.symm.trans (hready.symm.trans hnot)) (by decide)
      cases hfailed : x.m_Error with
      | true =>
          have hwrite : x.write q = x := by rw [Connection.write, if_pos hfailed]
          refine ⟨⟨hunready, fun _ => hsettled, ?_⟩, ?_⟩
          · rw [heq, hwrite]
            exact hx.written.trans (List.prefix_append _ _)
          · rw [herror, hfailed]
            exact fun _ hnot => absurd hnot (by decide)
      | false =>
          have hall : (x.take s.m_QueueWritten q).written =
              (x.take s.m_QueueWritten q).queries := by
            rw [heq, Connection.write, if_neg (by rw [hfailed]; decide)]
            exact congrArg (· ++ [q]) (h.live hnotified hfailed)
          exact ⟨⟨hunready, fun _ => hsettled, hall ▸ List.prefix_rfl⟩, fun _ _ => hall⟩
    · have hnot := hwaits hor
      have hempty := hx.unready hnot
      have hvoid : ∀ {p : Prop}, (x.take s.m_QueueWritten q).ready = true → p := fun hyes =>
        absurd (hnot.symm.trans (hready.symm.trans hyes)) (by decide)
      have hwritten : (x.take s.m_QueueWritten q).written = [] := by rw [heq]; exact hempty
      exact ⟨⟨fun _ => hwritten, hvoid, hwritten ▸ List.nil_prefix⟩, hvoid⟩
  constructor
  · intro d hd
    obtain rfl := Option.some.inj (hc.symm.trans hd)
    refine ⟨hmade, ?_⟩
    dsimp only
    rw [Function.update_self]
    exact {
      status := by rw [hconnected]; exact h.status
      waiting := by
        rw [hready, hqueries, List.map_append]
        exact fun hnot => (h.waiting hnot).imp_right fun hqueue => by rw [hqueue]; rfl
      unnotified := by rw [hready, hconnected]; exact h.unnotified
      first := by rw [hready]; exact h.first
      healthy := by rw [hconnected, herror]; exact h.healthy
      flag := by rw [hready]; exact h.flag
      live := htaken.2 }
  · exact fun hnone => nomatch hc.symm.trans hnone
  · intro d
    dsimp only
    by_cases hd : d = c
    · rw [hd, Function.update_self]
      exact htaken.1
    · rw [Function.update_of_ne hd]
      exact hs.sound d
  · intro d hd
    have hlt : s.made ≤ d := hd
    dsimp only
    rw [Function.update_of_ne (hmade.trans_le hlt).ne']
    exact hs.fresh d hlt
  · have hfields : ∀ d,
        (Function.update s.connections c (x.take s.m_QueueWritten q) d).m_Connected =
            (s.connections d).m_Connected ∧
          (Function.update s.connections c (x.take s.m_QueueWritten q) d).m_Error =
            (s.connections d).m_Error := by
      intro d
      by_cases hd : d = c
      · rw [hd, Function.update_self]
        exact ⟨hconnected, herror⟩
      · rw [Function.update_of_ne hd]
        exact ⟨rfl, rfl⟩
    exact hs.epoll.mono le_rfl (fun d _ => (hfields d).1) fun d _ => (hfields d).2

theorem Inv.insert (hs : Inv s) {sNow : ℕ} {request : Bytes}
    (ht : Timely s (.insert sNow request)) : Inv (step s (.insert sNow request)) := by
  rcases status_cases s with hstatus | ⟨c, hc, hstatus⟩
  · exact hs.insert_new hstatus sNow request
  · exact hs.insert_old hc hstatus ht

theorem Inv.step (hs : Inv s) {e : Event} (he : Enabled s e) (ht : Timely s e) :
    Inv (step s e) := by
  cases e with
  | insert sNow request => exact hs.insert ht
  | timer sNow => exact hs.timer he
  | connecting c get_error => exact hs.connecting he
  | handler => exact hs.handler ht
  | error c => exact hs.error he
  | status get_error => exact hs.status he
  | response c keep_alive => exact hs.response he ht

end

end Stuff.MassClient
