import Stuff.TcpConnection

/-!
# What a connection sends

The socket is given the strings in the order of the calls of `write`, and what it did not take is in
`m_WriteOut`. A write-out timer that comes while the connection is made is used up for nothing.
-/
namespace Stuff.TcpConnection
open EventRuns MachineWords State
open EPoll (Result)
open MassClient (EINPROGRESS)

variable {Request : Type} {p : P Request} {s t u : State Request}

/-! ## Steps that send nothing -/

structure Quiet (s t : State Request) : Prop where
  written : t.written = s.written
  accepted : t.accepted = s.accepted
  m_WriteOut : t.m_WriteOut = s.m_WriteOut
  timers : t.timers = s.timers
  short : t.short = s.short
  m_Error : s.m_Error = true → t.m_Error = true

namespace Quiet

theorem of_eq (hwritten : t.written = s.written) (haccepted : t.accepted = s.accepted)
    (hout : t.m_WriteOut = s.m_WriteOut) (htimers : t.timers = s.timers)
    (hshort : t.short = s.short) (herror : t.m_Error = s.m_Error) : Quiet s t :=
  ⟨hwritten, haccepted, hout, htimers, hshort, fun h => herror.trans h⟩

theorem refl (s : State Request) : Quiet s s := of_eq rfl rfl rfl rfl rfl rfl

theorem trans (h : Quiet s t) (h' : Quiet t u) : Quiet s u where
  written := h'.written.trans h.written
  accepted := h'.accepted.trans h.accepted
  m_WriteOut := h'.m_WriteOut.trans h.m_WriteOut
  timers := h'.timers.trans h.timers
  short := h'.short.trans h.short
  m_Error := fun herror => h'.m_Error (h.m_Error herror)

theorem on_error (s : State Request) (get_error : ℕ) : Quiet s (s.on_error get_error) :=
  ⟨rfl, rfl, rfl, rfl, rfl, fun _ => rfl⟩

theorem ended (s : State Request) (sResult : Result) (get_error : ℕ) :
    Quiet s (s.ended sResult get_error) := by
  rw [State.ended]
  split
  · exact ⟨rfl, rfl, rfl, rfl, rfl, fun _ => rfl⟩
  · exact of_eq rfl rfl rfl rfl rfl rfl

theorem readEnd (p : P Request) (s : State Request) (sSize : ℤ) (get_error : ℕ) :
    Quiet s (s.readEnd p sSize get_error) := by
  rw [State.readEnd]
  split <;> exact ended _ _ _

theorem leave (p : P Request) (s : State Request) (caller : Caller) (get_error : ℕ) :
    Quiet s (s.leave p caller get_error) := by
  cases caller with
  | on_read sSize => exact readEnd p s sSize get_error
  | posted => exact of_eq rfl rfl rfl rfl rfl rfl

theorem next (p : P Request) (s : State Request) (caller : Caller) (get_error : ℕ) :
    Quiet s (s.next p caller get_error) := by
  rw [State.next]
  split
  · refine Quiet.trans ?_ (leave p _ caller get_error)
    dsimp only
    split <;> exact of_eq rfl rfl rfl rfl rfl rfl
  · exact of_eq rfl rfl rfl rfl rfl rfl

theorem process_request (p : P Request) (s : State Request) (caller : Caller) (get_error : ℕ) :
    Quiet s (s.process_request p caller get_error) := by
  rw [State.process_request]
  split
  · exact leave p s caller get_error
  · refine Quiet.trans ?_ (next p _ caller get_error)
    exact of_eq rfl rfl rfl rfl rfl rfl

theorem returned (p : P Request) (s : State Request) (sResult : UserResult) (get_error : ℕ) :
    Quiet s (s.returned p sResult get_error) := by
  rw [State.returned]
  split
  · cases sResult with
    | ASYNC =>
        refine Quiet.trans ?_ (leave p _ _ get_error)
        exact of_eq rfl rfl rfl rfl rfl rfl
    | CLOSE =>
        refine Quiet.trans ?_ (next p _ _ get_error)
        exact of_eq rfl rfl rfl rfl rfl rfl
    | DONE =>
        refine Quiet.trans ?_ (next p _ _ get_error)
        exact of_eq rfl rfl rfl rfl rfl rfl
  · exact refl s

theorem notify (s : State Request) (i : ℕ) (sResult : UserResult) :
    Quiet s (s.notify i sResult) := by
  rw [State.notify]
  split
  · exact refl s
  · exact of_eq rfl rfl rfl rfl rfl rfl

theorem posted (p : P Request) (s : State Request) (get_error : ℕ) :
    Quiet s (s.posted p get_error) := by
  rw [State.posted]
  split
  · exact refl s
  · exact of_eq rfl rfl rfl rfl rfl rfl
  · refine Quiet.trans ?_ (process_request p _ .posted get_error)
    exact of_eq rfl rfl rfl rfl rfl rfl

theorem readLoop (p : P Request) (sQueueSize : ℕ) (received : List (Received Request))
    (s : State Request) : Quiet s (State.readLoop p sQueueSize received s).1 := by
  induction received generalizing s with
  | nil => exact refl s
  | cons r received ih =>
      cases r with
      | eof => exact refl s
      | throws => exact refl s
      | size sSize requests sUsed =>
          cases sUsed with
          | none => exact of_eq rfl rfl rfl rfl rfl rfl
          | some sUsed =>
              rw [State.readLoop]
              dsimp only
              split_ifs
              · exact of_eq rfl rfl rfl rfl rfl rfl
              · exact of_eq rfl rfl rfl rfl rfl rfl
              · refine Quiet.trans ?_ (ih _)
                exact of_eq rfl rfl rfl rfl rfl rfl

theorem on_read (p : P Request) (s : State Request) (received : List (Received Request))
    (get_error : ℕ) : Quiet s (s.on_read p received get_error) := by
  rw [State.on_read]
  have hloop := readLoop p s.queueSize received s
  split_ifs
  · exact ended s .CLOSE get_error
  · exact ended s .OK get_error
  · exact ended s .RETRY get_error
  · split
    next t heq =>
      rw [heq] at hloop
      exact hloop.trans (ended t .CLOSE get_error)
    next t sSize heq =>
      rw [heq] at hloop
      split
      · exact hloop.trans (process_request p t _ get_error)
      · exact hloop.trans (readEnd p t sSize get_error)

theorem on_timer_connecting (s : State Request) (get_error : ℕ) :
    Quiet s (s.on_timer_connecting get_error) := by
  rw [State.on_timer_connecting]
  split
  · exact of_eq rfl rfl rfl rfl rfl rfl
  · exact ended s .OK get_error

theorem connected (s : State Request) (get_error : ℕ) : Quiet s (s.connected get_error) := by
  rw [State.connected]
  split
  · exact ended s _ get_error
  · exact refl s

end Quiet

/-! ## Order -/

/-- The socket took a prefix of the strings, and without an error `m_WriteOut` is the rest. -/
structure InOrder (s : State Request) : Prop where
  taken : s.accepted <+: s.written
  rest : s.m_Error = false → s.accepted ++ s.m_WriteOut = s.written

/-- What waits is sent by a timer, or when the socket can be written again. -/
def Served (s : State Request) : Prop :=
  s.m_WriteOut ≠ [] → s.m_Error = false → 0 < s.timers ∨ s.short = true

theorem Quiet.error (h : Quiet s t) (herror : t.m_Error = false) : s.m_Error = false := by
  cases hs : s.m_Error with
  | false => rfl
  | true => exact absurd (h.m_Error hs) (by simp [herror])

theorem InOrder.quiet (hs : InOrder s) (h : Quiet s t) : InOrder t := by
  constructor
  · rw [h.accepted, h.written]
    exact hs.taken
  · intro herror
    rw [h.accepted, h.m_WriteOut, h.written]
    exact hs.rest (h.error herror)

theorem Served.quiet (hs : Served s) (h : Quiet s t) : Served t := by
  intro hout herror
  rw [h.m_WriteOut] at hout
  rw [h.timers, h.short]
  exact hs hout (h.error herror)

theorem InOrder.write (hs : InOrder s) {aData : Bytes} {sent : Sent}
    (aForceBuffer : Bool) (get_error : ℕ) :
    InOrder (s.write aData aForceBuffer sent get_error) := by
  have hlonger : s.accepted <+: s.written ++ aData := hs.taken.trans (List.prefix_append _ _)
  unfold State.write
  dsimp only
  split_ifs with herror hidle hbuffer
  · exact ⟨hlonger, fun h => absurd (herror.symm.trans h) (by decide)⟩
  · have hrest := hs.rest (by simpa using herror)
    refine ⟨hlonger, fun _ => ?_⟩
    dsimp only
    rw [← List.append_assoc, hrest]
  · have hrest := hs.rest (by simpa using herror)
    rw [hidle, List.append_nil] at hrest
    cases sent with
    | throws => exact ⟨hlonger, fun h => nomatch h⟩
    | again =>
        refine ⟨hlonger, fun _ => ?_⟩
        dsimp only
        rw [hidle, hrest, List.nil_append]
    | size sSize =>
        dsimp only
        have htake : s.accepted ++ aData.take sSize <+: s.written ++ aData := by
          rw [hrest]
          exact (List.prefix_append_right_inj _).mpr (List.take_prefix _ _)
        split_ifs with hall
        · refine ⟨htake, fun _ => ?_⟩
          dsimp only
          rw [hidle, hrest, List.append_nil, hall, List.take_length]
        · refine ⟨htake, fun _ => ?_⟩
          dsimp only
          rw [hidle, List.nil_append, List.append_assoc, List.take_append_drop, hrest]
  · have hrest := hs.rest (by simpa using herror)
    refine ⟨hlonger, fun _ => ?_⟩
    dsimp only
    rw [← List.append_assoc, hrest]

theorem InOrder.on_write (hs : InOrder s) (sent : Sent) (get_error : ℕ) :
    InOrder (s.on_write sent get_error) := by
  unfold State.on_write
  split_ifs with hconnecting herror hidle
  · exact hs.quiet (.of_eq rfl rfl rfl rfl rfl rfl)
  · exact hs.quiet (.ended s .CLOSE get_error)
  · exact hs.quiet (.ended s .OK get_error)
  · cases sent with
    | throws => exact hs.quiet (.ended s .CLOSE get_error)
    | again =>
        have hshort : InOrder { s with short := true } := ⟨hs.taken, hs.rest⟩
        exact hshort.quiet (.ended _ .OK get_error)
    | size sSize =>
        have hrest := hs.rest (by simpa using herror)
        have hsent : InOrder { s with
            accepted := s.accepted ++ s.m_WriteOut.take sSize
            m_WriteOut := s.m_WriteOut.drop sSize
            short := decide (sSize < s.m_WriteOut.length) } := by
          constructor
          · dsimp only
            rw [← hrest]
            exact (List.prefix_append_right_inj _).mpr (List.take_prefix _ _)
          · intro _
            dsimp only
            rw [List.append_assoc, List.take_append_drop, hrest]
        dsimp only
        split
        · exact hsent.quiet (.ended _ .CLOSE get_error)
        · exact hsent.quiet (.ended _ .OK get_error)

/-! ## Timers -/

theorem Served.write (hs : Served s) (aData : Bytes) (aForceBuffer : Bool) (sent : Sent)
    (get_error : ℕ) : Served (s.write aData aForceBuffer sent get_error) := by
  unfold State.write
  dsimp only
  split_ifs with herror hidle hbuffer
  · exact fun _ h => absurd (herror.symm.trans h) (by decide)
  · exact fun _ _ => .inl (Nat.succ_pos _)
  · cases sent with
    | throws => exact fun _ h => nomatch h
    | again => exact fun _ _ => .inl (Nat.succ_pos _)
    | size sSize =>
        dsimp only
        split_ifs with hall
        · exact fun hout => absurd hidle hout
        · exact fun _ _ => .inl (Nat.succ_pos _)
  · exact fun _ h => hs hidle h

/-- When it is connected, `on_write` leaves nothing, or the socket wants no more. -/
theorem served_on_write (hconnected : s.m_Connected ≠ EINPROGRESS) (sent : Sent)
    (get_error : ℕ) : Served (s.on_write sent get_error) := by
  unfold State.on_write
  rw [if_neg hconnected]
  split_ifs with herror hidle
  · exact fun _ h => nomatch h
  · exact fun hout => absurd hidle hout
  · cases sent with
    | throws => exact fun _ h => nomatch h
    | again => exact fun _ _ => .inr rfl
    | size sSize =>
        have hshort : Served { s with
            accepted := s.accepted ++ s.m_WriteOut.take sSize
            m_WriteOut := s.m_WriteOut.drop sSize
            short := decide (sSize < s.m_WriteOut.length) } := by
          intro hout _
          refine .inr (decide_eq_true ?_)
          rw [Ne, List.drop_eq_nil_iff] at hout
          exact Nat.lt_of_not_le hout
        dsimp only
        split
        · exact hshort.quiet (.ended _ .CLOSE get_error)
        · exact hshort.quiet (.ended _ .OK get_error)

/-- While the connection is made, `on_write` sends nothing. -/
theorem on_write_connecting (hconnecting : s.m_Connected = EINPROGRESS) (sent : Sent)
    (get_error : ℕ) :
    s.on_write sent get_error = { s with m_Connected := get_error, call := .connected false } :=
  if_pos hconnecting

theorem Served.on_write (hs : Served s) (sent : Sent) (get_error : ℕ) :
    Served (s.on_write sent get_error) := by
  by_cases hconnecting : s.m_Connected = EINPROGRESS
  · rw [on_write_connecting hconnecting]
    exact hs.quiet (.of_eq rfl rfl rfl rfl rfl rfl)
  · exact served_on_write hconnecting sent get_error

/-- A write-out timer that comes while the connection is made finds nothing to send, or there is
another one. -/
def KeepsTimer (s : State Request) : Event Request → Prop
  | .on_timer _ _ =>
      s.m_Connected = EINPROGRESS → s.m_WriteOut ≠ [] → s.m_Error = false →
        1 < s.timers ∨ s.short = true
  | _ => True

instance decidableKeepsTimer (s : State Request) : (e : Event Request) → Decidable (KeepsTimer s e)
  | .on_timer _ _ =>
      inferInstanceAs (Decidable (s.m_Connected = EINPROGRESS → s.m_WriteOut ≠ [] →
        s.m_Error = false → 1 < s.timers ∨ s.short = true))
  | .connect => inferInstanceAs (Decidable True)
  | .write _ _ _ _ => inferInstanceAs (Decidable True)
  | .on_write _ _ => inferInstanceAs (Decidable True)
  | .on_timer_connecting _ => inferInstanceAs (Decidable True)
  | .connected _ => inferInstanceAs (Decidable True)
  | .on_read _ _ => inferInstanceAs (Decidable True)
  | .returned _ _ => inferInstanceAs (Decidable True)
  | .notify _ _ => inferInstanceAs (Decidable True)
  | .posted _ => inferInstanceAs (Decidable True)
  | .on_error _ => inferInstanceAs (Decidable True)

theorem InOrder.step (hs : InOrder s) (e : Event Request) : InOrder (step p s e) := by
  cases e with
  | connect => exact hs.quiet (.of_eq rfl rfl rfl rfl rfl rfl)
  | write aData aForceBuffer sent get_error => exact hs.write aForceBuffer get_error
  | on_write sent get_error => exact hs.on_write sent get_error
  | on_timer sent get_error =>
      have htimer : InOrder { s with timers := s.timers - 1 } := ⟨hs.taken, hs.rest⟩
      exact htimer.on_write sent get_error
  | on_timer_connecting get_error => exact hs.quiet (.on_timer_connecting s get_error)
  | connected get_error => exact hs.quiet (.connected s get_error)
  | on_read received get_error => exact hs.quiet (.on_read p s received get_error)
  | returned sResult get_error => exact hs.quiet (.returned p s sResult get_error)
  | notify i sResult => exact hs.quiet (.notify s i sResult)
  | posted get_error => exact hs.quiet (.posted p s get_error)
  | on_error get_error => exact hs.quiet (.on_error s get_error)

theorem Served.on_timer (sent : Sent) (get_error : ℕ) :
    Served (s.on_timer sent get_error) ↔ KeepsTimer s (.on_timer sent get_error) := by
  by_cases hconnecting : s.m_Connected = EINPROGRESS
  · have heq : s.on_timer sent get_error = { s with
        timers := s.timers - 1
        m_Connected := get_error
        call := .connected false } :=
      on_write_connecting (s := { s with timers := s.timers - 1 }) hconnecting sent get_error
    rw [heq]
    simp only [Served, KeepsTimer, hconnecting, Nat.sub_pos_iff_lt, true_implies]
  · refine iff_of_true ?_ fun h => absurd h hconnecting
    exact served_on_write (s := { s with timers := s.timers - 1 }) hconnecting sent get_error

theorem served_step_iff (hs : Served s) (e : Event Request) :
    Served (step p s e) ↔ KeepsTimer s e := by
  cases e with
  | on_timer sent get_error => exact Served.on_timer sent get_error
  | connect => exact iff_of_true (hs.quiet (.of_eq rfl rfl rfl rfl rfl rfl)) trivial
  | write aData aForceBuffer sent get_error =>
      exact iff_of_true (hs.write aData aForceBuffer sent get_error) trivial
  | on_write sent get_error => exact iff_of_true (hs.on_write sent get_error) trivial
  | on_timer_connecting get_error =>
      exact iff_of_true (hs.quiet (.on_timer_connecting s get_error)) trivial
  | connected get_error => exact iff_of_true (hs.quiet (.connected s get_error)) trivial
  | on_read received get_error =>
      exact iff_of_true (hs.quiet (.on_read p s received get_error)) trivial
  | returned sResult get_error =>
      exact iff_of_true (hs.quiet (.returned p s sResult get_error)) trivial
  | notify i sResult => exact iff_of_true (hs.quiet (.notify s i sResult)) trivial
  | posted get_error => exact iff_of_true (hs.quiet (.posted p s get_error)) trivial
  | on_error get_error => exact iff_of_true (hs.quiet (.on_error s get_error)) trivial

theorem inOrder_start (m_Server : Bool) : InOrder (start m_Server : State Request) :=
  ⟨List.prefix_rfl, fun _ => rfl⟩

theorem served_start (m_Server : Bool) : Served (start m_Server : State Request) :=
  fun hout => absurd rfl hout

/-- Every event keeps the order and leaves nothing behind, just in the runs where no write-out timer
is used up while the connection is made. -/
theorem run_served (p : P Request) (m_Server : Bool) (es : List (Event Request)) :
    Meets (step p) (fun s e => InOrder (step p s e) ∧ Served (step p s e)) (start m_Server) es ↔
      Meets (step p) KeepsTimer (start m_Server) es := by
  apply meets_iff (I := fun s => InOrder s ∧ Served s) ?_ ?_
    ⟨inOrder_start m_Server, served_start m_Server⟩ (meets_true (step p) _ es)
  · intro s e hs _
    exact (and_iff_right (hs.1.step e)).trans (served_step_iff hs.2 e)
  · exact fun s e _ _ hgood => hgood

/-- The timer of a forced write comes before the connection is made. -/
theorem early_timer_lost :
    ∃ es, Meets (step httpd) Enabled (start false) es ∧
      (run (step httpd) (start false) es).m_WriteOut = [65] ∧
      ¬Served (run (step httpd) (start false) es) := by
  refine ⟨[.connect, .write [65] true .again 0, .on_timer .again 0], by decide, by decide, ?_⟩
  intro hserved
  exact absurd (hserved (by decide) (by decide)) (by decide)

end Stuff.TcpConnection
