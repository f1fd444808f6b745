import Stuff.TcpConnection

/-!
# The requests of a connection

The handler gets the requests in the order in which the parser found them, and the next one when the
one before is finished. When the connection is not busy, none is left in the queue.
-/
namespace Stuff.TcpConnection
open EventRuns MachineWords State
open EPoll (Result)

variable {Request : Type} {p : P Request} {s t : State Request}

/-- The tasks, with the queue, are what the parser found; all but the last one are finished; and the
queue is empty when the connection is not busy and has no error. -/
structure OneByOne (s : State Request) : Prop where
  order : s.tasks.map Task.request ++ s.m_Incoming = s.produced
  finished : ∀ t ∈ s.tasks.dropLast, t.Finished
  drained : s.m_Error = false → s.m_Busy = false → s.m_Incoming = []

/-! ## The invariant -/

/-- The posted ends of requests. -/
def dones (s : State Request) : ℕ := s.external.count .done

/-- All tasks are finished. -/
structure Settled (s : State Request) : Prop where
  finished : ∀ t ∈ s.tasks, t.Finished
  dones : dones s = 0

/-- The last task is not, or its end was not taken from the event loop yet. -/
def Waiting (s : State Request) (sResult : Option UserResult) : Prop :=
  s.m_Busy = true ∧ ∃ prev t, s.tasks = prev ++ [t] ∧ (∀ t' ∈ prev, t'.Finished) ∧
    t.sResult = sResult ∧ dones s = if t.notified then 1 else 0

/-- Apart from the tasks, what the queue is. -/
structure Queued (s : State Request) : Prop where
  order : s.tasks.map Task.request ++ s.m_Incoming = s.produced
  drained : s.m_Error = false → s.m_Busy = false → s.m_Incoming = []

structure Inv (s : State Request) : Prop extends Queued s where
  running : ∀ caller, s.call = .request caller → Waiting s none
  resting : (∀ caller, s.call ≠ .request caller) → Settled s ∨ Waiting s (some .ASYNC)

theorem Inv.oneByOne (hs : Inv s) : OneByOne s := by
  refine ⟨hs.order, ?_, hs.drained⟩
  have hwaiting : ∀ sResult, Waiting s sResult → ∀ t ∈ s.tasks.dropLast, t.Finished := by
    rintro sResult ⟨-, prev, t, htasks, hprev, -⟩
    rw [htasks, List.dropLast_concat]
    exact hprev
  by_cases hcall : ∃ caller, s.call = .request caller
  · obtain ⟨caller, hcall⟩ := hcall
    exact hwaiting none (hs.running caller hcall)
  · rcases hs.resting (not_exists.mp hcall) with hsettled | hasync
    · exact fun t ht => hsettled.finished t (List.mem_of_mem_dropLast ht)
    · exact hwaiting (some .ASYNC) hasync

/-- When it is not busy, nothing is under way. -/
theorem Inv.settled (hs : Inv s) (hbusy : s.m_Busy = false) : Settled s := by
  have hnot : ∀ sResult, ¬Waiting s sResult := by
    rintro sResult ⟨hbusy', -⟩
    exact absurd (hbusy.symm.trans hbusy') (by decide)
  exact (hs.resting fun caller hcall => hnot none (hs.running caller hcall)).resolve_right
    (hnot (some .ASYNC))

theorem inv_start (m_Server : Bool) : Inv (start m_Server : State Request) where
  order := rfl
  drained := fun _ _ => rfl
  running := fun _ h => nomatch h
  resting := fun _ => .inl ⟨fun _ ht => (nomatch ht), rfl⟩

/-! ## Steps that leave the tasks alone -/

structure Same (s t : State Request) : Prop where
  tasks : t.tasks = s.tasks
  produced : t.produced = s.produced
  m_Incoming : t.m_Incoming = s.m_Incoming
  m_Busy : t.m_Busy = s.m_Busy
  dones : dones t = dones s
  m_Error : s.m_Error = true → t.m_Error = true

namespace Same

theorem of_eq (htasks : t.tasks = s.tasks) (hproduced : t.produced = s.produced)
    (hincoming : t.m_Incoming = s.m_Incoming) (hbusy : t.m_Busy = s.m_Busy)
    (hexternal : t.external = s.external) (herror : t.m_Error = s.m_Error) : Same s t where
  tasks := htasks
  produced := hproduced
  m_Incoming := hincoming
  m_Busy := hbusy
  dones := congrArg (fun external => external.count Posted.done) hexternal
  m_Error := fun h => herror.trans h

theorem refl (s : State Request) : Same s s := of_eq rfl rfl rfl rfl rfl rfl

theorem trans {u : State Request} (h : Same s t) (h' : Same t u) : Same s u where
  tasks := h'.tasks.trans h.tasks
  produced := h'.produced.trans h.produced
  m_Incoming := h'.m_Incoming.trans h.m_Incoming
  m_Busy := h'.m_Busy.trans h.m_Busy
  dones := h'.dones.trans h.dones
  m_Error := fun herror => h'.m_Error (h.m_Error herror)

theorem self_close (s : State Request) : Same s s.self_close where
  tasks := rfl
  produced := rfl
  m_Incoming := rfl
  m_Busy := rfl
  dones := by simp [TcpConnection.dones, State.self_close]
  m_Error := fun h => h

theorem on_error (s : State Request) (get_error : ℕ) : Same s (s.on_error get_error) :=
  ⟨rfl, rfl, rfl, rfl, rfl, fun _ => rfl⟩

theorem ended (s : State Request) (sResult : Result) (get_error : ℕ) :
    Same s (s.ended sResult get_error) := by
  rw [State.ended]
  split
  · exact ⟨rfl, rfl, rfl, rfl, rfl, fun _ => rfl⟩
  · exact of_eq rfl rfl rfl rfl rfl rfl

theorem readEnd (p : P Request) (s : State Request) (sSize : ℤ) (get_error : ℕ) :
    Same s (s.readEnd p sSize get_error) := by
  rw [State.readEnd]
  split <;> exact ended _ _ _

theorem leave (p : P Request) (s : State Request) (caller : Caller) (get_error : ℕ) :
    Same s (s.leave p caller get_error) := by
  cases caller with
  | on_read sSize => exact readEnd p s sSize get_error
  | posted => exact of_eq rfl rfl rfl rfl rfl rfl

theorem write (s : State Request) (aData : Bytes) (aForceBuffer : Bool) (sent : Sent)
    (get_error : ℕ) : Same s (s.write aData aForceBuffer sent get_error) := by
  unfold State.write
  dsimp only
  split_ifs
  · exact of_eq rfl rfl rfl rfl rfl rfl
  · exact of_eq rfl rfl rfl rfl rfl rfl
  · cases sent with
    | throws =>
        refine Same.trans ?_ (self_close _)
        exact ⟨rfl, rfl, rfl, rfl, rfl, fun _ => rfl⟩
    | again => exact of_eq rfl rfl rfl rfl rfl rfl
    | size sSize =>
        dsimp only
        split_ifs <;> exact of_eq rfl rfl rfl rfl rfl rfl
  · exact of_eq rfl rfl rfl rfl rfl rfl

theorem on_write (s : State Request) (sent : Sent) (get_error : ℕ) :
    Same s (s.on_write sent get_error) := by
  unfold State.on_write
  split_ifs
  · exact of_eq rfl rfl rfl rfl rfl rfl
  · exact ended s .CLOSE get_error
  · exact ended s .OK get_error
  · cases sent with
    | throws => exact ended s .CLOSE get_error
    | again =>
        refine Same.trans ?_ (ended _ .OK get_error)
        exact of_eq rfl rfl rfl rfl rfl rfl
    | size sSize =>
        dsimp only
        split
        · refine Same.trans ?_ (ended _ .CLOSE get_error)
          exact of_eq rfl rfl rfl rfl rfl rfl
        · refine Same.trans ?_ (ended _ .OK get_error)
          exact of_eq rfl rfl rfl rfl rfl rfl

end Same

theorem Queued.same (hs : Queued s) (h : Same s t) : Queued t := by
  constructor
  · rw [h.tasks, h.m_Incoming, h.produced]
    exact hs.order
  · intro herror hbusy
    rw [h.m_Incoming]
    rw [h.m_Busy] at hbusy
    refine hs.drained ?_ hbusy
    cases hold : s.m_Error with
    | false => rfl
    | true => exact absurd (h.m_Error hold) (by simp [herror])

theorem Settled.same (hs : Settled s) (h : Same s t) : Settled t :=
  ⟨h.tasks ▸ hs.finished, h.dones.trans hs.dones⟩

theorem Waiting.same {sResult : Option UserResult} (hs : Waiting s sResult) (h : Same s t) :
    Waiting t sResult := by
  rw [Waiting, h.m_Busy, h.tasks, h.dones]
  exact hs

/-- No handler of a request is running afterwards. -/
theorem Queued.inv (hs : Queued s) (hrest : Settled s ∨ Waiting s (some .ASYNC)) (h : Same s t)
    (hcall : ∀ caller, t.call ≠ .request caller) : Inv t where
  toQueued := hs.same h
  running := fun caller heq => absurd heq (hcall caller)
  resting := fun _ => hrest.imp (fun hsettled => hsettled.same h) fun hwaiting => hwaiting.same h

theorem Inv.same (hs : Inv s) (h : Same s t) (hcall : t.call = s.call) : Inv t where
  toQueued := hs.toQueued.same h
  running := fun caller heq => (hs.running caller (hcall ▸ heq)).same h
  resting := fun hnot => (hs.resting (hcall ▸ hnot)).imp (fun hsettled => hsettled.same h)
    fun hwaiting => hwaiting.same h

/-! ## The loop -/

theorem ended_call (s : State Request) (sResult : Result) (get_error : ℕ) :
    (s.ended sResult get_error).call = .idle := by
  rw [State.ended]
  split <;> rfl

theorem readEnd_call (p : P Request) (s : State Request) (sSize : ℤ) (get_error : ℕ) :
    (s.readEnd p sSize get_error).call = .idle := by
  rw [State.readEnd]
  split <;> exact ended_call _ _ _

theorem leave_call (p : P Request) (s : State Request) (caller : Caller) (get_error : ℕ) :
    (s.leave p caller get_error).call = .idle := by
  cases caller with
  | on_read sSize => exact readEnd_call p s sSize get_error
  | posted => rfl

theorem not_request {call : Call} (hidle : call = .idle) (caller : Caller) :
    call ≠ .request caller := by
  rw [hidle]
  exact nofun

theorem Queued.leave (hs : Queued s) (hrest : Settled s ∨ Waiting s (some .ASYNC))
    (caller : Caller) (get_error : ℕ) : Inv (s.leave p caller get_error) :=
  hs.inv hrest (.leave p s caller get_error) (not_request (leave_call p s caller get_error))

/-- A turn of the loop, when everything before is finished. -/
theorem Settled.next (hs : Settled s)
    (horder : s.tasks.map Task.request ++ s.m_Incoming = s.produced) (hbusy : s.m_Busy = true)
    (caller : Caller) (get_error : ℕ) : Inv (s.next p caller get_error) := by
  rw [State.next]
  split
  next hincoming =>
    have hqueued : Queued { s with m_Busy := false } := ⟨horder, fun _ _ => hincoming⟩
    have hsettled : Settled { s with m_Busy := false } := ⟨hs.finished, hs.dones⟩
    dsimp only
    split
    · have hsame := Same.self_close { s with m_Busy := false }
      exact (hqueued.same hsame).leave (.inl (hsettled.same hsame)) caller get_error
    · exact hqueued.leave (.inl hsettled) caller get_error
  next sItem m_Incoming hincoming =>
    rw [hincoming] at horder
    have hwaiting : Waiting { s with
        m_Incoming
        m_Closing := s.m_Closing || !p.keep_alive sItem
        call := .request caller
        tasks := s.tasks ++ [{ request := sItem }] } none :=
      ⟨hbusy, s.tasks, _, rfl, hs.finished, rfl, hs.dones⟩
    refine ⟨⟨?_, ?_⟩, fun _ _ => hwaiting, fun hnot => absurd rfl (hnot caller)⟩
    · simpa using horder
    · intro _ hidle
      exact absurd (hbusy.symm.trans hidle) (by decide)

theorem Settled.process_request (hs : Settled s) (hqueued : s.m_Error = true → Queued s)
    (horder : s.tasks.map Task.request ++ s.m_Incoming = s.produced) (caller : Caller)
    (get_error : ℕ) : Inv (s.process_request p caller get_error) := by
  rw [State.process_request]
  split
  next herror => exact (hqueued herror).leave (.inl hs) caller get_error
  next =>
    have hsettled : Settled { s with m_Busy := true } := ⟨hs.finished, hs.dones⟩
    exact hsettled.next horder rfl caller get_error

theorem modify_concat {α : Type} (prev : List α) (a : α) (f : α → α) :
    (prev ++ [a]).modify prev.length f = prev ++ [f a] := by
  induction prev with
  | nil => rfl
  | cons b prev ih => rw [List.cons_append, List.length_cons, List.modify_succ_cons, ih]; rfl

/-! ## The events -/

/-- What becomes of a task leaves the order alone. -/
theorem order_modify (horder : s.tasks.map Task.request ++ s.m_Incoming = s.produced) (i : ℕ)
    (f : Task Request → Task Request) (hf : ∀ t, (f t).request = t.request) :
    (s.tasks.modify i f).map Task.request ++ s.m_Incoming = s.produced := by
  have hmap : (s.tasks.modify i f).map Task.request = s.tasks.map Task.request := by
    apply List.ext_getElem?
    intro j
    rw [List.getElem?_map, List.getElem?_map, List.getElem?_modify]
    cases s.tasks[j]? with
    | none => rfl
    | some t =>
        by_cases hij : i = j <;> simp [hij, hf]
  rw [hmap, horder]

theorem modify_last {prev : List (Task Request)} {t : Task Request} (htasks : s.tasks = prev ++ [t])
    (f : Task Request → Task Request) :
    s.tasks.modify (s.tasks.length - 1) f = prev ++ [f t] := by
  rw [htasks, List.length_append, List.length_singleton, Nat.add_sub_cancel]
  exact modify_concat prev t f

theorem Waiting.async (hs : Waiting s none) :
    Waiting { s with
      tasks := s.tasks.modify (s.tasks.length - 1) fun t => { t with sResult := some .ASYNC } }
      (some .ASYNC) := by
  obtain ⟨hbusy, prev, t, htasks, hprev, -, hdones⟩ := hs
  exact ⟨hbusy, prev, { t with sResult := some .ASYNC }, modify_last htasks _, hprev, rfl, hdones⟩

/-- A result other than ASYNC finishes the task. -/
theorem Waiting.finish (hs : Waiting s none) {sResult : UserResult} (hsync : sResult ≠ .ASYNC)
    (hnotified : ∀ t ∈ s.tasks.getLast?, t.notified = true → sResult = .ASYNC) (m_Closing : Bool) :
    Settled { s with
      tasks := s.tasks.modify (s.tasks.length - 1) fun t => { t with sResult := some sResult }
      m_Closing
      m_Done := s.m_Done + 1 } := by
  obtain ⟨hbusy, prev, t, htasks, hprev, -, hdones⟩ := hs
  have hnot : t.notified = false := by
    simpa using mt (hnotified t (by simp [htasks])) hsync
  refine ⟨?_, hdones.trans (if_neg (by simp [hnot]))⟩
  dsimp only
  rw [modify_last htasks]
  intro t' ht'
  rcases List.mem_append.mp ht' with hold | hlast
  · exact hprev t' hold
  · rw [List.mem_singleton.mp hlast]
    cases sResult with
    | DONE => exact .inl rfl
    | CLOSE => exact .inr (.inl rfl)
    | ASYNC => exact absurd rfl hsync

theorem Inv.returned (hs : Inv s) {sResult : UserResult} {get_error : ℕ}
    (hen : Enabled s (.returned sResult get_error)) : Inv (s.returned p sResult get_error) := by
  rw [State.returned]
  split
  next caller hcall =>
    have hwaiting := hs.running caller hcall
    have horder := order_modify hs.order (s.tasks.length - 1)
      (fun t => { t with sResult := some sResult }) fun _ => rfl
    cases sResult with
    | ASYNC =>
        have hqueued : Queued { s with
            tasks := s.tasks.modify (s.tasks.length - 1) fun t =>
              { t with sResult := some .ASYNC } } := ⟨horder, hs.drained⟩
        exact hqueued.leave (.inr hwaiting.async) caller get_error
    | CLOSE => exact (hwaiting.finish (by decide) hen true).next horder hwaiting.1 caller get_error
    | DONE =>
        have hsettled := hwaiting.finish (by decide) hen s.m_Closing
        exact hsettled.next horder hwaiting.1 caller get_error
  next => exact hs

theorem Task.Open.not_finished {t : Task Request} (ht : t.Open) : ¬t.Finished := by
  obtain ⟨hnotified, hresult⟩ := ht
  rintro (h | h | ⟨-, h⟩)
  · rcases hresult with h' | h' <;> exact absurd (h'.symm.trans h) (by decide)
  · rcases hresult with h' | h' <;> exact absurd (h'.symm.trans h) (by decide)
  · exact absurd (hnotified.symm.trans h) (by decide)

/-- The task that is notified is the last one. -/
theorem Waiting.notify {sResult : Option UserResult} (hs : Waiting s sResult) {i : ℕ}
    {t : Task Request} (ht : s.tasks[i]? = some t) (hopen : t.Open) (m_Closing : Bool) :
    Waiting { s with
      m_Closing
      external := s.external ++ [.done]
      tasks := s.tasks.modify i fun t => { t with notified := true } } sResult := by
  obtain ⟨hbusy, prev, t', htasks, hprev, hresult, hdones⟩ := hs
  have hi : i = prev.length := by
    rw [htasks] at ht
    rcases Nat.lt_trichotomy i prev.length with hlt | heq | hgt
    · rw [List.getElem?_append_left hlt] at ht
      exact absurd (hprev t (List.mem_of_getElem? ht)) hopen.not_finished
    · exact heq
    · rw [List.getElem?_eq_none (by simp; omega)] at ht
      cases ht
  subst hi
  rw [htasks, List.getElem?_concat_length, Option.some.injEq] at ht
  subst ht
  refine ⟨hbusy, prev, { t' with notified := true }, ?_, hprev, hresult, ?_⟩
  · dsimp only
    rw [htasks, modify_concat]
  · rw [hopen.1] at hdones
    simpa [dones] using hdones

theorem Inv.notify (hs : Inv s) {i : ℕ} {sResult : UserResult}
    (hen : Enabled s (.notify i sResult)) : Inv (s.notify i sResult) := by
  rw [State.notify]
  split
  · exact hs
  next hasync =>
    obtain ⟨t, ht, hopen⟩ := hen.resolve_left hasync
    have hnot : ¬Settled s := fun hsettled =>
      hopen.not_finished (hsettled.finished t (List.mem_of_getElem? ht))
    refine ⟨⟨?_, hs.drained⟩, ?_, ?_⟩
    · exact order_modify hs.order i (fun t => { t with notified := true }) fun _ => rfl
    · exact fun caller hcall => (hs.running caller hcall).notify ht hopen _
    · exact fun hcall => .inr (((hs.resting hcall).resolve_left hnot).notify ht hopen _)

theorem Inv.posted (hs : Inv s) (hidle : s.call = .idle) (get_error : ℕ) :
    Inv (s.posted p get_error) := by
  have hrest := hs.resting (not_request hidle)
  rw [State.posted]
  split
  · exact hs
  next external hexternal =>
    have hsame : Same s { s with external } :=
      ⟨rfl, rfl, rfl, rfl, by simp [dones, hexternal], fun h => h⟩
    exact hs.same hsame rfl
  next external hexternal =>
    have hcount : dones s = external.count .done + 1 := by simp [dones, hexternal]
    have hsettled : Settled { s with external, m_Done := s.m_Done + 1 } := by
      rcases hrest with hsettled | ⟨-, prev, t, htasks, hprev, hresult, hdones⟩
      · exact absurd (hcount.symm.trans hsettled.dones) (Nat.succ_ne_zero _)
      · have hnotified : t.notified = true := by
          by_contra hnot
          rw [if_neg hnot, hcount] at hdones
          exact Nat.succ_ne_zero _ hdones
        rw [if_pos hnotified, hcount] at hdones
        refine ⟨?_, Nat.succ.inj hdones⟩
        intro t' ht'
        have ht' : t' ∈ s.tasks := ht'
        rw [htasks] at ht'
        rcases List.mem_append.mp ht' with hold | hlast
        · exact hprev t' hold
        · rw [List.mem_singleton.mp hlast]
          exact .inr (.inr ⟨hresult, hnotified⟩)
    exact hsettled.process_request (fun _ => ⟨hs.order, hs.drained⟩) hs.order .posted get_error

/-- With more requests. -/
def parsed (s : State Request) (requests : List Request) : State Request :=
  { s with m_Incoming := s.m_Incoming ++ requests, produced := s.produced ++ requests }

theorem readLoop_eq (p : P Request) (sQueueSize : ℕ) (received : List (Received Request))
    (s : State Request) :
    ∃ requests, (readLoop p sQueueSize received s).1 = parsed s requests := by
  induction received generalizing s with
  | nil => exact ⟨[], by simp [readLoop, parsed]⟩
  | cons r received ih =>
      cases r with
      | eof => exact ⟨[], by simp [readLoop, parsed]⟩
      | throws => exact ⟨[], by simp [readLoop, parsed]⟩
      | size sSize requests sUsed =>
          cases sUsed with
          | none => exact ⟨requests, rfl⟩
          | some sUsed =>
              rw [readLoop]
              dsimp only
              split_ifs
              · exact ⟨requests, rfl⟩
              · exact ⟨requests, rfl⟩
              · obtain ⟨more, hmore⟩ := ih (parsed s requests)
                refine ⟨requests ++ more, hmore.trans ?_⟩
                simp [parsed]

theorem Inv.on_read (hs : Inv s) (hidle : s.call = .idle) (received : List (Received Request))
    (get_error : ℕ) : Inv (s.on_read p received get_error) := by
  have hrest := hs.resting (not_request hidle)
  have hended : ∀ sResult, Inv (s.ended sResult get_error) := fun sResult =>
    hs.toQueued.inv hrest (.ended s sResult get_error) (not_request (ended_call s _ _))
  rw [State.on_read]
  split_ifs with herror
  · exact hended .CLOSE
  · exact hended .OK
  · exact hended .RETRY
  · obtain ⟨requests, hloop⟩ := readLoop_eq p s.queueSize received s
    have horder : s.tasks.map Task.request ++ (s.m_Incoming ++ requests) =
        s.produced ++ requests := by rw [← List.append_assoc, hs.order]
    have hsettled : Settled s → Settled (parsed s requests) := fun h => ⟨h.finished, h.dones⟩
    have hrest := hrest.imp hsettled fun hwaiting => hwaiting
    split
    next t heq =>
      rw [heq] at hloop
      subst hloop
      have hqueued : Queued { parsed s requests with m_Error := true } :=
        ⟨horder, fun h => nomatch h⟩
      refine hqueued.inv ?_ ⟨rfl, rfl, rfl, rfl, rfl, fun _ => rfl⟩ (not_request rfl)
      exact hrest.imp (fun h => ⟨h.finished, h.dones⟩) fun hwaiting => hwaiting
    next t sSize heq =>
      rw [heq] at hloop
      subst hloop
      split
      next hidle =>
        have hsettled := hsettled (hs.settled hidle.1)
        exact hsettled.process_request (fun h => absurd h herror) horder _ get_error
      next hbusy =>
        have hqueued : Queued (parsed s requests) := by
          refine ⟨horder, fun _ hidle => ?_⟩
          by_contra hne
          exact hbusy ⟨hidle, hne⟩
        exact hqueued.inv hrest (.readEnd p _ sSize get_error)
          (not_request (readEnd_call p _ sSize get_error))

theorem write_call (s : State Request) (aData : Bytes) (aForceBuffer : Bool) (sent : Sent)
    (get_error : ℕ) : (s.write aData aForceBuffer sent get_error).call = s.call := by
  unfold State.write
  dsimp only
  split_ifs
  · rfl
  · rfl
  · cases sent with
    | throws => rfl
    | again => rfl
    | size sSize =>
        dsimp only
        split_ifs <;> rfl
  · rfl

theorem on_write_call (s : State Request) (sent : Sent) (get_error : ℕ) (caller : Caller) :
    (s.on_write sent get_error).call ≠ .request caller := by
  unfold State.on_write
  split_ifs
  · exact nofun
  · exact not_request (ended_call s .CLOSE get_error) caller
  · exact not_request (ended_call s .OK get_error) caller
  · cases sent with
    | throws => exact not_request (ended_call s .CLOSE get_error) caller
    | again => exact not_request (ended_call _ .OK get_error) caller
    | size sSize =>
        dsimp only
        split <;> exact not_request (ended_call _ _ get_error) caller

theorem Inv.on_write (hs : Inv s) (hidle : s.call = .idle) (sent : Sent) (get_error : ℕ) :
    Inv (s.on_write sent get_error) :=
  hs.toQueued.inv (hs.resting (not_request hidle)) (.on_write s sent get_error)
    (on_write_call s sent get_error)

theorem Inv.connected (hs : Inv s) (get_error : ℕ) : Inv (s.connected get_error) := by
  rw [State.connected]
  split
  next timer hcall =>
    have hnot : ∀ caller, s.call ≠ .request caller := by
      rw [hcall]
      exact nofun
    exact hs.toQueued.inv (hs.resting hnot) (.ended s _ get_error)
      (not_request (ended_call s _ get_error))
  next => exact hs

theorem Inv.step (hs : Inv s) {e : Event Request} (hen : Enabled s e) : Inv (step p s e) := by
  cases e with
  | connect => exact hs.same (.of_eq rfl rfl rfl rfl rfl rfl) rfl
  | write aData aForceBuffer sent get_error =>
      exact hs.same (.write s aData aForceBuffer sent get_error)
        (write_call s aData aForceBuffer sent get_error)
  | on_write sent get_error => exact hs.on_write hen.1 sent get_error
  | on_timer sent get_error =>
      have htimer : Inv { s with timers := s.timers - 1 } :=
        hs.same (.of_eq rfl rfl rfl rfl rfl rfl) rfl
      exact htimer.on_write hen.1 sent get_error
  | on_timer_connecting get_error =>
      have hrest := hs.resting (not_request hen)
      rw [TcpConnection.step, State.on_timer_connecting]
      split
      · exact hs.toQueued.inv hrest (.of_eq rfl rfl rfl rfl rfl rfl) nofun
      · exact hs.toQueued.inv hrest (.ended s .OK get_error)
          (not_request (ended_call s .OK get_error))
  | connected get_error => exact hs.connected get_error
  | on_read received get_error => exact hs.on_read hen received get_error
  | returned sResult get_error => exact hs.returned hen
  | notify i sResult => exact hs.notify hen
  | posted get_error => exact hs.posted hen get_error
  | on_error get_error => exact hs.same (.on_error s get_error) rfl

/-- In every run, the handler gets the requests in order, one at a time, and none is forgotten. -/
theorem run_oneByOne (p : P Request) (m_Server : Bool) {es : List (Event Request)}
    (hes : Meets (step p) Enabled (start m_Server) es) :
    OneByOne (run (step p) (start m_Server) es) :=
  (run_invariant (I := Inv) (fun _ _ hs hen => hs.step hen) (inv_start m_Server) hes).oneByOne

/-- While the first request is asynchronous, two more are parsed; the end of the first one is posted
before its handler returns. -/
theorem run_oneByOne_three :
    OneByOne (run (step httpd) (start true)
      [.on_read [.size 10 [true] (some 10)] 0, .notify 0 .DONE, .returned .ASYNC 0,
        .on_read [.size 20 [true, false] (some 20)] 0, .posted 0, .returned .DONE 0,
        .write [65] false (.size 1) 0, .returned .DONE 0]) :=
  run_oneByOne httpd true (by decide)

end Stuff.TcpConnection
