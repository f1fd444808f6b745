import Stuff.EPollRetry

/-!
# Runs of the event loop

An event that gets a descriptor and the entry of its handler out of step is seen at once. In the
other runs, a handler that asked for a retry gets one with the next timer.
-/
namespace Stuff.EPoll
open EventRuns ContainerRequestQueue State

/-! ## The first event that is out of step -/

section
variable {s : State} {get_fd : HandlerPtr → Fd}

theorem not_mem_of_insert (hs : Inv s) {aFd : Fd} (hnone : s.find aFd = none)
    {aHandler : HandlerPtr} (hsynced : (s.insert aFd aHandler).Synced) :
    aHandler ∉ s.pending := by
  intro hmem
  have hfind : (s.insert aFd aHandler).find aFd = some aHandler := by
    rw [find_insert hnone, if_pos rfl]
  have hretry : aFd ∈ s.m_Retry := (hsynced aFd).mpr ⟨aHandler, hfind, hmem⟩
  obtain ⟨h, hold, -⟩ := (hs.synced aFd).mp hretry
  rw [hnone] at hold
  cases hold

/-- What is taken out of `m_Handlers` has no retry. -/
theorem not_mem_of_find {t : State} {aFd : Fd} (hnone : t.find aFd = none)
    (hretry : t.m_Retry = s.m_Retry) (hsynced : t.Synced) : aFd ∉ s.m_Retry := by
  intro hmem
  obtain ⟨h, hold, -⟩ := (hsynced aFd).mp (hretry ▸ hmem)
  rw [hnone] at hold
  cases hold

theorem registered_of_retry (hs : Inv s) {t : State} {aFd : Fd} {sFace : HandlerPtr}
    (hretry : aFd ∉ s.m_Retry) (ht : t.m_Handlers = s.m_Handlers)
    (htretry : t.m_Retry = Insert.insert aFd s.m_Retry)
    (hpending : t.pending = s.pending ++ [sFace]) (hsynced : t.Synced) :
    s.find aFd = some sFace ∧ ∀ x ∈ s.m_Handlers, x.2 = sFace → x.1 = aFd := by
  have hfind : s.find aFd = some sFace := by
    obtain ⟨h, hfd, hh⟩ := (hsynced aFd).mp (htretry ▸ Finset.mem_insert_self _ _)
    rw [find_congr ht] at hfd
    rw [hpending] at hh
    rcases List.mem_append.mp hh with hold | hlast
    · exact absurd ((hs.synced aFd).mpr ⟨h, hfd, hold⟩) hretry
    · rw [hfd, List.mem_singleton.mp hlast]
  refine ⟨hfind, ?_⟩
  rintro ⟨fd, _⟩ hx rfl
  have hfd := find_of_mem hs.keyed hx
  have hmem : fd ∈ t.m_Retry := (hsynced fd).mpr ⟨_, (find_congr ht fd).trans hfd,
    hpending ▸ List.mem_append_right _ (List.mem_singleton.mpr rfl)⟩
  rw [htretry] at hmem
  rcases Finset.mem_insert.mp hmem with heq | hold
  · exact heq
  · obtain ⟨h, hfd', hh⟩ := (hs.synced fd).mp hold
    rw [hfd, Option.some.injEq] at hfd'
    exact absurd ((hs.synced aFd).mpr ⟨_, hfind, hfd' ▸ hh⟩) hretry

/-- A retry that is over leaves no entry, so its descriptor is gone as well. -/
theorem find_of_over (hs : Inv s) {t : State} {sPtr : HandlerPtr} {rest : List HandlerPtr}
    (hpending : s.pending = sPtr :: rest) (ht : t.m_Handlers = s.m_Handlers)
    (htpending : t.pending = rest) (hsynced : t.Synced) :
    ∃ aFd ∈ s.m_Retry, s.find aFd = some sPtr ∧ aFd ∉ t.m_Retry := by
  obtain ⟨aFd, hfind, -⟩ := hs.alive sPtr (hpending ▸ List.mem_cons_self)
  refine ⟨aFd, (hs.synced aFd).mpr ⟨sPtr, hfind, hpending ▸ List.mem_cons_self⟩, hfind, ?_⟩
  intro hmem
  obtain ⟨h, hfd, hh⟩ := (hsynced aFd).mp hmem
  rw [find_congr ht, hfind, Option.some.injEq] at hfd
  have honce := hs.once
  rw [hpending, List.nodup_cons] at honce
  exact honce.1 (hfd ▸ htpending ▸ hh)

theorem returned_retry {aFd : Fd} {sFace : HandlerPtr} (hcall : s.call = .reading aFd sFace)
    (hretry : aFd ∉ s.m_Retry) (sNow : UInt64) :
    s.returned get_fd (some .RETRY) sNow =
      { s.schedule ⟨sFace, .READ⟩ 0 sNow with
        m_Retry := Insert.insert aFd s.m_Retry
        call := .idle } := by
  simp [State.returned, hcall, hretry]

theorem returned_over (get_fd : HandlerPtr → Fd) {sPtr : HandlerPtr}
    (hcall : s.call = .retrying sPtr) {sResult : Option Result} (hover : sResult ≠ some .RETRY)
    (sNow : UInt64) :
    (s.returned get_fd sResult sNow).m_Handlers = s.m_Handlers ∧
      (s.returned get_fd sResult sNow).pending = s.sList.filterMap readPtr ++
        (s.m_Backlog.store.filterMap fun r => readPtr r.value) ∧
      (s.returned get_fd sResult sNow).m_Retry =
        if sResult = none then s.m_Retry else s.m_Retry.erase (get_fd sPtr) := by
  match sResult with
  | some .RETRY => exact absurd rfl hover
  | some .OK => simp [State.returned, hcall, pending]
  | some .CLOSE => simp [State.returned, hcall, pending]
  | none => simp [State.returned, hcall, pending]

theorem inStep_returned (hs : Inv s) {sResult : Option Result} {sNow : UInt64}
    (hsynced : (s.returned get_fd sResult sNow).Synced) :
    InStep get_fd s (.returned sResult sNow) := by
  cases hcall : s.call with
  | reading aFd sFace =>
      simp only [InStep, hcall, EndsInStep]
      rintro rfl hretry
      rw [returned_retry hcall hretry] at hsynced
      refine registered_of_retry hs hretry ?_ ?_ (pending_reading hcall _ sNow) hsynced
      · rfl
      · rfl
  | retrying sPtr =>
      simp only [InStep, hcall, EndsInStep]
      have hpending := pending_retrying hcall
      by_cases hover : sResult = some .RETRY
      · exact ⟨by simp [hover], fun hne => absurd hover hne⟩
      · obtain ⟨hhandlers, hrest, hretry'⟩ := returned_over get_fd hcall hover sNow
        obtain ⟨aFd, hretry, hfind, hgone⟩ := find_of_over hs hpending hhandlers hrest hsynced
        rw [hretry'] at hgone
        split_ifs at hgone with hthrow
        · exact absurd hretry hgone
        · refine ⟨hthrow, fun _ => ?_⟩
          have hfd : aFd = get_fd sPtr := by
            by_contra hne
            exact hgone (Finset.mem_erase.mpr ⟨hne, hretry⟩)
          exact hfd ▸ hfind
  | _ => simp [InStep, hcall, EndsInStep]

theorem inStep_of_synced (hs : Inv s) {e : Event} (hen : Enabled s e)
    (hsynced : (step get_fd s e).Synced) : InStep get_fd s e := by
  cases e with
  | insert aFd aHandler => exact not_mem_of_insert hs hen hsynced
  | erase aFd =>
      have hnone : (s.erase aFd).find aFd = none := by rw [find_erase, if_pos rfl]
      exact not_mem_of_find hnone rfl hsynced
  | cleanup =>
      intro aFd hmem
      have hnone : s.cleanup.find aFd = none := by rw [find_cleanup, if_pos hmem]
      exact not_mem_of_find hnone rfl hsynced
  | returned sResult sNow => exact inStep_returned hs hsynced
  | _ => trivial

end

/-! ## Retries are called -/

/-- The handler whose `on_read` is running. -/
def Call.reader : Call → Option HandlerPtr
  | .reading _ sFace => some sFace
  | .retrying sPtr => some sPtr
  | _ => none

def Event.sNow : Event → Option UInt64
  | .schedule _ _ _ sNow => some sNow
  | .returned _ sNow => some sNow
  | .onTimer sNow => some sNow
  | _ => none

/-- A handler whose `on_read` returned RETRY is called again with a later timer, when the list of
that is done; the clock is not set back before. -/
def CalledAgain (get_fd : HandlerPtr → Fd) (s : State) (es : List Event) : Prop :=
  ∀ es₁ t es₂ sNow es₃ h,
    es = es₁ ++ .returned (some .RETRY) t :: (es₂ ++ .onTimer sNow :: es₃) →
    (run (step get_fd) s es₁).call.reader = some h →
    (∀ e ∈ es₁ ++ .returned (some .RETRY) t :: es₂, ∀ t' ∈ e.sNow, t' ≤ sNow) →
    (run (step get_fd) s es).sList = [] →
    h ∈ (run (step get_fd) s es).reads.drop (run (step get_fd) s es₁).reads.length

namespace Call

/-- The handler that `process` found, and where. -/
def face : Call → Option (Fd × HandlerPtr)
  | .writing aFd sFace _ => some (aFd, sFace)
  | .reading aFd sFace => some (aFd, sFace)
  | _ => none

end Call

/-- One with a retry stays where it was found. -/
def Held (s : State) : Prop :=
  ∀ x, s.call.face = some x → x.1 ∈ s.m_Retry → s.find x.1 = some x.2

section
variable {s : State} {get_fd : HandlerPtr → Fd}

theorem held_of_none (hnone : s.call.face = none) : Held s := by
  intro x hx
  rw [hnone] at hx
  cases hx

theorem Held.step (hs : Held s) {e : Event} (hen : Enabled s e) (hin : InStep get_fd s e) :
    Held (step get_fd s e) := by
  cases e with
  | insert aFd aHandler =>
      intro x hx hmem
      have hfind := hs x hx hmem
      have hne : x.1 ≠ aFd := by
        rintro rfl
        rw [show s.find x.1 = none from hen] at hfind
        cases hfind
      exact (find_insert hen aHandler x.1).trans ((if_neg hne).trans hfind)
  | erase aFd =>
      intro x hx hmem
      have hne : x.1 ≠ aFd := by
        rintro rfl
        exact hin hmem
      exact (find_erase aFd x.1).trans ((if_neg hne).trans (hs x hx hmem))
  | schedule aPtr aDelayMS aTimerID sNow => exact hs
  | process aFd aHup aOut aIn =>
      rw [Stuff.EPoll.step, State.process]
      cases hfind : s.find aFd with
      | none => exact hs
      | some sFace =>
          dsimp only
          split
          · exact held_of_none rfl
          · split
            · rintro _ ⟨⟩ -
              exact hfind
            · split
              · rintro _ ⟨⟩ -
                exact hfind
              · exact hs
  | returned sResult sNow =>
      rw [Stuff.EPoll.step, State.returned]
      cases hcall : s.call with
      | idle => exact hs
      | writing aFd sFace aIn =>
          dsimp only
          split
          · exact held_of_none rfl
          · split
            · rintro _ ⟨⟩ hmem
              exact hs (aFd, sFace) (by rw [hcall]; rfl) hmem
            · exact held_of_none rfl
      | reading aFd sFace =>
          dsimp only
          split
          · exact held_of_none rfl
          · split <;> exact held_of_none rfl
      | failing aFd => exact held_of_none rfl
      | retrying sPtr => 
          dsimp only
          split <;> exact held_of_none rfl
      | timing sPtr =>
          dsimp only
          split <;> exact held_of_none rfl
  | onTimer sNow => exact hs
  | onBacklog expired =>
      have hidle : s.call = .idle := hen.1
      rw [Stuff.EPoll.step, State.onBacklog]
      split
      · exact hs
      · split
        · exact held_of_none (by rw [hidle]; rfl)
        · split <;> exact held_of_none rfl
  | cleanup =>
      have hidle : s.cleanup.call = .idle := hen.1
      exact held_of_none (by rw [Stuff.EPoll.step, hidle]; rfl)

/-- The handler has an entry that waits. -/
def Queued (s : State) (h : HandlerPtr) : Prop :=
  h ∈ s.sList.filterMap readPtr ∨ ∃ r ∈ s.m_Backlog.store, readPtr r.value = some h

theorem queued_iff (hcall : ∀ sPtr, s.call ≠ .retrying sPtr) {h : HandlerPtr} :
    Queued s h ↔ h ∈ s.pending := by
  have hpending : s.pending = s.sList.filterMap readPtr ++
      s.m_Backlog.store.filterMap fun r => readPtr r.value := by
    rw [pending]
    split
    next sPtr heq => exact absurd heq (hcall sPtr)
    next => rfl
  rw [Queued, hpending, List.mem_append, List.mem_filterMap (l := s.m_Backlog.store)]

theorem queued_schedule (h : HandlerPtr) (aDelayMS sNow : UInt64) :
    Queued (s.schedule ⟨h, .READ⟩ aDelayMS sNow) h :=
  .inr ⟨_, List.mem_append_right _ (List.mem_singleton.mpr rfl), rfl⟩

theorem queued_of_retry (hs : Inv s) (hheld : Held s) {h : HandlerPtr}
    (hreader : s.call.reader = some h) (t : UInt64) :
    Queued (s.returned get_fd (some .RETRY) t) h := by
  cases hcall : s.call with
  | reading aFd sFace =>
      rw [hcall, Call.reader, Option.some.injEq] at hreader
      subst hreader
      by_cases hretry : aFd ∈ s.m_Retry
      · have hfind := hheld (aFd, sFace) (by rw [hcall]; rfl) hretry
        obtain ⟨h, hfd, hh⟩ := (hs.synced aFd).mp hretry
        rw [hfind, Option.some.injEq] at hfd
        have hqueued := (queued_iff (by simp [hcall])).mpr (hfd ▸ hh)
        have heq : s.returned get_fd (some .RETRY) t = { s with call := .idle } := by
          simp [State.returned, hcall, hretry]
        rw [heq]
        exact hqueued
      · rw [returned_retry hcall hretry]
        exact queued_schedule (s := s) sFace 0 t
  | retrying sPtr =>
      rw [hcall, Call.reader, Option.some.injEq] at hreader
      subst hreader
      simp only [State.returned, hcall]
      exact queued_schedule (s := s) sPtr 0 t
  | _ => simp [hcall, Call.reader] at hreader

/-- New records of the backlog; what is read again is due at once. -/
def Added (s t : State) (e : Event) : Prop :=
  ∃ new, t.m_Backlog.store = s.m_Backlog.store ++ new ∧
    ∀ r ∈ new, readPtr r.value ≠ none → e.sNow = some r.deadline

theorem added_none {s t : State} {e : Event} (hbacklog : t.m_Backlog = s.m_Backlog) :
    Added s t e :=
  ⟨[], by rw [hbacklog, List.append_nil], fun _ hr => (nomatch hr)⟩

theorem added_schedule {s t : State} {e : Event} {b : Backlog} {aDelayMS sNow : UInt64}
    (hbacklog : t.m_Backlog = (s.schedule b aDelayMS sNow).m_Backlog)
    (hdue : readPtr b ≠ none → e.sNow = some (sNow + aDelayMS)) : Added s t e := by
  refine ⟨[_], congrArg RequestQueue.store hbacklog, ?_⟩
  intro r hr hread
  rw [List.mem_singleton.mp hr] at hread ⊢
  exact hdue hread

/-- What an event does to the list and to the calls from it. -/
theorem step_queue (get_fd : HandlerPtr → Fd) (hs : Inv s) {e : Event} (hen : Enabled s e) :
    ((step get_fd s e).reads = s.reads ∧ (step get_fd s e).sList = s.sList ∧
      Added s (step get_fd s e) e) ∨
    (∃ sNow, e = .onTimer sNow ∧ (step get_fd s e).reads = s.reads ∧ s.sList = []) ∨
    ∃ aData, s.sList = aData :: (step get_fd s e).sList ∧
      (step get_fd s e).m_Backlog = s.m_Backlog ∧
      (step get_fd s e).reads = s.reads ++ (readPtr aData).toList := by
  cases e with
  | insert aFd aHandler => exact .inl ⟨rfl, rfl, added_none rfl⟩
  | erase aFd => exact .inl ⟨rfl, rfl, added_none rfl⟩
  | schedule aPtr aDelayMS aTimerID sNow =>
      exact .inl ⟨rfl, rfl, added_schedule rfl fun hread => absurd rfl hread⟩
  | process aFd aHup aOut aIn =>
      refine .inl ?_
      rw [step, State.process]
      split
      · exact ⟨rfl, rfl, added_none rfl⟩
      · split_ifs <;> exact ⟨rfl, rfl, added_none rfl⟩
  | returned sResult sNow =>
      have hdue : ∀ b : Backlog, readPtr b ≠ none →
          (Event.returned sResult sNow).sNow = some (sNow + 0) :=
        fun _ _ => congrArg some (UInt64.add_zero sNow).symm
      refine .inl ?_
      rw [step, State.returned]
      split
      · exact ⟨rfl, rfl, added_none rfl⟩
      · split_ifs <;> exact ⟨rfl, rfl, added_none rfl⟩
      · split_ifs
        · exact ⟨rfl, rfl, added_none rfl⟩
        · exact ⟨rfl, rfl, added_schedule rfl (hdue _)⟩
        · exact ⟨rfl, rfl, added_none rfl⟩
      · exact ⟨rfl, rfl, added_none rfl⟩
      · split
        · exact ⟨rfl, rfl, added_schedule rfl (hdue _)⟩
        · exact ⟨rfl, rfl, added_none rfl⟩
        · exact ⟨rfl, rfl, added_none rfl⟩
        · exact ⟨rfl, rfl, added_none rfl⟩
      · split_ifs <;> exact ⟨rfl, rfl, added_none rfl⟩
  | onTimer sNow => exact .inr (.inl ⟨sNow, rfl, rfl, hen.2⟩)
  | onBacklog expired =>
      rw [step, State.onBacklog]
      cases hlist : s.sList with
      | nil => exact .inl ⟨rfl, hlist.symm ▸ rfl, added_none rfl⟩
      | cons aData sList =>
          refine .inr (.inr ⟨aData, ?_⟩)
          dsimp only
          cases haction : aData.action with
          | READ =>
              have hread : readPtr aData = some aData.ptr := by simp [readPtr, haction]
              rw [not_expired hs hen hlist hread, hread]
              exact ⟨rfl, rfl, rfl⟩
          | TIMER timer_id =>
              have hread : readPtr aData = none := by simp [readPtr, haction]
              rw [hread]
              split <;> exact ⟨rfl, rfl, (List.append_nil _).symm⟩
  | cleanup => exact .inl ⟨rfl, rfl, added_none rfl⟩

theorem reads_step (hs : Inv s) {e : Event} (hen : Enabled s e) :
    s.reads.length ≤ (step get_fd s e).reads.length := by
  rcases step_queue get_fd hs hen with
    ⟨hreads, -⟩ | ⟨sNow, -, hreads, -⟩ | ⟨aData, -, -, hreads⟩
  · rw [hreads]
  · rw [hreads]
  · rw [hreads, List.length_append]
    exact Nat.le_add_right _ _

/-- `h` has been called since `k` calls, or waits as `P` says. -/
def CalledOr (k : ℕ) (h : HandlerPtr) (P : Prop) (s : State) : Prop :=
  k ≤ s.reads.length ∧ (h ∈ s.reads.drop k ∨ P)

theorem mem_drop_append {k : ℕ} {h : HandlerPtr} {reads : List HandlerPtr}
    (hk : k ≤ reads.length) (new : List HandlerPtr) :
    h ∈ (reads ++ new).drop k ↔ h ∈ reads.drop k ∨ h ∈ new := by
  rw [List.drop_append_of_le_length hk, List.mem_append]

theorem calledOr_returned (hs : Inv s) (hheld : Held s) {h : HandlerPtr}
    (hreader : s.call.reader = some h) {t : UInt64}
    (hen : Enabled s (.returned (some .RETRY) t)) :
    CalledOr s.reads.length h (Queued (step get_fd s (.returned (some .RETRY) t)) h)
      (step get_fd s (.returned (some .RETRY) t)) :=
  ⟨reads_step hs hen, .inr (queued_of_retry hs hheld hreader t)⟩

theorem calledOr_step (hs : Inv s) {e : Event} (hen : Enabled s e) {k : ℕ} {h : HandlerPtr}
    (hwait : CalledOr k h (Queued s h) s) :
    CalledOr k h (Queued (step get_fd s e) h) (step get_fd s e) := by
  obtain ⟨hk, hwait⟩ := hwait
  rcases step_queue get_fd hs hen with
    ⟨hreads, hlist, new, hstore, -⟩ | ⟨sNow, rfl, hreads, hnil⟩ |
    ⟨aData, hlist, hbacklog, hreads⟩
  · rw [CalledOr, hreads, Queued, hlist, hstore]
    refine ⟨hk, hwait.imp_right (Or.imp_right ?_)⟩
    rintro ⟨r, hr, hread⟩
    exact ⟨r, List.mem_append_left _ hr, hread⟩
  · rw [CalledOr, hreads]
    refine ⟨hk, hwait.imp_right ?_⟩
    rintro (hmem | ⟨r, hr, hread⟩)
    · rw [hnil] at hmem
      cases hmem
    · obtain ⟨hperm, -⟩ := timerLoop_spec sNow hs.ordered.nodup (Nat.le_refl _)
      rcases List.mem_append.mp (hperm.mem_iff.mpr hr) with hdue | hrest
      · exact .inl (List.mem_filterMap.mpr ⟨r.value, List.mem_map_of_mem hdue, hread⟩)
      · exact .inr ⟨r, hrest, hread⟩
  · rw [CalledOr, hreads, Queued, hbacklog, mem_drop_append hk]
    refine ⟨hk.trans (by simp), ?_⟩
    rw [Queued, hlist] at hwait
    rcases hwait with hcalled | hmem | hstore
    · exact .inl (.inl hcalled)
    · obtain ⟨b, hb, hread⟩ := List.mem_filterMap.mp hmem
      rcases List.mem_cons.mp hb with rfl | hb
      · exact .inl (.inr (Option.mem_toList.mpr hread))
      · exact .inr (.inl (List.mem_filterMap.mpr ⟨b, hb, hread⟩))
    · exact .inr (.inr hstore)

theorem calledOr_list_step (hs : Inv s) {e : Event} (hen : Enabled s e) {k : ℕ} {h : HandlerPtr}
    (hwait : CalledOr k h (h ∈ s.sList.filterMap readPtr) s) :
    CalledOr k h (h ∈ (step get_fd s e).sList.filterMap readPtr) (step get_fd s e) := by
  obtain ⟨hk, hwait⟩ := hwait
  rcases step_queue get_fd hs hen with
    ⟨hreads, hlist, -⟩ | ⟨sNow, rfl, hreads, hnil⟩ | ⟨aData, hlist, -, hreads⟩
  · rw [CalledOr, hreads, hlist]
    exact ⟨hk, hwait⟩
  · rw [hnil] at hwait
    rw [CalledOr, hreads]
    exact ⟨hk, .inl (hwait.resolve_right List.not_mem_nil)⟩
  · rw [CalledOr, hreads, mem_drop_append hk]
    refine ⟨hk.trans (by simp), ?_⟩
    rw [hlist] at hwait
    rcases hwait with hcalled | hmem
    · exact .inl (.inl hcalled)
    · obtain ⟨b, hb, hread⟩ := List.mem_filterMap.mp hmem
      rcases List.mem_cons.mp hb with rfl | hb
      · exact .inl (.inr (Option.mem_toList.mpr hread))
      · exact .inr (List.mem_filterMap.mpr ⟨b, hb, hread⟩)

/-- Retries are due at once. -/
def Due (sNow : UInt64) (s : State) : Prop :=
  ∀ r ∈ s.m_Backlog.store, readPtr r.value ≠ none → r.deadline ≤ sNow

theorem Due.step {sNow : UInt64} (hdue : Due sNow s) (hs : Inv s) {e : Event} (hen : Enabled s e)
    (htime : ∀ t ∈ e.sNow, t ≤ sNow) : Due sNow (step get_fd s e) := by
  intro r hr hread
  rcases step_queue get_fd hs hen with
    ⟨-, -, new, hstore, hnew⟩ | ⟨t, rfl, -, -⟩ | ⟨aData, -, hbacklog, -⟩
  · rw [hstore] at hr
    rcases List.mem_append.mp hr with hold | hlast
    · exact hdue r hold hread
    · exact htime r.deadline (hnew r hlast hread)
  · obtain ⟨-, hsub, -⟩ := timerLoop_spec t hs.ordered.nodup (Nat.le_refl _)
    exact hdue r (hsub.subset hr) hread
  · exact hdue r (hbacklog ▸ hr) hread

/-- The timer takes what is due. -/
theorem calledOr_onTimer (hs : Inv s) {sNow : UInt64} (hen : Enabled s (.onTimer sNow))
    (hdue : Due sNow s) {k : ℕ} {h : HandlerPtr} (hwait : CalledOr k h (Queued s h) s) :
    CalledOr k h (h ∈ (s.onTimer sNow).sList.filterMap readPtr) (s.onTimer sNow) := by
  refine ⟨hwait.1, hwait.2.imp_right ?_⟩
  rintro (hmem | ⟨r, hr, hread⟩)
  · rw [hen.2] at hmem
    cases hmem
  · have hlate := hdue r hr (by simp [hread])
    exact List.mem_filterMap.mpr
      ⟨r.value, List.mem_map_of_mem ((hs.ordered.mem_onTimer sNow).mpr ⟨hr, hlate⟩), hread⟩

/-! ## Runs -/

/-- What holds of every state of a run that is in step. -/
theorem run_inv (eventFd : Fd) {es : List Event}
    (hes : Meets (step get_fd) (fun s e => Enabled s e ∧ InStep get_fd s e) (start eventFd) es) :
    Inv (run (step get_fd) (start eventFd) es) ∧ Held (run (step get_fd) (start eventFd) es) := by
  refine run_invariant (I := fun s => Inv s ∧ Held s) ?_
    ⟨inv_start eventFd, held_of_none rfl⟩ hes
  rintro s e ⟨hs, hheld⟩ ⟨hen, hin⟩
  exact ⟨hs.step get_fd hen hin, hheld.step hen hin⟩

theorem run_due (eventFd : Fd) {sNow : UInt64} {es : List Event}
    (hes : Meets (step get_fd) (fun s e => Enabled s e ∧ InStep get_fd s e) (start eventFd) es)
    (htime : ∀ e ∈ es, ∀ t ∈ e.sNow, t ≤ sNow) :
    Due sNow (run (step get_fd) (start eventFd) es) := by
  have hbefore : Meets (step get_fd) (fun _ e => ∀ t ∈ e.sNow, t ≤ sNow) (start eventFd) es :=
    meets_of_forall (fun e he _ => htime e he) _
  have hboth := meets_and.mpr ⟨hes, hbefore⟩
  refine (run_invariant (I := fun s => Inv s ∧ Due sNow s) ?_
    ⟨inv_start eventFd, fun _ hr => (nomatch hr)⟩ hboth).2
  rintro s e ⟨hs, hdue⟩ ⟨⟨hen, hin⟩, htime⟩
  exact ⟨hs.step get_fd hen hin, hdue.step hs hen htime⟩

theorem calledAgain_of_inStep (eventFd : Fd) {es : List Event}
    (hes : Meets (step get_fd) (fun s e => Enabled s e ∧ InStep get_fd s e) (start eventFd) es) :
    CalledAgain get_fd (start eventFd) es := by
  rintro es₁ t es₂ sNow es₃ h rfl hreader htime hdone
  have hsplit : es₁ ++ .returned (some .RETRY) t :: (es₂ ++ .onTimer sNow :: es₃) =
      (es₁ ++ .returned (some .RETRY) t :: es₂) ++ .onTimer sNow :: es₃ := by simp
  rw [hsplit, meets_append] at hes
  rw [hsplit, run_append] at hdone ⊢
  obtain ⟨hbefore, ⟨hen, -⟩, hafter⟩ := hes
  have hdue := run_due eventFd hbefore htime
  rw [meets_append] at hbefore
  obtain ⟨hes₁, hret, hes₂⟩ := hbefore
  rw [run_append, run_cons] at hdue hen hafter hdone ⊢
  obtain ⟨hs₁, hheld⟩ := run_inv eventFd hes₁
  obtain ⟨hs₃, hwait₃⟩ := run_invariant
    (I := fun s => Inv s ∧ CalledOr _ h (Queued s h) s)
    (fun s e hI hok => ⟨hI.1.step get_fd hok.1 hok.2, calledOr_step hI.1 hok.1 hI.2⟩)
    ⟨hs₁.step get_fd hret.1 hret.2, calledOr_returned hs₁ hheld hreader hret.1⟩ hes₂
  obtain ⟨hs₄, -, hwait₄⟩ := run_invariant
    (I := fun s => Inv s ∧ CalledOr _ h (h ∈ s.sList.filterMap readPtr) s)
    (fun s e hI hok => ⟨hI.1.step get_fd hok.1 hok.2, calledOr_list_step hI.1 hok.1 hI.2⟩)
    ⟨hs₃.step get_fd hen trivial, calledOr_onTimer hs₃ hen hdue hwait₃⟩ hafter
  rw [run_cons] at hdone ⊢
  refine hwait₄.resolve_right ?_
  intro hmem
  have hmem : h ∈ (run (step get_fd) _ es₃).sList.filterMap readPtr := hmem
  rw [hdone] at hmem
  cases hmem

/-- Every event leaves the two in step, and retries are called, just in the runs where no event
gets them out of step. -/
theorem run_synced (get_fd : HandlerPtr → Fd) (eventFd : Fd) {es : List Event}
    (hes : Meets (step get_fd) Enabled (start eventFd) es) :
    Meets (step get_fd) (fun s e => (step get_fd s e).Synced) (start eventFd) es ∧
        CalledAgain get_fd (start eventFd) es ↔
      Meets (step get_fd) (InStep get_fd) (start eventFd) es := by
  have hok : ∀ s e, Inv s → Enabled s e → ((step get_fd s e).Synced ↔ InStep get_fd s e) :=
    fun s e hs hen => ⟨inStep_of_synced hs hen, fun hin => (hs.step get_fd hen hin).synced⟩
  have hiff := meets_iff hok
    (fun s e hs hen hsynced => hs.step get_fd hen ((hok s e hs hen).mp hsynced))
    (inv_start eventFd) hes
  constructor
  · rintro ⟨hsynced, -⟩
    exact hiff.mp hsynced
  · intro hin
    exact ⟨hiff.mpr hin, calledAgain_of_inStep eventFd (meets_and.mpr ⟨hes, hin⟩)⟩

/-- One descriptor for all the handlers. -/
def socket (_ : HandlerPtr) : Fd := 5

/-- Two retries, and the handler is gone when it is through. -/
theorem run_synced_retries :
    Meets (step socket) (fun s e => (step socket s e).Synced) (start 3)
        [.insert 5 1, .process 5 false false true, .returned (some .RETRY) 7, .onTimer 7,
          .onBacklog false, .returned (some .RETRY) 8, .cleanup, .onTimer 8, .onBacklog false,
          .returned (some .CLOSE) 9, .returned (some .OK) 9, .cleanup] ∧
      CalledAgain socket (start 3)
        [.insert 5 1, .process 5 false false true, .returned (some .RETRY) 7, .onTimer 7,
          .onBacklog false, .returned (some .RETRY) 8, .cleanup, .onTimer 8, .onBacklog false,
          .returned (some .CLOSE) 9, .returned (some .OK) 9, .cleanup] :=
  (run_synced socket 3 (by decide)).mpr (by decide)

/-- The retry of the first handler throws, and its descriptor comes back with the second one. -/
theorem throwing_retry_lost :
    ∃ es, Meets (step socket) Enabled (start 3) es ∧
      ¬(run (step socket) (start 3) es).Synced ∧ ¬CalledAgain socket (start 3) es := by
  have hes : Meets (step socket) Enabled (start 3)
      [.insert 5 1, .process 5 false false true, .returned (some .RETRY) 7, .onTimer 7,
        .onBacklog false, .returned none 7, .returned (some .OK) 7, .cleanup, .insert 5 2,
        .process 5 false false true, .returned (some .RETRY) 8, .cleanup, .onTimer 9] := by
    decide
  refine ⟨_, hes, ?_, ?_⟩
  · intro hsynced
    obtain ⟨h, -, hmem⟩ := (hsynced 5).mp (by decide)
    have hnone : h ∈ ([] : List HandlerPtr) := hmem
    cases hnone
  · intro hcalled
    have hlost := hcalled
      [.insert 5 1, .process 5 false false true, .returned (some .RETRY) 7, .onTimer 7,
        .onBacklog false, .returned none 7, .returned (some .OK) 7, .cleanup, .insert 5 2,
        .process 5 false false true] 8 [.cleanup] 9 [] 2 rfl rfl (by simp [Event.sNow]) rfl
    exact absurd hlost (by decide)

end

end Stuff.EPoll
