import Stuff.EPoll

/-!
# Retries of the event loop

A descriptor is in `m_Retry` just when its handler has an entry in the backlog, as long as every
event keeps the two in step; and with the first event that does not, they differ.
-/
namespace Stuff.EPoll
open EventRuns ContainerRequestQueue

namespace State
variable {s t : State}

/-! ## Looking up -/

theorem find_insert {aFd : Fd} (hnone : s.find aFd = none) (h : HandlerPtr) (fd : Fd) :
    (s.insert aFd h).find fd = if fd = aFd then some h else s.find fd := by
  have hnone' : s.m_Handlers.find? (fun x => x.1 = aFd) = none := Option.map_eq_none_iff.mp hnone
  simp only [find, insert, List.find?_append]
  by_cases hfd : fd = aFd
  · subst hfd
    simp [hnone']
  · have hne : aFd ≠ fd := Ne.symm hfd
    simp [hfd, hne]

theorem find_filter (p : Fd → Bool) (fd : Fd) :
    ({ s with m_Handlers := s.m_Handlers.filter fun x => p x.1 } : State).find fd =
      if p fd then s.find fd else none := by
  simp only [find, List.find?_filter]
  cases hp : p fd with
  | true =>
      have heq : (fun x : Fd × HandlerPtr => decide (p x.1 = true ∧ decide (x.1 = fd) = true)) =
          fun x => decide (x.1 = fd) := by
        funext x
        by_cases hx : x.1 = fd <;> simp [hx, hp]
      rw [heq]
      rfl
  | false =>
      have heq : (fun x : Fd × HandlerPtr => decide (p x.1 = true ∧ decide (x.1 = fd) = true)) =
          fun _ => false := by
        funext x
        by_cases hx : x.1 = fd <;> simp [hx, hp]
      rw [heq]
      simp

theorem find_erase (aFd fd : Fd) :
    (s.erase aFd).find fd = if fd = aFd then none else s.find fd := by
  have hfilter := find_filter (s := s) (fun x => decide (x ≠ aFd)) fd
  refine hfilter.trans ?_
  by_cases hfd : fd = aFd <;> simp [hfd]

theorem find_cleanup (fd : Fd) :
    s.cleanup.find fd = if fd ∈ s.m_CleanupQueue then none else s.find fd := by
  have hfilter := find_filter (s := s) (fun x => decide (x ∉ s.m_CleanupQueue)) fd
  refine hfilter.trans ?_
  by_cases hfd : fd ∈ s.m_CleanupQueue <;> simp [hfd]

/-- Each descriptor has one entry. -/
def Keyed (s : State) : Prop := (s.m_Handlers.map Prod.fst).Nodup

theorem mem_of_find {fd : Fd} {h : HandlerPtr} (hfind : s.find fd = some h) :
    (fd, h) ∈ s.m_Handlers := by
  obtain ⟨x, hx, rfl⟩ := Option.map_eq_some_iff.mp hfind
  have hkey := List.find?_some hx
  have hfst : x.1 = fd := by simpa using hkey
  exact hfst ▸ List.mem_of_find?_eq_some hx

theorem find_of_mem (hkeyed : s.Keyed) {fd : Fd} {h : HandlerPtr} (hmem : (fd, h) ∈ s.m_Handlers) :
    s.find fd = some h := by
  cases hfind : s.m_Handlers.find? fun x => x.1 = fd with
  | none =>
      have hnot := List.find?_eq_none.mp hfind _ hmem
      simp at hnot
  | some x =>
      have hkey := List.find?_some hfind
      have hsame : x = (fd, h) :=
        List.inj_on_of_nodup_map hkeyed (List.mem_of_find?_eq_some hfind) hmem (by simpa using hkey)
      rw [find, hfind, hsame]
      rfl

theorem registered_of_find {fd : Fd} {h : HandlerPtr} (hfind : s.find fd = some h) :
    s.Registered h := ⟨_, mem_of_find hfind, rfl⟩

/-! ## The entries -/

theorem pending_schedule (b : Backlog) (aDelayMS sNow : UInt64) :
    (s.schedule b aDelayMS sNow).pending = s.pending ++ (readPtr b).toList := by
  simp only [pending, schedule, RequestQueue.insert, List.filterMap_append, List.append_assoc]
  cases hb : readPtr b <;> simp [hb]

/-- The retry of `process`. -/
theorem pending_reading {aFd : Fd} {sFace : HandlerPtr} (hcall : s.call = .reading aFd sFace)
    (m_Retry : Finset Fd) (sNow : UInt64) :
    ({ s.schedule ⟨sFace, .READ⟩ 0 sNow with m_Retry, call := .idle } : State).pending =
      s.pending ++ [sFace] := by
  have hidle : s.pending = ({ s with call := .idle } : State).pending := by
    simp [pending, hcall]
  rw [hidle]
  exact pending_schedule (s := { s with call := .idle }) ⟨sFace, .READ⟩ 0 sNow

/-- The one under way comes first. -/
theorem pending_retrying {sPtr : HandlerPtr} (hcall : s.call = .retrying sPtr) :
    s.pending = sPtr :: (s.sList.filterMap readPtr ++
      s.m_Backlog.store.filterMap fun r => readPtr r.value) := by
  simp [pending, hcall]

theorem pending_onTimer (hordered : s.m_Backlog.Ordered) (hidle : s.call = .idle)
    (hlist : s.sList = []) (sNow : UInt64) : (s.onTimer sNow).pending.Perm s.pending := by
  obtain ⟨hperm, -⟩ := timerLoop_spec sNow hordered.nodup (Nat.le_refl _)
  have hreads := hperm.filterMap fun r => readPtr r.value
  rw [List.filterMap_append] at hreads
  simp only [pending, onTimer, RequestQueue.onTimer, hidle, hlist, List.nil_append,
    List.filterMap_nil, List.filterMap_map]
  exact hreads

theorem find_congr (hhandlers : t.m_Handlers = s.m_Handlers) (fd : Fd) : t.find fd = s.find fd := by
  rw [find, find, hhandlers]

end State

open State

structure Inv (s : State) : Prop where
  keyed : s.Keyed
  ordered : s.m_Backlog.Ordered
  once : s.pending.Nodup
  alive : ∀ h ∈ s.pending, ∃ aFd, s.find aFd = some h ∧ ∀ x ∈ s.m_Handlers, x.2 = h → x.1 = aFd
  synced : s.Synced

theorem inv_start (eventFd : Fd) : Inv (start eventFd) where
  keyed := List.nodup_singleton _
  ordered := ⟨List.nodup_nil, fun _ hr => nomatch hr⟩
  once := List.nodup_nil
  alive := fun _ hh => nomatch hh
  synced := by
    intro aFd
    constructor
    · exact fun hmem => absurd hmem (Finset.notMem_empty _)
    · rintro ⟨h, -, hmem⟩
      exact absurd hmem List.not_mem_nil

section
variable {s t : State}

/-- The same entries, perhaps at other places. -/
theorem Inv.of_perm (hs : Inv s) (hhandlers : t.m_Handlers = s.m_Handlers)
    (hretry : t.m_Retry = s.m_Retry) (hordered : t.m_Backlog.Ordered)
    (hperm : t.pending.Perm s.pending) : Inv t where
  keyed := by
    rw [Keyed, hhandlers]
    exact hs.keyed
  ordered := hordered
  once := hperm.nodup_iff.mpr hs.once
  alive := by
    intro h hh
    rw [hhandlers]
    obtain ⟨aFd, hfind, honly⟩ := hs.alive h (hperm.mem_iff.mp hh)
    exact ⟨aFd, (find_congr hhandlers aFd).trans hfind, honly⟩
  synced := by
    intro aFd
    simp only [hretry, find_congr hhandlers, hperm.mem_iff]
    exact hs.synced aFd

/-- Handlers without an entry are taken out. -/
theorem Inv.of_filter (hs : Inv s) {p : Fd → Bool} (hp : ∀ aFd ∈ s.m_Retry, p aFd = true)
    (hhandlers : t.m_Handlers = s.m_Handlers.filter fun x => p x.1)
    (hretry : t.m_Retry = s.m_Retry) (hbacklog : t.m_Backlog = s.m_Backlog)
    (hpending : t.pending = s.pending) : Inv t := by
  have hfind : ∀ fd, t.find fd = if p fd then s.find fd else none := fun fd =>
    (find_congr (s := { s with m_Handlers := s.m_Handlers.filter fun x => p x.1 }) hhandlers
      fd).trans (find_filter p fd)
  refine ⟨?_, hbacklog ▸ hs.ordered, hpending ▸ hs.once, ?_, ?_⟩
  · rw [Keyed, hhandlers]
    exact hs.keyed.sublist (List.filter_sublist.map Prod.fst)
  · intro h hh
    rw [hpending] at hh
    obtain ⟨aFd, hold, honly⟩ := hs.alive h hh
    refine ⟨aFd, ?_, ?_⟩
    · rw [hfind, if_pos (hp aFd ((hs.synced aFd).mpr ⟨h, hold, hh⟩)), hold]
    · intro x hx
      rw [hhandlers] at hx
      exact honly x (List.mem_of_mem_filter hx)
  · intro aFd
    rw [hretry, hpending, hfind]
    by_cases hmem : aFd ∈ s.m_Retry
    · rw [if_pos (hp aFd hmem)]
      exact hs.synced aFd
    · refine iff_of_false hmem ?_
      rintro ⟨h, hold, hh⟩
      split at hold
      · exact hmem ((hs.synced aFd).mpr ⟨h, hold, hh⟩)
      · cases hold

theorem Inv.insert (hs : Inv s) {aFd : Fd} (hnone : s.find aFd = none) {aHandler : HandlerPtr}
    (hnew : aHandler ∉ s.pending) : Inv (s.insert aFd aHandler) := by
  have hkey : ∀ h, (aFd, h) ∉ s.m_Handlers := by
    intro h hmem
    rw [find_of_mem hs.keyed hmem] at hnone
    cases hnone
  refine ⟨?_, hs.ordered, hs.once, ?_, ?_⟩
  · rw [Keyed, State.insert, List.map_append, List.nodup_append]
    refine ⟨hs.keyed, List.nodup_singleton _, ?_⟩
    intro fd hfd fd' hsingle heq
    obtain ⟨⟨_, h⟩, hmem, rfl⟩ := List.mem_map.mp hfd
    rw [List.map_singleton, List.mem_singleton] at hsingle
    have hfd : fd' = aFd := hsingle
    dsimp only at heq
    exact hkey h (hfd ▸ heq ▸ hmem)
  · intro h hh
    obtain ⟨fd, hfind, honly⟩ := hs.alive h hh
    refine ⟨fd, ?_, ?_⟩
    · have hne : fd ≠ aFd := by
        rintro rfl
        rw [hnone] at hfind
        cases hfind
      rw [find_insert hnone, if_neg hne, hfind]
    · intro x hx heq
      rcases List.mem_append.mp hx with hold | hlast
      · exact honly x hold heq
      · rw [List.mem_singleton.mp hlast] at heq
        have heq : aHandler = h := heq
        exact absurd (heq ▸ hh) hnew
  · intro fd
    rw [find_insert hnone]
    by_cases hfd : fd = aFd
    · subst hfd
      rw [if_pos rfl]
      refine iff_of_false ?_ ?_
      · intro hmem
        obtain ⟨h, hfind, -⟩ := (hs.synced fd).mp hmem
        rw [hnone] at hfind
        cases hfind
      · rintro ⟨h, heq, hh⟩
        exact hnew (Option.some.inj heq ▸ hh)
    · rw [if_neg hfd]
      exact hs.synced fd

/-- A retry that `process` puts into the backlog. -/
theorem Inv.retry (hs : Inv s) {aFd : Fd} {sFace : HandlerPtr} (hretry : aFd ∉ s.m_Retry)
    (hfind : s.find aFd = some sFace) (honly : ∀ x ∈ s.m_Handlers, x.2 = sFace → x.1 = aFd)
    (ht : t.m_Handlers = s.m_Handlers) (htretry : t.m_Retry = Insert.insert aFd s.m_Retry)
    (hordered : t.m_Backlog.Ordered) (hpending : t.pending = s.pending ++ [sFace]) : Inv t := by
  have hnew : sFace ∉ s.pending := fun hmem => hretry ((hs.synced aFd).mpr ⟨sFace, hfind, hmem⟩)
  refine ⟨?_, hordered, ?_, ?_, ?_⟩
  · rw [Keyed, ht]
    exact hs.keyed
  · rw [hpending]
    exact List.nodup_append_comm.mp (List.nodup_cons.mpr ⟨hnew, hs.once⟩)
  · intro h hh
    rw [ht]
    rw [hpending] at hh
    rcases List.mem_append.mp hh with hold | hlast
    · obtain ⟨fd, hfd, honly'⟩ := hs.alive h hold
      exact ⟨fd, (find_congr ht fd).trans hfd, honly'⟩
    · rw [List.mem_singleton.mp hlast]
      exact ⟨aFd, (find_congr ht aFd).trans hfind, honly⟩
  · intro fd
    rw [htretry, Finset.mem_insert, hs.synced fd, hpending, find_congr ht]
    constructor
    · rintro (rfl | ⟨h, hfd, hh⟩)
      · exact ⟨sFace, hfind, List.mem_append_right _ (List.mem_singleton.mpr rfl)⟩
      · exact ⟨h, hfd, List.mem_append_left _ hh⟩
    · rintro ⟨h, hfd, hh⟩
      rcases List.mem_append.mp hh with hold | hlast
      · exact .inr ⟨h, hfd, hold⟩
      · rw [List.mem_singleton.mp hlast] at hfd
        exact .inl (honly (fd, sFace) (mem_of_find hfd) rfl)

/-- The end of a retry: its descriptor is taken out. -/
theorem Inv.over (hs : Inv s) {aFd : Fd} {sPtr : HandlerPtr} (hfind : s.find aFd = some sPtr)
    {rest : List HandlerPtr} (hpending : s.pending = sPtr :: rest)
    (ht : t.m_Handlers = s.m_Handlers) (htretry : t.m_Retry = s.m_Retry.erase aFd)
    (hbacklog : t.m_Backlog = s.m_Backlog) (htpending : t.pending = rest) : Inv t := by
  have honce := hs.once
  rw [hpending, List.nodup_cons] at honce
  refine ⟨?_, hbacklog ▸ hs.ordered, htpending ▸ honce.2, ?_, ?_⟩
  · rw [Keyed, ht]
    exact hs.keyed
  · intro h hh
    rw [ht]
    obtain ⟨fd, hfd, honly⟩ := hs.alive h (hpending ▸ List.mem_cons_of_mem _ (htpending ▸ hh))
    exact ⟨fd, (find_congr ht fd).trans hfd, honly⟩
  · intro fd
    rw [htretry, Finset.mem_erase, hs.synced fd, htpending, find_congr ht, hpending]
    constructor
    · rintro ⟨hne, h, hfd, hh⟩
      rcases List.mem_cons.mp hh with rfl | hh
      · obtain ⟨fd', -, honly⟩ := hs.alive h (hpending ▸ List.mem_cons_self)
        have heq := honly (fd, h) (mem_of_find hfd) rfl
        have heq' := honly (aFd, h) (mem_of_find hfind) rfl
        exact absurd (heq.trans heq'.symm) hne
      · exact ⟨h, hfd, hh⟩
    · rintro ⟨h, hfd, hh⟩
      refine ⟨?_, h, hfd, List.mem_cons_of_mem _ hh⟩
      rintro rfl
      rw [hfind, Option.some.injEq] at hfd
      exact honce.1 (hfd ▸ hh)

theorem Inv.returned (get_fd : HandlerPtr → Fd) (hs : Inv s) {sResult : Option Result}
    {sNow : UInt64} (hin : InStep get_fd s (.returned sResult sNow)) :
    Inv (s.returned get_fd sResult sNow) := by
  simp only [InStep] at hin
  rw [State.returned]
  cases hcall : s.call with
  | idle => exact hs
  | writing aFd sFace aIn =>
      dsimp only
      split
      · exact hs.of_perm rfl rfl hs.ordered (by simp [pending, hcall])
      · split <;> exact hs.of_perm rfl rfl hs.ordered (by simp [pending, hcall])
  | reading aFd sFace =>
      rw [hcall] at hin
      dsimp only [EndsInStep] at hin ⊢
      split
      · exact hs.of_perm rfl rfl hs.ordered (by simp [pending, hcall])
      · split
        case isTrue hretry =>
          obtain ⟨hfind, honly⟩ := hin hretry.1 hretry.2
          exact hs.retry hretry.2 hfind honly rfl rfl (hs.ordered.insert _ _ _)
            (pending_reading hcall _ sNow)
        case isFalse => exact hs.of_perm rfl rfl hs.ordered (by simp [pending, hcall])
  | failing aFd => exact hs.of_perm rfl rfl hs.ordered (by simp [pending, hcall])
  | retrying sPtr =>
      rw [hcall] at hin
      dsimp only [EndsInStep] at hin ⊢
      obtain ⟨hthrow, hfind⟩ := hin
      have hpending := pending_retrying hcall
      match sResult with
      | some .RETRY =>
          refine hs.of_perm rfl rfl (hs.ordered.insert _ _ _) ?_
          rw [hpending]
          exact (List.Perm.of_eq (pending_schedule (s := { s with call := .idle }) ⟨sPtr, .READ⟩ 0
            sNow)).trans (List.perm_append_singleton _ _)
      | some .OK =>
          exact hs.over (hfind (by decide)) hpending rfl rfl rfl rfl
      | some .CLOSE => exact hs.over (hfind (by decide)) hpending rfl rfl rfl rfl
      | none => exact absurd rfl hthrow
  | timing sPtr =>
      dsimp only
      split <;> exact hs.of_perm rfl rfl hs.ordered (by simp [pending, hcall])

theorem Inv.process (hs : Inv s) (hidle : s.call = .idle) (aFd : Fd) (aHup aOut aIn : Bool) :
    Inv (s.process aFd aHup aOut aIn) := by
  rw [State.process]
  cases s.find aFd with
  | none => exact hs
  | some sFace =>
      dsimp only
      split
      · exact hs.of_perm rfl rfl hs.ordered (by simp [pending, hidle])
      · split
        · exact hs.of_perm rfl rfl hs.ordered (by simp [pending, hidle])
        · split
          · exact hs.of_perm rfl rfl hs.ordered (by simp [pending, hidle])
          · exact hs

theorem not_expired (hs : Inv s) {expired : Bool} (hen : Enabled s (.onBacklog expired))
    {aData : Backlog} {sList : List Backlog} (hlist : s.sList = aData :: sList) {h : HandlerPtr}
    (hread : readPtr aData = some h) : expired = false := by
  obtain ⟨-, hlive⟩ := hen
  have hmem : h ∈ s.pending := by simp [pending, hlist, hread]
  obtain ⟨aFd, hfind, -⟩ := hs.alive h hmem
  have hptr : aData.ptr = h := by
    cases haction : aData.action with
    | READ => simpa [readPtr, haction] using hread
    | TIMER timer_id => simp [readPtr, haction] at hread
  have hnot := hlive aData (by rw [hlist]; rfl)
  rw [hptr] at hnot
  cases expired with
  | false => rfl
  | true => exact absurd (registered_of_find hfind) (hnot rfl)

theorem Inv.onBacklog (hs : Inv s) {expired : Bool} (hen : Enabled s (.onBacklog expired)) :
    Inv (s.onBacklog expired) := by
  have hidle : s.call = .idle := hen.1
  rw [State.onBacklog]
  cases hlist : s.sList with
  | nil => exact hs
  | cons aData sList =>
      dsimp only
      cases haction : aData.action with
      | READ =>
          have hexpired := not_expired hs hen hlist (h := aData.ptr) (by simp [readPtr, haction])
          rw [hexpired]
          exact hs.of_perm rfl rfl hs.ordered
            (by simp [pending, hidle, hlist, readPtr, haction])
      | TIMER timer_id =>
          split <;> exact hs.of_perm rfl rfl hs.ordered
            (by simp [pending, hidle, hlist, readPtr, haction])

theorem Inv.step (get_fd : HandlerPtr → Fd) (hs : Inv s) {e : Event} (hen : Enabled s e)
    (hin : InStep get_fd s e) : Inv (step get_fd s e) := by
  cases e with
  | insert aFd aHandler => exact hs.insert hen hin
  | erase aFd =>
      refine hs.of_filter (p := fun fd => fd ≠ aFd) ?_ rfl rfl rfl rfl
      intro fd hfd
      exact decide_eq_true fun heq => hin (heq ▸ hfd)
  | schedule aPtr aDelayMS aTimerID sNow =>
      refine hs.of_perm rfl rfl (hs.ordered.insert _ _ _) (List.Perm.of_eq ?_)
      exact (pending_schedule _ aDelayMS sNow).trans (List.append_nil _)
  | process aFd aHup aOut aIn => exact hs.process hen.1 aFd aHup aOut aIn
  | returned sResult sNow => exact hs.returned get_fd hin
  | onTimer sNow =>
      exact hs.of_perm rfl rfl (hs.ordered.onTimer sNow)
        (pending_onTimer hs.ordered hen.1 hen.2 sNow)
  | onBacklog expired => exact hs.onBacklog hen
  | cleanup =>
      refine hs.of_filter (p := fun fd => fd ∉ s.m_CleanupQueue) ?_ rfl rfl rfl ?_
      · intro fd hfd
        exact decide_eq_true fun hmem => hin fd hmem hfd
      · simp [Stuff.EPoll.step, State.cleanup, pending]

end

end Stuff.EPoll
