import Stuff.EventRuns
import Stuff.OrderedMap
import Mathlib.Data.List.Sort
import Mathlib.Data.List.Nodup
import Mathlib.Data.List.Count

/-!
# Handlers that wait for a reply

`asio_tnt::ReplyWaiter` has the handlers of the requests under way by their serials, and
the deadlines of all requests by time. The two are cleaned apart: a reply takes its
handler and leaves the deadline behind, the timer skips a deadline without a handler,
and an error of the connection takes all of both.
-/
namespace Stuff.TntReplyWaiter
open EventRuns

variable {R E H : Type}

/-- `Time::get_time().to_ms()`, of a clock that counts nanoseconds. -/
def toMs (ns : UInt64) : UInt64 := ns / 1000 / 1000

/-- What a handler finds in its future. -/
inductive Outcome (R E : Type)
  | reply (aResult : R)
  | timedOut
  | failed (error : E)
deriving DecidableEq, Repr

/-- The map and the multimap in the order of their keys. -/
structure ReplyWaiter (H E : Type) where
  waiters : List (UInt64 × H) := []
  timeouts : List (UInt64 × UInt64) := []
  error : Option E := none

namespace ReplyWaiter

def find (w : ReplyWaiter H E) (aSerial : UInt64) : Option H := w.waiters.lookup aSerial

def erase (w : ReplyWaiter H E) (aSerial : UInt64) : ReplyWaiter H E :=
  { w with waiters := w.waiters.filter fun x => x.1 != aSerial }

def insert (w : ReplyWaiter H E) (aSerial : UInt64) (aTimeoutMs : UInt32) (aHandler : H)
    (ns : UInt64) : ReplyWaiter H E :=
  { w with
    waiters := OrderedMap.assign (fun a b => a < b) aSerial aHandler w.waiters
    timeouts := w.timeouts.orderedInsert (fun a b => a.1 < b.1)
      (toMs ns + aTimeoutMs.toUInt64, aSerial) }

/-- The handlers that are invoked are returned, in this order. -/
def call (w : ReplyWaiter H E) (aSerial : UInt64) (aResult : R) :
    Bool × List (H × Outcome R E) × ReplyWaiter H E :=
  match w.find aSerial with
  | none => (false, [], w)
  | some sHandler => (true, [(sHandler, .reply aResult)], w.erase aSerial)

def flushInt (w : ReplyWaiter H E) (error : E) : List (H × Outcome R E) × ReplyWaiter H E :=
  (w.waiters.map fun x => (x.2, .failed error), { w with waiters := [], timeouts := [] })

/-- The loop of `on_timer`: the deadlines that it has not seen yet, and the waiters. -/
def expire (sNow : UInt64) : List (UInt64 × UInt64) → ReplyWaiter H E →
    List (H × Outcome R E) × ReplyWaiter H E
  | [], w => ([], { w with timeouts := [] })
  | it :: ts, w =>
      if it.1 < sNow then
        match w.find it.2 with
        | some sHandler =>
            let r := expire sNow ts (w.erase it.2)
            ((sHandler, .timedOut) :: r.1, r.2)
        | none => expire sNow ts w
      else ([], { w with timeouts := it :: ts })

def onTimer (w : ReplyWaiter H E) (ns : UInt64) : List (H × Outcome R E) × ReplyWaiter H E :=
  match w.error with
  | some error => w.flushInt error
  | none => expire (toMs ns) w.timeouts w

def flush (w : ReplyWaiter H E) (aPtr : E) : List (H × Outcome R E) × ReplyWaiter H E :=
  { w with error := some aPtr }.flushInt aPtr

def reset (w : ReplyWaiter H E) : ReplyWaiter H E := { w with error := none }

end ReplyWaiter

inductive Event (R E : Type)
  | insert (aSerial : UInt64) (aTimeoutMs : UInt32) (ns : UInt64)
  | call (aSerial : UInt64) (aResult : R)
  | onTimer (ns : UInt64)
  | flush (aPtr : E)
  | reset

/-- An insert of the history, with the number of calls that came before it. -/
structure Inserted where
  serial : UInt64
  timeoutMs : UInt32
  ns : UInt64
  begun : ℕ

/-- The deadline in the time of the clock, which does not wrap. -/
def Inserted.deadline (x : Inserted) : ℕ := (toMs x.ns).toNat + x.timeoutMs.toNat

/-- An invocation of a handler. The milliseconds are the clock's in `on_timer`. -/
structure Invocation (R E : Type) where
  handler : ℕ
  outcome : Outcome R E
  ms : Option ℕ
  flushed : Option E

/-- The handler of an insert is known by the place of the insert in the history. The
error of the last flush is kept when the object forgets it. -/
structure State (R E : Type) where
  waiter : ReplyWaiter ℕ E := {}
  inserted : List Inserted := []
  calls : List (UInt64 × R) := []
  flushed : Option E := none
  log : List (Invocation R E) := []

/-- What the operation did, and what it invoked. -/
def State.after (s : State R E) (ms : Option ℕ)
    (r : List (ℕ × Outcome R E) × ReplyWaiter ℕ E) : State R E :=
  { s with
    waiter := r.2
    log := s.log ++ r.1.map fun x => ⟨x.1, x.2, ms, s.flushed⟩ }

def waiterStep (s : State R E) : Event R E → State R E
  | .insert aSerial aTimeoutMs ns =>
      { s with
        waiter := s.waiter.insert aSerial aTimeoutMs s.inserted.length ns
        inserted := s.inserted ++ [⟨aSerial, aTimeoutMs, ns, s.calls.length⟩] }
  | .call aSerial aResult =>
      { s with calls := s.calls ++ [(aSerial, aResult)] }.after none
        (s.waiter.call aSerial aResult).2
  | .onTimer ns => s.after (some (toMs ns).toNat) (s.waiter.onTimer ns)
  | .flush aPtr => { s with flushed := some aPtr }.after none (s.waiter.flush aPtr)
  | .reset => { s with waiter := s.waiter.reset }

/-- The serial of an insert was not inserted before. -/
def Fresh (s : State R E) : Event R E → Prop
  | .insert aSerial _ _ => aSerial ∉ s.inserted.map Inserted.serial
  | _ => True

instance decidableFresh (s : State R E) : (e : Event R E) → Decidable (Fresh s e)
  | .insert aSerial _ _ => inferInstanceAs (Decidable (aSerial ∉ s.inserted.map Inserted.serial))
  | .call _ _ => inferInstanceAs (Decidable True)
  | .onTimer _ => inferInstanceAs (Decidable True)
  | .flush _ => inferInstanceAs (Decidable True)
  | .reset => inferInstanceAs (Decidable True)

/-- The result of the first call for the serial since the insert. -/
def State.firstCall (s : State R E) (x : Inserted) : Option R :=
  ((s.calls.drop x.begun).find? fun c => c.1 = x.serial).map Prod.snd

/-- The handler of `x` was invoked for a reason. -/
def State.Justified (s : State R E) (x : Inserted) (v : Invocation R E) : Prop :=
  match v.outcome with
  | .reply r => s.firstCall x = some r
  | .timedOut => ∃ ms, v.ms = some ms ∧ x.deadline < ms
  | .failed error => v.flushed = some error

def State.invocations (s : State R E) (i : ℕ) : List (Invocation R E) :=
  s.log.filter fun v => v.handler = i

/-- Every waiting serial has a deadline, no handler is invoked while it waits, and the
handlers that wait no more were invoked once. -/
structure ExactlyOnce (s : State R E) : Prop where
  timeouts : ∀ x ∈ s.waiter.waiters, ∃ y ∈ s.waiter.timeouts, y.2 = x.1
  atMostOnce : ∀ i, (s.invocations i).length ≤ 1
  invoked : ∀ i x, s.inserted[i]? = some x → i ∉ s.waiter.waiters.map Prod.snd →
    ∃ v, s.invocations i = [v] ∧ s.Justified x v

/-! ## What an operation takes out -/

theorem lookup_mem {m : List (UInt64 × H)} {k : UInt64} {h : H} (hk : m.lookup k = some h) :
    (k, h) ∈ m := by
  obtain ⟨m₁, m₂, rfl, _⟩ := List.lookup_eq_some_iff.mp hk
  exact List.mem_append_right m₁ List.mem_cons_self

theorem lookup_perm {m : List (UInt64 × H)} {k : UInt64} {h : H} (hm : (m.map Prod.fst).Nodup)
    (hk : m.lookup k = some h) : m.Perm ((k, h) :: m.filter fun x => x.1 != k) := by
  induction m with
  | nil => simp at hk
  | cons x m ih =>
      rw [List.map_cons, List.nodup_cons] at hm
      rw [List.lookup_cons] at hk
      cases hx : k == x.1 with
      | true =>
          simp only [hx, Option.some.injEq] at hk
          have hkey := beq_iff_eq.mp hx
          have hrest : (m.filter fun y => y.1 != k) = m := by
            rw [List.filter_eq_self]
            intro y hy
            rw [bne_iff_ne, hkey]
            intro heq
            exact hm.1 (heq ▸ List.mem_map_of_mem hy)
          simp [hkey, ← hk, hkey ▸ hrest]
      | false =>
          simp only [hx] at hk
          have hne : (x.1 != k) = true := by
            rw [bne_iff_ne]
            exact fun heq => (beq_eq_false_iff_ne.mp hx) heq.symm
          rw [List.filter_cons, if_pos hne]
          exact ((ih hm.2 hk).cons x).trans (List.Perm.swap (k, h) x _)

/-- The handlers that the operation invokes are those that it takes out, and what is
left keeps its deadlines. -/
structure Takes (w : ReplyWaiter H E) (r : List (H × Outcome R E) × ReplyWaiter H E) : Prop where
  perm : (w.waiters.map Prod.snd).Perm (r.1.map Prod.fst ++ r.2.waiters.map Prod.snd)
  kept : r.2.waiters.Sublist w.waiters
  known : ∀ y ∈ r.2.timeouts, y ∈ w.timeouts
  covered : ∀ x ∈ r.2.waiters, ∀ y ∈ w.timeouts, y.2 = x.1 → y ∈ r.2.timeouts
  error : r.2.error = w.error

theorem takes_erase {w : ReplyWaiter H E} {aSerial : UInt64} {sHandler : H} (o : Outcome R E)
    (hkeys : (w.waiters.map Prod.fst).Nodup) (hfind : w.find aSerial = some sHandler) :
    Takes w ([(sHandler, o)], w.erase aSerial) where
  perm := (lookup_perm hkeys hfind).map Prod.snd
  kept := List.filter_sublist
  known _ hy := hy
  covered _ _ _ hy _ := hy
  error := rfl

theorem takes_flushInt (w : ReplyWaiter H E) (error : E) :
    Takes w (w.flushInt error : List (H × Outcome R E) × ReplyWaiter H E) where
  perm := by
    simp only [ReplyWaiter.flushInt, List.map_map, List.map_nil, List.append_nil]
    exact List.Perm.refl _
  kept := List.nil_sublist _
  known _ hy := absurd hy List.not_mem_nil
  covered _ hx := absurd hx List.not_mem_nil
  error := rfl

theorem Takes.cons {w w' : ReplyWaiter H E} {x : H × Outcome R E}
    {r : List (H × Outcome R E) × ReplyWaiter H E} (h : Takes w ([x], w')) (h' : Takes w' r) :
    Takes w (x :: r.1, r.2) where
  perm := h.perm.trans (h'.perm.cons x.1)
  kept := h'.kept.trans h.kept
  known y hy := h.known y (h'.known y hy)
  covered y hy z hz hyz := h'.covered y hy z (h.covered y (h'.kept.subset hy) z hz hyz) hyz
  error := h'.error.trans h.error

theorem keys_erase {w : ReplyWaiter H E} (hkeys : (w.waiters.map Prod.fst).Nodup)
    (aSerial : UInt64) : ((w.erase aSerial).waiters.map Prod.fst).Nodup :=
  hkeys.sublist (List.filter_sublist.map Prod.fst)

theorem lookup_eq_none {m : List (UInt64 × H)} {k : UInt64} (hk : m.lookup k = none) :
    ∀ x ∈ m, x.1 ≠ k := by
  intro x hx heq
  have hne := List.lookup_eq_none_iff.mp hk x hx
  simp [heq] at hne

/-- The deadlines that the loop passes are those of no waiter that is left. -/
theorem takes_expire (sNow : UInt64) {ts : List (UInt64 × UInt64)} {w : ReplyWaiter H E}
    (hkeys : (w.waiters.map Prod.fst).Nodup) (hts : ∀ y ∈ ts, y ∈ w.timeouts)
    (hpassed : ∀ x ∈ w.waiters, ∀ y ∈ w.timeouts, y.2 = x.1 → y ∈ ts) :
    let r : List (H × Outcome R E) × ReplyWaiter H E := ReplyWaiter.expire sNow ts w
    Takes w r ∧ ∀ x ∈ r.1, x.2 = .timedOut ∧ ∃ y ∈ ts, y.1 < sNow ∧ (y.2, x.1) ∈ w.waiters := by
  induction ts generalizing w with
  | nil =>
      refine ⟨⟨List.Perm.refl _, List.Sublist.refl _,
          fun _ hy => absurd hy List.not_mem_nil, ?_, rfl⟩,
        fun _ hx => absurd hx List.not_mem_nil⟩
      intro x hx y hy hyx
      exact hpassed x hx y hy hyx
  | cons it ts ih =>
      simp only [ReplyWaiter.expire]
      split
      case isFalse =>
        exact ⟨⟨List.Perm.refl _, List.Sublist.refl _, hts, hpassed, rfl⟩,
          fun _ hx => absurd hx List.not_mem_nil⟩
      case isTrue hlt =>
        have hrest : ∀ y ∈ ts, y ∈ w.timeouts := fun y hy => hts y (List.mem_cons_of_mem it hy)
        split
        case h_1 sHandler hfind =>
          have herase := takes_erase (R := R) .timedOut hkeys hfind
          have hleft : ∀ x ∈ (w.erase it.2).waiters, ∀ y ∈ w.timeouts, y.2 = x.1 → y ∈ ts := by
            intro x hx y hy hyx
            have hne := (List.mem_filter.mp hx).2
            rcases List.mem_cons.mp (hpassed x (herase.kept.subset hx) y hy hyx) with rfl | hmem
            · simp [hyx] at hne
            · exact hmem
          obtain ⟨htakes, hout⟩ := ih (keys_erase hkeys it.2) hrest hleft
          refine ⟨herase.cons htakes, ?_⟩
          intro x hx
          rcases List.mem_cons.mp hx with rfl | hx
          · exact ⟨rfl, it, List.mem_cons_self, hlt, lookup_mem hfind⟩
          · obtain ⟨htimed, y, hy, hys, hmem⟩ := hout x hx
            exact ⟨htimed, y, List.mem_cons_of_mem it hy, hys, herase.kept.subset hmem⟩
        case h_2 hfind =>
          have hleft : ∀ x ∈ w.waiters, ∀ y ∈ w.timeouts, y.2 = x.1 → y ∈ ts := by
            intro x hx y hy hyx
            rcases List.mem_cons.mp (hpassed x hx y hy hyx) with rfl | hmem
            · exact absurd hyx.symm (lookup_eq_none hfind x hx)
            · exact hmem
          obtain ⟨htakes, hout⟩ := ih hkeys hrest hleft
          refine ⟨htakes, ?_⟩
          intro x hx
          obtain ⟨htimed, y, hy, hys⟩ := hout x hx
          exact ⟨htimed, y, List.mem_cons_of_mem it hy, hys⟩

/-! ## The invariant -/

/-- The handlers in the map and those in the log, against the history. -/
structure Tracked (s : State R E) : Prop where
  keys : (s.waiter.waiters.map Prod.fst).Nodup
  serials : (s.inserted.map Inserted.serial).Nodup
  begun : ∀ x ∈ s.inserted, x.begun ≤ s.calls.length
  waiting : ∀ w ∈ s.waiter.waiters, ∃ x, s.inserted[w.2]? = some x ∧ x.serial = w.1 ∧
    s.invocations w.2 = []
  covered : ∀ w ∈ s.waiter.waiters, ∃ y ∈ s.waiter.timeouts, y.2 = w.1
  deadlines : ∀ y ∈ s.waiter.timeouts, ∃ x ∈ s.inserted, x.serial = y.2 ∧ x.deadline = y.1.toNat
  error : ∀ error, s.waiter.error = some error → s.flushed = some error
  invoked : ∀ i x, s.inserted[i]? = some x → i ∉ s.waiter.waiters.map Prod.snd →
    ∃ v, s.invocations i = [v] ∧ s.Justified x v
  known : ∀ v ∈ s.log, v.handler < s.inserted.length

/-- No call came for a handler that still waits. -/
def Unanswered (s : State R E) : Prop :=
  ∀ w ∈ s.waiter.waiters, ∀ x, s.inserted[w.2]? = some x → s.firstCall x = none

theorem Tracked.start : Tracked ({} : State R E) where
  keys := List.nodup_nil
  serials := List.nodup_nil
  begun _ hx := absurd hx List.not_mem_nil
  waiting _ hw := absurd hw List.not_mem_nil
  covered _ hw := absurd hw List.not_mem_nil
  deadlines _ hy := absurd hy List.not_mem_nil
  error _ herror := by simp at herror
  invoked _ _ hi := by simp at hi
  known _ hv := absurd hv List.not_mem_nil

/-- The same serial, the same handler. -/
theorem Tracked.handlers {s : State R E} (h : Tracked s) :
    (s.waiter.waiters.map Prod.snd).Nodup := by
  apply List.Nodup.map_on _ (List.Nodup.of_map _ h.keys)
  intro a ha b hb hab
  obtain ⟨x, hx, hserial, -⟩ := h.waiting a ha
  obtain ⟨y, hy, hserial', -⟩ := h.waiting b hb
  rw [hab, hy, Option.some.injEq] at hx
  ext1
  · rw [← hserial, ← hserial', hx]
  · exact hab

theorem Tracked.exactlyOnce {s : State R E} (h : Tracked s) : ExactlyOnce s where
  timeouts := h.covered
  invoked := h.invoked
  atMostOnce i := by
    cases hx : s.inserted[i]? with
    | none =>
        have hnone : s.invocations i = [] := by
          rw [State.invocations, List.filter_eq_nil_iff]
          intro v hv heq
          have hlt := h.known v hv
          rw [List.getElem?_eq_none_iff] at hx
          simp only [decide_eq_true_eq] at heq
          omega
        simp [hnone]
    | some x =>
        by_cases hw : i ∈ s.waiter.waiters.map Prod.snd
        · obtain ⟨w, hmem, rfl⟩ := List.mem_map.mp hw
          obtain ⟨_, _, _, hnone⟩ := h.waiting w hmem
          simp [hnone]
        · obtain ⟨v, hv, _⟩ := h.invoked i x hx hw
          simp [hv]

/-- The reasons that an operation has for what it invokes. -/
def State.Reasons (s : State R E) (ms : Option ℕ) (out : List (ℕ × Outcome R E)) : Prop :=
  ∀ v ∈ out, ∀ x, s.inserted[v.1]? = some x → s.Justified x ⟨v.1, v.2, ms, s.flushed⟩

theorem invocations_after (s : State R E) (ms : Option ℕ)
    (r : List (ℕ × Outcome R E) × ReplyWaiter ℕ E) (i : ℕ) :
    (s.after ms r).invocations i = s.invocations i ++
      (r.1.filter fun x => x.1 = i).map fun x => ⟨x.1, x.2, ms, s.flushed⟩ := by
  simp only [State.invocations, State.after, List.filter_append, List.filter_map]
  rfl

theorem filter_fst_single {α : Type} {l : List (ℕ × α)} (hl : (l.map Prod.fst).Nodup)
    {v : ℕ × α} (hv : v ∈ l) : (l.filter fun u => u.1 = v.1) = [v] := by
  induction l with
  | nil => simp at hv
  | cons a l ih =>
      rw [List.map_cons, List.nodup_cons] at hl
      rcases List.mem_cons.mp hv with rfl | hv
      · have hrest : (l.filter fun u => u.1 = v.1) = [] := by
          rw [List.filter_eq_nil_iff]
          intro u hu heq
          simp only [decide_eq_true_eq] at heq
          exact hl.1 (heq ▸ List.mem_map_of_mem hu)
        simp [hrest]
      · have hne : a.1 ≠ v.1 := fun heq => hl.1 (heq ▸ List.mem_map_of_mem hv)
        simp [hne, ih hl.2 hv]

/-- An operation that invokes what it takes out, for a reason, keeps the invariant. -/
theorem Tracked.after {s : State R E} (h : Tracked s) {ms : Option ℕ}
    {r : List (ℕ × Outcome R E) × ReplyWaiter ℕ E} (htakes : Takes s.waiter r)
    (hreasons : s.Reasons ms r.1) : Tracked (s.after ms r) := by
  have hnodup := h.handlers
  rw [htakes.perm.nodup_iff, List.nodup_append'] at hnodup
  obtain ⟨hout, hleft, hdisjoint⟩ := hnodup
  have htaken : ∀ v ∈ r.1, ∃ w ∈ s.waiter.waiters, w.2 = v.1 := by
    intro v hv
    apply List.mem_map.mp
    apply htakes.perm.mem_iff.mpr
    exact List.mem_append_left _ (List.mem_map_of_mem hv)
  constructor
  case keys => exact h.keys.sublist (htakes.kept.map Prod.fst)
  case serials => exact h.serials
  case begun => exact h.begun
  case waiting =>
    intro w hw
    obtain ⟨x, hx, hserial, hnone⟩ := h.waiting w (htakes.kept.subset hw)
    refine ⟨x, hx, hserial, ?_⟩
    rw [invocations_after, hnone, List.nil_append, List.map_eq_nil_iff, List.filter_eq_nil_iff]
    intro v hv heq
    simp only [decide_eq_true_eq] at heq
    exact hdisjoint (List.mem_map_of_mem hv) (heq ▸ List.mem_map_of_mem hw)
  case covered =>
    intro w hw
    obtain ⟨y, hy, hserial⟩ := h.covered w (htakes.kept.subset hw)
    exact ⟨y, htakes.covered w hw y hy hserial, hserial⟩
  case deadlines => exact fun y hy => h.deadlines y (htakes.known y hy)
  case error =>
    intro error herror
    exact h.error error (htakes.error.symm.trans herror)
  case invoked =>
    intro i x hx hi
    rw [invocations_after]
    by_cases hw : i ∈ s.waiter.waiters.map Prod.snd
    · have hmem : i ∈ r.1.map Prod.fst := by
        rcases List.mem_append.mp (htakes.perm.mem_iff.mp hw) with hin | hin
        · exact hin
        · exact absurd hin hi
      obtain ⟨v, hv, rfl⟩ := List.mem_map.mp hmem
      obtain ⟨w, hw, hwv⟩ := htaken v hv
      obtain ⟨_, _, _, hnone⟩ := h.waiting w hw
      rw [← hwv, hnone, List.nil_append, hwv, filter_fst_single hout hv]
      exact ⟨_, rfl, hreasons v hv x hx⟩
    · obtain ⟨v, hv, hjustified⟩ := h.invoked i x hx hw
      have hnot : (r.1.filter fun u => u.1 = i) = [] := by
        rw [List.filter_eq_nil_iff]
        intro u hu heq
        simp only [decide_eq_true_eq] at heq
        obtain ⟨w, hmem, hwu⟩ := htaken u hu
        exact hw (heq ▸ hwu ▸ List.mem_map_of_mem hmem)
      rw [hnot, List.map_nil, List.append_nil]
      exact ⟨v, hv, hjustified⟩
  case known =>
    intro v hv
    rcases List.mem_append.mp hv with hv | hv
    · exact h.known v hv
    · obtain ⟨u, hu, rfl⟩ := List.mem_map.mp hv
      obtain ⟨w, hw, hwu⟩ := htaken u hu
      obtain ⟨x, hx, _⟩ := h.waiting w hw
      exact hwu ▸ (List.getElem?_eq_some_iff.mp hx).1

/-! ## The operations -/

theorem toNat_toMs_add (ns : UInt64) (aTimeoutMs : UInt32) :
    (toMs ns + aTimeoutMs.toUInt64).toNat = (toMs ns).toNat + aTimeoutMs.toNat := by
  have hms : (toMs ns).toNat ≤ 2 ^ 64 / 1000 / 1000 := by
    simp only [toMs, UInt64.toNat_div]
    have hns := ns.toNat_lt
    have hk : (1000 : UInt64).toNat = 1000 := rfl
    rw [hk]
    omega
  have htimeout := aTimeoutMs.toNat_lt
  rw [UInt64.toNat_add, UInt32.toNat_toUInt64, Nat.mod_eq_of_lt]
  omega

theorem Tracked.fresh {s : State R E} (h : Tracked s) {aSerial : UInt64}
    (hfresh : aSerial ∉ s.inserted.map Inserted.serial) :
    ∀ w ∈ s.waiter.waiters, w.1 ≠ aSerial := by
  rintro w hw rfl
  obtain ⟨y, hy, hserial, -⟩ := h.waiting w hw
  exact hfresh (hserial ▸ List.mem_map_of_mem (List.mem_of_getElem? hy))

theorem Tracked.insert_waiters {s : State R E} (h : Tracked s) {aSerial : UInt64}
    (hfresh : aSerial ∉ s.inserted.map Inserted.serial) (aTimeoutMs : UInt32) (ns : UInt64) :
    (waiterStep s (.insert aSerial aTimeoutMs ns)).waiter.waiters.Perm
      ((aSerial, s.inserted.length) :: s.waiter.waiters) := by
  apply OrderedMap.insertWith_perm
  intro w hw hge
  have hne := h.fresh hfresh w hw
  simp only [decide_eq_false_iff_not, decide_eq_true_eq, UInt64.not_lt] at hge ⊢
  exact UInt64.lt_of_le_of_ne hge hne.symm

theorem Tracked.insert {s : State R E} (h : Tracked s) {aSerial : UInt64} {aTimeoutMs : UInt32}
    {ns : UInt64} (hfresh : aSerial ∉ s.inserted.map Inserted.serial) :
    Tracked (waiterStep s (.insert aSerial aTimeoutMs ns)) := by
  have hwaiters := h.insert_waiters hfresh aTimeoutMs ns
  have htimeouts : (s.waiter.insert aSerial aTimeoutMs s.inserted.length ns).timeouts.Perm
      ((toMs ns + aTimeoutMs.toUInt64, aSerial) :: s.waiter.timeouts) :=
    List.perm_orderedInsert _ _ _
  have hold : ∀ (i : ℕ) x, s.inserted[i]? = some x →
      (waiterStep s (.insert aSerial aTimeoutMs ns)).inserted[i]? = some x := by
    intro i x hx
    exact (List.getElem?_append_left (List.getElem?_eq_some_iff.mp hx).1).trans hx
  constructor
  case keys =>
    rw [(hwaiters.map Prod.fst).nodup_iff, List.map_cons, List.nodup_cons]
    refine ⟨?_, h.keys⟩
    intro hmem
    obtain ⟨w, hw, heq⟩ := List.mem_map.mp hmem
    exact h.fresh hfresh w hw heq
  case serials =>
    rw [waiterStep, List.map_append, List.nodup_append']
    refine ⟨h.serials, List.nodup_singleton _, ?_⟩
    rw [List.map_singleton, List.disjoint_singleton]
    exact hfresh
  case begun =>
    intro x hx
    rcases List.mem_append.mp hx with hx | hx
    · exact h.begun x hx
    · rw [List.mem_singleton.mp hx]
      exact le_rfl
  case waiting =>
    intro w hw
    rcases List.mem_cons.mp (hwaiters.mem_iff.mp hw) with rfl | hw
    · refine ⟨_, List.getElem?_concat_length, rfl, ?_⟩
      rw [State.invocations, List.filter_eq_nil_iff]
      intro v hv heq
      have hlt := h.known v hv
      simp only [decide_eq_true_eq] at heq
      omega
    · obtain ⟨x, hx, hrest⟩ := h.waiting w hw
      exact ⟨x, hold w.2 x hx, hrest⟩
  case covered =>
    intro w hw
    rcases List.mem_cons.mp (hwaiters.mem_iff.mp hw) with rfl | hw
    · exact ⟨_, htimeouts.mem_iff.mpr List.mem_cons_self, rfl⟩
    · obtain ⟨y, hy, heq⟩ := h.covered w hw
      exact ⟨y, htimeouts.mem_iff.mpr (List.mem_cons_of_mem _ hy), heq⟩
  case deadlines =>
    intro y hy
    rcases List.mem_cons.mp (htimeouts.mem_iff.mp hy) with rfl | hy
    · refine ⟨_, List.mem_append_right _ (List.mem_singleton_self _), rfl, ?_⟩
      exact (toNat_toMs_add ns aTimeoutMs).symm
    · obtain ⟨x, hx, hrest⟩ := h.deadlines y hy
      exact ⟨x, List.mem_append_left _ hx, hrest⟩
  case error => exact h.error
  case invoked =>
    intro i x hx hi
    have hnew := List.mem_map_of_mem (f := Prod.snd) (hwaiters.mem_iff.mpr List.mem_cons_self)
    have hi' : i ∉ s.waiter.waiters.map Prod.snd := by
      intro hmem
      exact hi ((hwaiters.map Prod.snd).mem_iff.mpr (List.mem_cons_of_mem _ hmem))
    have hne : i ≠ s.inserted.length := fun heq => hi (heq ▸ hnew)
    have hlt := (List.getElem?_eq_some_iff.mp hx).1
    simp only [waiterStep, List.length_append, List.length_singleton] at hlt
    rw [waiterStep, List.getElem?_append_left (by omega)] at hx
    exact h.invoked i x hx hi'
  case known =>
    intro v hv
    simp only [waiterStep, List.length_append, List.length_singleton]
    have hlt := h.known v hv
    omega

theorem firstCall_concat {s : State R E} {x : Inserted} (hx : x.begun ≤ s.calls.length)
    (c : UInt64 × R) :
    { s with calls := s.calls ++ [c] }.firstCall x =
      (s.firstCall x).or (if c.1 = x.serial then some c.2 else none) := by
  simp only [State.firstCall, List.drop_append_of_le_length hx, List.find?_append]
  cases (s.calls.drop x.begun).find? fun c => c.1 = x.serial with
  | some _ => rfl
  | none =>
      by_cases hc : c.1 = x.serial
      · simp [hc]
      · simp [hc]

/-- A call more, and no handler invoked: what was answered stays so. -/
theorem Tracked.calls {s : State R E} (h : Tracked s) (c : UInt64 × R) :
    Tracked { s with calls := s.calls ++ [c] } where
  keys := h.keys
  serials := h.serials
  begun x hx := by
    have hle := h.begun x hx
    simp only [List.length_append, List.length_singleton]
    omega
  waiting := h.waiting
  covered := h.covered
  deadlines := h.deadlines
  error := h.error
  invoked i x hx hi := by
    obtain ⟨v, hv, hjustified⟩ := h.invoked i x hx hi
    refine ⟨v, hv, ?_⟩
    unfold State.Justified at hjustified ⊢
    cases hout : v.outcome with
    | reply r =>
        simp only [hout] at hjustified ⊢
        rw [firstCall_concat (h.begun x (List.mem_of_getElem? hx)), hjustified, Option.some_or]
    | timedOut => simpa only [hout] using hjustified
    | failed error => simpa only [hout] using hjustified
  known := h.known

theorem Tracked.call {s : State R E} (h : Tracked s) (hfirst : Unanswered s) (aSerial : UInt64)
    (aResult : R) :
    Tracked (waiterStep s (.call aSerial aResult)) ∧
      Unanswered (waiterStep s (.call aSerial aResult)) := by
  have hcalls := h.calls (aSerial, aResult)
  have hother : ∀ w ∈ s.waiter.waiters, w.1 ≠ aSerial → ∀ x, s.inserted[w.2]? = some x →
      { s with calls := s.calls ++ [(aSerial, aResult)] }.firstCall x = none := by
    intro w hw hne x hx
    obtain ⟨y, hy, hserial, -⟩ := h.waiting w hw
    obtain rfl : y = x := Option.some.inj (hy.symm.trans hx)
    rw [firstCall_concat (h.begun y (List.mem_of_getElem? hx)), hfirst w hw y hx, Option.none_or,
      if_neg]
    exact fun heq => hne (hserial.symm.trans heq.symm)
  simp only [waiterStep, ReplyWaiter.call]
  split
  case h_1 hfind =>
    refine ⟨hcalls.after ⟨List.Perm.refl _, List.Sublist.refl _, fun _ hy => hy,
      fun _ _ _ hy _ => hy, rfl⟩ (fun v hv => absurd hv List.not_mem_nil), ?_⟩
    intro w hw
    exact hother w hw (lookup_eq_none hfind w hw)
  case h_2 sHandler hfind =>
    constructor
    · apply hcalls.after (takes_erase _ h.keys hfind)
      intro v hv x hx
      rw [List.mem_singleton.mp hv] at hx ⊢
      have hmem := lookup_mem hfind
      obtain ⟨y, hy, hserial, -⟩ := h.waiting _ hmem
      obtain rfl : y = x := Option.some.inj (hy.symm.trans hx)
      change State.firstCall _ y = some aResult
      rw [firstCall_concat (h.begun y (List.mem_of_getElem? hx)), hfirst _ hmem y hx,
        Option.none_or, if_pos hserial.symm]
    · intro w hw
      obtain ⟨hmem, hne⟩ := List.mem_filter.mp hw
      exact hother w hmem (bne_iff_ne.mp hne)

theorem Tracked.onTimer {s : State R E} (h : Tracked s) (ns : UInt64) :
    Tracked (waiterStep s (.onTimer ns)) ∧
      (waiterStep s (.onTimer ns)).waiter.waiters.Sublist s.waiter.waiters := by
  simp only [waiterStep, ReplyWaiter.onTimer]
  split
  case h_1 error herror =>
    refine ⟨h.after (takes_flushInt s.waiter error) ?_, List.nil_sublist _⟩
    intro v hv x _
    obtain ⟨w, _, rfl⟩ := List.mem_map.mp hv
    exact h.error error herror
  case h_2 =>
    obtain ⟨htakes, hout⟩ := takes_expire (R := R) (toMs ns) h.keys (fun _ hy => hy)
      (fun _ _ _ hy _ => hy)
    refine ⟨h.after htakes ?_, htakes.kept⟩
    intro v hv x hx
    obtain ⟨htimed, y, hy, hlt, hmem⟩ := hout v hv
    obtain ⟨z, hz, hserial, hdeadline⟩ := h.deadlines y hy
    obtain ⟨x', hx', hserial', -⟩ := h.waiting _ hmem
    obtain rfl : x' = x := Option.some.inj (hx'.symm.trans hx)
    -- the serial of the deadline belongs to one insert only
    obtain rfl : z = x' :=
      List.inj_on_of_nodup_map h.serials hz (List.mem_of_getElem? hx) (hserial.trans hserial'.symm)
    unfold State.Justified
    simp only [htimed]
    exact ⟨_, rfl, hdeadline ▸ hlt⟩

theorem Tracked.flush {s : State R E} (h : Tracked s) (aPtr : E) :
    Tracked (waiterStep s (.flush aPtr)) := by
  have herror : Tracked
      { s with flushed := some aPtr, waiter := { s.waiter with error := some aPtr } } :=
    { h with error := fun _ hsome => hsome }
  apply herror.after (takes_flushInt _ aPtr)
  intro v hv x _
  obtain ⟨w, _, rfl⟩ := List.mem_map.mp hv
  rfl

/-- The invariant after every operation. -/
theorem Tracked.step {s : State R E} {e : Event R E} (h : Tracked s ∧ Unanswered s)
    (hfresh : Fresh s e) : Tracked (waiterStep s e) ∧ Unanswered (waiterStep s e) := by
  obtain ⟨h, hfirst⟩ := h
  cases e with
  | insert aSerial aTimeoutMs ns =>
      refine ⟨h.insert hfresh, ?_⟩
      intro w hw x hx
      rcases List.mem_cons.mp ((h.insert_waiters hfresh aTimeoutMs ns).mem_iff.mp hw) with rfl | hw
      · rw [waiterStep, List.getElem?_concat_length, Option.some.injEq] at hx
        simp [← hx, State.firstCall, waiterStep]
      · obtain ⟨y, hy, -⟩ := h.waiting w hw
        have hlt := (List.getElem?_eq_some_iff.mp hy).1
        rw [waiterStep, List.getElem?_append_left hlt] at hx
        exact hfirst w hw x hx
  | call aSerial aResult => exact h.call hfirst aSerial aResult
  | onTimer ns =>
      obtain ⟨htracked, hkept⟩ := h.onTimer ns
      exact ⟨htracked, fun w hw => hfirst w (hkept.subset hw)⟩
  | flush aPtr => exact ⟨h.flush aPtr, fun w hw => absurd hw List.not_mem_nil⟩
  | reset => exact ⟨{ h with error := fun _ herror => by cases herror }, hfirst⟩

/-- Whatever is inserted under fresh serials, called, timed out, flushed and reset: every
waiting serial has a deadline, and a handler that waits no more was invoked exactly
once, with the first reply, after its deadline, or with the error of a flush. -/
theorem replyWaiter_exactlyOnce (es : List (Event R E)) (hes : Meets waiterStep Fresh {} es) :
    ExactlyOnce (run waiterStep ({} : State R E) es) := by
  have hrun : Tracked (run waiterStep ({} : State R E) es) ∧
      Unanswered (run waiterStep ({} : State R E) es) := by
    apply run_invariant (I := fun s => Tracked s ∧ Unanswered s) (fun _ _ => Tracked.step) _ hes
    exact ⟨Tracked.start, fun w hw => absurd hw List.not_mem_nil⟩
  exact hrun.1.exactlyOnce

/-- A reply, a deadline that passes, a reply that is too late, and an error of the
connection; times in nanoseconds. -/
def mixedRun : List (Event ℕ ℕ) :=
  [.insert 7 10 5000000, .insert 3 2 5000000, .insert 5 90 6000000, .call 7 70, .onTimer 9000000,
    .call 3 30, .flush 1, .insert 6 4 9000000, .onTimer 9000000]

theorem replyWaiter_exactlyOnce_mixed :
    Meets waiterStep Fresh ({} : State ℕ ℕ) mixedRun ∧
      ExactlyOnce (run waiterStep ({} : State ℕ ℕ) mixedRun) ∧
      (run waiterStep ({} : State ℕ ℕ) mixedRun).log.map (fun v => (v.handler, v.outcome)) =
        [(0, .reply 70), (1, .timedOut), (2, .failed 1), (3, .failed 1)] :=
  ⟨by decide, replyWaiter_exactlyOnce mixedRun (by decide), by decide⟩

end Stuff.TntReplyWaiter
