import Stuff.ContainerRequestQueue
import Stuff.Holders

/-!
# Transfers side by side

`Curl::Multi` starts a request at once if there is room and nobody waits, and else puts it into a
queue where it may expire. One thread sees what is done and starts what waits, another one calls the
callbacks. Whoever starts a request looks at the number of active ones before, and there may be
steps of others in between. A request that the library does not take stays among the active ones.
The pool of the handles has no lock. Calls of it that overlap are undefined, and there are none
here: each of them is one step.
-/
namespace Stuff.CurlMulti
open ContainerRequestQueue EventRuns Holders

/-- What the promise has. -/
inductive Result
  | value
  | error (rc : ℕ)
  | timeout
deriving DecidableEq, Repr

def Result.ofRc (rc : ℕ) : Result := if rc = 0 then .value else .error rc

/-- An entry of `m_Active`, and whether its handle was added to the transfers. -/
structure Active where
  easy : ℕ
  call : ℕ
  added : Bool
deriving DecidableEq, Repr

/-- Where a call is in `operator()`. -/
inductive Caller
  | counts (call : ℕ)
  | looks (call : ℕ)
  | queues (call : ℕ)
  | starts (call : ℕ)
  | emplaces (call easy : ℕ)
  | operates (call easy : ℕ)
  | returned
  | threw
deriving DecidableEq, Repr

/-- Where the thread of the transfers is: in `notify`, in `startWaiting`, or in `on_timer`. -/
inductive Loop
  | waits
  | notifies (call easy rc : ℕ)
  | counts
  | looks
  | gets
  | starts (call : ℕ)
  | emplaces (call easy : ℕ)
  | operates (call easy : ℕ)
  | expires (calls : List ℕ)
  | terminated
deriving DecidableEq, Repr

structure Multi where
  max_connections : ℕ
  queue_timeout_ms : UInt64
  callers : List Caller := []
  loop : Loop := .waits
  m_Active : List Active := []
  m_Waiting : RequestQueue ℕ := {}
  m_Next : List (ℕ × Result) := []
  m_Pool : List ℕ := []
  /-- The number of handles that were made. -/
  handles : ℕ := 0
  /-- The calls that the library took. -/
  started : List ℕ := []
  called : List (ℕ × Result) := []

inductive Event
  | call
  | caller (i : ℕ) (sNow : UInt64) (taken : Bool)
  | done (easy rc : ℕ)
  | loop (sNow : UInt64) (taken : Bool)
  | timer (sNow : UInt64)
  | cleanup (stale : ℕ)
  | next
deriving DecidableEq, Repr

namespace Multi

def setCaller (s : Multi) (i : ℕ) (pc : Caller) : Multi := { s with callers := s.callers.set i pc }

/-- `m_Pool.get()`: the handle that was put there last, or a new one. -/
def getEasy (s : Multi) : ℕ × Multi :=
  match s.m_Pool.getLast? with
  | some easy => (easy, { s with m_Pool := s.m_Pool.dropLast })
  | none => (s.handles, { s with handles := s.handles + 1 })

/-- `m_Active.emplace`. A key that is there already is not emplaced. -/
def emplace (s : Multi) (call easy : ℕ) : Multi :=
  if s.m_Active.any fun a => a.easy = easy then s
  else { s with m_Active := s.m_Active ++ [⟨easy, call, false⟩] }

/-- `sEasy->operator()(sRequest)`. -/
def take (s : Multi) (call easy : ℕ) : Multi :=
  { s with
    m_Active := s.m_Active.map fun a => if a.easy = easy then { a with added := true } else a
    started := s.started ++ [call] }

def caller (s : Multi) (i : ℕ) (sNow : UInt64) (taken : Bool) : Caller → Multi
  | .counts call =>
      s.setCaller i (if s.m_Active.length < s.max_connections then .looks call else .queues call)
  | .looks call => s.setCaller i (if s.m_Waiting.store.isEmpty then .starts call else .queues call)
  | .queues call =>
      { s.setCaller i .returned with
        m_Waiting := (s.m_Waiting.insert call s.queue_timeout_ms sNow).2 }
  | .starts call =>
      let x := s.getEasy
      x.2.setCaller i (.emplaces call x.1)
  | .emplaces call easy => (s.emplace call easy).setCaller i (.operates call easy)
  | .operates call easy =>
      if taken then (s.take call easy).setCaller i .returned else s.setCaller i .threw
  | .returned => s
  | .threw => s

/-- `notify`, up to where the request is its own. -/
def done (s : Multi) (easy rc : ℕ) : Multi :=
  match s.loop, s.m_Active.find? fun a => a.easy = easy with
  | .waits, some a =>
      if a.added then
        { s with
          m_Active := s.m_Active.eraseP fun a => a.easy = easy
          loop := .notifies a.call easy rc }
      else s
  | _, _ => s

/-- An exception of the thread ends the program. -/
def goes (s : Multi) (sNow : UInt64) (taken : Bool) : Multi :=
  match s.loop with
  | .waits => s
  | .notifies call easy rc =>
      { s with
        m_Pool := s.m_Pool ++ [easy]
        m_Next := s.m_Next ++ [(call, .ofRc rc)]
        loop := .counts }
  | .counts =>
      { s with loop := if s.m_Active.length < s.max_connections then .looks else .waits }
  | .looks => { s with loop := if s.m_Waiting.store.isEmpty then .waits else .gets }
  | .gets =>
      let x := s.m_Waiting.get sNow
      { s with
        m_Next := s.m_Next ++ x.1.map fun r => (r.value, .timeout)
        m_Waiting := x.2.2
        loop :=
          match x.2.1 with
          | some sNew => .starts sNew.value
          | none => .counts }
  | .starts call =>
      let x := s.getEasy
      { x.2 with loop := .emplaces call x.1 }
  | .emplaces call easy => { s.emplace call easy with loop := .operates call easy }
  | .operates call easy =>
      if taken then { s.take call easy with loop := .counts } else { s with loop := .terminated }
  | .expires [] => { s with loop := .waits }
  | .expires (call :: calls) =>
      { s with m_Next := s.m_Next ++ [(call, .timeout)], loop := .expires calls }
  | .terminated => s

def onTimer (s : Multi) (sNow : UInt64) : Multi :=
  match s.loop with
  | .waits =>
      let x := s.m_Waiting.onTimer sNow
      { s with m_Waiting := x.2, loop := .expires (x.1.map Rec.value) }
  | _ => s

/-- The handler of `m_Next`. -/
def next (s : Multi) : Multi :=
  match s.m_Next with
  | [] => s
  | x :: m_Next => { s with m_Next := m_Next, called := s.called ++ [x] }

def step (s : Multi) : Event → Multi
  | .call => { s with callers := s.callers ++ [.counts s.callers.length] }
  | .caller i sNow taken =>
      match s.callers[i]? with
      | none => s
      | some pc => s.caller i sNow taken pc
  | .done easy rc => s.done easy rc
  | .loop sNow taken => s.goes sNow taken
  | .timer sNow => s.onTimer sNow
  | .cleanup stale => { s with m_Pool := s.m_Pool.drop stale }
  | .next => s.next

end Multi

/-! ## Where a call is -/

def Caller.held : Caller → List ℕ
  | .counts call => [call]
  | .looks call => [call]
  | .queues call => [call]
  | .starts call => [call]
  | .emplaces call _ => [call]
  | _ => []

def Loop.held : Loop → List ℕ
  | .notifies call _ _ => [call]
  | .starts call => [call]
  | .emplaces call _ => [call]
  | .expires calls => calls
  | _ => []

/-- The calls that are about to be added to the transfers, with their handles. -/
def Caller.operating : Caller → List Active
  | .operates call easy => [⟨easy, call, false⟩]
  | _ => []

def Loop.operating : Loop → List Active
  | .operates call easy => [⟨easy, call, false⟩]
  | _ => []

def Loop.notified : Loop → List ℕ
  | .notifies call _ _ => [call]
  | _ => []

/-- A handle that is in no table. -/
def Caller.easy : Caller → List ℕ
  | .emplaces _ easy => [easy]
  | _ => []

def Loop.easy : Loop → List ℕ
  | .notifies _ easy _ => [easy]
  | .emplaces _ easy => [easy]
  | _ => []

/-- The calls with a result of the library. -/
def results (l : List (ℕ × Result)) : List ℕ :=
  (l.filter fun x => x.2 ≠ .timeout).map Prod.fst

namespace Multi

/-- All places of a call. -/
def places (s : Multi) : List ℕ :=
  held Caller.held s.callers ++ s.loop.held ++ s.m_Active.map Active.call ++
    s.m_Waiting.store.map Rec.value ++ s.m_Next.map Prod.fst ++ s.called.map Prod.fst

/-- All places of a call that was started. -/
def taken (s : Multi) : List ℕ :=
  (s.m_Active.filter Active.added).map Active.call ++
    s.loop.notified ++ results s.m_Next ++ results s.called

/-- All places of a handle. -/
def easies (s : Multi) : List ℕ :=
  s.m_Active.map Active.easy ++ held Caller.easy s.callers ++ s.loop.easy ++ s.m_Pool

def operating (s : Multi) : List Active := held Caller.operating s.callers ++ s.loop.operating

structure Inv (s : Multi) : Prop where
  places : s.places.Perm (List.range s.callers.length)
  taken : s.taken.Perm s.started
  easies : s.easies.Nodup
  made : ∀ easy ∈ s.easies, easy < s.handles
  operating : ∀ a ∈ s.operating, a ∈ s.m_Active
  once : s.operating.Nodup
  waiting : s.m_Waiting.Ordered

section Lemmas

theorem find?_perm {α : Type} {p : α → Bool} {l : List α} {a : α} (h : l.find? p = some a) :
    (a :: l.eraseP p).Perm l := by
  induction l with
  | nil => cases h
  | cons b l ih =>
      rw [List.find?_cons] at h
      cases hb : p b with
      | true =>
          rw [hb] at h
          cases h
          rw [List.eraseP_cons_of_pos hb]
      | false =>
          rw [hb] at h
          rw [List.eraseP_cons_of_neg (by rw [hb]; exact Bool.false_ne_true)]
          exact (List.Perm.swap b a _).trans ((ih h).cons b)

/-- An entry of `m_Active` is known by its handle. -/
theorem eq_of_easy {l : List Active} (h : (l.map Active.easy).Nodup) {a b : Active} (ha : a ∈ l)
    (hb : b ∈ l) (heq : a.easy = b.easy) : a = b :=
  List.inj_on_of_nodup_map h ha hb heq

/-- The entry of a handle that is added to the transfers. -/
theorem count_added {l : List Active} {call easy : ℕ} (h : (l.map Active.easy).Nodup)
    (hmem : ⟨easy, call, false⟩ ∈ l) (x : ℕ) :
    (((l.map fun a => if a.easy = easy then { a with added := true } else a).filter
      Active.added).map Active.call).count x =
      ((l.filter Active.added).map Active.call).count x + [call].count x := by
  induction l with
  | nil => cases hmem
  | cons a l ih =>
      rw [List.map_cons, List.nodup_cons] at h
      rcases List.mem_cons.mp hmem with rfl | hmem
      · have hrest :
            (l.map fun a => if a.easy = easy then { a with added := true } else a) = l := by
          conv_rhs => rw [← List.map_id l]
          apply List.map_congr_left
          intro b hb
          have hne : b.easy ≠ easy := fun heq => h.1 (List.mem_map.mpr ⟨b, hb, heq⟩)
          rw [if_neg hne]
          rfl
        rw [List.map_cons, if_pos rfl, hrest, List.filter_cons_of_pos rfl,
          List.filter_cons_of_neg Bool.false_ne_true, List.map_cons, List.count_cons,
          List.count_singleton]
      · have hne : a.easy ≠ easy := fun heq => h.1 (List.mem_map.mpr ⟨_, hmem, heq.symm⟩)
        have hnext := ih h.2 hmem
        rw [List.map_cons, if_neg hne]
        cases hadded : a.added with
        | true =>
            rw [List.filter_cons_of_pos hadded, List.filter_cons_of_pos hadded, List.map_cons,
              List.map_cons, List.count_cons, List.count_cons, hnext]
            omega
        | false =>
            have hneg : ¬ a.added = true := by rw [hadded]; exact Bool.false_ne_true
            rw [List.filter_cons_of_neg hneg, List.filter_cons_of_neg hneg, hnext]

theorem results_append (l l' : List (ℕ × Result)) :
    results (l ++ l') = results l ++ results l' := by
  rw [results, List.filter_append, List.map_append, results, results]

theorem results_timeouts (calls : List ℕ) :
    results (calls.map fun call => (call, .timeout)) = [] := by
  rw [results, List.filter_map, List.map_map]
  simp

theorem results_ofRc (call rc : ℕ) : results [(call, .ofRc rc)] = [call] := by
  unfold Result.ofRc results
  split_ifs <;> rfl

variable {s : Multi}

theorem Inv.keys (h : s.Inv) : (s.m_Active.map Active.easy).Nodup :=
  (List.nodup_append.mp (List.nodup_append.mp (List.nodup_append.mp h.easies).1).1).1

/-- The handle from the pool is in no other place. -/
theorem getEasy_eq (h : s.Inv) : ∃ (easy : ℕ) (m_Pool : List ℕ) (handles : ℕ),
    s.getEasy = (easy, { s with m_Pool := m_Pool, handles := handles }) ∧
    (easy :: Multi.easies { s with m_Pool := m_Pool }).Nodup ∧
    ∀ e ∈ easy :: Multi.easies { s with m_Pool := m_Pool }, e < handles := by
  cases hlast : s.m_Pool.getLast? with
  | none =>
      have hnot : s.handles ∉ s.easies := fun hmem => Nat.lt_irrefl _ (h.made _ hmem)
      refine ⟨s.handles, s.m_Pool, s.handles + 1, by simp only [getEasy, hlast],
        List.nodup_cons.mpr ⟨hnot, h.easies⟩, fun e he => ?_⟩
      rcases List.mem_cons.mp he with heq | he
      · exact heq ▸ Nat.lt_succ_self _
      · exact Nat.lt_succ_of_lt (h.made e he)
  | some easy =>
      have hpool : s.m_Pool = s.m_Pool.dropLast ++ [easy] := by
        obtain ⟨l, hl⟩ := List.getLast?_eq_some_iff.mp hlast
        rw [hl, List.dropLast_concat]
      have hperm : s.easies.Perm (easy :: Multi.easies { s with m_Pool := s.m_Pool.dropLast }) := by
        unfold Multi.easies
        conv_lhs => rw [hpool]
        rw [← List.append_assoc]
        exact List.perm_append_singleton _ _
      exact ⟨easy, s.m_Pool.dropLast, s.handles, by simp only [getEasy, hlast],
        hperm.nodup_iff.mp h.easies, fun e he => h.made e (hperm.mem_iff.mpr he)⟩

/-- A handle that is in no table is emplaced. -/
theorem emplace_eq (h : s.Inv) (call : ℕ) {easy : ℕ}
    (hmem : easy ∈ held Caller.easy s.callers ++ s.loop.easy) :
    s.emplace call easy = { s with m_Active := s.m_Active ++ [⟨easy, call, false⟩] } := by
  have hnodup := h.easies
  unfold Multi.easies at hnodup
  rw [List.append_assoc, List.append_assoc, ← List.append_assoc (held Caller.easy s.callers)]
    at hnodup
  have hnot : ¬ (s.m_Active.any fun a => a.easy = easy) = true := by
    intro hany
    obtain ⟨a, ha, heq⟩ := List.any_eq_true.mp hany
    exact (List.nodup_append.mp hnodup).2.2 a.easy (List.mem_map_of_mem ha) easy
      (List.mem_append_left _ hmem) (of_decide_eq_true heq)
  rw [emplace, if_neg hnot]

/-- A place in `operator()` without a handle. -/
theorem easies_setCaller {i : ℕ} {pc pc' : Caller} (hi : s.callers[i]? = some pc)
    (hpc : pc.easy = []) (hpc' : pc'.easy = []) : (s.setCaller i pc').easies.Perm s.easies := by
  have hset := held_set_perm hi Caller.easy pc'
  rw [hpc, hpc', List.append_nil, List.append_nil] at hset
  exact ((hset.append_left _).append_right _).append_right _

/-! ### The calls -/

/-- Nothing but the place of a call in `operator()` changes. -/
theorem Inv.moves (h : s.Inv) {i : ℕ} {pc pc' : Caller} (hi : s.callers[i]? = some pc)
    (hheld : pc'.held = pc.held) (hpc : pc.operating = []) (hpc' : pc'.operating = [])
    (heasy : pc.easy = []) (heasy' : pc'.easy = []) : (s.setCaller i pc').Inv := by
  have hset := held_set_perm hi Caller.held pc'
  have hops := held_set_perm hi Caller.operating pc'
  rw [hheld, List.perm_append_right_iff] at hset
  rw [hpc, hpc', List.append_nil, List.append_nil] at hops
  constructor
  case places =>
    change Multi.places _ |>.Perm (List.range (s.callers.set i pc').length)
    rw [List.length_set]
    refine List.Perm.trans ?_ h.places
    unfold Multi.places
    exact ((((hset.append_right _).append_right _).append_right _).append_right _).append_right _
  case taken => exact h.taken
  case easies => exact (easies_setCaller hi heasy heasy').nodup_iff.mpr h.easies
  case made => exact fun e he => h.made e ((easies_setCaller hi heasy heasy').mem_iff.mp he)
  case operating => exact fun a ha => h.operating a ((hops.append_right _).mem_iff.mp ha)
  case once => exact (hops.append_right _).nodup_iff.mpr h.once
  case waiting => exact h.waiting

theorem Inv.queues (h : s.Inv) {i call : ℕ} (hi : s.callers[i]? = some (.queues call))
    (sNow : UInt64) :
    Inv { s.setCaller i .returned with
      m_Waiting := (s.m_Waiting.insert call s.queue_timeout_ms sNow).2 } := by
  have hops := held_set_perm hi Caller.operating .returned
  simp only [Caller.operating, List.append_nil] at hops
  constructor
  case places =>
    change Multi.places _ |>.Perm (List.range (s.callers.set i _).length)
    rw [List.length_set]
    refine List.Perm.trans ?_ h.places
    rw [List.perm_iff_count]
    intro x
    have hset := count_held_set hi Caller.held .returned x
    simp only [Multi.places, Multi.setCaller, RequestQueue.insert, List.count_append,
      List.map_append, List.map_cons, List.map_nil, Caller.held, List.count_nil] at hset ⊢
    omega
  case taken => exact h.taken
  case easies => exact (easies_setCaller hi rfl rfl).nodup_iff.mpr h.easies
  case made => exact fun e he => h.made e ((easies_setCaller hi rfl rfl).mem_iff.mp he)
  case operating => exact fun a ha => h.operating a ((hops.append_right _).mem_iff.mp ha)
  case once => exact (hops.append_right _).nodup_iff.mpr h.once
  case waiting => exact h.waiting.insert call s.queue_timeout_ms sNow

/-- A call that is in one place is in no other. -/
theorem Inv.not_active (h : s.Inv) {call : ℕ}
    (hcall : call ∈ held Caller.held s.callers ++ s.loop.held) :
    ∀ a ∈ s.m_Active, a.call ≠ call := by
  have hnodup : s.places.Nodup := h.places.nodup_iff.mpr List.nodup_range
  intro a ha heq
  unfold Multi.places at hnodup
  rw [List.append_assoc, List.append_assoc, List.append_assoc] at hnodup
  exact (List.nodup_append.mp hnodup).2.2 call hcall a.call
    (List.mem_append_left _ (List.mem_map_of_mem ha)) heq.symm

theorem Inv.starts (h : s.Inv) {i call : ℕ} (hi : s.callers[i]? = some (.starts call)) :
    (s.getEasy.2.setCaller i (.emplaces call s.getEasy.1)).Inv := by
  obtain ⟨easy, m_Pool, handles, heq, heasies, hmade⟩ := getEasy_eq h
  rw [heq]
  have hset := held_set_perm hi Caller.held (.emplaces call easy)
  have hops := held_set_perm hi Caller.operating (.emplaces call easy)
  have heasy := held_set_perm hi Caller.easy (.emplaces call easy)
  simp only [Caller.held, Caller.operating, Caller.easy, List.append_nil,
    List.perm_append_right_iff] at hset hops heasy
  have hperm : (Multi.easies { s with
      m_Pool := m_Pool, callers := s.callers.set i (.emplaces call easy) }).Perm
      (easy :: Multi.easies { s with m_Pool := m_Pool }) := by
    rw [List.perm_iff_count]
    intro x
    have hcount := heasy.count_eq x
    simp only [Multi.easies, List.count_append, List.count_cons, List.count_nil] at hcount ⊢
    omega
  constructor
  case places =>
    change Multi.places _ |>.Perm (List.range (s.callers.set i _).length)
    rw [List.length_set]
    refine List.Perm.trans ?_ h.places
    unfold Multi.places
    exact ((((hset.append_right _).append_right _).append_right _).append_right _).append_right _
  case taken => exact h.taken
  case easies => exact hperm.nodup_iff.mpr heasies
  case made => exact fun e he => hmade e (hperm.mem_iff.mp he)
  case operating => exact fun a ha => h.operating a ((hops.append_right _).mem_iff.mp ha)
  case once => exact (hops.append_right _).nodup_iff.mpr h.once
  case waiting => exact h.waiting

theorem Inv.emplaces (h : s.Inv) {i call easy : ℕ}
    (hi : s.callers[i]? = some (.emplaces call easy)) :
    ((s.emplace call easy).setCaller i (.operates call easy)).Inv := by
  rw [emplace_eq h call (List.mem_append_left _ (mem_held hi List.mem_cons_self))]
  have hops := held_set_perm hi Caller.operating (.operates call easy)
  have heasy := held_set_perm hi Caller.easy (.operates call easy)
  simp only [Caller.operating, Caller.easy, List.append_nil] at hops heasy
  have hperm : (held Caller.operating (s.callers.set i (.operates call easy)) ++
      s.loop.operating).Perm (⟨easy, call, false⟩ :: s.operating) := by
    refine (hops.append_right _).trans ?_
    rw [List.append_assoc]
    exact List.perm_middle
  have heasies : ((s.m_Active ++ [Active.mk easy call false]).map Active.easy ++
      held Caller.easy (s.callers.set i (.operates call easy)) ++ s.loop.easy ++ s.m_Pool).Perm
      s.easies := by
    refine ((List.Perm.append_right _ ?_).append_right _)
    rw [List.map_append, List.map_singleton, List.append_assoc]
    exact (List.perm_append_comm.trans heasy).append_left _
  have hnew : ∀ a ∈ s.operating, a ≠ ⟨easy, call, false⟩ := by
    intro a ha heq'
    have hcall : call ∈ held Caller.held s.callers := mem_held hi List.mem_cons_self
    exact h.not_active (List.mem_append_left _ hcall) a (h.operating a ha) (by rw [heq'])
  constructor
  case places =>
    change Multi.places _ |>.Perm (List.range (s.callers.set i _).length)
    rw [List.length_set]
    refine List.Perm.trans ?_ h.places
    rw [List.perm_iff_count]
    intro x
    have hset := count_held_set hi Caller.held (.operates call easy) x
    simp only [Multi.places, Multi.setCaller, List.count_append, List.map_append, List.map_cons,
      List.map_nil, Caller.held, List.count_nil] at hset ⊢
    omega
  case taken =>
    refine List.Perm.trans ?_ h.taken
    simp only [Multi.taken, Multi.setCaller, List.filter_append, List.map_append]
    rw [List.filter_cons_of_neg Bool.false_ne_true, List.filter_nil, List.map_nil, List.append_nil]
  case easies => exact heasies.nodup_iff.mpr h.easies
  case made => exact fun e he => h.made e (heasies.mem_iff.mp he)
  case operating =>
    intro a ha
    rcases List.mem_cons.mp (hperm.mem_iff.mp ha) with heq' | ha
    · exact List.mem_append_right _ (heq' ▸ List.mem_cons_self)
    · exact List.mem_append_left _ (h.operating a ha)
  case once =>
    exact hperm.nodup_iff.mpr (List.nodup_cons.mpr ⟨fun hmem => hnew _ hmem rfl, h.once⟩)
  case waiting => exact h.waiting

/-- What the other threads are about to add is still there. -/
structure Takes (s : Multi) (call easy : ℕ) (ops : List Active) : Prop where
  calls : (s.take call easy).m_Active.map Active.call = s.m_Active.map Active.call
  easies : (s.take call easy).m_Active.map Active.easy = s.m_Active.map Active.easy
  added : ∀ x, (((s.take call easy).m_Active.filter Active.added).map Active.call).count x =
    ((s.m_Active.filter Active.added).map Active.call).count x + [call].count x
  operating : ∀ a ∈ ops, a ∈ (s.take call easy).m_Active
  once : ops.Nodup

theorem Inv.takes (h : s.Inv) {call easy : ℕ} {ops : List Active}
    (hops : s.operating.Perm (⟨easy, call, false⟩ :: ops)) : Takes s call easy ops := by
  have hmem := h.operating _ (hops.mem_iff.mpr List.mem_cons_self)
  have hnodup := List.nodup_cons.mp (hops.nodup_iff.mp h.once)
  constructor
  case calls =>
    rw [take, List.map_map]
    apply List.map_congr_left
    intro a _
    simp only [Function.comp]
    split_ifs <;> rfl
  case easies =>
    rw [take, List.map_map]
    apply List.map_congr_left
    intro a _
    simp only [Function.comp]
    split_ifs <;> rfl
  case added => exact fun x => count_added h.keys hmem x
  case operating =>
    intro a ha
    have hactive := h.operating a (hops.mem_iff.mpr (List.mem_cons_of_mem _ ha))
    have hne : a.easy ≠ easy := by
      intro heq
      have hsame := eq_of_easy h.keys hactive hmem heq
      exact hnodup.1 (hsame ▸ ha)
    exact List.mem_map.mpr ⟨a, hactive, if_neg hne⟩
  case once => exact hnodup.2

theorem Inv.returns (h : s.Inv) {i call easy : ℕ}
    (hi : s.callers[i]? = some (.operates call easy)) :
    ((s.take call easy).setCaller i .returned).Inv := by
  have hset := held_set_perm hi Caller.operating .returned
  simp only [Caller.operating, List.append_nil] at hset
  have hops : s.operating.Perm (⟨easy, call, false⟩ ::
      (held Caller.operating (s.callers.set i .returned) ++ s.loop.operating)) := by
    refine (hset.symm.append_right _).trans ?_
    rw [List.append_assoc]
    exact List.perm_middle
  have htakes := h.takes hops
  have heasies : ((s.take call easy).setCaller i .returned).easies.Perm s.easies := by
    have hsame : (s.setCaller i .returned).easies.Perm s.easies := easies_setCaller hi rfl rfl
    unfold Multi.easies at hsame ⊢
    change ((s.take call easy).m_Active.map Active.easy ++ _ ++ _ ++ _).Perm _
    rw [htakes.easies]
    exact hsame
  constructor
  case places =>
    change Multi.places _ |>.Perm (List.range (s.callers.set i _).length)
    rw [List.length_set]
    refine List.Perm.trans ?_ h.places
    rw [List.perm_iff_count]
    intro x
    have hheld := count_held_set hi Caller.held .returned x
    have hcalls := htakes.calls
    simp only [Multi.places, Multi.setCaller, List.count_append, Caller.held, List.count_nil]
      at hheld ⊢
    rw [hcalls]
    change _ + (s.loop.held).count x + _ + _ + (s.m_Next.map Prod.fst).count x + _ = _
    simp only [take]
    omega
  case taken =>
    rw [List.perm_iff_count]
    intro x
    have hadded := htakes.added x
    have htaken := List.perm_iff_count.mp h.taken x
    simp only [Multi.taken, Multi.setCaller, List.count_append] at htaken hadded ⊢
    rw [hadded]
    simp only [take, List.count_append]
    omega
  case easies => exact heasies.nodup_iff.mpr h.easies
  case made => exact fun e he => h.made e (heasies.mem_iff.mp he)
  case operating => exact htakes.operating
  case once => exact htakes.once
  case waiting => exact h.waiting

theorem Inv.threw (h : s.Inv) {i call easy : ℕ}
    (hi : s.callers[i]? = some (.operates call easy)) : (s.setCaller i .threw).Inv := by
  have hset := held_set_perm hi Caller.held .threw
  have hops := held_set_perm hi Caller.operating .threw
  simp only [Caller.held, Caller.operating, List.append_nil] at hset hops
  have hsub : ∀ a ∈ (s.setCaller i .threw).operating, a ∈ s.operating := by
    intro a ha
    rcases List.mem_append.mp ha with ha | ha
    · exact List.mem_append_left _ (hops.mem_iff.mp (List.mem_append_left _ ha))
    · exact List.mem_append_right _ ha
  constructor
  case places =>
    change Multi.places _ |>.Perm (List.range (s.callers.set i _).length)
    rw [List.length_set]
    refine List.Perm.trans ?_ h.places
    unfold Multi.places
    exact ((((hset.append_right _).append_right _).append_right _).append_right _).append_right _
  case taken => exact h.taken
  case easies => exact (easies_setCaller hi rfl rfl).nodup_iff.mpr h.easies
  case made => exact fun e he => h.made e ((easies_setCaller hi rfl rfl).mem_iff.mp he)
  case operating => exact fun a ha => h.operating a (hsub a ha)
  case once =>
    have hperm : s.operating.Perm (⟨easy, call, false⟩ :: (s.setCaller i .threw).operating) := by
      refine (hops.symm.append_right _).trans ?_
      rw [List.append_assoc]
      exact List.perm_middle
    exact (List.nodup_cons.mp (hperm.nodup_iff.mp h.once)).2
  case waiting => exact h.waiting

theorem Inv.caller (h : s.Inv) {i : ℕ} {pc : Caller} (hi : s.callers[i]? = some pc)
    (sNow : UInt64) (taken : Bool) : (s.caller i sNow taken pc).Inv := by
  cases pc with
  | counts call =>
      simp only [Multi.caller]
      split_ifs
      · exact h.moves hi rfl rfl rfl rfl rfl
      · exact h.moves hi rfl rfl rfl rfl rfl
  | looks call =>
      simp only [Multi.caller]
      split_ifs
      · exact h.moves hi rfl rfl rfl rfl rfl
      · exact h.moves hi rfl rfl rfl rfl rfl
  | queues call => exact h.queues hi sNow
  | starts call => exact h.starts hi
  | emplaces call easy => exact h.emplaces hi
  | operates call easy =>
      simp only [Multi.caller]
      split_ifs
      · exact h.returns hi
      · exact h.threw hi
  | returned => exact h
  | threw => exact h

/-! ### The thread of the transfers -/

/-- What the thread has, apart from where it is. -/
def Loop.load (pc : Loop) : List ℕ × List ℕ × List ℕ × List Active :=
  (pc.held, pc.notified, pc.easy, pc.operating)

/-- The thread goes on with what it has. -/
theorem Inv.goesOn (h : s.Inv) {pc : Loop} (hload : Loop.load pc = Loop.load s.loop) :
    Inv { s with loop := pc } := by
  simp only [Loop.load, Prod.mk.injEq] at hload
  obtain ⟨hheld, hnotified, heasy, hoperating⟩ := hload
  constructor
  case places =>
    have hplaces := h.places
    unfold Multi.places at hplaces ⊢
    dsimp only
    rwa [hheld]
  case taken =>
    have htaken := h.taken
    unfold Multi.taken at htaken ⊢
    dsimp only
    rwa [hnotified]
  case easies =>
    have heasies := h.easies
    unfold Multi.easies at heasies ⊢
    dsimp only
    rwa [heasy]
  case made =>
    have hmade := h.made
    unfold Multi.easies at hmade ⊢
    dsimp only
    rwa [heasy]
  case operating =>
    have hops := h.operating
    unfold Multi.operating at hops ⊢
    dsimp only
    rwa [hoperating]
  case once =>
    have honce := h.once
    unfold Multi.operating at honce ⊢
    dsimp only
    rwa [hoperating]
  case waiting => exact h.waiting

theorem Inv.notifies (h : s.Inv) {call easy rc : ℕ} (hloop : s.loop = .notifies call easy rc) :
    Inv { s with
      m_Pool := s.m_Pool ++ [easy]
      m_Next := s.m_Next ++ [(call, .ofRc rc)]
      loop := .counts } := by
  have hperm : (s.m_Active.map Active.easy ++ held Caller.easy s.callers ++ [] ++
      (s.m_Pool ++ [easy])).Perm s.easies := by
    rw [Multi.easies, hloop, List.append_nil, List.append_assoc _ (Loop.easy _)]
    exact (List.perm_append_comm).append_left _
  have hoperating : s.loop.operating = [] := by rw [hloop]; rfl
  constructor
  case places =>
    refine List.Perm.trans ?_ h.places
    rw [List.perm_iff_count]
    intro x
    simp only [Multi.places, hloop, Loop.held, List.count_append, List.map_append, List.map_cons,
      List.map_nil, List.count_nil]
    omega
  case taken =>
    refine List.Perm.trans ?_ h.taken
    rw [List.perm_iff_count]
    intro x
    simp only [Multi.taken, hloop, Loop.notified, List.count_append, results_append, results_ofRc,
      List.count_nil]
    omega
  case easies => exact hperm.nodup_iff.mpr h.easies
  case made => exact fun e he => h.made e (hperm.mem_iff.mp he)
  case operating =>
    have hops := h.operating
    rw [Multi.operating, hoperating] at hops
    exact hops
  case once =>
    have honce := h.once
    rw [Multi.operating, hoperating] at honce
    exact honce
  case waiting => exact h.waiting

theorem Inv.gets (h : s.Inv) (hloop : s.loop = .gets) (sNow : UInt64) : (s.goes sNow true).Inv := by
  obtain ⟨hsplit, -, -⟩ := getLoop_spec sNow s.m_Waiting.store
  have hrest := h.waiting.get sNow
  simp only [RequestQueue.get] at hrest
  simp only [goes, hloop, RequestQueue.get]
  generalize RequestQueue.getLoop sNow s.m_Waiting.store = x at hsplit hrest
  obtain ⟨old, sNew, rest⟩ := x
  have hvalues : old.map (Prod.fst ∘ fun r => (r.value, Result.timeout)) = old.map Rec.value := rfl
  have hresults : results (old.map fun r => (r.value, Result.timeout)) = [] := by
    have htimeouts := results_timeouts (old.map Rec.value)
    rwa [List.map_map] at htimeouts
  have hplaces := h.places
  have htaken := h.taken
  have heasies := h.easies
  have hmade := h.made
  have hops := h.operating
  have honce := h.once
  simp only [Multi.places, Multi.taken, Multi.operating, hloop, hsplit] at hplaces htaken hops honce
  simp only [Multi.easies, hloop] at heasies hmade
  constructor
  case places =>
    refine List.Perm.trans ?_ hplaces
    rw [List.perm_iff_count]
    intro x
    cases sNew with
    | none =>
        simp only [Multi.places, Loop.held, List.count_append, List.map_append, List.map_map,
          Option.toList_none, List.count_nil, List.map_nil, hvalues]
        omega
    | some r =>
        simp only [Multi.places, Loop.held, List.count_append, List.map_append, List.map_map,
          Option.toList_some, List.map_cons, List.count_nil, List.map_nil, hvalues]
        omega
  case taken =>
    simp only [Multi.taken]
    rw [results_append, hresults, List.append_nil]
    cases sNew <;> exact htaken
  case easies => cases sNew <;> exact heasies
  case made => cases sNew <;> exact hmade
  case operating => cases sNew <;> exact hops
  case once => cases sNew <;> exact honce
  case waiting => exact hrest

theorem Inv.loopStarts (h : s.Inv) {call : ℕ} (hloop : s.loop = .starts call) :
    Inv { s.getEasy.2 with loop := .emplaces call s.getEasy.1 } := by
  obtain ⟨easy, m_Pool, handles, heq, heasies, hmade⟩ := getEasy_eq h
  rw [heq]
  have hperm : (s.m_Active.map Active.easy ++ held Caller.easy s.callers ++ [easy] ++
      m_Pool).Perm (easy :: Multi.easies { s with m_Pool := m_Pool }) := by
    rw [Multi.easies, hloop]
    simp only [Loop.easy, List.append_nil]
    rw [List.append_assoc]
    exact List.perm_middle
  have hplaces := h.places
  have htaken := h.taken
  have hops := h.operating
  have honce := h.once
  simp only [Multi.places, Multi.taken, Multi.operating, hloop] at hplaces htaken hops honce
  constructor
  case places => exact hplaces
  case taken => exact htaken
  case easies => exact hperm.nodup_iff.mpr heasies
  case made => exact fun e he => hmade e (hperm.mem_iff.mp he)
  case operating => exact hops
  case once => exact honce
  case waiting => exact h.waiting

theorem Inv.loopEmplaces (h : s.Inv) {call easy : ℕ} (hloop : s.loop = .emplaces call easy) :
    Inv { s.emplace call easy with loop := .operates call easy } := by
  have hmem : easy ∈ s.loop.easy := by rw [hloop]; exact List.mem_cons_self
  rw [emplace_eq h call (List.mem_append_right _ hmem)]
  have hperm : (held Caller.operating s.callers ++ [Active.mk easy call false]).Perm
      (⟨easy, call, false⟩ :: s.operating) := by
    have hnone : s.loop.operating = [] := by rw [hloop]; rfl
    rw [Multi.operating, hnone, List.append_nil]
    exact List.perm_append_singleton _ _
  have heasies : ((s.m_Active ++ [Active.mk easy call false]).map Active.easy ++
      held Caller.easy s.callers ++ [] ++ s.m_Pool).Perm s.easies := by
    rw [Multi.easies, hloop, List.map_append, List.map_singleton, List.append_nil]
    refine List.Perm.append_right _ ?_
    rw [List.append_assoc, List.append_assoc]
    exact List.perm_append_comm.append_left _
  have hnew : ∀ a ∈ s.operating, a ≠ ⟨easy, call, false⟩ := by
    intro a ha heq'
    have hcall : call ∈ s.loop.held := by rw [hloop]; exact List.mem_cons_self
    exact h.not_active (List.mem_append_right _ hcall) a (h.operating a ha) (by rw [heq'])
  constructor
  case places =>
    refine List.Perm.trans ?_ h.places
    rw [List.perm_iff_count]
    intro x
    simp only [Multi.places, hloop, Loop.held, List.count_append, List.map_append, List.map_cons,
      List.map_nil, List.count_nil]
    omega
  case taken =>
    refine List.Perm.trans ?_ h.taken
    simp only [Multi.taken, hloop, List.filter_append, List.map_append]
    rw [List.filter_cons_of_neg Bool.false_ne_true, List.filter_nil, List.map_nil, List.append_nil]
    exact List.Perm.refl _
  case easies => exact heasies.nodup_iff.mpr h.easies
  case made => exact fun e he => h.made e (heasies.mem_iff.mp he)
  case operating =>
    intro a ha
    rcases List.mem_cons.mp (hperm.mem_iff.mp ha) with heq' | ha
    · exact List.mem_append_right _ (heq' ▸ List.mem_cons_self)
    · exact List.mem_append_left _ (h.operating a ha)
  case once =>
    exact hperm.nodup_iff.mpr (List.nodup_cons.mpr ⟨fun hmem => hnew _ hmem rfl, h.once⟩)
  case waiting => exact h.waiting

theorem Inv.loopTakes (h : s.Inv) {call easy : ℕ} (hloop : s.loop = .operates call easy) :
    Inv { s.take call easy with loop := .counts } := by
  have hops : s.operating.Perm (⟨easy, call, false⟩ :: held Caller.operating s.callers) := by
    rw [Multi.operating, hloop]
    exact List.perm_append_singleton _ _
  have htakes := h.takes hops
  constructor
  case places =>
    have hplaces := h.places
    simp only [Multi.places, hloop] at hplaces ⊢
    rw [htakes.calls]
    exact hplaces
  case taken =>
    rw [List.perm_iff_count]
    intro x
    have hadded := htakes.added x
    have htaken := List.perm_iff_count.mp h.taken x
    simp only [Multi.taken, hloop, Loop.notified, List.count_append, List.count_nil]
      at htaken hadded ⊢
    rw [hadded]
    simp only [take, List.count_append]
    omega
  case easies =>
    have heasies := h.easies
    simp only [Multi.easies, hloop] at heasies ⊢
    rw [htakes.easies]
    exact heasies
  case made =>
    have hmade := h.made
    simp only [Multi.easies, hloop] at hmade ⊢
    rw [htakes.easies]
    exact hmade
  case operating =>
    intro a ha
    rcases List.mem_append.mp ha with ha | ha
    · exact htakes.operating a ha
    · cases ha
  case once =>
    change (held Caller.operating s.callers ++ []).Nodup
    rw [List.append_nil]
    exact htakes.once
  case waiting => exact h.waiting

theorem Inv.terminates (h : s.Inv) {call easy : ℕ} (hloop : s.loop = .operates call easy) :
    Inv { s with loop := .terminated } := by
  have hops : s.operating.Perm (⟨easy, call, false⟩ :: held Caller.operating s.callers) := by
    rw [Multi.operating, hloop]
    exact List.perm_append_singleton _ _
  have hplaces := h.places
  have htaken := h.taken
  have heasies := h.easies
  have hmade := h.made
  simp only [Multi.places, Multi.taken, Multi.easies, hloop] at hplaces htaken heasies hmade
  constructor
  case places => exact hplaces
  case taken => exact htaken
  case easies => exact heasies
  case made => exact hmade
  case operating =>
    intro a ha
    rcases List.mem_append.mp ha with ha | ha
    · exact h.operating a (hops.mem_iff.mpr (List.mem_cons_of_mem _ ha))
    · cases ha
  case once =>
    change (held Caller.operating s.callers ++ []).Nodup
    rw [List.append_nil]
    exact (List.nodup_cons.mp (hops.nodup_iff.mp h.once)).2
  case waiting => exact h.waiting

theorem Inv.expires (h : s.Inv) {call : ℕ} {calls : List ℕ}
    (hloop : s.loop = .expires (call :: calls)) :
    Inv { s with m_Next := s.m_Next ++ [(call, .timeout)], loop := .expires calls } := by
  have hresults : results [(call, Result.timeout)] = [] := rfl
  have htaken := h.taken
  have heasies := h.easies
  have hmade := h.made
  have hops := h.operating
  have honce := h.once
  simp only [Multi.taken, Multi.easies, Multi.operating, hloop]
    at htaken heasies hmade hops honce
  constructor
  case places =>
    refine List.Perm.trans ?_ h.places
    rw [List.perm_iff_count]
    intro x
    simp only [Multi.places, hloop, Loop.held, List.count_append, List.map_append, List.map_cons,
      List.map_nil, List.count_cons, List.count_nil]
    omega
  case taken =>
    simp only [Multi.taken]
    rw [results_append, hresults, List.append_nil]
    exact htaken
  case easies => exact heasies
  case made => exact hmade
  case operating => exact hops
  case once => exact honce
  case waiting => exact h.waiting

theorem Inv.goes (h : s.Inv) (sNow : UInt64) (taken : Bool) : (s.goes sNow taken).Inv := by
  cases hloop : s.loop with
  | waits =>
      simp only [Multi.goes, hloop]
      exact h
  | notifies call easy rc =>
      simp only [Multi.goes, hloop]
      exact h.notifies hloop
  | counts =>
      simp only [Multi.goes, hloop]
      split_ifs <;> exact h.goesOn (by rw [hloop]; rfl)
  | looks =>
      simp only [Multi.goes, hloop]
      split_ifs <;> exact h.goesOn (by rw [hloop]; rfl)
  | gets =>
      have hgets := h.gets hloop sNow
      simp only [Multi.goes, hloop] at hgets ⊢
      exact hgets
  | starts call =>
      simp only [Multi.goes, hloop]
      exact h.loopStarts hloop
  | emplaces call easy =>
      simp only [Multi.goes, hloop]
      exact h.loopEmplaces hloop
  | operates call easy =>
      simp only [Multi.goes, hloop]
      split_ifs
      · exact h.loopTakes hloop
      · exact h.terminates hloop
  | expires calls =>
      cases calls with
      | nil =>
          simp only [Multi.goes, hloop]
          exact h.goesOn (by rw [hloop]; rfl)
      | cons call calls =>
          simp only [Multi.goes, hloop]
          exact h.expires hloop
  | terminated =>
      simp only [Multi.goes, hloop]
      exact h

theorem Inv.onTimer (h : s.Inv) (sNow : UInt64) : (s.onTimer sNow).Inv := by
  unfold Multi.onTimer
  split
  · next hloop =>
    obtain ⟨hperm, -, -, -⟩ := timerLoop_spec sNow h.waiting.nodup (Nat.le_refl _)
    have htaken := h.taken
    have heasies := h.easies
    have hmade := h.made
    have hops := h.operating
    have honce := h.once
    simp only [Multi.taken, Multi.easies, Multi.operating, hloop]
      at htaken heasies hmade hops honce
    constructor
    case places =>
      refine List.Perm.trans ?_ h.places
      rw [List.perm_iff_count]
      intro x
      have hcount := (hperm.map Rec.value).count_eq x
      simp only [Multi.places, hloop, Loop.held, RequestQueue.onTimer, List.count_append,
        List.map_append, List.count_nil] at hcount ⊢
      omega
    case taken => exact htaken
    case easies => exact heasies
    case made => exact hmade
    case operating => exact hops
    case once => exact honce
    case waiting => exact h.waiting.onTimer sNow
  · exact h

/-- What is about to be added to the transfers is not active yet. -/
theorem added_operating {b : Active} (hb : b ∈ s.operating) : b.added = false := by
  rcases List.mem_append.mp hb with hb | hb
  · obtain ⟨pc, -, hb⟩ := List.mem_flatMap.mp hb
    cases pc <;> simp only [Caller.operating, List.mem_singleton, List.not_mem_nil] at hb
    rw [hb]
  · cases hloop : s.loop <;>
      simp only [hloop, Loop.operating, List.mem_singleton, List.not_mem_nil] at hb
    rw [hb]

theorem Inv.done (h : s.Inv) (easy rc : ℕ) : (s.done easy rc).Inv := by
  unfold Multi.done
  split
  · next a hloop hfind =>
    split_ifs with hadded
    · have hperm := find?_perm hfind
      have hdecide := List.find?_some hfind
      have heasy : a.easy = easy := of_decide_eq_true hdecide
      have hkeys := (hperm.map Active.easy).append_right (held Caller.easy s.callers ++ s.m_Pool)
      have hall : ((s.m_Active.eraseP fun a => a.easy = easy).map Active.easy ++
          held Caller.easy s.callers ++ [easy] ++ s.m_Pool).Perm s.easies := by
        have hnone : s.loop.easy = [] := by rw [hloop]; rfl
        rw [List.map_cons, heasy, List.cons_append, ← List.append_assoc,
          ← List.append_assoc] at hkeys
        rw [Multi.easies, hnone, List.append_nil]
        refine List.Perm.trans ?_ hkeys
        rw [List.append_assoc _ [easy]]
        exact List.perm_middle
      have hne : ∀ b ∈ s.operating, b ∈ s.m_Active.eraseP fun a => a.easy = easy := by
        intro b hb
        rcases List.mem_cons.mp (hperm.mem_iff.mpr (h.operating b hb)) with heq | hmem
        · have hfalse := added_operating hb
          rw [heq, hadded] at hfalse
          cases hfalse
        · exact hmem
      have hops : Multi.operating { s with
          m_Active := s.m_Active.eraseP fun a => a.easy = easy
          loop := .notifies a.call easy rc } = s.operating := by
        rw [Multi.operating, Multi.operating, hloop]
        rfl
      constructor
      case places =>
        refine List.Perm.trans ?_ h.places
        rw [List.perm_iff_count]
        intro x
        have hcount := (hperm.map Active.call).count_eq x
        rw [List.map_cons, List.count_cons] at hcount
        simp only [Multi.places, hloop, Loop.held, List.count_append, List.count_cons,
          List.count_nil]
        omega
      case taken =>
        refine List.Perm.trans ?_ h.taken
        rw [List.perm_iff_count]
        intro x
        have hcount := ((hperm.filter Active.added).map Active.call).count_eq x
        rw [List.filter_cons_of_pos hadded, List.map_cons, List.count_cons] at hcount
        simp only [Multi.taken, hloop, Loop.notified, List.count_append, List.count_cons,
          List.count_nil]
        omega
      case easies => exact hall.nodup_iff.mpr h.easies
      case made => exact fun e he => h.made e (hall.mem_iff.mp he)
      case operating => exact fun b hb => hne b (hops ▸ hb)
      case once => exact hops ▸ h.once
      case waiting => exact h.waiting
    · exact h
  · exact h

theorem Inv.next (h : s.Inv) : s.next.Inv := by
  unfold Multi.next
  split
  · exact h
  · next x m_Next hnext =>
    constructor
    case places =>
      refine List.Perm.trans ?_ h.places
      rw [List.perm_iff_count]
      intro c
      simp only [Multi.places, hnext, List.count_append, List.map_append, List.map_cons,
        List.map_nil, List.count_cons, List.count_nil]
      omega
    case taken =>
      refine List.Perm.trans ?_ h.taken
      rw [List.perm_iff_count]
      intro c
      have hcons : results (x :: m_Next) = results [x] ++ results m_Next :=
        results_append [x] m_Next
      simp only [Multi.taken, hnext, hcons, results_append, List.count_append]
      omega
    case easies => exact h.easies
    case made => exact h.made
    case operating => exact h.operating
    case once => exact h.once
    case waiting => exact h.waiting

theorem Inv.call (h : s.Inv) :
    Inv { s with callers := s.callers ++ [.counts s.callers.length] } := by
  have hops : Multi.operating { s with callers := s.callers ++ [.counts s.callers.length] } =
      s.operating := by
    simp [Multi.operating, held, Caller.operating]
  have heasies : Multi.easies { s with callers := s.callers ++ [.counts s.callers.length] } =
      s.easies := by
    simp [Multi.easies, held, Caller.easy]
  constructor
  case places =>
    dsimp only
    rw [List.length_append, List.length_singleton, List.range_succ]
    refine List.Perm.trans ?_ (h.places.append_right _)
    rw [List.perm_iff_count]
    intro x
    simp only [Multi.places, held, List.flatMap_append, List.flatMap_cons, List.flatMap_nil,
      Caller.held, List.count_append, List.append_nil]
    omega
  case taken => exact h.taken
  case easies => exact heasies ▸ h.easies
  case made => exact fun e he => h.made e (heasies ▸ he)
  case operating => exact fun a ha => h.operating a (hops ▸ ha)
  case once => exact hops ▸ h.once
  case waiting => exact h.waiting

theorem Inv.cleanup (h : s.Inv) (stale : ℕ) : Inv { s with m_Pool := s.m_Pool.drop stale } := by
  have hsub : (Multi.easies { s with m_Pool := s.m_Pool.drop stale }).Sublist s.easies :=
    (List.drop_sublist stale s.m_Pool).append_left _
  exact ⟨h.places, h.taken, h.easies.sublist hsub, fun e he => h.made e (hsub.subset he),
    h.operating, h.once, h.waiting⟩

theorem Inv.step (h : s.Inv) (e : Event) : (s.step e).Inv := by
  cases e with
  | call => exact h.call
  | caller i sNow taken =>
      simp only [Multi.step]
      split
      · exact h
      · next hi => exact h.caller hi sNow taken
  | done easy rc => exact h.done easy rc
  | loop sNow taken => exact h.goes sNow taken
  | timer sNow => exact h.onTimer sNow
  | cleanup stale => exact h.cleanup stale
  | next => exact h.next

theorem notified_sublist (pc : Loop) : pc.notified.Sublist pc.held := by
  cases pc <;> first | exact List.Sublist.refl _ | exact List.nil_sublist _

theorem results_sublist (l : List (ℕ × Result)) : (results l).Sublist (l.map Prod.fst) :=
  List.filter_sublist.map Prod.fst

/-- A call that was started is in one place only. -/
theorem count_taken (s : Multi) (x : ℕ) : s.taken.count x ≤ s.places.count x := by
  have hactive : ((s.m_Active.filter Active.added).map Active.call).count x ≤
      (s.m_Active.map Active.call).count x := (List.filter_sublist.map Active.call).count_le x
  have hloop := (notified_sublist s.loop).count_le x
  have hnext := (results_sublist s.m_Next).count_le x
  have hcalled := (results_sublist s.called).count_le x
  simp only [Multi.taken, Multi.places, List.count_append]
  omega

end Lemmas

end Multi

/-! ## Every callback once -/

def make (max_connections : ℕ) (queue_timeout_ms : UInt64) : Multi :=
  { max_connections := max_connections, queue_timeout_ms := queue_timeout_ms }

theorem inv_make (max_connections : ℕ) (queue_timeout_ms : UInt64) :
    (make max_connections queue_timeout_ms).Inv := by
  constructor
  case places => exact List.Perm.refl _
  case taken => exact List.Perm.refl _
  case easies => exact List.nodup_nil
  case made => exact fun _ h => absurd h List.not_mem_nil
  case operating => exact fun _ h => absurd h List.not_mem_nil
  case once => exact List.nodup_nil
  case waiting => exact ⟨List.nodup_nil, fun _ h => absurd h List.not_mem_nil⟩

namespace Multi

/-- The calls that were called back, each once and with the result of its transfer, or with the
time-out if there was none. -/
structure Called (s : Multi) : Prop where
  called : (s.called.map Prod.fst).Nodup
  started : s.started.Nodup
  timeout : ∀ x ∈ s.called, x.2 = .timeout ↔ x.1 ∉ s.started

theorem Inv.called {s : Multi} (h : s.Inv) : s.Called := by
  have hnodup : s.places.Nodup := h.places.nodup_iff.mpr List.nodup_range
  have honce := List.nodup_iff_count_le_one.mp hnodup
  have hcalled : (s.called.map Prod.fst).Nodup := (List.nodup_append.mp hnodup).2.1
  constructor
  case called => exact hcalled
  case started =>
    rw [← h.taken.nodup_iff, List.nodup_iff_count_le_one]
    exact fun x => (Multi.count_taken s x).trans (honce x)
  case timeout =>
    rintro ⟨call, result⟩ hx
    have hfst : call ∈ s.called.map Prod.fst := List.mem_map_of_mem hx
    constructor
    · intro htimeout hstarted
      dsimp only at htimeout hstarted
      rw [← h.taken.mem_iff] at hstarted
      -- the time-out is one place, and where it was taken is another one
      have hplace := honce call
      have hactive : ((s.m_Active.filter Active.added).map Active.call).count call ≤
          (s.m_Active.map Active.call).count call :=
        (List.filter_sublist.map Active.call).count_le call
      have hloop := (Multi.notified_sublist s.loop).count_le call
      have hnext := (Multi.results_sublist s.m_Next).count_le call
      have hcount := List.count_pos_iff.mpr hstarted
      have hpos := List.count_pos_iff.mpr hfst
      have hresults : (results s.called).count call = 0 := by
        rw [List.count_eq_zero]
        intro hmem
        obtain ⟨⟨call', result'⟩, hy, rfl⟩ := List.mem_map.mp hmem
        obtain ⟨hy, hne⟩ := List.mem_filter.mp hy
        have hsame := List.inj_on_of_nodup_map hcalled hx hy rfl
        cases hsame
        exact of_decide_eq_true hne htimeout
      simp only [Multi.taken, Multi.places, List.count_append] at hcount hplace
      omega
    · intro hnot
      by_contra hne
      apply hnot
      rw [← h.taken.mem_iff]
      refine List.mem_append_right _ (List.mem_map.mpr ⟨(call, result), ?_, rfl⟩)
      exact List.mem_filter.mpr ⟨hx, decide_eq_true hne⟩

end Multi

theorem inv_run (max_connections : ℕ) (queue_timeout_ms : UInt64) (es : List Event) :
    (run Multi.step (make max_connections queue_timeout_ms) es).Inv :=
  run_invariant (I := Multi.Inv) (fun _ e ht _ => ht.step e)
    (inv_make max_connections queue_timeout_ms) (meets_true _ _ es)

/-- In every run a call is in one place, and so its callback is called at most once. It has the
result of a transfer that was started for it, or the time-out of one that never was. -/
theorem called_once (max_connections : ℕ) (queue_timeout_ms : UInt64) (es : List Event) :
    let s := run Multi.step (make max_connections queue_timeout_ms) es
    s.places.Perm (List.range s.callers.length) ∧ (s.called.map Prod.fst).Nodup ∧
      s.started.Nodup ∧ ∀ x ∈ s.called, x.2 = .timeout ↔ x.1 ∉ s.started := by
  intro s
  have h : s.Inv := inv_run max_connections queue_timeout_ms es
  exact ⟨h.places, h.called.called, h.called.started, h.called.timeout⟩

end Stuff.CurlMulti
