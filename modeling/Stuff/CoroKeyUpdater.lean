import Stuff.CoroWaiter
import Stuff.EventRuns
import Stuff.Holders
import Mathlib.Logic.Function.Basic
import Mathlib.Data.List.Nodup

/-!
# One refresh for all who wait for a key

`Coro::KeyUpdater` keeps the keys that wait for a refresh in a list. A coroutine
works it off, one handler call after another; it is spawned when the list gets its
first element. All coroutines run on one thread. What is spawned may run at once,
inside the call of `co_spawn`, up to its first suspension; the caller goes on when
this call returns, and reads the entry of its key through a reference into the map.
-/
namespace Stuff.CoroKeyUpdater
open EventRuns Holders CoroWaiter

variable {K V : Type}

/-- The waiters are known by the calls that made them. -/
structure WaitData (K V : Type) where
  key : K
  value : Option V := none
  waiters : List (ℕ × Waiter) := []

/-- A call is in `co_spawn`, suspended in `wait`, or has returned; only `Wait` returns
a value. -/
inductive CallPc (V : Type)
  | launching
  | suspended
  | returned (value : Option V)
deriving DecidableEq, Repr

/-- A call of `Wait`, or of `Schedule`, with the `WaitData` that it joined. The number of
handler calls that had returned when it began is kept for the history. -/
structure Call (K V : Type) where
  wait : Bool
  key : K
  began : ℕ
  data : ℕ
  pc : CallPc V := .launching

inductive CoroPc
  | spawned
  | handling (data : ℕ)
  | ended
  | threw
deriving DecidableEq, Repr

def CoroPc.alive : CoroPc → Bool
  | .spawned => true
  | .handling _ => true
  | .ended => false
  | .threw => false

def CoroPc.inHandler : CoroPc → Bool
  | .handling _ => true
  | _ => false

/-- The fields of the class, with a `WaitData` named by its place in the heap; the
coroutines and the calls; the call that is inside `co_spawn`; and the history of
the handler calls that returned and of the waiters that were notified. -/
structure KeyUpdater (K V : Type) where
  list : List ℕ := []
  waiters : K → Option ℕ := fun _ => none
  heap : List (WaitData K V) := []
  coros : List CoroPc := []
  calls : List (Call K V) := []
  control : Option ℕ := none
  finished : List (K × V) := []
  notified : List ℕ := []

namespace KeyUpdater

def setCoro (s : KeyUpdater K V) (c : ℕ) (pc : CoroPc) : KeyUpdater K V :=
  { s with coros := s.coros.set c pc }

/-- The head of the loop in `Coro`. -/
def loopHead (s : KeyUpdater K V) (c : ℕ) : KeyUpdater K V :=
  match s.list with
  | [] => s.setCoro c .ended
  | data :: _ => s.setCoro c (.handling data)

/-- The handler returns a value: the rest of `Refresh`, and of the loop. -/
def refreshed [DecidableEq K] (s : KeyUpdater K V) (c data : ℕ) (aValue : V)
    (aThrows : Bool) : KeyUpdater K V :=
  match s.heap[data]? with
  | none => s
  | some d =>
      let sFinished := s.finished ++ [(d.key, aValue)]
      if aThrows then
        -- the callback throws, and `Coro` with it
        { s.setCoro c .threw with
          heap := s.heap.set data { d with value := some aValue }, finished := sFinished }
      else
        loopHead
          { s with
            heap := s.heap.set data
              { d with value := some aValue, waiters := d.waiters.map fun w => (w.1, w.2.notify) }
            finished := sFinished
            notified := s.notified ++ d.waiters.map Prod.fst
            waiters := Function.update s.waiters d.key none
            list := s.list.tail } c

/-- `Schedule` has returned to `Wait`, or to its own caller. -/
def scheduled (s : KeyUpdater K V) (i : ℕ) : KeyUpdater K V :=
  match s.calls[i]? with
  | none => s
  | some call =>
      if call.wait then
        match s.heap[call.data]? with
        | none => s
        | some d =>
            match d.value with
            | some v => { s with calls := s.calls.set i { call with pc := .returned (some v) } }
            | none =>
                { s with
                  calls := s.calls.set i { call with pc := .suspended }
                  heap := s.heap.set call.data
                    { d with waiters := d.waiters ++ [(i, ({} : Waiter).wait)] } }
      else { s with calls := s.calls.set i { call with pc := .returned none } }

/-- `Schedule` up to its end, or up to the call of `co_spawn`. -/
def call [DecidableEq K] (s : KeyUpdater K V) (aWait : Bool) (aKey : K) : KeyUpdater K V :=
  match s.waiters aKey with
  | some data =>
      scheduled
        { s with
          calls := s.calls ++
            [{ wait := aWait, key := aKey, began := s.finished.length, data := data }] }
        s.calls.length
  | none =>
      let sNext : KeyUpdater K V :=
        { s with
          heap := s.heap ++ [{ key := aKey }]
          waiters := Function.update s.waiters aKey (some s.heap.length)
          list := s.list ++ [s.heap.length]
          calls := s.calls ++
            [{ wait := aWait, key := aKey, began := s.finished.length, data := s.heap.length }] }
      if s.list = [] then
        { sNext with coros := s.coros ++ [.spawned], control := some s.calls.length }
      else sNext.scheduled s.calls.length

/-- `co_spawn` returns. The entry may be gone; then the reference is not valid. -/
def launched [DecidableEq K] (s : KeyUpdater K V) : Option (KeyUpdater K V) :=
  match s.control with
  | none => some s
  | some i =>
      match s.calls[i]? with
      | none => some s
      | some call =>
          if s.waiters call.key = some call.data then some ({ s with control := none }.scheduled i)
          else none

/-- The posted continuation of a `Wait` runs; the waiter leaves the list. -/
def resumes (s : KeyUpdater K V) (i : ℕ) : Option (KeyUpdater K V) :=
  match s.calls[i]? with
  | none => some s
  | some call =>
      match call.pc, s.heap[call.data]? with
      | .suspended, some d =>
          if d.waiters.any fun w => w.1 = i ∧ 0 < w.2.invoked then
            match d.value with
            | none => none
            | some v =>
                some
                  { s with
                    calls := s.calls.set i { call with pc := .returned (some v) }
                    heap := s.heap.set call.data
                      { d with waiters := d.waiters.filter fun w => w.1 ≠ i } }
          else some s
      | _, _ => some s

end KeyUpdater

inductive Event (K V : Type)
  | call (aWait : Bool) (aKey : K)
  | launched
  | starts (c : ℕ)
  | returns (c : ℕ) (aValue : V) (aThrows : Bool)
  | throws (c : ℕ)
  | resumes (i : ℕ)

/-- While a call is inside `co_spawn` nothing runs but the spawned coroutine: its loop,
and the handler with what it may call itself. -/
def keyStep [DecidableEq K] (s : KeyUpdater K V) : Event K V → Option (KeyUpdater K V)
  | .call aWait aKey =>
      if s.control = none ∨ s.coros.any CoroPc.inHandler then some (s.call aWait aKey) else some s
  | .launched => s.launched
  | .starts c =>
      match s.coros[c]? with
      | some .spawned => some (s.loopHead c)
      | _ => some s
  | .returns c aValue aThrows =>
      match s.coros[c]? with
      | some (.handling data) => some (s.refreshed c data aValue aThrows)
      | _ => some s
  | .throws c =>
      match s.coros[c]? with
      | some (.handling _) => some (s.setCoro c .threw)
      | _ => some s
  | .resumes i => if s.control = none then s.resumes i else some s

/-! ## The heap -/

section
variable (heap : List (WaitData K V)) (x : ℕ)

def keyOf : Option K := heap[x]?.map WaitData.key

def valueOf : Option V := heap[x]?.bind WaitData.value

def waitersOf : List (ℕ × Waiter) := (heap[x]?.map WaitData.waiters).getD []

end

section
variable {heap : List (WaitData K V)} {x : ℕ} {d : WaitData K V}

theorem getElem?_set_of_some {α : Type} {l : List α} {i : ℕ} {a : α} (h : l[i]? = some a)
    (b : α) (j : ℕ) : (l.set i b)[j]? = if j = i then some b else l[j]? := by
  rw [List.getElem?_set, if_pos (List.getElem?_eq_some_iff.mp h).1]
  by_cases hij : i = j
  · rw [if_pos hij, if_pos hij.symm]
  · rw [if_neg hij, if_neg (Ne.symm hij)]

theorem set_of_getElem? {α : Type} {l : List α} {i : ℕ} {a : α} (h : l[i]? = some a) :
    l.set i a = l := by
  apply List.ext_getElem?
  intro j
  rw [getElem?_set_of_some h]
  split_ifs with hji
  · rw [hji, h]
  · rfl

theorem keyOf_set (hd : heap[x]? = some d) (value : Option V) (waiters : List (ℕ × Waiter)) :
    keyOf (heap.set x { d with value := value, waiters := waiters }) = keyOf heap := by
  funext y
  rw [keyOf, keyOf, getElem?_set_of_some hd]
  split_ifs with hxy
  · rw [hxy, hd, Option.map_some, Option.map_some]
  · rfl

theorem valueOf_set (hd : heap[x]? = some d) (d' : WaitData K V) :
    valueOf (heap.set x d') = Function.update (valueOf heap) x d'.value := by
  funext y
  rw [valueOf, Function.update_apply, getElem?_set_of_some hd]
  split_ifs <;> rfl

theorem waitersOf_set (hd : heap[x]? = some d) (d' : WaitData K V) :
    waitersOf (heap.set x d') = Function.update (waitersOf heap) x d'.waiters := by
  funext y
  rw [waitersOf, Function.update_apply, getElem?_set_of_some hd]
  split_ifs <;> rfl

theorem waitersOf_eq (hd : heap[x]? = some d) : waitersOf heap x = d.waiters := by
  rw [waitersOf, hd]
  rfl

theorem valueOf_eq (hd : heap[x]? = some d) : valueOf heap x = d.value := by
  rw [valueOf, hd]
  rfl

theorem keyOf_eq (hd : heap[x]? = some d) : keyOf heap x = some d.key := by
  rw [keyOf, hd]
  rfl

/-- The new one is the last. -/
theorem getElem?_append_new (aKey : K) (y : ℕ) :
    (heap ++ [{ key := aKey }])[y]? =
      if y = heap.length then some { key := aKey } else heap[y]? := by
  split_ifs with heq
  · rw [heq, List.getElem?_concat_length]
  · rcases Nat.lt_or_gt_of_ne heq with hlt | hgt
    · exact List.getElem?_append_left hlt
    · rw [List.getElem?_eq_none (Nat.le_of_lt hgt), List.getElem?_eq_none]
      rw [List.length_append, List.length_singleton]
      exact hgt

theorem keyOf_append (aKey : K) (y : ℕ) :
    keyOf (heap ++ [{ key := aKey }]) y = if y = heap.length then some aKey else keyOf heap y := by
  rw [keyOf, getElem?_append_new]
  split_ifs <;> rfl

theorem valueOf_append (aKey : K) : valueOf (heap ++ [{ key := aKey }]) = valueOf heap := by
  funext y
  rw [valueOf, valueOf, getElem?_append_new]
  split_ifs with heq
  · rw [heq, List.getElem?_eq_none (Nat.le_refl _)]
    rfl
  · rfl

theorem waitersOf_append (aKey : K) : waitersOf (heap ++ [{ key := aKey }]) = waitersOf heap := by
  funext y
  rw [waitersOf, waitersOf, getElem?_append_new]
  split_ifs with heq
  · rw [heq, List.getElem?_eq_none (Nat.le_refl _)]
    rfl
  · rfl

end

/-! ## The invariant -/

/-- What holds of a call, if it is not the one that runs at the moment. Its `WaitData`
is refreshed after the call began; before that it is in the list. -/
structure CallSound (s : KeyUpdater K V) (i : ℕ) (call : Call K V) : Prop where
  key : keyOf s.heap call.data = some call.key
  began : call.began ≤ s.finished.length
  value : ∀ v, valueOf s.heap call.data = some v →
    ∃ j, call.began ≤ j ∧ s.finished[j]? = some (call.key, v)
  launching : call.pc = .launching → s.control = some i
  suspended : call.pc = .suspended → i ∈ (waitersOf s.heap call.data).map Prod.fst ∧
    (i ∉ s.notified → call.data ∈ s.list)
  returned : ∀ v, call.pc = .returned (some v) → valueOf s.heap call.data = some v
  plain : call.pc = .returned none → call.wait = false

/-- What holds of a waiter of a `WaitData`. -/
structure WaiterSound (s : KeyUpdater K V) (data : ℕ) (w : ℕ × Waiter) : Prop where
  state : w.2.state = .waiting
  invoked : 0 < w.2.invoked → w.1 ∈ s.notified
  call : ∃ call, s.calls[w.1]? = some call ∧ call.data = data ∧ call.pc = .suspended

theorem WaiterSound.congr {s s' : KeyUpdater K V} {data : ℕ} {w : ℕ × Waiter}
    (h : WaiterSound s data w) (hcalls : s'.calls = s.calls)
    (hnotified : s'.notified = s.notified) : WaiterSound s' data w :=
  ⟨h.state, hnotified ▸ h.invoked, hcalls ▸ h.call⟩

/-- `running` is the call that runs. A `WaitData` has its entry in the map as long as it
is in the list and has no value; there is one coroutine if there is one in the list,
and it is at the first. -/
structure Sound (running : Option ℕ) (s : KeyUpdater K V) : Prop where
  nodup : s.list.Nodup
  entry : ∀ k data, s.waiters k = some data ↔ data ∈ s.list ∧ keyOf s.heap data = some k
  value : ∀ data < s.heap.length, valueOf s.heap data = none ↔ data ∈ s.list
  bound : ∀ data ∈ s.list, data < s.heap.length
  coro : s.list = [] ∧ s.coros.filter CoroPc.alive = [] ∨
    ∃ data rest pc, s.list = data :: rest ∧ s.coros.filter CoroPc.alive = [pc] ∧
      (pc = .spawned ∨ pc = .handling data)
  control : ∀ i, s.control = some i →
    ∃ call, s.calls[i]? = some call ∧ call.pc = .launching ∧ call.data ∈ s.list
  calls : ∀ i call, running ≠ some i → s.calls[i]? = some call → CallSound s i call
  waiters : ∀ data, ((waitersOf s.heap data).map Prod.fst).Nodup ∧
    ∀ w ∈ waitersOf s.heap data, WaiterSound s data w
  notified : s.notified.Nodup ∧ ∀ i ∈ s.notified,
    ∃ call, s.calls[i]? = some call ∧ call.data ∉ s.list

namespace Sound
variable {s : KeyUpdater K V} {i : ℕ} {call : Call K V} {d : WaitData K V}

theorem start : Sound none ({} : KeyUpdater K V) := by
  constructor
  · exact List.nodup_nil
  · simp
  · simp
  · simp
  · exact Or.inl ⟨rfl, rfl⟩
  · simp
  · simp
  · simp [waitersOf]
  · exact ⟨List.nodup_nil, by simp⟩

/-- One call goes on; only its own waiter comes or goes. -/
theorem move {running : Option ℕ} (h : Sound running s) (hrunning : ∀ j, running = some j → j = i)
    (hcall : s.calls[i]? = some call) (hd : s.heap[call.data]? = some d)
    (hcontrol : s.control ≠ some i) (pc : CallPc V) (waiters : List (ℕ × Waiter))
    (hpc : CallSound { s with
        calls := s.calls.set i { call with pc := pc }
        heap := s.heap.set call.data { d with waiters := waiters } } i { call with pc := pc })
    (hkeep : ∀ w ∈ d.waiters, w.1 ≠ i → w ∈ waiters)
    (hold : ∀ w ∈ waiters, w ∈ d.waiters ∧ w.1 ≠ i ∨
      w = (i, { state := .waiting }) ∧ pc = .suspended)
    (hnodup : (waiters.map Prod.fst).Nodup)
    (hother : ∀ data, data ≠ call.data → i ∉ (waitersOf s.heap data).map Prod.fst) :
    Sound none
      { s with
        calls := s.calls.set i { call with pc := pc }
        heap := s.heap.set call.data { d with waiters := waiters } } := by
  have hcalls := getElem?_set_of_some hcall { call with pc := pc }
  have hkeys : keyOf (s.heap.set call.data { d with waiters := waiters }) = keyOf s.heap :=
    keyOf_set hd d.value waiters
  have hvalues : valueOf (s.heap.set call.data { d with waiters := waiters }) =
      valueOf s.heap := by
    rw [valueOf_set hd, ← valueOf_eq hd, Function.update_eq_self]
  have hwaiters := waitersOf_set hd { d with waiters := waiters }
  constructor
  · exact h.nodup
  · simpa only [hkeys] using h.entry
  · simpa only [hvalues, List.length_set] using h.value
  · simpa only [List.length_set] using h.bound
  · exact h.coro
  · intro j hj
    obtain ⟨call', hcall', hrest⟩ := h.control j hj
    refine ⟨call', ?_, hrest⟩
    have hne : j ≠ i := by
      rintro rfl
      exact hcontrol hj
    rw [hcalls, if_neg hne]
    exact hcall'
  · intro j call' _ hcall'
    rw [hcalls] at hcall'
    split_ifs at hcall' with hij
    · cases hcall'
      rw [hij]
      exact hpc
    · have hsound := h.calls j call' (fun heq => hij (hrunning j heq)) hcall'
      constructor
      · simpa only [hkeys] using hsound.key
      · exact hsound.began
      · simpa only [hvalues] using hsound.value
      · exact hsound.launching
      · intro hsuspended
        obtain ⟨hmem, hlist⟩ := hsound.suspended hsuspended
        refine ⟨?_, hlist⟩
        rw [hwaiters, Function.update_apply]
        split_ifs with hdata
        · rw [hdata, waitersOf_eq hd] at hmem
          obtain ⟨w, hw, rfl⟩ := List.mem_map.mp hmem
          exact List.mem_map_of_mem (hkeep w hw hij)
        · exact hmem
      · simpa only [hvalues] using hsound.returned
      · exact hsound.plain
  · intro data
    obtain ⟨hnodup', hsound⟩ := h.waiters data
    have hcalls' : ∀ w ∈ waitersOf s.heap data, w.1 ≠ i → WaiterSound
        { s with
          calls := s.calls.set i { call with pc := pc }
          heap := s.heap.set call.data { d with waiters := waiters } } data w := by
      intro w hw hne
      obtain ⟨call', hcall', hrest⟩ := (hsound w hw).call
      refine ⟨(hsound w hw).state, (hsound w hw).invoked, call', ?_, hrest⟩
      rw [hcalls, if_neg hne]
      exact hcall'
    rw [hwaiters, Function.update_apply]
    split_ifs with hdata
    · refine ⟨hnodup, ?_⟩
      intro w hw
      rcases hold w hw with ⟨hmem, hne⟩ | ⟨rfl, hsuspended⟩
      · exact hcalls' w (by rw [hdata, waitersOf_eq hd]; exact hmem) hne
      · refine ⟨rfl, by simp, { call with pc := pc }, ?_, hdata.symm, hsuspended⟩
        rw [hcalls, if_pos rfl]
    · refine ⟨hnodup', ?_⟩
      intro w hw
      apply hcalls' w hw
      rintro rfl
      exact hother data hdata (List.mem_map_of_mem hw)
  · refine ⟨h.notified.1, ?_⟩
    intro j hj
    obtain ⟨call', hcall', hdata⟩ := h.notified.2 j hj
    rw [hcalls]
    split_ifs with hij
    · rw [hij, hcall] at hcall'
      cases hcall'
      exact ⟨_, rfl, hdata⟩
    · exact ⟨call', hcall', hdata⟩

/-- The call that runs waits, or returns. -/
theorem scheduled (h : Sound (some i) s) (hcall : s.calls[i]? = some call)
    (hdata : call.data ∈ s.list) (hkey : keyOf s.heap call.data = some call.key)
    (hbegan : call.began ≤ s.finished.length) (hcontrol : s.control ≠ some i)
    (hwaiter : ∀ data, i ∉ (waitersOf s.heap data).map Prod.fst) :
    Sound none (s.scheduled i) := by
  have hlt := h.bound _ hdata
  obtain ⟨d, hd⟩ : ∃ d, s.heap[call.data]? = some d := ⟨_, List.getElem?_eq_getElem hlt⟩
  have hvalue : d.value = none := by
    rw [← valueOf_eq hd]
    exact (h.value _ hlt).mpr hdata
  have hnew : i ∉ d.waiters.map Prod.fst := by
    rw [← waitersOf_eq hd]
    exact hwaiter _
  have hnone : ∀ w ∈ d.waiters, w.1 ≠ i := by
    rintro w hw rfl
    exact hnew (List.mem_map_of_mem hw)
  have hrunning : ∀ j, some i = some j → j = i := fun j hj => (Option.some.inj hj).symm
  unfold KeyUpdater.scheduled
  simp only [hcall]
  split_ifs with hwait
  · simp only [hd]
    split
    next v hv =>
      rw [hvalue] at hv
      cases hv
    next =>
      apply h.move hrunning hcall hd hcontrol
      · constructor
        · exact (congrFun (keyOf_set hd _ _) _).trans hkey
        · exact hbegan
        · intro v hv
          rw [valueOf_set hd, Function.update_self, hvalue] at hv
          cases hv
        · simp
        · intro _
          rw [waitersOf_set hd, Function.update_self]
          exact ⟨by simp, fun _ => hdata⟩
        · simp
        · simp
      · intro w hw _
        exact List.mem_append_left _ hw
      · intro w hw
        rcases List.mem_append.mp hw with hmem | hsame
        · exact Or.inl ⟨hmem, hnone w hmem⟩
        · exact Or.inr ⟨List.mem_singleton.mp hsame, rfl⟩
      · rw [List.map_append, List.nodup_append]
        refine ⟨waitersOf_eq hd ▸ (h.waiters call.data).1, by simp, ?_⟩
        intro a ha b hb
        rintro rfl
        rw [List.mem_singleton.mp hb] at ha
        exact hnew ha
      · exact fun data _ => hwaiter data
  · have hmove := h.move hrunning hcall hd hcontrol (.returned none) d.waiters ?_
      (fun w hw _ => hw) (fun w hw => Or.inl ⟨hw, hnone w hw⟩)
      (waitersOf_eq hd ▸ (h.waiters call.data).1) (fun data _ => hwaiter data)
    · rw [show ({ d with waiters := d.waiters } : WaitData K V) = d from rfl,
        set_of_getElem? hd] at hmove
      exact hmove
    · rw [show ({ d with waiters := d.waiters } : WaitData K V) = d from rfl, set_of_getElem? hd]
      constructor
      · exact hkey
      · exact hbegan
      · intro v hv
        rw [valueOf_eq hd, hvalue] at hv
        cases hv
      · simp
      · simp
      · simp
      · exact fun _ => Bool.eq_false_iff.mpr hwait

/-- The continuation of a call that was notified. -/
theorem resumes (h : Sound none s) (i : ℕ) : Holds (Sound none) (s.resumes i) := by
  unfold KeyUpdater.resumes
  split
  next => exact ⟨s, rfl, h⟩
  next call hcall =>
    split
    next d hpc hd =>
      split_ifs with hinvoked
      · simp only [List.any_eq_true, decide_eq_true_eq] at hinvoked
        obtain ⟨w, hw, rfl, hpos⟩ := hinvoked
        have hsound := h.calls w.1 call (by simp) hcall
        have hwaiters := h.waiters call.data
        rw [waitersOf_eq hd] at hwaiters
        obtain ⟨call', hcall', hlist⟩ := h.notified.2 w.1 ((hwaiters.2 w hw).invoked hpos)
        rw [hcall] at hcall'
        cases hcall'
        have hlt := (List.getElem?_eq_some_iff.mp hd).1
        have hvalue := mt (h.value _ hlt).mp hlist
        rw [valueOf_eq hd] at hvalue
        obtain ⟨v, hv⟩ := Option.ne_none_iff_exists'.mp hvalue
        split
        next hnone =>
          rw [hv] at hnone
          cases hnone
        next v' hv' =>
        rw [hv] at hv'
        cases hv'
        refine ⟨_, rfl, ?_⟩
        have hcontrol : s.control ≠ some w.1 := by
          intro heq
          obtain ⟨call', hcall', hlaunching, -⟩ := h.control w.1 heq
          rw [hcall] at hcall'
          cases hcall'
          rw [hpc] at hlaunching
          cases hlaunching
        apply h.move (by simp) hcall hd hcontrol
        · constructor
          · exact (congrFun (keyOf_set hd _ _) _).trans hsound.key
          · exact hsound.began
          · intro v' hv'
            rw [valueOf_set hd, Function.update_self, ← valueOf_eq hd] at hv'
            exact hsound.value v' hv'
          · simp
          · simp
          · intro v' hv'
            rw [valueOf_set hd, Function.update_self, hv]
            exact CallPc.returned.inj hv'
          · simp
        · intro w' hw' hne
          exact List.mem_filter.mpr ⟨hw', by simpa using hne⟩
        · intro w' hw'
          obtain ⟨hmem, hne⟩ := List.mem_filter.mp hw'
          exact Or.inl ⟨hmem, by simpa using hne⟩
        · exact hwaiters.1.sublist (List.filter_sublist.map Prod.fst)
        · intro data hdata hmem
          obtain ⟨w', hw', heq⟩ := List.mem_map.mp hmem
          obtain ⟨call', hcall', hdata', -⟩ := ((h.waiters data).2 w' hw').call
          rw [heq, hcall] at hcall'
          cases hcall'
          exact hdata hdata'.symm
      · exact ⟨s, rfl, h⟩
    next => exact ⟨s, rfl, h⟩

/-- The reference of the caller is valid when `co_spawn` returns. -/
theorem launched [DecidableEq K] (h : Sound none s) : Holds (Sound none) s.launched := by
  unfold KeyUpdater.launched
  split
  next => exact ⟨s, rfl, h⟩
  next i hcontrol =>
    obtain ⟨call, hcall, hlaunching, hdata⟩ := h.control i hcontrol
    have hsound := h.calls i call (by simp) hcall
    simp only [hcall]
    rw [if_pos ((h.entry _ _).mpr ⟨hdata, hsound.key⟩)]
    have hreleased : Sound (some i) { s with control := none } := by
      constructor
      · exact h.nodup
      · exact h.entry
      · exact h.value
      · exact h.bound
      · exact h.coro
      · simp
      · intro j call' hj hcall'
        have hsound' := h.calls j call' (by simp) hcall'
        refine ⟨hsound'.key, hsound'.began, hsound'.value, ?_, hsound'.suspended, hsound'.returned,
          hsound'.plain⟩
        intro hlaunching'
        have hcontrol' := hsound'.launching hlaunching'
        rw [hcontrol] at hcontrol'
        exact absurd hcontrol' hj
      · intro data
        refine ⟨(h.waiters data).1, ?_⟩
        intro w hw
        exact ((h.waiters data).2 w hw).congr rfl rfl
      · exact h.notified
    refine ⟨_, rfl, hreleased.scheduled hcall hdata hsound.key hsound.began (by simp) ?_⟩
    intro data hmem
    obtain ⟨w, hw, heq⟩ := List.mem_map.mp hmem
    obtain ⟨call', hcall', -, hsuspended⟩ := ((h.waiters data).2 w hw).call
    rw [heq, hcall] at hcall'
    cases hcall'
    rw [hlaunching] at hsuspended
    cases hsuspended

theorem mem_of_keyOf {heap : List (WaitData K V)} {x : ℕ} {k : K} (h : keyOf heap x = some k) :
    x < heap.length := by
  obtain ⟨d, hd, -⟩ := Option.map_eq_some_iff.mp h
  exact (List.getElem?_eq_some_iff.mp hd).1

theorem lt_of_getElem? {α : Type} {l : List α} {i : ℕ} {a : α} (h : l[i]? = some a) :
    i < l.length := (List.getElem?_eq_some_iff.mp h).1

/-- No waiter belongs to a call that is not there yet. -/
theorem new_call (h : Sound none s) (data : ℕ) :
    s.calls.length ∉ (waitersOf s.heap data).map Prod.fst := by
  intro hmem
  obtain ⟨w, hw, heq⟩ := List.mem_map.mp hmem
  obtain ⟨call, hcall, -⟩ := ((h.waiters data).2 w hw).call
  rw [heq] at hcall
  exact Nat.lt_irrefl _ (lt_of_getElem? hcall)

/-- A call begins and finds its key. -/
theorem append_call (h : Sound none s) (call : Call K V) :
    Sound (some s.calls.length) { s with calls := s.calls ++ [call] } := by
  have hcalls : ∀ {j : ℕ} {call' : Call K V}, s.calls[j]? = some call' →
      (s.calls ++ [call])[j]? = some call' := by
    intro j call' hj
    rw [List.getElem?_append_left (lt_of_getElem? hj)]
    exact hj
  constructor
  · exact h.nodup
  · exact h.entry
  · exact h.value
  · exact h.bound
  · exact h.coro
  · intro j hj
    obtain ⟨call', hcall', hrest⟩ := h.control j hj
    exact ⟨call', hcalls hcall', hrest⟩
  · intro j call' hj hcall'
    have hlt : j < s.calls.length := by
      have hlt := lt_of_getElem? hcall'
      rw [List.length_append, List.length_singleton] at hlt
      have hne : j ≠ s.calls.length := fun heq => hj (by rw [heq])
      omega
    rw [List.getElem?_append_left hlt] at hcall'
    have hsound := h.calls j call' (by simp) hcall'
    exact ⟨hsound.key, hsound.began, hsound.value, hsound.launching, hsound.suspended,
      hsound.returned, hsound.plain⟩
  · intro data
    refine ⟨(h.waiters data).1, ?_⟩
    intro w hw
    have hwaiter := (h.waiters data).2 w hw
    obtain ⟨call', hcall', hrest⟩ := hwaiter.call
    exact ⟨hwaiter.state, hwaiter.invoked, call', hcalls hcall', hrest⟩
  · refine ⟨h.notified.1, ?_⟩
    intro j hj
    obtain ⟨call', hcall', hdata⟩ := h.notified.2 j hj
    exact ⟨call', hcalls hcall', hdata⟩

/-- A key gets a new `WaitData`, and the list its coroutine. -/
theorem append_data [DecidableEq K] (h : Sound none s) {aKey : K} (hkey : s.waiters aKey = none)
    {coros : List CoroPc} (hcoros : s.list = [] ∧ coros = s.coros ++ [.spawned] ∨
      s.list ≠ [] ∧ coros = s.coros) :
    Sound none
      { s with
        heap := s.heap ++ [{ key := aKey }]
        waiters := Function.update s.waiters aKey (some s.heap.length)
        list := s.list ++ [s.heap.length]
        coros := coros } := by
  have hnew : s.heap.length ∉ s.list := fun hmem => Nat.lt_irrefl _ (h.bound _ hmem)
  have hkeys : ∀ y, y < s.heap.length →
      keyOf (s.heap ++ [{ key := aKey }]) y = keyOf s.heap y := by
    intro y hy
    rw [keyOf_append, if_neg (Nat.ne_of_lt hy)]
  have hdata : ∀ {j : ℕ} {call : Call K V}, s.calls[j]? = some call →
      call.data < s.heap.length :=
    fun hcall => mem_of_keyOf (h.calls _ _ (by simp) hcall).key
  constructor
  · rw [List.nodup_append]
    refine ⟨h.nodup, by simp, ?_⟩
    intro x hx y hy
    rw [List.mem_singleton.mp hy]
    rintro rfl
    exact hnew hx
  · intro k data
    dsimp only
    rw [Function.update_apply, List.mem_append, List.mem_singleton, keyOf_append]
    by_cases hk : k = aKey
    · rw [if_pos hk, hk]
      constructor
      · intro heq
        cases heq
        exact ⟨Or.inr rfl, if_pos rfl⟩
      · rintro ⟨hmem | heq, hkeyOf⟩
        · rw [if_neg (Nat.ne_of_lt (h.bound _ hmem))] at hkeyOf
          have hentry := (h.entry aKey data).mpr ⟨hmem, hkeyOf⟩
          rw [hkey] at hentry
          cases hentry
        · rw [heq]
    · rw [if_neg hk, h.entry k data]
      constructor
      · rintro ⟨hmem, hkeyOf⟩
        rw [if_neg (Nat.ne_of_lt (h.bound _ hmem))]
        exact ⟨Or.inl hmem, hkeyOf⟩
      · rintro ⟨hmem | heq, hkeyOf⟩
        · rw [if_neg (Nat.ne_of_lt (h.bound _ hmem))] at hkeyOf
          exact ⟨hmem, hkeyOf⟩
        · rw [if_pos heq] at hkeyOf
          exact absurd (Option.some.inj hkeyOf).symm hk
  · intro data hlt
    rw [valueOf_append, List.mem_append, List.mem_singleton]
    rw [List.length_append, List.length_singleton] at hlt
    by_cases hlast : data = s.heap.length
    · rw [hlast, valueOf, List.getElem?_eq_none (Nat.le_refl _)]
      exact ⟨fun _ => Or.inr rfl, fun _ => rfl⟩
    · rw [h.value data (by omega)]
      exact ⟨Or.inl, fun hmem => hmem.resolve_right hlast⟩
  · intro data hmem
    rw [List.length_append, List.length_singleton]
    rcases List.mem_append.mp hmem with hold | hsame
    · exact Nat.lt_succ_of_lt (h.bound _ hold)
    · rw [List.mem_singleton.mp hsame]
      exact Nat.lt_succ_self _
  · right
    rcases hcoros with ⟨hlist, rfl⟩ | ⟨hlist, rfl⟩
    · rcases h.coro with ⟨-, halive⟩ | ⟨data, rest, pc, heq, -⟩
      · refine ⟨s.heap.length, [], .spawned, by rw [hlist]; rfl, ?_, Or.inl rfl⟩
        rw [List.filter_append, halive]
        rfl
      · rw [hlist] at heq
        cases heq
    · rcases h.coro with ⟨heq, -⟩ | ⟨data, rest, pc, heq, hrest⟩
      · exact absurd heq hlist
      · exact ⟨data, rest ++ [s.heap.length], pc, by rw [heq]; rfl, hrest⟩
  · intro j hj
    obtain ⟨call, hcall, hpc, hmem⟩ := h.control j hj
    exact ⟨call, hcall, hpc, List.mem_append_left _ hmem⟩
  · intro j call _ hcall
    have hsound := h.calls j call (by simp) hcall
    constructor
    · rw [hkeys _ (hdata hcall)]
      exact hsound.key
    · exact hsound.began
    · rw [valueOf_append]
      exact hsound.value
    · exact hsound.launching
    · intro hsuspended
      rw [waitersOf_append]
      obtain ⟨hmem, hlist⟩ := hsound.suspended hsuspended
      exact ⟨hmem, fun hnot => List.mem_append_left _ (hlist hnot)⟩
    · rw [valueOf_append]
      exact hsound.returned
    · exact hsound.plain
  · intro data
    rw [waitersOf_append]
    refine ⟨(h.waiters data).1, ?_⟩
    intro w hw
    exact ((h.waiters data).2 w hw).congr rfl rfl
  · refine ⟨h.notified.1, ?_⟩
    intro j hj
    obtain ⟨call, hcall, hmem⟩ := h.notified.2 j hj
    refine ⟨call, hcall, ?_⟩
    rw [List.mem_append, List.mem_singleton, not_or]
    exact ⟨hmem, Nat.ne_of_lt (hdata hcall)⟩

/-- The call that runs is inside `co_spawn`. -/
theorem launch (h : Sound (some i) s) (hcall : s.calls[i]? = some call)
    (hpc : call.pc = .launching) (hdata : call.data ∈ s.list)
    (hkey : keyOf s.heap call.data = some call.key) (hbegan : call.began ≤ s.finished.length)
    (hcontrol : s.control = none) : Sound none { s with control := some i } := by
  constructor
  · exact h.nodup
  · exact h.entry
  · exact h.value
  · exact h.bound
  · exact h.coro
  · intro j hj
    cases hj
    exact ⟨call, hcall, hpc, hdata⟩
  · intro j call' _ hcall'
    by_cases hij : j = i
    · rw [hij, hcall] at hcall'
      cases hcall'
      refine ⟨hkey, hbegan, ?_, fun _ => by rw [hij], ?_, ?_, ?_⟩
      · intro v hv
        rw [(h.value _ (h.bound _ hdata)).mpr hdata] at hv
        cases hv
      · intro hsuspended
        rw [hpc] at hsuspended
        cases hsuspended
      · intro v hreturned
        rw [hpc] at hreturned
        cases hreturned
      · intro hreturned
        rw [hpc] at hreturned
        cases hreturned
    · have hsound := h.calls j call' (fun heq => hij (Option.some.inj heq).symm) hcall'
      refine ⟨hsound.key, hsound.began, hsound.value, ?_, hsound.suspended, hsound.returned,
        hsound.plain⟩
      intro hlaunching
      have hother := hsound.launching hlaunching
      rw [hcontrol] at hother
      cases hother
  · intro data
    refine ⟨(h.waiters data).1, ?_⟩
    intro w hw
    exact ((h.waiters data).2 w hw).congr rfl rfl
  · exact h.notified

theorem begin_call [DecidableEq K] (h : Sound none s) (aWait : Bool) (aKey : K) :
    Sound none (s.call aWait aKey) := by
  unfold KeyUpdater.call
  split
  next data hentry =>
    obtain ⟨hdata, hkey⟩ := (h.entry aKey data).mp hentry
    have hcontrol : s.control ≠ some s.calls.length := by
      intro heq
      obtain ⟨call, hcall, -⟩ := h.control _ heq
      exact Nat.lt_irrefl _ (lt_of_getElem? hcall)
    exact (h.append_call _).scheduled (List.getElem?_concat_length) hdata hkey (Nat.le_refl _)
      hcontrol h.new_call
  next hnone =>
    have hcall : ∀ call : Call K V, (s.calls ++ [call])[s.calls.length]? = some call :=
      fun _ => List.getElem?_concat_length
    have hmem : s.heap.length ∈ s.list ++ [s.heap.length] := by simp
    have hkey : keyOf (s.heap ++ [{ key := aKey }]) s.heap.length = some aKey := by
      rw [keyOf_append, if_pos rfl]
    dsimp only
    split_ifs with hlist
    · have hcontrol : s.control = none := by
        cases hc : s.control with
        | none => rfl
        | some i =>
            obtain ⟨call, -, -, hin⟩ := h.control i hc
            rw [hlist] at hin
            cases hin
      have hdata := (h.append_data hnone (Or.inl ⟨hlist, rfl⟩)).append_call
        { wait := aWait, key := aKey, began := s.finished.length, data := s.heap.length }
      exact hdata.launch (hcall _) rfl hmem hkey (Nat.le_refl _) hcontrol
    · have hdata := h.append_data hnone (Or.inr ⟨hlist, rfl⟩)
      have hcontrol : s.control ≠ some s.calls.length := by
        intro heq
        obtain ⟨call, hcall, -⟩ := h.control _ heq
        exact Nat.lt_irrefl _ (lt_of_getElem? hcall)
      exact (hdata.append_call _).scheduled (hcall _) hmem hkey (Nat.le_refl _) hcontrol
        hdata.new_call

/-- The coroutine finds the first of the list. -/
theorem starts (h : Sound none s) {c : ℕ} (hc : s.coros[c]? = some .spawned) :
    Sound none (s.loopHead c) := by
  rcases h.coro with ⟨-, hnone⟩ | ⟨data, rest, pc, hlist, halive, -⟩
  · have hmem : CoroPc.spawned ∈ s.coros.filter CoroPc.alive :=
      List.mem_filter.mpr ⟨List.mem_of_getElem? hc, rfl⟩
    rw [hnone] at hmem
    cases hmem
  · have hset := (filter_set_single hc halive rfl (.handling data)).2
    simp only [KeyUpdater.loopHead, hlist]
    refine ⟨h.nodup, h.entry, h.value, h.bound, Or.inr ?_, h.control, ?_, ?_, h.notified⟩
    · exact ⟨data, rest, _, hlist, hset, Or.inr rfl⟩
    · intro j call hj hcall
      have hsound := h.calls j call hj hcall
      exact ⟨hsound.key, hsound.began, hsound.value, hsound.launching, hsound.suspended,
        hsound.returned, hsound.plain⟩
    · intro x
      refine ⟨(h.waiters x).1, ?_⟩
      intro w hw
      have hwaiter := (h.waiters x).2 w hw
      exact ⟨hwaiter.state, hwaiter.invoked, hwaiter.call⟩

/-- The coroutine that is in the handler is at the first of the list. -/
theorem handling (h : Sound none s) {c data : ℕ} (hc : s.coros[c]? = some (.handling data)) :
    ∃ rest, s.list = data :: rest ∧ s.coros.filter CoroPc.alive = [.handling data] := by
  rcases h.coro with ⟨-, hnone⟩ | ⟨data', rest, pc, hlist, halive, hpc⟩
  · have hmem : CoroPc.handling data ∈ s.coros.filter CoroPc.alive :=
      List.mem_filter.mpr ⟨List.mem_of_getElem? hc, rfl⟩
    rw [hnone] at hmem
    cases hmem
  · have hsame := (filter_set_single hc halive rfl .ended).1
    rcases hpc with heq | heq
    · rw [heq] at hsame
      cases hsame
    · rw [heq] at hsame halive
      cases hsame
      exact ⟨rest, hlist, halive⟩

/-- The first of the list, `d`, has got its value; all who wait for it are notified. -/
def given [DecidableEq K] (s : KeyUpdater K V) (c data : ℕ) (d : WaitData K V) (aValue : V)
    (rest : List ℕ) : KeyUpdater K V :=
  { s with
    heap := s.heap.set data
      { d with value := some aValue, waiters := d.waiters.map fun w => (w.1, w.2.notify) }
    finished := s.finished ++ [(d.key, aValue)]
    notified := s.notified ++ d.waiters.map Prod.fst
    waiters := Function.update s.waiters d.key none
    list := rest
    coros := s.coros.set c (rest.head?.elim .ended .handling) }

/-- Notifying changes no owner. -/
theorem notify_owners (d : WaitData K V) :
    (d.waiters.map fun w => (w.1, w.2.notify)).map Prod.fst = d.waiters.map Prod.fst := by
  rw [List.map_map]
  rfl

/-- What is left of the list is what was in it, without its first. -/
theorem mem_rest (h : Sound none s) {data : ℕ} {rest : List ℕ} (hlist : s.list = data :: rest)
    (x : ℕ) :
    x ∈ rest ↔ x ∈ s.list ∧ x ≠ data := by
  have hnotin : data ∉ rest := (List.nodup_cons.mp (hlist ▸ h.nodup)).1
  rw [hlist, List.mem_cons]
  constructor
  · intro hx
    exact ⟨Or.inr hx, fun heq => hnotin (heq ▸ hx)⟩
  · rintro ⟨heq | hx, hne⟩
    · exact absurd heq hne
    · exact hx

/-- Who is notified now had not been notified before. -/
theorem notified_once (h : Sound none s) {data : ℕ} {rest : List ℕ}
    (hd : s.heap[data]? = some d) (hlist : s.list = data :: rest) :
    (s.notified ++ d.waiters.map Prod.fst).Nodup ∧
      ∀ j ∈ s.notified ++ d.waiters.map Prod.fst,
        ∃ call, s.calls[j]? = some call ∧ call.data ∉ rest := by
  have hin : data ∈ s.list := hlist ▸ List.mem_cons_self
  have hwaiters := h.waiters data
  rw [waitersOf_eq hd] at hwaiters
  have hcalls : ∀ j ∈ d.waiters.map Prod.fst,
      ∃ call, s.calls[j]? = some call ∧ call.data = data := by
    intro j hj
    obtain ⟨w, hw, rfl⟩ := List.mem_map.mp hj
    obtain ⟨call, hcall, hdata, -⟩ := (hwaiters.2 w hw).call
    exact ⟨call, hcall, hdata⟩
  constructor
  · rw [List.nodup_append]
    refine ⟨h.notified.1, hwaiters.1, ?_⟩
    rintro j hj j' hj' rfl
    obtain ⟨call, hcall, hout⟩ := h.notified.2 j hj
    obtain ⟨call', hcall', hdata⟩ := hcalls j hj'
    rw [hcall] at hcall'
    cases hcall'
    exact hout (hdata ▸ hin)
  · intro j hj
    rcases List.mem_append.mp hj with hold | hnew
    · obtain ⟨call, hcall, hout⟩ := h.notified.2 j hold
      exact ⟨call, hcall, fun hmem => hout ((h.mem_rest hlist _).mp hmem).1⟩
    · obtain ⟨call, hcall, hdata⟩ := hcalls j hnew
      exact ⟨call, hcall, fun hmem => ((h.mem_rest hlist _).mp hmem).2 hdata⟩

section
variable [DecidableEq K] {c data : ℕ} {rest : List ℕ} {aValue : V}

theorem refreshed_eq (hd : s.heap[data]? = some d) (hlist : s.list = data :: rest) :
    s.refreshed c data aValue false = given s c data d aValue rest := by
  rw [KeyUpdater.refreshed, hd]
  simp only [Bool.false_eq_true, if_false, hlist, List.tail_cons, KeyUpdater.loopHead, given]
  cases rest <;> rfl

theorem given_keyOf (hd : s.heap[data]? = some d) :
    keyOf (given s c data d aValue rest).heap = keyOf s.heap := by
  rw [given]
  exact keyOf_set hd (some aValue) (d.waiters.map fun w => (w.1, w.2.notify))

theorem given_valueOf (hd : s.heap[data]? = some d) :
    valueOf (given s c data d aValue rest).heap =
      Function.update (valueOf s.heap) data (some aValue) :=
  valueOf_set hd { d with
    value := some aValue, waiters := d.waiters.map fun w => (w.1, w.2.notify) }

theorem given_waitersOf (hd : s.heap[data]? = some d) :
    waitersOf (given s c data d aValue rest).heap =
      Function.update (waitersOf s.heap) data (d.waiters.map fun w => (w.1, w.2.notify)) :=
  waitersOf_set hd { d with
    value := some aValue, waiters := d.waiters.map fun w => (w.1, w.2.notify) }

theorem given_entry (h : Sound none s) (hd : s.heap[data]? = some d)
    (hlist : s.list = data :: rest) (k : K) (x : ℕ) :
    (given s c data d aValue rest).waiters k = some x ↔
      x ∈ rest ∧ keyOf (given s c data d aValue rest).heap x = some k := by
  have hin : data ∈ s.list := hlist ▸ List.mem_cons_self
  have hkeyOf := keyOf_eq hd
  rw [given_keyOf hd, h.mem_rest hlist, given]
  dsimp only
  rw [Function.update_apply]
  by_cases hk : k = d.key
  · rw [if_pos hk, hk]
    constructor
    · intro heq
      cases heq
    · rintro ⟨⟨hx, hne⟩, hkey⟩
      have hself := (h.entry d.key data).mpr ⟨hin, hkeyOf⟩
      rw [(h.entry d.key x).mpr ⟨hx, hkey⟩] at hself
      exact absurd (Option.some.inj hself) hne
  · rw [if_neg hk, h.entry k x]
    constructor
    · rintro ⟨hx, hkey⟩
      refine ⟨⟨hx, ?_⟩, hkey⟩
      rintro rfl
      rw [hkeyOf] at hkey
      exact hk (Option.some.inj hkey).symm
    · rintro ⟨⟨hx, -⟩, hkey⟩
      exact ⟨hx, hkey⟩

theorem given_value (h : Sound none s) (hd : s.heap[data]? = some d)
    (hlist : s.list = data :: rest) {x : ℕ} (hx : x < s.heap.length) :
    valueOf (given s c data d aValue rest).heap x = none ↔ x ∈ rest := by
  rw [given_valueOf hd, Function.update_apply, h.mem_rest hlist]
  by_cases hxd : x = data
  · rw [if_pos hxd]
    constructor
    · intro heq
      cases heq
    · intro hmem
      exact absurd hxd hmem.2
  · rw [if_neg hxd, h.value x hx]
    exact ⟨fun hmem => ⟨hmem, hxd⟩, And.left⟩

theorem given_call (h : Sound none s) (hd : s.heap[data]? = some d)
    (hlist : s.list = data :: rest) {j : ℕ} {call : Call K V} (hsound : CallSound s j call) :
    CallSound (given s c data d aValue rest) j call := by
  have hin : data ∈ s.list := hlist ▸ List.mem_cons_self
  constructor
  · rw [given_keyOf hd]
    exact hsound.key
  · rw [given]
    dsimp only
    rw [List.length_append]
    exact Nat.le_trans hsound.began (Nat.le_add_right _ _)
  · intro v hv
    rw [given_valueOf hd, Function.update_apply] at hv
    rw [given]
    split_ifs at hv with hdata
    · cases hv
      refine ⟨s.finished.length, hsound.began, ?_⟩
      have hkey := hsound.key
      rw [hdata, keyOf_eq hd] at hkey
      rw [List.getElem?_concat_length, Option.some.inj hkey]
    · obtain ⟨n, hn, hget⟩ := hsound.value v hv
      refine ⟨n, hn, ?_⟩
      rw [List.getElem?_append_left (lt_of_getElem? hget)]
      exact hget
  · exact hsound.launching
  · intro hsuspended
    obtain ⟨hmem, hnot⟩ := hsound.suspended hsuspended
    rw [given_waitersOf hd, Function.update_apply, given]
    dsimp only
    rw [List.mem_append, not_or]
    by_cases hdata : call.data = data
    · rw [hdata, waitersOf_eq hd] at hmem
      rw [if_pos hdata, notify_owners]
      exact ⟨hmem, fun hboth => absurd hmem hboth.2⟩
    · rw [if_neg hdata]
      exact ⟨hmem, fun hboth => (h.mem_rest hlist _).mpr ⟨hnot hboth.1, hdata⟩⟩
  · intro v hreturned
    have hv := hsound.returned v hreturned
    rw [given_valueOf hd, Function.update_apply]
    split_ifs with hdata
    · rw [hdata, (h.value data (h.bound data hin)).mpr hin] at hv
      cases hv
    · exact hv
  · exact hsound.plain

theorem given_waiters (h : Sound none s) (hd : s.heap[data]? = some d) (x : ℕ) :
    ((waitersOf (given s c data d aValue rest).heap x).map Prod.fst).Nodup ∧
      ∀ w ∈ waitersOf (given s c data d aValue rest).heap x,
        WaiterSound (given s c data d aValue rest) x w := by
  have hwaiters := h.waiters data
  rw [waitersOf_eq hd] at hwaiters
  rw [given_waitersOf hd, Function.update_apply]
  split_ifs with hx
  · rw [notify_owners]
    refine ⟨hwaiters.1, ?_⟩
    intro w hw
    obtain ⟨w₀, hw₀, rfl⟩ := List.mem_map.mp hw
    have hwaiter := hwaiters.2 w₀ hw₀
    refine ⟨?_, fun _ => ?_, hx ▸ hwaiter.call⟩
    · simp only [Waiter.notify, hwaiter.state]
    · exact List.mem_append_right _ (List.mem_map.mpr ⟨w₀, hw₀, rfl⟩)
  · refine ⟨(h.waiters x).1, ?_⟩
    intro w hw
    have hwaiter := (h.waiters x).2 w hw
    exact ⟨hwaiter.state, fun hpos => List.mem_append_left _ (hwaiter.invoked hpos),
      hwaiter.call⟩

theorem refreshed (h : Sound none s) (hc : s.coros[c]? = some (.handling data))
    (hcontrol : s.control = none) (aValue : V) :
    Sound none (s.refreshed c data aValue false) := by
  obtain ⟨rest, hlist, halive⟩ := h.handling hc
  obtain ⟨d, hd⟩ : ∃ d, s.heap[data]? = some d :=
    ⟨_, List.getElem?_eq_getElem (h.bound data (hlist ▸ List.mem_cons_self))⟩
  rw [refreshed_eq hd hlist]
  constructor
  · exact (List.nodup_cons.mp (hlist ▸ h.nodup)).2
  · exact h.given_entry hd hlist
  · intro x hx
    refine h.given_value hd hlist ?_
    rwa [given, List.length_set] at hx
  · intro x hx
    rw [given, List.length_set]
    exact h.bound x ((h.mem_rest hlist x).mp hx).1
  · have hset := (filter_set_single hc halive rfl (rest.head?.elim .ended .handling)).2
    rw [given]
    dsimp only
    rw [hset]
    cases rest with
    | nil => exact Or.inl ⟨rfl, rfl⟩
    | cons next rest => exact Or.inr ⟨next, rest, _, rfl, rfl, Or.inr rfl⟩
  · intro j hj
    cases hcontrol.symm.trans hj
  · intro j call hj hcall
    exact h.given_call hd hlist (h.calls j call hj hcall)
  · exact h.given_waiters hd
  · exact h.notified_once hd hlist

end

end Sound

/-! ## Runs -/

/-- Handlers and callbacks return. -/
def Normal : Event K V → Prop
  | .returns _ _ aThrows => aThrows = false
  | .throws _ => False
  | _ => True

instance : (e : Event K V) → Decidable (Normal e)
  | .call _ _ => inferInstanceAs (Decidable True)
  | .launched => inferInstanceAs (Decidable True)
  | .starts _ => inferInstanceAs (Decidable True)
  | .returns _ _ aThrows => inferInstanceAs (Decidable (aThrows = false))
  | .throws _ => inferInstanceAs (Decidable False)
  | .resumes _ => inferInstanceAs (Decidable True)

/-- No handler returns before the `co_spawn` that it is called from. -/
def Suspends (s : KeyUpdater K V) : Event K V → Prop
  | .returns _ _ _ => s.control = none
  | _ => True

instance (s : KeyUpdater K V) : (e : Event K V) → Decidable (Suspends s e)
  | .call _ _ => inferInstanceAs (Decidable True)
  | .launched => inferInstanceAs (Decidable True)
  | .starts _ => inferInstanceAs (Decidable True)
  | .returns _ _ _ => inferInstanceAs (Decidable (s.control = none))
  | .throws _ => inferInstanceAs (Decidable True)
  | .resumes _ => inferInstanceAs (Decidable True)

theorem keyStep_sound [DecidableEq K] (s : KeyUpdater K V) (e : Event K V) (h : Sound none s)
    (he : Normal e ∧ Suspends s e) : Holds (Sound none) (keyStep s e) := by
  cases e with
  | call aWait aKey =>
      simp only [keyStep]
      split_ifs
      · exact ⟨_, rfl, h.begin_call aWait aKey⟩
      · exact ⟨s, rfl, h⟩
  | launched => exact h.launched
  | starts c =>
      simp only [keyStep]
      split
      next hc => exact ⟨_, rfl, h.starts hc⟩
      next => exact ⟨s, rfl, h⟩
  | returns c aValue aThrows =>
      obtain ⟨hnormal, hsuspends⟩ := he
      cases hnormal
      simp only [keyStep]
      split
      next data hc => exact ⟨_, rfl, h.refreshed hc hsuspends aValue⟩
      next => exact ⟨s, rfl, h⟩
  | throws c => exact he.1.elim
  | resumes i =>
      simp only [keyStep]
      split_ifs
      · exact h.resumes i
      · exact ⟨s, rfl, h⟩

/-- The list is not empty if and only if one coroutine works on it, and who waits is in
the list. -/
def Unstuck (s : KeyUpdater K V) : Prop :=
  (s.list ≠ [] ↔ (s.coros.filter CoroPc.alive).length = 1) ∧
  ∀ i call, s.calls[i]? = some call → call.pc = .suspended → i ∉ s.notified → call.data ∈ s.list

theorem Sound.unstuck {s : KeyUpdater K V} (h : Sound none s) : Unstuck s := by
  constructor
  · rcases h.coro with ⟨hlist, halive⟩ | ⟨data, rest, pc, hlist, halive, -⟩
    · simp [hlist, halive]
    · simp [hlist, halive]
  · intro i call hcall hsuspended hnot
    exact ((h.calls i call (by simp) hcall).suspended hsuspended).2 hnot

/-- If no handler or callback throws, and no handler returns inside `co_spawn`, the
updater is never stuck. -/
theorem keyUpdater_unstuck [DecidableEq K] (es : List (Event K V))
    (hes : Meets (lift keyStep) (On fun s e => Normal e ∧ Suspends s e)
      (some ({} : KeyUpdater K V)) es) :
    Holds Unstuck (run (lift keyStep) (some ({} : KeyUpdater K V)) es) :=
  (lift_invariant keyStep_sound Sound.start hes).mono fun _ h => h.unstuck

/-- What the calls of `Wait` get. -/
structure Coalesced (s : KeyUpdater K V) : Prop where
  handlers : (s.coros.filter CoroPc.inHandler).length ≤ 1
  keys : (s.list.map (keyOf s.heap)).Nodup
  values : ∀ (i : ℕ) (call : Call K V) (r : Option V), s.calls[i]? = some call →
    call.wait = true → call.pc = .returned r →
    ∃ v j, r = some v ∧ call.began ≤ j ∧ s.finished[j]? = some (call.key, v)
  same : ∀ (i i' : ℕ) (call call' : Call K V) (r r' : Option V),
    s.calls[i]? = some call → s.calls[i']? = some call' → call.wait = true →
    call'.wait = true → call.data = call'.data → call.pc = .returned r →
    call'.pc = .returned r' → r = r'
  once : s.notified.Nodup
  none_left : s.list = [] → ∀ (i : ℕ) (call : Call K V), s.calls[i]? = some call →
    call.pc = .suspended → i ∈ s.notified

theorem Sound.returned_value {s : KeyUpdater K V} (h : Sound none s) {i : ℕ} {call : Call K V}
    {r : Option V} (hcall : s.calls[i]? = some call) (hwait : call.wait = true)
    (hreturned : call.pc = .returned r) : ∃ v, r = some v ∧ valueOf s.heap call.data = some v := by
  have hsound := h.calls i call (by simp) hcall
  cases r with
  | none =>
      have hplain := hsound.plain hreturned
      rw [hwait] at hplain
      cases hplain
  | some v => exact ⟨v, rfl, hsound.returned v hreturned⟩

theorem Sound.coalesced {s : KeyUpdater K V} (h : Sound none s) : Coalesced s := by
  constructor
  · have hsub : s.coros.filter CoroPc.inHandler =
        (s.coros.filter CoroPc.alive).filter CoroPc.inHandler := by
      rw [List.filter_filter]
      apply List.filter_congr
      intro pc _
      cases pc <;> rfl
    rw [hsub]
    refine Nat.le_trans (List.length_filter_le _ _) ?_
    rcases h.coro with ⟨-, halive⟩ | ⟨data, rest, pc, -, halive, -⟩
    · simp [halive]
    · simp [halive]
  · apply List.Nodup.map_on ?_ h.nodup
    intro x hx y hy heq
    obtain ⟨d, hd⟩ : ∃ d, s.heap[x]? = some d :=
      ⟨_, List.getElem?_eq_getElem (h.bound x hx)⟩
    have hkey := keyOf_eq hd
    have hentry := (h.entry d.key x).mpr ⟨hx, hkey⟩
    rw [(h.entry d.key y).mpr ⟨hy, heq ▸ hkey⟩] at hentry
    exact (Option.some.inj hentry).symm
  · intro i call r hcall hwait hreturned
    obtain ⟨v, rfl, hv⟩ := h.returned_value hcall hwait hreturned
    obtain ⟨j, hj, hfinished⟩ := (h.calls i call (by simp) hcall).value v hv
    exact ⟨v, j, rfl, hj, hfinished⟩
  · intro i i' call call' r r' hcall hcall' hwait hwait' hdata hreturned hreturned'
    obtain ⟨v, rfl, hv⟩ := h.returned_value hcall hwait hreturned
    obtain ⟨v', rfl, hv'⟩ := h.returned_value hcall' hwait' hreturned'
    rw [hdata, hv'] at hv
    exact hv.symm
  · exact h.notified.1
  · intro hlist i call hcall hsuspended
    by_contra hnot
    have hmem := ((h.calls i call (by simp) hcall).suspended hsuspended).2 hnot
    rw [hlist] at hmem
    cases hmem

/-- All who wait for a key get the value of one handler call that returned after they
began, unless a handler returns inside `co_spawn`. -/
theorem keyUpdater_coalesces [DecidableEq K] (es : List (Event K V))
    (hes : Meets (lift keyStep) (On fun s e => Normal e ∧ Suspends s e)
      (some ({} : KeyUpdater K V)) es) :
    Holds Coalesced (run (lift keyStep) (some ({} : KeyUpdater K V)) es) :=
  (lift_invariant keyStep_sound Sound.start hes).mono fun _ h => h.coalesced

/-- Two calls for one key. -/
def joinedRun : List (Event ℕ ℕ) :=
  [.call true 1, .starts 0, .launched, .call true 1, .returns 0 7 false, .resumes 0, .resumes 1]

theorem keyUpdater_unstuck_joined :
    Meets (lift keyStep) (On fun s e => Normal e ∧ Suspends s e) (some {}) joinedRun ∧
      Holds Unstuck (run (lift keyStep) (some {}) joinedRun) := by
  have hes : Meets (lift keyStep) (On fun s e => Normal e ∧ Suspends s e) (some {}) joinedRun := by
    decide
  exact ⟨hes, keyUpdater_unstuck joinedRun hes⟩

theorem keyUpdater_coalesces_joined :
    Meets (lift keyStep) (On fun s e => Normal e ∧ Suspends s e) (some {}) joinedRun ∧
      (run (lift keyStep) (some {}) joinedRun).map (·.calls.map Call.pc) =
        some [.returned (some 7), .returned (some 7)] ∧
      Holds Coalesced (run (lift keyStep) (some {}) joinedRun) := by
  have hes : Meets (lift keyStep) (On fun s e => Normal e ∧ Suspends s e) (some {}) joinedRun := by
    decide
  exact ⟨hes, by decide, keyUpdater_coalesces joinedRun hes⟩

/-- A handler that throws ends the coroutine and leaves the list as it is. -/
theorem keyUpdater_stuck_after_throw :
    ∃ (es : List (Event ℕ ℕ)) (s : KeyUpdater ℕ ℕ), run (lift keyStep) (some {}) es = some s ∧
      s.list = [0] ∧ s.coros.filter CoroPc.alive = [] ∧ s.calls.map Call.pc = [.suspended] ∧
      s.notified = [] ∧ ¬Unstuck s := by
  refine ⟨[.call true 1, .starts 0, .launched, .throws 0], _, rfl, rfl, rfl, rfl, rfl, ?_⟩
  intro h
  exact absurd (h.1.mp (by decide)) (by decide)

/-- A handler that returns inside `co_spawn` takes the entry of the caller away. -/
theorem keyUpdater_dangling_reference :
    ∃ es : List (Event ℕ ℕ), (∀ e ∈ es, Normal e) ∧ run (lift keyStep) (some {}) es = none :=
  ⟨[.call true 1, .starts 0, .returns 0 7 false, .launched], by decide, rfl⟩

end Stuff.CoroKeyUpdater
