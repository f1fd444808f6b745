import Stuff.CoroWaiter
import Stuff.EventRuns
import Stuff.Holders
import Mathlib.Data.List.Range

/-!
# Map and reduce with coroutines

`Coro::MapReduce`: some coroutines share one iterator and map the elements; each
result goes to a queue. A reducer coroutine is spawned when the queue gets its first
element, and works it off. The reducer that finds all elements reduced notifies the
caller, who waits for the mapping coroutines first.
-/
namespace Stuff.CoroMapReduce
open EventRuns Holders CoroWaiter

variable {A B R : Type}

/-- A mapping coroutine: not started, in the mapper with an element, in `co_spawn` of
the reducer, or over. -/
inductive WorkerPc
  | spawned
  | mapping (i : ℕ)
  | spawning
  | ended
  | threw
deriving DecidableEq, Repr

inductive ReducerPc
  | spawned
  | reducing
  | ended
  | threw
deriving DecidableEq, Repr

def WorkerPc.alive : WorkerPc → Bool
  | .ended => false
  | .threw => false
  | _ => true

def WorkerPc.inMapper : WorkerPc → Bool
  | .mapping _ => true
  | _ => false

def ReducerPc.alive : ReducerPc → Bool
  | .ended => false
  | .threw => false
  | _ => true

/-- The caller waits for the group, then for the waiter. -/
inductive CallerPc (R : Type)
  | joining
  | waiting
  | returned (aResult : R)
deriving DecidableEq, Repr

/-- The local variables, where the coroutines are, and the history: elements passed to
the mapper, its results, and those that the reducer has returned for. A result is
known by the place of its element. -/
structure MapReduce (A B R : Type) where
  data : List A
  result : R
  next : ℕ := 0
  queue : List (ℕ × B) := []
  counter : ℕ := 0
  waiter : Waiter := {}
  workers : List WorkerPc := []
  reducers : List ReducerPc := []
  caller : CallerPc R := .joining
  mapped : List A := []
  results : List (ℕ × B) := []
  reduced : List (ℕ × B) := []

namespace MapReduce

/-- All coroutines are spawned, and the caller waits for them. -/
def start (aData : List A) (aResult : R) (aMax : ℕ) : MapReduce A B R where
  data := aData
  result := aResult
  workers := List.replicate aMax .spawned

/-- The head of the loop in `sHandler`. -/
def mapHead (s : MapReduce A B R) (w : ℕ) : MapReduce A B R :=
  match s.data[s.next]? with
  | none => { s with workers := s.workers.set w .ended }
  | some a =>
      { s with
        workers := s.workers.set w (.mapping s.next)
        next := s.next + 1
        mapped := s.mapped ++ [a] }

/-- The head of the loop in `sReducer`, and what follows the loop. -/
def reduceHead (s : MapReduce A B R) (c : ℕ) : MapReduce A B R :=
  match s.queue with
  | [] =>
      { s with
        reducers := s.reducers.set c .ended
        waiter := if s.counter = s.data.length then s.waiter.notify else s.waiter }
  | _ :: _ => { s with reducers := s.reducers.set c .reducing }

/-- The mapper returns. -/
def mapReturns (s : MapReduce A B R) (w i : ℕ) (b : B) : MapReduce A B R :=
  let sNext : MapReduce A B R :=
    { s with queue := s.queue ++ [(i, b)], results := s.results ++ [(i, b)] }
  if s.queue = [] then
    { sNext with workers := s.workers.set w .spawning, reducers := s.reducers ++ [.spawned] }
  else sNext.mapHead w

/-- The reducer returns, with a new result. -/
def reduceReturns (s : MapReduce A B R) (c : ℕ) (r : R) : MapReduce A B R :=
  reduceHead
    { s with
      result := r
      counter := s.counter + 1
      reduced := s.reduced ++ s.queue.take 1
      queue := s.queue.tail } c

end MapReduce

inductive Event (B R : Type)
  | workerStarts (w : ℕ)
  | mapReturns (w : ℕ) (b : B)
  | mapThrows (w : ℕ)
  | continues (w : ℕ)
  | reducerStarts (c : ℕ)
  | reduceReturns (c : ℕ) (r : R)
  | reduceThrows (c : ℕ)
  | joins
  | resumes

/-- One segment of a coroutine, up to its next suspension. -/
def mapReduceStep (s : MapReduce A B R) : Event B R → MapReduce A B R
  | .workerStarts w =>
      match s.workers[w]? with
      | some .spawned => s.mapHead w
      | _ => s
  | .mapReturns w b =>
      match s.workers[w]? with
      | some (.mapping i) => s.mapReturns w i b
      | _ => s
  | .mapThrows w =>
      match s.workers[w]? with
      | some (.mapping _) => { s with workers := s.workers.set w .threw }
      | _ => s
  | .continues w =>
      match s.workers[w]? with
      | some .spawning => s.mapHead w
      | _ => s
  | .reducerStarts c =>
      match s.reducers[c]? with
      | some .spawned => s.reduceHead c
      | _ => s
  | .reduceReturns c r =>
      match s.reducers[c]? with
      | some .reducing => s.reduceReturns c r
      | _ => s
  | .reduceThrows c =>
      match s.reducers[c]? with
      | some .reducing => { s with reducers := s.reducers.set c .threw }
      | _ => s
  | .joins =>
      match s.caller with
      | .joining =>
          if s.workers.any WorkerPc.alive then s
          else { s with waiter := s.waiter.wait, caller := .waiting }
      | _ => s
  | .resumes =>
      match s.caller with
      | .waiting => if 0 < s.waiter.invoked then { s with caller := .returned s.result } else s
      | _ => s

/-- Mappers and reducers return. -/
def Normal : Event B R → Prop
  | .mapThrows _ => False
  | .reduceThrows _ => False
  | _ => True

instance : (e : Event B R) → Decidable (Normal e)
  | .workerStarts _ => inferInstanceAs (Decidable True)
  | .mapReturns _ _ => inferInstanceAs (Decidable True)
  | .mapThrows _ => inferInstanceAs (Decidable False)
  | .continues _ => inferInstanceAs (Decidable True)
  | .reducerStarts _ => inferInstanceAs (Decidable True)
  | .reduceReturns _ _ => inferInstanceAs (Decidable True)
  | .reduceThrows _ => inferInstanceAs (Decidable False)
  | .joins => inferInstanceAs (Decidable True)
  | .resumes => inferInstanceAs (Decidable True)

/-! ## The invariant -/

/-- The element that a coroutine has in the mapper. -/
def WorkerPc.inFlight : WorkerPc → List ℕ
  | .mapping i => [i]
  | _ => []

/-- Whether the waiter was notified, as far as the caller can tell. -/
def WaiterSound (notified : Prop) (w : Waiter) : CallerPc R → Prop
  | .joining => w.invoked = 0 ∧ (notified ∧ w.state = .ready ∨ ¬notified ∧ w.state = .idle)
  | .waiting => notified ∧ w.invoked = 1 ∨ ¬notified ∧ w.state = .waiting ∧ w.invoked = 0
  | .returned _ => notified

/-- Each element below the iterator is in the mapper or has its result; the results are
reduced in their order. A reducer is there if and only if the queue is not empty. -/
structure Sound (aData : List A) (aMax : ℕ) (s : MapReduce A B R) : Prop where
  data : s.data = aData
  threads : s.workers.length = aMax
  next_le : s.next ≤ aData.length
  mapped : s.mapped = aData.take s.next
  places : (held WorkerPc.inFlight s.workers ++ s.results.map Prod.fst).Perm (List.range s.next)
  results : s.results = s.reduced ++ s.queue
  counter : s.counter = s.reduced.length
  reducer : s.queue = [] ∧ s.reducers.filter ReducerPc.alive = [] ∨
    s.queue ≠ [] ∧ ∃ pc, s.reducers.filter ReducerPc.alive = [pc]
  waiter : WaiterSound (s.counter = aData.length) s.waiter s.caller
  joined : s.caller ≠ .joining → ∀ pc ∈ s.workers, pc.alive = false
  ended : ∀ pc ∈ s.workers, pc.alive = false → s.next = aData.length

namespace Sound
variable {aData : List A} {aMax : ℕ} {s : MapReduce A B R}

theorem start (hdata : aData ≠ []) (aResult : R) (aMax : ℕ) :
    Sound aData aMax (.start aData aResult aMax : MapReduce A B R) := by
  have hlength : aData.length ≠ 0 := fun h => hdata (List.length_eq_zero_iff.mp h)
  constructor
  · rfl
  · exact List.length_replicate
  · exact Nat.zero_le _
  · rfl
  · simp [MapReduce.start, held, WorkerPc.inFlight]
  · rfl
  · rfl
  · exact Or.inl ⟨rfl, rfl⟩
  · exact ⟨rfl, Or.inr ⟨fun h => hlength h.symm, rfl⟩⟩
  · intro h
    exact absurd rfl h
  · intro pc hpc halive
    rw [List.eq_of_mem_replicate hpc] at halive
    cases halive

/-- There are not more results than elements taken. -/
theorem length_results (h : Sound aData aMax s) : s.results.length ≤ s.next := by
  have hlength := h.places.length_eq
  rw [List.length_append, List.length_map, List.length_range] at hlength
  omega

theorem counter_add (h : Sound aData aMax s) :
    s.counter + s.queue.length ≤ aData.length := by
  have hlength := h.length_results
  have hnext := h.next_le
  rw [h.results, List.length_append] at hlength
  rw [h.counter]
  omega

/-- A coroutine that is alive keeps the caller in the group. -/
theorem joining (h : Sound aData aMax s) {w : ℕ} {pc : WorkerPc} (hw : s.workers[w]? = some pc)
    (halive : pc.alive = true) : s.caller = .joining := by
  by_contra hne
  have hover := h.joined hne pc (List.mem_of_getElem? hw)
  rw [halive] at hover
  cases hover

theorem mapHead (h : Sound aData aMax s) {w : ℕ} {pc : WorkerPc} (hw : s.workers[w]? = some pc)
    (halive : pc.alive = true) (hflight : pc.inFlight = []) : Sound aData aMax (s.mapHead w) := by
  have hjoining := h.joining hw halive
  unfold MapReduce.mapHead
  split
  next hnone =>
    have hheld := held_set_perm hw WorkerPc.inFlight .ended
    rw [hflight, show WorkerPc.ended.inFlight = [] from rfl, List.append_nil,
      List.append_nil] at hheld
    rw [h.data, List.getElem?_eq_none_iff] at hnone
    exact ⟨h.data, (List.length_set).trans h.threads, h.next_le, h.mapped,
      (hheld.append_right _).trans h.places, h.results, h.counter, h.reducer, h.waiter,
      fun hne => absurd hjoining hne, fun _ _ _ => Nat.le_antisymm h.next_le hnone⟩
  next a hsome =>
    have hheld := held_set_perm hw WorkerPc.inFlight (.mapping s.next)
    rw [hflight, List.append_nil] at hheld
    rw [h.data] at hsome
    obtain ⟨hlt, hget⟩ := List.getElem?_eq_some_iff.mp hsome
    constructor
    · exact h.data
    · exact (List.length_set).trans h.threads
    · exact hlt
    · rw [h.mapped, List.take_add_one, hsome]
      rfl
    · rw [List.range_succ]
      refine List.Perm.trans ?_ (h.places.append_right [s.next])
      refine (hheld.append_right _).trans ?_
      rw [List.append_assoc, List.append_assoc]
      exact List.perm_append_comm.append_left _
    · exact h.results
    · exact h.counter
    · exact h.reducer
    · exact h.waiter
    · intro hne
      exact absurd hjoining hne
    · intro pc' hpc' halive'
      rcases List.mem_or_eq_of_mem_set hpc' with hmem | heq
      · exact absurd (h.ended pc' hmem halive') (Nat.ne_of_lt hlt)
      · rw [heq] at halive'
        cases halive'

/-- The result of the mapper is in the queue, and the queue has its reducer. -/
theorem push (h : Sound aData aMax s) {w i : ℕ} (hw : s.workers[w]? = some (.mapping i)) (b : B)
    {reducers : List ReducerPc} (hreducers : s.queue = [] ∧ reducers = s.reducers ++ [.spawned] ∨
      s.queue ≠ [] ∧ reducers = s.reducers) :
    Sound aData aMax
      { s with
        queue := s.queue ++ [(i, b)]
        results := s.results ++ [(i, b)]
        workers := s.workers.set w .spawning
        reducers := reducers } := by
  have hjoining := h.joining hw rfl
  have hheld := held_set_perm hw WorkerPc.inFlight .spawning
  rw [show WorkerPc.spawning.inFlight = [] from rfl, List.append_nil] at hheld
  constructor
  · exact h.data
  · exact (List.length_set).trans h.threads
  · exact h.next_le
  · exact h.mapped
  · dsimp only
    rw [List.map_append]
    refine List.Perm.trans ?_ h.places
    have hmove : (held WorkerPc.inFlight (s.workers.set w .spawning) ++
        (s.results.map Prod.fst ++ [(i, b)].map Prod.fst)).Perm
        (held WorkerPc.inFlight (s.workers.set w .spawning) ++ [i] ++ s.results.map Prod.fst) := by
      rw [List.append_assoc]
      exact List.perm_append_comm.append_left _
    exact hmove.trans (hheld.append_right _)
  · dsimp only
    rw [h.results, List.append_assoc]
  · exact h.counter
  · right
    refine ⟨by simp, ?_⟩
    rcases hreducers with ⟨hqueue, rfl⟩ | ⟨hqueue, rfl⟩
    · rcases h.reducer with ⟨-, hnone⟩ | ⟨hne, -⟩
      · exact ⟨.spawned, by rw [List.filter_append, hnone]; rfl⟩
      · exact absurd hqueue hne
    · rcases h.reducer with ⟨hempty, -⟩ | ⟨-, hone⟩
      · exact absurd hempty hqueue
      · exact hone
  · exact h.waiter
  · intro hne
    exact absurd hjoining hne
  · intro pc hpc halive
    rcases List.mem_or_eq_of_mem_set hpc with hmem | heq
    · exact h.ended pc hmem halive
    · rw [heq] at halive
      cases halive

theorem mapReturns (h : Sound aData aMax s) {w i : ℕ} (hw : s.workers[w]? = some (.mapping i))
    (b : B) : Sound aData aMax (s.mapReturns w i b) := by
  have hlt := (List.getElem?_eq_some_iff.mp hw).1
  unfold MapReduce.mapReturns
  split_ifs with hqueue
  · exact h.push hw b (Or.inl ⟨hqueue, rfl⟩)
  · have hpush := (h.push hw b (Or.inr ⟨hqueue, rfl⟩)).mapHead (List.getElem?_set_self hlt) rfl rfl
    unfold MapReduce.mapHead at hpush ⊢
    simpa only [List.set_set] using hpush

/-- The reducer is there as long as the queue is not empty. -/
theorem queue_ne_nil (h : Sound aData aMax s) {c : ℕ} {pc : ReducerPc}
    (hc : s.reducers[c]? = some pc) (halive : pc.alive = true) :
    s.queue ≠ [] ∧ s.reducers.filter ReducerPc.alive = [pc] := by
  rcases h.reducer with ⟨-, hnone⟩ | ⟨hne, pc₀, hone⟩
  · have hmem : pc ∈ s.reducers.filter ReducerPc.alive :=
      List.mem_filter.mpr ⟨List.mem_of_getElem? hc, halive⟩
    rw [hnone] at hmem
    cases hmem
  · rw [(filter_set_single hc hone halive .ended).1]
    exact ⟨hne, hone⟩

theorem reducerStarts (h : Sound aData aMax s) {c : ℕ} (hc : s.reducers[c]? = some .spawned) :
    Sound aData aMax (s.reduceHead c) := by
  obtain ⟨hne, hone⟩ := h.queue_ne_nil hc rfl
  have hset := (filter_set_single hc hone rfl .reducing).2
  unfold MapReduce.reduceHead
  split
  next hempty => exact absurd hempty hne
  next =>
    exact ⟨h.data, h.threads, h.next_le, h.mapped, h.places, h.results, h.counter,
      Or.inr ⟨hne, .reducing, hset⟩, h.waiter, h.joined, h.ended⟩

/-- The last reduction notifies the waiter. -/
theorem waiter_notify {w : Waiter} {caller : CallerPc R} {p q : Prop} (h : WaiterSound p w caller)
    (hp : ¬p) (hq : q) : WaiterSound q w.notify caller := by
  cases caller with
  | joining =>
      obtain ⟨hinvoked, ⟨hp', -⟩ | ⟨-, hstate⟩⟩ := h
      · exact absurd hp' hp
      · simp only [WaiterSound, Waiter.notify, hstate]
        exact ⟨hinvoked, Or.inl ⟨hq, trivial⟩⟩
  | waiting =>
      obtain ⟨hp', -⟩ | ⟨-, hstate, hinvoked⟩ := h
      · exact absurd hp' hp
      · simp only [WaiterSound, Waiter.notify, hstate, hinvoked]
        exact Or.inl ⟨hq, trivial⟩
  | returned r => exact absurd h hp

theorem reduceReturns (h : Sound aData aMax s) {c : ℕ} (hc : s.reducers[c]? = some .reducing)
    (r : R) : Sound aData aMax (s.reduceReturns c r) := by
  obtain ⟨hne, hone⟩ := h.queue_ne_nil hc rfl
  have hcounter := h.counter_add
  obtain ⟨x, rest, hqueue⟩ := List.exists_cons_of_ne_nil hne
  rw [hqueue, List.length_cons] at hcounter
  have hnot : ¬s.counter = aData.length := by omega
  have hresults : s.results = s.reduced ++ [x] ++ rest := by
    rw [h.results, hqueue, List.append_assoc, List.singleton_append]
  have hlength : s.counter + 1 = (s.reduced ++ [x]).length := by
    rw [List.length_append, h.counter, List.length_singleton]
  unfold MapReduce.reduceReturns MapReduce.reduceHead
  rw [hqueue]
  simp only [List.take_succ_cons, List.take_zero, List.tail_cons]
  cases rest with
  | nil =>
      have hset := (filter_set_single hc hone rfl .ended).2
      refine ⟨h.data, h.threads, h.next_le, h.mapped, h.places, hresults, hlength,
        Or.inl ⟨rfl, hset⟩, ?_, h.joined, h.ended⟩
      dsimp only
      rw [h.data]
      split_ifs with hall
      · exact waiter_notify h.waiter hnot hall
      · have hwaiter := h.waiter
        rw [eq_false hnot] at hwaiter
        rw [eq_false hall]
        exact hwaiter
  | cons y rest =>
      have hset := (filter_set_single hc hone rfl .reducing).2
      rw [List.length_cons] at hcounter
      refine ⟨h.data, h.threads, h.next_le, h.mapped, h.places, hresults, hlength,
        Or.inr ⟨by simp, .reducing, hset⟩, ?_, h.joined, h.ended⟩
      have hwaiter := h.waiter
      rw [eq_false hnot] at hwaiter
      dsimp only
      rw [eq_false (show ¬s.counter + 1 = aData.length by omega)]
      exact hwaiter

theorem joins (h : Sound aData aMax s) (hcaller : s.caller = .joining)
    (hover : ¬s.workers.any WorkerPc.alive = true) :
    Sound aData aMax { s with waiter := s.waiter.wait, caller := .waiting } := by
  have hwaiter := h.waiter
  rw [hcaller] at hwaiter
  refine ⟨h.data, h.threads, h.next_le, h.mapped, h.places, h.results, h.counter, h.reducer,
    ?_, ?_, h.ended⟩
  · obtain ⟨hinvoked, ⟨hp, hstate⟩ | ⟨hp, hstate⟩⟩ := hwaiter
    · simp only [WaiterSound, Waiter.wait, hstate, hinvoked]
      exact Or.inl ⟨hp, trivial⟩
    · simp only [WaiterSound, Waiter.wait, hstate, hinvoked]
      exact Or.inr ⟨hp, trivial, trivial⟩
  · intro _ pc hpc
    by_contra halive
    apply hover
    rw [List.any_eq_true]
    exact ⟨pc, hpc, by simpa using halive⟩

theorem resumes (h : Sound aData aMax s) (hcaller : s.caller = .waiting)
    (hinvoked : 0 < s.waiter.invoked) :
    Sound aData aMax { s with caller := .returned s.result } := by
  have hwaiter := h.waiter
  rw [hcaller] at hwaiter
  refine ⟨h.data, h.threads, h.next_le, h.mapped, h.places, h.results, h.counter, h.reducer, ?_,
    fun _ => h.joined (by rw [hcaller]; simp), h.ended⟩
  obtain ⟨hp, -⟩ | ⟨-, -, hzero⟩ := hwaiter
  · exact hp
  · omega

theorem step (h : Sound aData aMax s) (e : Event B R) (he : Normal e) :
    Sound aData aMax (mapReduceStep s e) := by
  cases e with
  | workerStarts w =>
      simp only [mapReduceStep]
      split
      next hw => exact h.mapHead hw rfl rfl
      next => exact h
  | mapReturns w b =>
      simp only [mapReduceStep]
      split
      next i hw => exact h.mapReturns hw b
      next => exact h
  | mapThrows w => exact he.elim
  | continues w =>
      simp only [mapReduceStep]
      split
      next hw => exact h.mapHead hw rfl rfl
      next => exact h
  | reducerStarts c =>
      simp only [mapReduceStep]
      split
      next hc => exact h.reducerStarts hc
      next => exact h
  | reduceReturns c r =>
      simp only [mapReduceStep]
      split
      next hc => exact h.reduceReturns hc r
      next => exact h
  | reduceThrows c => exact he.elim
  | joins =>
      simp only [mapReduceStep]
      split
      next hcaller =>
        split_ifs with hover
        · exact h
        · exact h.joins hcaller hover
      next => exact h
  | resumes =>
      simp only [mapReduceStep]
      split
      next hcaller =>
        split_ifs with hinvoked
        · exact h.resumes hcaller hinvoked
        · exact h
      next => exact h

end Sound

/-! ## Progress -/

def WorkerPc.cost : WorkerPc → ℕ
  | .spawned => 2
  | .mapping _ => 6
  | .spawning => 2
  | .ended => 0
  | .threw => 0

def ReducerPc.cost : ReducerPc → ℕ
  | .spawned => 2
  | .reducing => 1
  | .ended => 0
  | .threw => 0

def CallerPc.cost : CallerPc R → ℕ
  | .joining => 2
  | .waiting => 1
  | .returned _ => 0

/-- The segments that are left, at most. -/
def measure (s : MapReduce A B R) : ℕ :=
  6 * (s.data.length - s.next) + (s.workers.map WorkerPc.cost).sum + s.queue.length +
    (s.reducers.map ReducerPc.cost).sum + s.caller.cost

section
variable {s : MapReduce A B R}

/-- What the coroutine was worth is gone. -/
theorem mapHead_measure {w : ℕ} {pc : WorkerPc} (hw : s.workers[w]? = some pc) :
    measure (s.mapHead w) + pc.cost = measure s := by
  unfold MapReduce.mapHead
  split
  next hnone =>
    have hsum := sum_map_set hw WorkerPc.cost .ended
    rw [show WorkerPc.ended.cost = 0 from rfl] at hsum
    simp only [measure]
    omega
  next a hsome =>
    have hsum := sum_map_set hw WorkerPc.cost (.mapping s.next)
    have hlt := (List.getElem?_eq_some_iff.mp hsome).1
    rw [show (WorkerPc.mapping s.next).cost = 6 from rfl] at hsum
    simp only [measure]
    omega

theorem mapReturns_measure {w i : ℕ} (hw : s.workers[w]? = some (.mapping i)) (b : B) :
    measure (s.mapReturns w i b) < measure s := by
  unfold MapReduce.mapReturns
  split_ifs with hqueue
  · have hsum := sum_map_set hw WorkerPc.cost .spawning
    rw [show WorkerPc.spawning.cost = 2 from rfl,
      show (WorkerPc.mapping i).cost = 6 from rfl] at hsum
    simp only [measure, List.length_append, List.length_singleton, List.map_append, List.map_cons,
      List.map_nil, List.sum_append, List.sum_cons, List.sum_nil, ReducerPc.cost]
    omega
  · dsimp only
    generalize hnext : ({ s with
      queue := s.queue ++ [(i, b)], results := s.results ++ [(i, b)] } : MapReduce A B R) = sNext
    have hw' : sNext.workers[w]? = some (.mapping i) := by
      rw [← hnext]
      exact hw
    have hhead := mapHead_measure hw'
    rw [show (WorkerPc.mapping i).cost = 6 from rfl] at hhead
    have hpush : measure sNext = measure s + 1 := by
      rw [← hnext]
      simp only [measure, List.length_append, List.length_singleton]
      omega
    omega

theorem reduceHead_measure {c : ℕ} {pc : ReducerPc} (hc : s.reducers[c]? = some pc) :
    measure (s.reduceHead c) + pc.cost ≤ measure s + 1 := by
  unfold MapReduce.reduceHead
  split
  next =>
    have hsum := sum_map_set hc ReducerPc.cost .ended
    rw [show ReducerPc.ended.cost = 0 from rfl] at hsum
    simp only [measure]
    omega
  next =>
    have hsum := sum_map_set hc ReducerPc.cost .reducing
    rw [show ReducerPc.reducing.cost = 1 from rfl] at hsum
    simp only [measure]
    omega

theorem reduceReturns_measure {c : ℕ} (hc : s.reducers[c]? = some .reducing) (hqueue : s.queue ≠ [])
    (r : R) : measure (s.reduceReturns c r) < measure s := by
  unfold MapReduce.reduceReturns
  generalize hnext : ({ s with
    result := r, counter := s.counter + 1, reduced := s.reduced ++ s.queue.take 1,
    queue := s.queue.tail } : MapReduce A B R) = sNext
  have hc' : sNext.reducers[c]? = some .reducing := by
    rw [← hnext]
    exact hc
  have hhead := reduceHead_measure hc'
  rw [show ReducerPc.reducing.cost = 1 from rfl] at hhead
  have hpop : measure sNext + 1 = measure s := by
    have hpos := List.length_pos_of_ne_nil hqueue
    rw [← hnext]
    simp only [measure, List.length_tail]
    omega
  omega

/-- Every segment that runs brings the end nearer. -/
theorem step_measure {aData : List A} {aMax : ℕ} (h : Sound aData aMax s) (e : Event B R)
    (he : Normal e) : mapReduceStep s e = s ∨ measure (mapReduceStep s e) < measure s := by
  cases e with
  | workerStarts w =>
      simp only [mapReduceStep]
      split
      next hw =>
        have hhead := mapHead_measure hw
        rw [show WorkerPc.spawned.cost = 2 from rfl] at hhead
        exact Or.inr (by omega)
      next => exact Or.inl rfl
  | mapReturns w b =>
      simp only [mapReduceStep]
      split
      next i hw => exact Or.inr (mapReturns_measure hw b)
      next => exact Or.inl rfl
  | mapThrows w => exact he.elim
  | continues w =>
      simp only [mapReduceStep]
      split
      next hw =>
        have hhead := mapHead_measure hw
        rw [show WorkerPc.spawning.cost = 2 from rfl] at hhead
        exact Or.inr (by omega)
      next => exact Or.inl rfl
  | reducerStarts c =>
      simp only [mapReduceStep]
      split
      next hc =>
        have hhead := reduceHead_measure hc
        rw [show ReducerPc.spawned.cost = 2 from rfl] at hhead
        exact Or.inr (by omega)
      next => exact Or.inl rfl
  | reduceReturns c r =>
      simp only [mapReduceStep]
      split
      next hc => exact Or.inr (reduceReturns_measure hc (h.queue_ne_nil hc rfl).1 r)
      next => exact Or.inl rfl
  | reduceThrows c => exact he.elim
  | joins =>
      simp only [mapReduceStep]
      split
      next hcaller =>
        split_ifs
        · exact Or.inl rfl
        · simp only [measure, hcaller, CallerPc.cost]
          exact Or.inr (by omega)
      next => exact Or.inl rfl
  | resumes =>
      simp only [mapReduceStep]
      split
      next hcaller =>
        split_ifs
        · simp only [measure, hcaller, CallerPc.cost]
          exact Or.inr (by omega)
        · exact Or.inl rfl
      next => exact Or.inl rfl

/-- The caller is suspended, nobody is there to wake it up, and nobody has. -/
def Stuck (s : MapReduce A B R) : Prop :=
  s.caller = .waiting ∧ (∀ pc ∈ s.workers, pc.alive = false) ∧
    (∀ pc ∈ s.reducers, pc.alive = false) ∧ s.waiter.invoked = 0

theorem inFlight_of_over {workers : List WorkerPc} (hover : ∀ pc ∈ workers, pc.alive = false) :
    held WorkerPc.inFlight workers = [] := by
  unfold held
  rw [List.flatMap_eq_nil_iff]
  intro pc hpc
  have halive := hover pc hpc
  cases pc <;> first | rfl | cases halive

/-- With all elements mapped, what is not reduced is in the queue. -/
theorem Sound.queue_of_over {aData : List A} {aMax : ℕ} (h : Sound aData aMax s) (hmax : 0 < aMax)
    (hover : ∀ pc ∈ s.workers, pc.alive = false) (hcounter : s.counter ≠ aData.length) :
    s.queue ≠ [] := by
  have hpos : 0 < s.workers.length := h.threads ▸ hmax
  have hnext := h.ended _ (List.getElem_mem hpos) (hover _ (List.getElem_mem hpos))
  have hlength := h.places.length_eq
  rw [inFlight_of_over hover, List.nil_append, List.length_map, List.length_range, h.results,
    List.length_append, ← h.counter, hnext] at hlength
  intro hempty
  rw [hempty, List.length_nil] at hlength
  omega

theorem Sound.not_stuck {aData : List A} {aMax : ℕ} (h : Sound aData aMax s) (hmax : 0 < aMax) :
    ¬Stuck s := by
  rintro ⟨hcaller, hworkers, hreducers, hinvoked⟩
  have hwaiter := h.waiter
  rw [hcaller] at hwaiter
  obtain ⟨-, hone⟩ | ⟨hcounter, -⟩ := hwaiter
  · omega
  · have hqueue := h.queue_of_over hmax hworkers hcounter
    rcases h.reducer with ⟨hempty, -⟩ | ⟨-, pc, hone⟩
    · exact hqueue hempty
    · have hmem : pc ∈ s.reducers.filter ReducerPc.alive := by
        rw [hone]
        exact List.mem_singleton_self pc
      obtain ⟨hpc, halive⟩ := List.mem_filter.mp hmem
      rw [hreducers pc hpc] at halive
      cases halive

/-- What the executor can run while all mappers and reducers are suspended. -/
def Resumption : Event B R → Prop
  | .workerStarts _ => True
  | .continues _ => True
  | .reducerStarts _ => True
  | .joins => True
  | .resumes => True
  | _ => False

/-- Until the caller has returned, a call of the mapper or of the reducer is in flight,
or there is something to run. -/
def Busy (s : MapReduce A B R) : Prop :=
  (∃ w i : ℕ, s.workers[w]? = some (.mapping i)) ∨
    (∃ c : ℕ, s.reducers[c]? = some .reducing) ∨
    ∃ e, Resumption e ∧ measure (mapReduceStep s e) < measure s

theorem Sound.busy {aData : List A} {aMax : ℕ} (h : Sound aData aMax s) (hmax : 0 < aMax)
    (hreturned : ∀ r, s.caller ≠ .returned r) : Busy s := by
  have hwaiter := h.waiter
  cases hcaller : s.caller with
  | joining =>
      by_cases hany : s.workers.any WorkerPc.alive = true
      · rw [List.any_eq_true] at hany
        obtain ⟨pc, hpc, halive⟩ := hany
        obtain ⟨w, hw⟩ := List.mem_iff_getElem?.mp hpc
        cases pc with
        | spawned =>
            have hhead := mapHead_measure hw
            rw [show WorkerPc.spawned.cost = 2 from rfl] at hhead
            refine Or.inr (Or.inr ⟨.workerStarts w, trivial, ?_⟩)
            simp only [mapReduceStep, hw]
            omega
        | mapping i => exact Or.inl ⟨w, i, hw⟩
        | spawning =>
            have hhead := mapHead_measure hw
            rw [show WorkerPc.spawning.cost = 2 from rfl] at hhead
            refine Or.inr (Or.inr ⟨.continues w, trivial, ?_⟩)
            simp only [mapReduceStep, hw]
            omega
        | ended => cases halive
        | threw => cases halive
      · refine Or.inr (Or.inr ⟨.joins, trivial, ?_⟩)
        simp only [mapReduceStep, hcaller, if_neg hany, measure, CallerPc.cost]
        omega
  | waiting =>
      rw [hcaller] at hwaiter
      obtain ⟨-, hone⟩ | ⟨hcounter, -⟩ := hwaiter
      · refine Or.inr (Or.inr ⟨.resumes, trivial, ?_⟩)
        simp only [mapReduceStep, hcaller, hone, Nat.one_pos, if_true, measure, CallerPc.cost]
        omega
      · have hover := h.joined (by rw [hcaller]; simp)
        have hqueue := h.queue_of_over hmax hover hcounter
        rcases h.reducer with ⟨hempty, -⟩ | ⟨-, pc, hone⟩
        · exact absurd hempty hqueue
        · have hmem : pc ∈ s.reducers.filter ReducerPc.alive := by
            rw [hone]
            exact List.mem_singleton_self pc
          obtain ⟨hpc, halive⟩ := List.mem_filter.mp hmem
          obtain ⟨c, hc⟩ := List.mem_iff_getElem?.mp hpc
          cases pc with
          | spawned =>
              have hhead := reduceHead_measure hc
              rw [show ReducerPc.spawned.cost = 2 from rfl] at hhead
              refine Or.inr (Or.inr ⟨.reducerStarts c, trivial, ?_⟩)
              simp only [mapReduceStep, hc]
              omega
          | reducing => exact Or.inr (Or.inl ⟨c, hc⟩)
          | ended => cases halive
          | threw => cases halive
  | returned r => exact absurd hcaller (hreturned r)

end

/-! ## Runs -/

/-- What the claims of the call are. Elements are mapped in their order; each has one
result, or is in the mapper; results are reduced in the order in which they came. -/
structure ExactlyOnce (aData : List A) (aMax : ℕ) (s : MapReduce A B R) : Prop where
  mapped : s.mapped = aData.take s.next
  places : (held WorkerPc.inFlight s.workers ++ s.results.map Prod.fst).Perm (List.range s.next)
  reduced : s.reduced <+: s.results
  mappers : (s.workers.filter WorkerPc.inMapper).length ≤ aMax
  reducers : (s.reducers.filter (· = .reducing)).length ≤ 1
  returned : ∀ r, s.caller = .returned r → s.mapped = aData ∧
    (s.results.map Prod.fst).Perm (List.range aData.length) ∧ s.reduced = s.results ∧
    (∀ pc ∈ s.workers, pc.alive = false) ∧ ∀ pc ∈ s.reducers, pc.alive = false
  busy : (∀ r, s.caller ≠ .returned r) → Busy s
  ends : ∀ e, Normal e → mapReduceStep s e = s ∨ measure (mapReduceStep s e) < measure s

theorem Sound.exactlyOnce {aData : List A} {aMax : ℕ} {s : MapReduce A B R}
    (h : Sound aData aMax s) (hmax : 0 < aMax) : ExactlyOnce aData aMax s := by
  constructor
  · exact h.mapped
  · exact h.places
  · rw [h.results]
    exact List.prefix_append _ _
  · exact h.threads ▸ List.length_filter_le _ _
  · have hsub : s.reducers.filter (· = .reducing) =
        (s.reducers.filter ReducerPc.alive).filter (· = .reducing) := by
      rw [List.filter_filter]
      apply List.filter_congr
      intro pc _
      cases pc <;> rfl
    rw [hsub]
    refine Nat.le_trans (List.length_filter_le _ _) ?_
    rcases h.reducer with ⟨-, hnone⟩ | ⟨-, pc, hone⟩
    · simp [hnone]
    · simp [hone]
  · intro r hr
    have hcounter : s.counter = aData.length := by
      have hwaiter := h.waiter
      rw [hr] at hwaiter
      exact hwaiter
    have hnext : s.next = aData.length := by
      have hlength := h.length_results
      have hle := h.next_le
      rw [h.results, List.length_append, ← h.counter] at hlength
      omega
    have hqueue : s.queue = [] := by
      have hadd := h.counter_add
      exact List.length_eq_zero_iff.mp (by omega)
    have hover := h.joined (by rw [hr]; simp)
    refine ⟨?_, ?_, ?_, hover, ?_⟩
    · rw [h.mapped, hnext, List.take_length]
    · have hplaces := h.places
      rw [inFlight_of_over hover, List.nil_append, hnext] at hplaces
      exact hplaces
    · rw [h.results, hqueue, List.append_nil]
    · intro pc hpc
      rcases h.reducer with ⟨-, hnone⟩ | ⟨hne, -⟩
      · rw [List.filter_eq_nil_iff] at hnone
        exact Bool.eq_false_iff.mpr (hnone pc hpc)
      · exact absurd hqueue hne
  · exact h.busy hmax
  · exact step_measure h

theorem run_sound {aData : List A} (hdata : aData ≠ []) (aResult : R) (aMax : ℕ)
    {es : List (Event B R)} (hes : ∀ e ∈ es, Normal e) :
    Sound aData aMax (run mapReduceStep (.start aData aResult aMax) es) :=
  run_invariant (fun _ e h he => h.step e he) (Sound.start hdata aResult aMax)
    (meets_of_forall (fun e he _ => hes e he) _)

/-- Mappers and reducers that return: at every moment of every run each element was
mapped at most once and each result reduced at most once, one after another; when the
caller returns, exactly once. Every run comes to that: what can still run brings the
end nearer, and there is always something that can. -/
theorem mapReduce_exactly_once {aData : List A} (hdata : aData ≠ []) (aResult : R) {aMax : ℕ}
    (hmax : 0 < aMax) (es : List (Event B R)) (hes : ∀ e ∈ es, Normal e) :
    ExactlyOnce aData aMax (run mapReduceStep (.start aData aResult aMax) es) :=
  (run_sound hdata aResult aMax hes).exactlyOnce hmax

/-- Two elements and two coroutines. -/
def twoRun : List (Event ℕ ℕ) :=
  [.workerStarts 0, .workerStarts 1, .mapReturns 1 20, .reducerStarts 0, .continues 1,
    .mapReturns 0 10, .reduceReturns 0 20, .joins, .reduceReturns 0 30, .resumes]

theorem mapReduce_exactly_once_two :
    (run mapReduceStep (.start [1, 2] 0 2) twoRun).caller = .returned 30 ∧
      ExactlyOnce [1, 2] 2 (run mapReduceStep (.start [1, 2] 0 2) twoRun) :=
  ⟨by decide, mapReduce_exactly_once (by decide) 0 (by decide) twoRun (by decide)⟩

/-- With an element to reduce and without an exception the caller is never stuck. -/
theorem mapReduce_not_stuck {aData : List A} (hdata : aData ≠ []) (aResult : R) {aMax : ℕ}
    (hmax : 0 < aMax) (es : List (Event B R)) (hes : ∀ e ∈ es, Normal e) :
    ¬Stuck (run mapReduceStep (.start aData aResult aMax) es) :=
  (run_sound hdata aResult aMax hes).not_stuck hmax

theorem mapReduce_not_stuck_two :
    (run mapReduceStep (.start [1, 2] 0 2) (twoRun.take 8)).caller = .waiting ∧
      ¬Stuck (run mapReduceStep (.start [1, 2] 0 2) (twoRun.take 8)) :=
  ⟨by decide, mapReduce_not_stuck (by decide) 0 (by decide) (twoRun.take 8) (by decide)⟩

/-- Nothing to reduce, a mapper that throws, a reducer that throws. -/
theorem mapReduce_stuck :
    Stuck (run mapReduceStep (.start ([] : List ℕ) 0 1) [.workerStarts 0, .joins] :
      MapReduce ℕ ℕ ℕ) ∧
    Stuck (run mapReduceStep (.start [1] 0 1)
      [.workerStarts 0, .mapThrows 0, .joins] : MapReduce ℕ ℕ ℕ) ∧
    Stuck (run mapReduceStep (.start [1] 0 1)
      [.workerStarts 0, .mapReturns 0 10, .reducerStarts 0, .reduceThrows 0, .continues 0, .joins] :
      MapReduce ℕ ℕ ℕ) := by
  unfold Stuck
  decide

end Stuff.CoroMapReduce
