import Stuff.EventRuns
import Stuff.Holders
import Mathlib.Data.List.Perm.Subperm
import Mathlib.Data.List.Range

/-!
# A queue and the threads that work on it

`SafeQueue` is a queue under a mutex; `SafeQueueThread` runs a handler on its items
in several threads. A thread ends when `exiting` is true: after a stop, and with a
linger time only if nothing is left to do or the time is over. Each critical
section and each read of an atomic is one step, so the counters that `idle`
compares are read at different times.
-/
namespace Stuff.ThreadsSafeQueue
open EventRuns Holders

variable {T : Type}

/-- An item with its number in the order of the inserts. -/
structure Item (T : Type) where
  tag : ℕ
  value : T
deriving DecidableEq, Repr

/-- The container behind the queue: the element that `top` refers to, with the
elements that `pop` leaves. -/
structure Container (T : Type) where
  pop : List (Item T) → Option (Item T × List (Item T))
  perm : ∀ {l x rest}, pop l = some (x, rest) → l.Perm (x :: rest)
  empty : ∀ {l}, pop l = none → l = []

def popFront : List (Item T) → Option (Item T × List (Item T))
  | [] => none
  | x :: rest => some (x, rest)

/-- First in, first out. -/
def listWrapper : Container T where
  pop := popFront
  perm := by
    intro l x rest h
    cases l with
    | nil => cases h
    | cons y l =>
        cases h
        exact List.Perm.refl _
  empty := by
    intro l h
    cases l with
    | nil => rfl
    | cons y l => cases h

/-- The element with the least key. -/
def popLeast (key : T → ℕ) : List (Item T) → Option (Item T × List (Item T))
  | [] => none
  | x :: l =>
      match popLeast key l with
      | none => some (x, [])
      | some (y, rest) => if key x.value ≤ key y.value then some (x, l) else some (y, x :: rest)

theorem popLeast_eq_none {key : T → ℕ} {l : List (Item T)} (h : popLeast key l = none) :
    l = [] := by
  cases l with
  | nil => rfl
  | cons x l =>
      unfold popLeast at h
      split at h
      · cases h
      · split_ifs at h

theorem popLeast_spec {key : T → ℕ} {l rest : List (Item T)} {x : Item T}
    (h : popLeast key l = some (x, rest)) :
    l.Perm (x :: rest) ∧ ∀ y ∈ l, key x.value ≤ key y.value := by
  induction l generalizing x rest with
  | nil => cases h
  | cons a l ih =>
      unfold popLeast at h
      split at h
      next hnone =>
        cases h
        rw [popLeast_eq_none hnone]
        exact ⟨List.Perm.refl _, by simp⟩
      next y rest' hsome =>
        obtain ⟨hperm, hleast⟩ := ih hsome
        split_ifs at h with hle
        · cases h
          refine ⟨List.Perm.refl _, ?_⟩
          intro z hz
          rcases List.mem_cons.mp hz with heq | hmem
          · rw [heq]
          · exact Nat.le_trans hle (hleast z hmem)
        · cases h
          refine ⟨(hperm.cons a).trans (List.Perm.swap _ _ _), ?_⟩
          intro z hz
          rcases List.mem_cons.mp hz with heq | hmem
          · rw [heq]
            exact Nat.le_of_not_le hle
          · exact hleast z hmem

/-- A `std::priority_queue` with the least key on top. -/
def priorityQueue (key : T → ℕ) : Container T where
  pop := popLeast key
  perm := fun h => (popLeast_spec h).1
  empty := popLeast_eq_none

/-- The counter has 64 bits in the source; it is taken not to run round. -/
structure SafeQueue (T : Type) where
  list : List (Item T) := []
  stop : Bool := false
  counter : ℕ := 0

def SafeQueue.insert (q : SafeQueue T) (aItem : T) : SafeQueue T :=
  { q with list := q.list ++ [⟨q.counter, aItem⟩], counter := q.counter + 1 }

/-- What `wait` takes, once it has the mutex for the last time. An item that does
not pass the test stays, and the call returns false. -/
def SafeQueue.wait (q : SafeQueue T) (container : Container T) (aTest : T → Bool) :
    Option (Item T × SafeQueue T) :=
  match container.pop q.list with
  | none => none
  | some (x, rest) => if aTest x.value then some (x, { q with list := rest }) else none

structure Params where
  retry : Bool := false
  linger : ℤ := 0
deriving DecidableEq, Repr

/-- Where a thread is. `testing` is before a call of `exiting`, `reading` within it,
when the stop was seen and `idle` reads the two counters, in any order; the hand is
empty in the loop of the thread and holds the item in the loop of `handle`. -/
inductive Pc (T : Type)
  | testing (hand : Option (Item T))
  | reading (hand : Option (Item T)) (done count : Option ℕ)
  | waiting
  | calling (x : Item T)
  | handled (x : Item T)
  | exited
deriving DecidableEq, Repr

def Pc.hand : Pc T → List (Item T)
  | .testing hand => hand.toList
  | .reading hand _ _ => hand.toList
  | .waiting => []
  | .calling x => [x]
  | .handled x => [x]
  | .exited => []

/-- The next call of `wait`, or of the handler. -/
def Pc.going : Option (Item T) → Pc T
  | none => .waiting
  | some x => .calling x

/-- The end of the thread, or of `handle`. -/
def Pc.leaving : Option (Item T) → Pc T
  | none => .exited
  | some x => .handled x

@[simp] theorem Pc.hand_going (hand : Option (Item T)) : (Pc.going hand).hand = hand.toList := by
  cases hand <;> rfl

@[simp] theorem Pc.hand_leaving (hand : Option (Item T)) :
    (Pc.leaving hand).hand = hand.toList := by
  cases hand <;> rfl

/-- The fields of the class, the threads, and the history: the items passed to the
handler and the items that `m_Done` counts. -/
structure SafeQueueThread (T : Type) where
  params : Params := {}
  queue : SafeQueue T := {}
  done : ℕ := 0
  deadline : Bool := false
  workers : List (Pc T) := []
  calls : List (Item T) := []
  finished : List (Item T) := []

namespace SafeQueueThread

def setPc (s : SafeQueueThread T) (i : ℕ) (pc : Pc T) : SafeQueueThread T :=
  { s with workers := s.workers.set i pc }

def insert (s : SafeQueueThread T) (aItem : T) : SafeQueueThread T :=
  { s with queue := s.queue.insert aItem }

/-- `exiting` is false. -/
def proceed (s : SafeQueueThread T) (i : ℕ) (hand : Option (Item T)) : SafeQueueThread T :=
  { s.setPc i (.going hand) with calls := s.calls ++ hand.toList }

/-- `exiting` is true. -/
def leave (s : SafeQueueThread T) (i : ℕ) (hand : Option (Item T)) : SafeQueueThread T :=
  s.setPc i (.leaving hand)

/-- The handler returns. -/
def returns (s : SafeQueueThread T) (i : ℕ) : SafeQueueThread T :=
  match s.workers[i]? with
  | some (.calling x) => s.setPc i (.handled x)
  | _ => s

theorem returns_of_calling {s : SafeQueueThread T} {i : ℕ} {x : Item T}
    (h : s.workers[i]? = some (.calling x)) : s.returns i = s.setPc i (.handled x) := by
  unfold returns
  rw [h]

/-- The handler throws; it may have changed the item. -/
def throws (s : SafeQueueThread T) (i : ℕ) (aItem : T) : SafeQueueThread T :=
  match s.workers[i]? with
  | some (.calling x) =>
      if s.params.retry then s.setPc i (.testing (some { x with value := aItem }))
      else s.setPc i (.handled x)
  | _ => s

end SafeQueueThread

/-- The steps of the threads between the calls of the handler, and the stop. -/
inductive Loop
  | stop
  | test (i : ℕ)
  | readDone (i : ℕ)
  | readCount (i : ℕ)
  | decide (i : ℕ) (expired : Bool)
  | wait (i : ℕ)
  | finish (i : ℕ)
deriving DecidableEq, Repr

/-- At the stop the deadline is set first; nobody looks at it before the queue is
stopped, so both are one step. -/
def loopStep (container : Container T) (check : T → Bool) (s : SafeQueueThread T) :
    Loop → SafeQueueThread T
  | .stop =>
      { s with
        queue := { s.queue with stop := true }
        deadline := s.deadline || decide (0 < s.params.linger) }
  | .test i =>
      match s.workers[i]? with
      | some (.testing hand) =>
          if s.queue.stop then
            if s.deadline then s.setPc i (.reading hand none none) else s.leave i hand
          else s.proceed i hand
      | _ => s
  | .readDone i =>
      match s.workers[i]? with
      | some (.reading hand none count) => s.setPc i (.reading hand (some s.done) count)
      | _ => s
  | .readCount i =>
      match s.workers[i]? with
      | some (.reading hand done none) => s.setPc i (.reading hand done (some s.queue.counter))
      | _ => s
  | .decide i expired =>
      match s.workers[i]? with
      | some (.reading hand (some done) (some count)) =>
          if done = count ∨ expired = true then s.leave i hand else s.proceed i hand
      | _ => s
  | .wait i =>
      match s.workers[i]? with
      | some .waiting =>
          match s.queue.wait container check with
          | none => s.setPc i (.testing none)
          | some (x, queue) => { s.setPc i (.testing (some x)) with queue := queue }
      | _ => s
  | .finish i =>
      match s.workers[i]? with
      | some (.handled x) =>
          { s.setPc i (.testing none) with done := s.done + 1, finished := s.finished ++ [x] }
      | _ => s

/-! ## What a step can do -/

/-- The cases of a step, with what was tested on the way. -/
inductive Moves (container : Container T) (check : T → Bool) (s : SafeQueueThread T) :
    Loop → SafeQueueThread T → Prop
  | stay (l : Loop) : Moves container check s l s
  | stop : Moves container check s .stop
      { s with
        queue := { s.queue with stop := true }
        deadline := s.deadline || decide (0 < s.params.linger) }
  | look (i : ℕ) (hand : Option (Item T)) (hi : s.workers[i]? = some (.testing hand))
      (hstop : s.queue.stop = true) (hdeadline : s.deadline = true) :
      Moves container check s (.test i) (s.setPc i (.reading hand none none))
  | readDone (i : ℕ) (hand : Option (Item T)) (count : Option ℕ)
      (hi : s.workers[i]? = some (.reading hand none count)) :
      Moves container check s (.readDone i) (s.setPc i (.reading hand (some s.done) count))
  | readCount (i : ℕ) (hand : Option (Item T)) (done : Option ℕ)
      (hi : s.workers[i]? = some (.reading hand done none)) :
      Moves container check s (.readCount i)
        (s.setPc i (.reading hand done (some s.queue.counter)))
  | goOn (i : ℕ) (hand : Option (Item T)) (hi : s.workers[i]? = some (.testing hand))
      (hstop : s.queue.stop = false) : Moves container check s (.test i) (s.proceed i hand)
  | goOnLate (i : ℕ) (hand : Option (Item T)) (done count : ℕ)
      (hi : s.workers[i]? = some (.reading hand (some done) (some count))) (hne : done ≠ count) :
      Moves container check s (.decide i false) (s.proceed i hand)
  | giveUp (i : ℕ) (hand : Option (Item T)) (hi : s.workers[i]? = some (.testing hand))
      (hstop : s.queue.stop = true) (hdeadline : s.deadline = false) :
      Moves container check s (.test i) (s.leave i hand)
  | giveUpLate (i : ℕ) (hand : Option (Item T)) (done count : ℕ) (expired : Bool)
      (hi : s.workers[i]? = some (.reading hand (some done) (some count)))
      (hend : done = count ∨ expired = true) :
      Moves container check s (.decide i expired) (s.leave i hand)
  | take (i : ℕ) (x : Item T) (rest : List (Item T)) (hi : s.workers[i]? = some .waiting)
      (hpop : container.pop s.queue.list = some (x, rest)) (hcheck : check x.value = true) :
      Moves container check s (.wait i)
        { s.setPc i (.testing (some x)) with queue := { s.queue with list := rest } }
  | miss (i : ℕ) (hi : s.workers[i]? = some .waiting) :
      Moves container check s (.wait i) (s.setPc i (.testing none))
  | finish (i : ℕ) (x : Item T) (hi : s.workers[i]? = some (.handled x)) :
      Moves container check s (.finish i)
        { s.setPc i (.testing none) with done := s.done + 1, finished := s.finished ++ [x] }

theorem loopStep_moves (container : Container T) (check : T → Bool) (s : SafeQueueThread T)
    (l : Loop) : Moves container check s l (loopStep container check s l) := by
  cases l with
  | stop => exact .stop
  | test i =>
      simp only [loopStep]
      split
      next hand hi =>
        split_ifs with hstop hdeadline
        · exact .look i hand hi hstop hdeadline
        · exact .giveUp i hand hi hstop (Bool.eq_false_iff.mpr hdeadline)
        · exact .goOn i hand hi (Bool.eq_false_iff.mpr hstop)
      next => exact .stay _
  | readDone i =>
      simp only [loopStep]
      split
      next hand count hi => exact .readDone i hand count hi
      next => exact .stay _
  | readCount i =>
      simp only [loopStep]
      split
      next hand done hi => exact .readCount i hand done hi
      next => exact .stay _
  | decide i expired =>
      simp only [loopStep]
      split
      next hand done count hi =>
        split_ifs with hend
        · exact .giveUpLate i hand done count expired hi hend
        · rw [not_or, Bool.not_eq_true] at hend
          rw [hend.2]
          exact .goOnLate i hand done count hi hend.1
      next => exact .stay _
  | wait i =>
      simp only [loopStep]
      split
      next hi =>
        simp only [SafeQueue.wait]
        cases hpop : container.pop s.queue.list with
        | none => exact .miss i hi
        | some found =>
            dsimp only
            split_ifs with hcheck
            · exact .take i found.1 found.2 hi hpop hcheck
            · exact .miss i hi
      next => exact .stay _
  | finish i =>
      simp only [loopStep]
      split
      next x hi => exact .finish i x hi
      next => exact .stay _

/-! ## Where the items are -/

/-- In the queue, in a hand, or done. -/
def places (s : SafeQueueThread T) : List (Item T) :=
  s.queue.list ++ held Pc.hand s.workers ++ s.finished

/-- A thread goes on, with the same item in its hand. -/
theorem places_setPc {s : SafeQueueThread T} {i : ℕ} {pc : Pc T} (hi : s.workers[i]? = some pc)
    (pc' : Pc T) (hsame : pc'.hand = pc.hand) :
    (places (s.setPc i pc')).Perm (places s) := by
  have hheld := held_set_perm hi Pc.hand pc'
  rw [hsame] at hheld
  unfold places SafeQueueThread.setPc
  exact ((List.perm_append_right_iff _).mp hheld).append_left _ |>.append_right _

theorem Moves.params_eq {container : Container T} {check : T → Bool} {s s' : SafeQueueThread T}
    {l : Loop} (h : Moves container check s l s') : s'.params = s.params := by
  cases h <;> rfl

theorem Moves.places_perm {container : Container T} {check : T → Bool}
    {s s' : SafeQueueThread T} {l : Loop} (h : Moves container check s l s') :
    (places s').Perm (places s) := by
  cases h with
  | stay => exact List.Perm.refl _
  | stop => exact List.Perm.refl _
  | look i hand hi => exact places_setPc hi _ rfl
  | readDone i hand count hi => exact places_setPc hi _ rfl
  | readCount i hand done hi => exact places_setPc hi _ rfl
  | goOn i hand hi => exact places_setPc hi _ (Pc.hand_going hand)
  | goOnLate i hand done count hi => exact places_setPc hi _ (Pc.hand_going hand)
  | giveUp i hand hi => exact places_setPc hi _ (Pc.hand_leaving hand)
  | giveUpLate i hand done count expired hi => exact places_setPc hi _ (Pc.hand_leaving hand)
  | take i x rest hi hpop =>
      classical
      have hperm := container.perm hpop
      rw [List.perm_iff_count] at hperm ⊢
      intro y
      have hlist := hperm y
      have hheld := count_held_set hi Pc.hand (.testing (some x)) y
      simp only [Pc.hand, Option.toList_some, List.count_nil, List.count_cons] at hheld hlist
      simp only [places, SafeQueueThread.setPc, List.count_append]
      omega
  | miss i hi => exact places_setPc hi _ rfl
  | finish i x hi =>
      classical
      rw [List.perm_iff_count]
      intro y
      have hheld := count_held_set hi Pc.hand (.testing none) y
      simp only [Pc.hand, Option.toList_none, List.count_nil] at hheld
      simp only [places, SafeQueueThread.setPc, List.count_append]
      omega

/-- Every item inserted has its place, and `m_Done` counts those that are done. -/
structure Accounted (s : SafeQueueThread T) : Prop where
  tags : ((places s).map Item.tag).Perm (List.range s.queue.counter)
  done : s.finished.length = s.done

theorem accounted_start (params : Params) (n : ℕ) :
    Accounted ({ params := params, workers := List.replicate n (.testing none) } :
      SafeQueueThread T) := by
  constructor
  · simp [places, held, Pc.hand]
  · rfl

namespace Accounted
variable {s : SafeQueueThread T}

/-- The count of the source: pending, in a hand, done. -/
theorem count_eq (h : Accounted s) :
    s.queue.counter = s.queue.list.length + (held Pc.hand s.workers).length + s.done := by
  have hlen := h.tags.length_eq
  simp only [places, List.length_map, List.length_append, List.length_range] at hlen
  have hdone := h.done
  omega

theorem insert (h : Accounted s) (aItem : T) : Accounted (s.insert aItem) := by
  constructor
  · have htags := h.tags
    rw [List.perm_iff_count] at htags ⊢
    intro n
    have hcount := htags n
    simp only [places, List.map_append, List.count_append] at hcount
    simp only [places, SafeQueueThread.insert, SafeQueue.insert, List.map_append,
      List.count_append, List.map_cons, List.map_nil, List.range_succ]
    omega
  · exact h.done

theorem moves (h : Accounted s) {container : Container T} {check : T → Bool}
    {s' : SafeQueueThread T} {l : Loop} (hmoves : Moves container check s l s') :
    Accounted s' := by
  have hcounter : s'.queue.counter = s.queue.counter := by
    cases hmoves <;> rfl
  constructor
  · rw [hcounter]
    exact (hmoves.places_perm.map Item.tag).trans h.tags
  · cases hmoves with
    | finish i x hi => simp [h.done]
    | _ => exact h.done

theorem returns (h : Accounted s) (i : ℕ) : Accounted (s.returns i) := by
  unfold SafeQueueThread.returns
  split
  next x hi =>
    constructor
    · exact ((places_setPc hi (.handled x) rfl).map Item.tag).trans h.tags
    · exact h.done
  next => exact h

/-- A handler may change the item, not its number. -/
theorem throws (h : Accounted s) (i : ℕ) (aItem : T) : Accounted (s.throws i aItem) := by
  unfold SafeQueueThread.throws
  split
  next x hi =>
    split_ifs with hretry
    · constructor
      · refine List.Perm.trans ?_ h.tags
        have hheld := (held_set_perm hi Pc.hand (.testing (some { x with value := aItem }))).map
          Item.tag
        rw [List.map_append, List.map_append] at hheld
        have hsame := (List.perm_append_right_iff _).mp hheld
        simp only [places, SafeQueueThread.setPc, List.map_append]
        exact (hsame.append_left _).append_right _
      · exact h.done
    · constructor
      · exact ((places_setPc hi (.handled x) rfl).map Item.tag).trans h.tags
      · exact h.done
  next => exact h

theorem done_lt (h : Accounted s) {x : Item T} (hx : x ∈ held Pc.hand s.workers) :
    s.done < s.queue.counter := by
  have hpos := List.length_pos_of_mem hx
  have hcount := h.count_eq
  omega

end Accounted

/-! ## Items that a handler has still to see -/

/-- The item whose handler has not ended. -/
def Pc.todo : Pc T → List (Item T)
  | .testing hand => hand.toList
  | .reading hand _ _ => hand.toList
  | .calling x => [x]
  | _ => []

/-- The item that was taken and not passed to the handler yet. -/
def Pc.unheard : Pc T → List (Item T)
  | .testing hand => hand.toList
  | .reading hand _ _ => hand.toList
  | _ => []

/-- The items in the queue, and a part of those in the hands. -/
def pending (f : Pc T → List (Item T)) (s : SafeQueueThread T) : List (Item T) :=
  s.queue.list ++ held f s.workers

@[simp] theorem count_pending [DecidableEq T] (f : Pc T → List (Item T)) (s : SafeQueueThread T)
    (y : Item T) : (pending f s).count y = s.queue.list.count y + (held f s.workers).count y :=
  List.count_append

/-- A thread keeps its item until it goes on with it or gives it up, so no step but
an insert brings an item in. The weight says whether the calls count. -/
theorem Moves.pending_le [DecidableEq T] {container : Container T} {check : T → Bool}
    {s s' : SafeQueueThread T} {l : Loop} (h : Moves container check s l s')
    {f : Pc T → List (Item T)} (weight : ℕ) (y : Item T)
    (htest : ∀ hand, f (.testing hand) = hand.toList)
    (hread : ∀ hand done count, f (.reading hand done count) = hand.toList)
    (hwait : f .waiting = [])
    (hgo : ∀ hand, (f (.going hand)).count y + weight * hand.toList.count y ≤ hand.toList.count y)
    (hleave : ∀ hand, (f (.leaving hand)).count y ≤ hand.toList.count y) :
    (pending f s').count y + weight * s'.calls.count y ≤
      (pending f s).count y + weight * s.calls.count y := by
  rw [count_pending, count_pending]
  cases h with
  | stay => exact Nat.le_refl _
  | stop => exact Nat.le_refl _
  | look i hand hi =>
      have hset := count_held_set hi f (.reading hand none none) y
      rw [htest, hread] at hset
      simp only [SafeQueueThread.setPc]
      omega
  | readDone i hand count hi =>
      have hset := count_held_set hi f (.reading hand (some s.done) count) y
      rw [hread, hread] at hset
      simp only [SafeQueueThread.setPc]
      omega
  | readCount i hand done hi =>
      have hset := count_held_set hi f (.reading hand done (some s.queue.counter)) y
      rw [hread, hread] at hset
      simp only [SafeQueueThread.setPc]
      omega
  | goOn i hand hi =>
      have hset := count_held_set hi f (.going hand) y
      have hless := hgo hand
      rw [htest] at hset
      simp only [SafeQueueThread.proceed, SafeQueueThread.setPc, List.count_append, Nat.mul_add]
      omega
  | goOnLate i hand done count hi =>
      have hset := count_held_set hi f (.going hand) y
      have hless := hgo hand
      rw [hread] at hset
      simp only [SafeQueueThread.proceed, SafeQueueThread.setPc, List.count_append, Nat.mul_add]
      omega
  | giveUp i hand hi =>
      have hset := count_held_set hi f (.leaving hand) y
      have hless := hleave hand
      rw [htest] at hset
      simp only [SafeQueueThread.leave, SafeQueueThread.setPc]
      omega
  | giveUpLate i hand done count expired hi =>
      have hset := count_held_set hi f (.leaving hand) y
      have hless := hleave hand
      rw [hread] at hset
      simp only [SafeQueueThread.leave, SafeQueueThread.setPc]
      omega
  | take i x rest hi hpop =>
      have hlist := (container.perm hpop).count_eq y
      have hset := count_held_set hi f (.testing (some x)) y
      rw [htest, hwait, Option.toList_some, List.count_nil] at hset
      rw [← List.singleton_append, List.count_append] at hlist
      simp only [SafeQueueThread.setPc]
      omega
  | miss i hi =>
      have hset := count_held_set hi f (.testing none) y
      rw [htest, Option.toList_none, List.count_nil] at hset
      simp only [SafeQueueThread.setPc]
      omega
  | finish i x hi =>
      have hset := count_held_set hi f (.testing none) y
      rw [htest, Option.toList_none, List.count_nil] at hset
      simp only [SafeQueueThread.setPc]
      omega

/-- The handler ends, and with it the work on the item. -/
theorem todo_handled {s : SafeQueueThread T} {i : ℕ} {x : Item T}
    (hi : s.workers[i]? = some (.calling x)) :
    (x :: pending Pc.todo (s.setPc i (.handled x))).Perm (pending Pc.todo s) := by
  have hheld := held_set_perm hi Pc.todo (.handled x)
  simp only [Pc.todo, List.append_nil] at hheld
  refine List.perm_middle.symm.trans (List.Perm.append_left s.queue.list ?_)
  exact List.perm_append_comm.trans hheld

theorem Moves.todo_subperm {container : Container T} {check : T → Bool}
    {s s' : SafeQueueThread T} {l : Loop} (h : Moves container check s l s') :
    (pending Pc.todo s').Subperm (pending Pc.todo s) := by
  classical
  rw [List.subperm_iff_count]
  intro y
  have hle := h.pending_le (f := Pc.todo) 0 y (fun _ => rfl) (fun _ _ _ => rfl) rfl
    (by intro hand; cases hand <;> simp [Pc.going, Pc.todo])
    (by intro hand; cases hand <;> simp [Pc.leaving, Pc.todo])
  omega

theorem Moves.unheard_subperm {container : Container T} {check : T → Bool}
    {s s' : SafeQueueThread T} {l : Loop} (h : Moves container check s l s') :
    (pending Pc.unheard s' ++ s'.calls).Subperm (pending Pc.unheard s ++ s.calls) := by
  classical
  rw [List.subperm_iff_count]
  intro y
  have hle := h.pending_le (f := Pc.unheard) 1 y (fun _ => rfl) (fun _ _ _ => rfl) rfl
    (by intro hand; cases hand <;> simp [Pc.going, Pc.unheard])
    (by intro hand; cases hand <;> simp [Pc.leaving, Pc.unheard])
  rw [List.count_append, List.count_append]
  omega

/-! ## A stop with a linger time -/

/-- The item that was passed to the handler, while the thread has it. -/
def Pc.called : Pc T → List (Item T)
  | .calling x => [x]
  | .handled x => [x]
  | _ => []

theorem Pc.called_going (hand : Option (Item T)) : (Pc.going hand).called = hand.toList := by
  cases hand <;> rfl

/-- After the stop the count does not change, so what a thread read of it holds, and
a thread that is gone saw both counters equal. -/
def Pc.Sound (s : SafeQueueThread T) : Pc T → Prop
  | .reading _ done count => s.queue.stop = true ∧ (∀ d ∈ done, d ≤ s.done) ∧
      ∀ c ∈ count, c = s.queue.counter
  | .exited => s.queue.stop = true ∧ s.done = s.queue.counter
  | _ => True

structure Lingering (s : SafeQueueThread T) : Prop extends Accounted s where
  linger : 0 < s.params.linger
  deadline : s.queue.stop = true → s.deadline = true
  sound : ∀ pc ∈ s.workers, pc.Sound s
  called : ∀ x ∈ s.finished ++ held Pc.called s.workers, x.tag ∈ s.calls.map Item.tag
  once : s.params.retry = false → s.calls.Perm (s.finished ++ held Pc.called s.workers)

namespace Lingering
variable {s : SafeQueueThread T}

theorem start {params : Params} (hlinger : 0 < params.linger) (n : ℕ) :
    Lingering ({ params := params, workers := List.replicate n (.testing none) } :
      SafeQueueThread T) := by
  constructor
  · exact accounted_start params n
  · exact hlinger
  · intro hstop
    cases hstop
  · intro pc hpc
    rw [List.eq_of_mem_replicate hpc]
    trivial
  · simp [held, Pc.called]
  · simp [held, Pc.called]

theorem insert (h : Lingering s) (hstop : s.queue.stop = false) (aItem : T) :
    Lingering (s.insert aItem) := by
  constructor
  · exact h.toAccounted.insert aItem
  · exact h.linger
  · exact h.deadline
  · intro pc hpc
    have hsound := h.sound pc hpc
    cases pc with
    | reading hand done count => exact absurd (hsound.1.symm.trans hstop) (by simp)
    | exited => exact absurd (hsound.1.symm.trans hstop) (by simp)
    | _ => trivial
  · exact h.called
  · exact h.once

/-- A thread goes on, and nothing but its place changes. -/
theorem setPc (h : Lingering s) {i : ℕ} {pc pc' : Pc T} (hi : s.workers[i]? = some pc)
    (hhand : pc'.hand = pc.hand) (hcalled : pc'.called = pc.called) (hsound : pc'.Sound s) :
    Lingering (s.setPc i pc') := by
  have hperm : (held Pc.called (s.workers.set i pc')).Perm (held Pc.called s.workers) := by
    have hheld := held_set_perm hi Pc.called pc'
    rw [hcalled] at hheld
    exact (List.perm_append_right_iff _).mp hheld
  constructor
  · constructor
    · exact ((places_setPc hi pc' hhand).map Item.tag).trans h.tags
    · exact h.done
  · exact h.linger
  · exact h.deadline
  · intro pc₀ hpc₀
    rcases List.mem_or_eq_of_mem_set hpc₀ with hmem | heq
    · exact h.sound pc₀ hmem
    · rw [heq]
      exact hsound
  · intro x hx
    exact h.called x ((hperm.append_left s.finished).mem_iff.mp hx)
  · intro hretry
    exact (h.once hretry).trans (hperm.append_left s.finished).symm

theorem proceed (h : Lingering s) {i : ℕ} {pc : Pc T} {hand : Option (Item T)}
    (hi : s.workers[i]? = some pc) (hhand : pc.hand = hand.toList) (hcalled : pc.called = []) :
    Lingering (s.proceed i hand) := by
  have hheld := held_set_perm hi Pc.called (Pc.going hand)
  rw [hcalled, List.append_nil, Pc.called_going] at hheld
  constructor
  · constructor
    · exact ((places_setPc hi _ ((Pc.hand_going hand).trans hhand.symm)).map Item.tag).trans h.tags
    · exact h.done
  · exact h.linger
  · exact h.deadline
  · intro pc₀ hpc₀
    rcases List.mem_or_eq_of_mem_set hpc₀ with hmem | heq
    · exact h.sound pc₀ hmem
    · rw [heq]
      cases hand <;> trivial
  · intro x hx
    have hx' := (hheld.append_left s.finished).mem_iff.mp hx
    rw [← List.append_assoc, List.mem_append] at hx'
    simp only [SafeQueueThread.proceed, List.map_append, List.mem_append]
    rcases hx' with hmem | hmem
    · exact Or.inl (h.called x hmem)
    · exact Or.inr (List.mem_map_of_mem hmem)
  · intro hretry
    have hcalls := (h.once hretry).append_right hand.toList
    rw [List.append_assoc] at hcalls
    exact hcalls.trans (hheld.append_left s.finished).symm

theorem finish (h : Lingering s) {i : ℕ} {x : Item T} (hi : s.workers[i]? = some (.handled x)) :
    Lingering { s.setPc i (.testing none) with
      done := s.done + 1, finished := s.finished ++ [x] } := by
  have hlt := h.done_lt (mem_held hi (f := Pc.hand) (List.mem_singleton_self x))
  have hheld := held_set_perm hi Pc.called (.testing none)
  have hperm : (s.finished ++ [x] ++ held Pc.called (s.workers.set i (.testing none))).Perm
      (s.finished ++ held Pc.called s.workers) := by
    rw [List.append_assoc]
    apply List.Perm.append_left
    simp only [Pc.called, List.append_nil] at hheld
    exact List.perm_append_comm.trans hheld
  constructor
  · have hmoves : Moves listWrapper (fun _ => true) s (.finish i) _ := .finish i x hi
    exact h.toAccounted.moves hmoves
  · exact h.linger
  · exact h.deadline
  · intro pc hpc
    rcases List.mem_or_eq_of_mem_set hpc with hmem | heq
    · have hsound := h.sound pc hmem
      cases pc with
      | reading hand done count =>
          exact ⟨hsound.1, fun d hd => Nat.le_succ_of_le (hsound.2.1 d hd), hsound.2.2⟩
      | exited => exact absurd hsound.2 (Nat.ne_of_lt hlt)
      | _ => trivial
    · rw [heq]
      trivial
  · intro y hy
    exact h.called y (hperm.mem_iff.mp hy)
  · intro hretry
    exact (h.once hretry).trans hperm.symm

/-- While a thread has an item, the counters differ: `exiting` is not true for it
before the deadline. A thread that gives up has an empty hand, and so have all. -/
theorem moves (h : Lingering s) {container : Container T} {check : T → Bool}
    {s' : SafeQueueThread T} {l : Loop} (hmoves : Moves container check s l s')
    (hl : ∀ i, l ≠ .decide i true) : Lingering s' := by
  have haccounted := h.toAccounted.moves hmoves
  cases hmoves with
  | stay => exact h
  | stop =>
      constructor
      · exact haccounted
      · exact h.linger
      · intro _
        simp [h.linger]
      · intro pc hpc
        have hsound := h.sound pc hpc
        cases pc with
        | reading hand done count => exact ⟨rfl, hsound.2⟩
        | exited => exact ⟨rfl, hsound.2⟩
        | _ => trivial
      · exact h.called
      · exact h.once
  | look i hand hi hstop => exact h.setPc hi rfl rfl ⟨hstop, by simp, by simp⟩
  | readDone i hand count hi =>
      obtain ⟨hstop, -, hcount⟩ := h.sound _ (List.mem_of_getElem? hi)
      exact h.setPc hi rfl rfl ⟨hstop, by simp, hcount⟩
  | readCount i hand done hi =>
      obtain ⟨hstop, hdone, -⟩ := h.sound _ (List.mem_of_getElem? hi)
      exact h.setPc hi rfl rfl ⟨hstop, hdone, by simp⟩
  | goOn i hand hi => exact h.proceed hi rfl rfl
  | goOnLate i hand done count hi => exact h.proceed hi rfl rfl
  | giveUp i hand hi hstop hdeadline =>
      rw [h.deadline hstop] at hdeadline
      cases hdeadline
  | giveUpLate i hand done count expired hi hend =>
      have hequal : done = count := by
        rcases hend with hend | hexpired
        · exact hend
        · exact absurd (by rw [hexpired]) (hl i)
      obtain ⟨hstop, hdone, hcount⟩ := h.sound _ (List.mem_of_getElem? hi)
      have hle := hdone done rfl
      rw [hequal, hcount count rfl] at hle
      cases hand with
      | none =>
          have heq := h.toAccounted.count_eq
          exact h.setPc hi rfl rfl ⟨hstop, by omega⟩
      | some x =>
          have hlt := h.done_lt (mem_held hi (f := Pc.hand) (List.mem_singleton_self x))
          omega
  | take i x rest hi =>
      have hheld := held_set_perm hi Pc.called (.testing (some x))
      simp only [Pc.called, List.append_nil] at hheld
      constructor
      · exact haccounted
      · exact h.linger
      · exact h.deadline
      · intro pc hpc
        rcases List.mem_or_eq_of_mem_set hpc with hmem | heq
        · exact h.sound pc hmem
        · rw [heq]
          trivial
      · intro y hy
        exact h.called y ((hheld.append_left s.finished).mem_iff.mp hy)
      · intro hretry
        exact (h.once hretry).trans (hheld.append_left s.finished).symm
  | miss i hi => exact h.setPc hi rfl rfl trivial
  | finish i x hi => exact h.finish hi

theorem returns (h : Lingering s) (i : ℕ) : Lingering (s.returns i) := by
  unfold SafeQueueThread.returns
  split
  next x hi => exact h.setPc hi rfl rfl trivial
  next => exact h

theorem throws (h : Lingering s) (i : ℕ) (aItem : T) : Lingering (s.throws i aItem) := by
  have haccounted := h.toAccounted.throws i aItem
  unfold SafeQueueThread.throws at haccounted ⊢
  split at haccounted
  next x hi =>
    split_ifs at haccounted ⊢ with hretry
    · have hheld := held_set_perm hi Pc.called (.testing (some { x with value := aItem }))
      simp only [Pc.called, List.append_nil] at hheld
      constructor
      · exact haccounted
      · exact h.linger
      · exact h.deadline
      · intro pc hpc
        rcases List.mem_or_eq_of_mem_set hpc with hmem | heq
        · exact h.sound pc hmem
        · rw [heq]
          trivial
      · intro y hy
        apply h.called y
        apply (hheld.append_left s.finished).subset
        rw [← List.append_assoc]
        exact List.mem_append_left _ hy
      · intro hoff
        exact absurd (hretry.symm.trans hoff) (by simp)
    · exact h.setPc hi rfl rfl trivial
  next => exact h

end Lingering

/-! ## Runs -/

/-- The check of the queue may depend on anything, so each step has its own. -/
inductive Event (T : Type)
  | insert (aItem : T)
  | loop (check : T → Bool) (l : Loop)
  | returns (i : ℕ)
  | throws (i : ℕ) (aItem : T)

def threadStep (container : Container T) (s : SafeQueueThread T) : Event T → SafeQueueThread T
  | .insert aItem => s.insert aItem
  | .loop check l => loopStep container check s l
  | .returns i => s.returns i
  | .throws i aItem => s.throws i aItem

/-- Nothing is inserted after the stop, and the deadline does not expire. -/
def InTime (s : SafeQueueThread T) : Event T → Prop
  | .insert _ => s.queue.stop = false
  | .loop _ (.decide _ expired) => expired = false
  | _ => True

instance (s : SafeQueueThread T) : (e : Event T) → Decidable (InTime s e)
  | .insert _ => inferInstanceAs (Decidable (s.queue.stop = false))
  | .loop _ (.decide _ expired) => inferInstanceAs (Decidable (expired = false))
  | .loop _ .stop => inferInstanceAs (Decidable True)
  | .loop _ (.test _) => inferInstanceAs (Decidable True)
  | .loop _ (.readDone _) => inferInstanceAs (Decidable True)
  | .loop _ (.readCount _) => inferInstanceAs (Decidable True)
  | .loop _ (.wait _) => inferInstanceAs (Decidable True)
  | .loop _ (.finish _) => inferInstanceAs (Decidable True)
  | .returns _ => inferInstanceAs (Decidable True)
  | .throws _ _ => inferInstanceAs (Decidable True)

theorem threadStep_params (container : Container T) (s : SafeQueueThread T) (e : Event T) :
    (threadStep container s e).params = s.params := by
  cases e with
  | insert aItem => rfl
  | loop check l => exact (loopStep_moves container check s l).params_eq
  | returns i =>
      simp only [threadStep, SafeQueueThread.returns]
      split <;> rfl
  | throws i aItem =>
      simp only [threadStep, SafeQueueThread.throws]
      split
      · split_ifs <;> rfl
      · rfl

theorem threadStep_accounted (container : Container T) (s : SafeQueueThread T) (e : Event T)
    (h : Accounted s) : Accounted (threadStep container s e) := by
  cases e with
  | insert aItem => exact h.insert aItem
  | loop check l => exact h.moves (loopStep_moves container check s l)
  | returns i => exact h.returns i
  | throws i aItem => exact h.throws i aItem

theorem threadStep_lingering (container : Container T) (s : SafeQueueThread T) (e : Event T)
    (h : Lingering s) (he : InTime s e) : Lingering (threadStep container s e) := by
  cases e with
  | insert aItem => exact h.insert he aItem
  | loop check l =>
      apply h.moves (loopStep_moves container check s l)
      rintro i rfl
      cases he
  | returns i => exact h.returns i
  | throws i aItem => exact h.throws i aItem

theorem Pc.called_subset (pc : Pc T) : pc.called ⊆ pc.hand := by
  cases pc <;> simp [Pc.called, Pc.hand]

/-- A thread is gone: everything was passed to the handler. -/
theorem Lingering.all_called {s : SafeQueueThread T} (h : Lingering s)
    (hexit : .exited ∈ s.workers) :
    (∀ tag < s.queue.counter, tag ∈ s.calls.map Item.tag) ∧
      (s.params.retry = false → (s.calls.map Item.tag).Perm (List.range s.queue.counter)) := by
  have hcount := h.toAccounted.count_eq
  have hdone := (h.sound _ hexit).2
  have hlist : s.queue.list = [] := List.length_eq_zero_iff.mp (by omega)
  have hhands : held Pc.hand s.workers = [] := List.length_eq_zero_iff.mp (by omega)
  have hcalled : held Pc.called s.workers = [] := by
    unfold held at hhands ⊢
    rw [List.flatMap_eq_nil_iff] at hhands ⊢
    intro pc hpc
    exact List.subset_nil.mp (hhands pc hpc ▸ pc.called_subset)
  have htags : (s.finished.map Item.tag).Perm (List.range s.queue.counter) := by
    have htags := h.tags
    rw [places, hlist, hhands] at htags
    exact htags
  constructor
  · intro tag htag
    obtain ⟨x, hx, rfl⟩ := List.mem_map.mp (htags.mem_iff.mpr (List.mem_range.mpr htag))
    exact h.called x (List.mem_append_left _ hx)
  · intro hretry
    have honce := h.once hretry
    rw [hcalled, List.append_nil] at honce
    exact (honce.map Item.tag).trans htags

/-- The count is always what is pending, in a hand, or done. If nothing is inserted
after the stop and the linger time is not over, a thread that ends leaves nothing
behind: each item was passed to the handler, without retry exactly once. -/
theorem lingering_stop_loses_nothing (container : Container T) (params : Params) (n : ℕ)
    (es : List (Event T)) :
    let start : SafeQueueThread T :=
      { params := params, workers := List.replicate n (.testing none) }
    let s := run (threadStep container) start es
    s.queue.counter = s.queue.list.length + (held Pc.hand s.workers).length + s.done ∧
      (0 < params.linger → Meets (threadStep container) InTime start es → .exited ∈ s.workers →
        (∀ tag < s.queue.counter, tag ∈ s.calls.map Item.tag) ∧
        (params.retry = false → (s.calls.map Item.tag).Perm (List.range s.queue.counter))) := by
  intro start s
  constructor
  · have h : Accounted s := run_invariant
      (fun s e hs _ => threadStep_accounted container s e hs) (accounted_start params n)
      (meets_true _ _ es)
    exact h.count_eq
  · intro hlinger hes hexit
    have h : Lingering s := run_invariant (threadStep_lingering container)
      (Lingering.start hlinger n) hes
    have hparams : s.params = params := by
      apply run_invariant (I := fun s : SafeQueueThread T => s.params = params) ?_ rfl hes
      intro s e hs _
      exact (threadStep_params container s e).trans hs
    rw [← hparams]
    exact h.all_called hexit

/-- One item that is still in the queue at the stop. -/
def lingerRun : List (Event ℕ) :=
  let exiting (first second : Loop) : List Loop := [.test 0, first, second, .decide 0 false]
  let loops (ls : List Loop) : List (Event ℕ) := ls.map (.loop fun _ => true)
  .insert 7 :: loops (.stop :: exiting (.readDone 0) (.readCount 0) ++ [.wait 0] ++
      exiting (.readCount 0) (.readDone 0)) ++
    .returns 0 :: loops (.finish 0 :: exiting (.readDone 0) (.readCount 0))

def lingerStart : SafeQueueThread ℕ :=
  { params := { linger := 5 }, workers := List.replicate 1 (.testing none) }

theorem lingering_stop_loses_nothing_one :
    Meets (threadStep listWrapper) InTime lingerStart lingerRun ∧
      .exited ∈ (run (threadStep listWrapper) lingerStart lingerRun).workers ∧
      (run (threadStep listWrapper) lingerStart lingerRun).calls = [⟨0, 7⟩] ∧
      ((run (threadStep listWrapper) lingerStart lingerRun).calls.map Item.tag).Perm
        (List.range (run (threadStep listWrapper) lingerStart lingerRun).queue.counter) := by
  have hes : Meets (threadStep listWrapper) InTime lingerStart lingerRun := by decide
  have hexit : .exited ∈ (run (threadStep listWrapper) lingerStart lingerRun).workers := by decide
  have hcalls : (run (threadStep listWrapper) lingerStart lingerRun).calls = [⟨0, 7⟩] := by decide
  have h := lingering_stop_loses_nothing listWrapper { linger := 5 } 1 lingerRun
  exact ⟨hes, hexit, hcalls, (h.2 (by decide) hes hexit).2 rfl⟩

end Stuff.ThreadsSafeQueue
