import Stuff.ThreadsSafeQueue

/-!
# Work in any order, join in the order of the inserts

`OrderedWorker` numbers the items, handles them in several threads and passes them
to the join function in one more thread. The second queue is sorted by the number,
and its check lets the top through only if its number is the next one.
-/
namespace Stuff.ThreadsOrderedWorker
open EventRuns Holders ThreadsSafeQueue

variable {T : Type}

/-- The serial has 64 bits in the source; it is taken not to run round. -/
structure Task (T : Type) where
  data : T
  serial : ℕ
deriving DecidableEq, Repr

/-- The fields of the class, and the history: the items inserted, and for each call of
the handler that returned the data before it and the task after it. -/
structure OrderedWorker (T : Type) where
  worker : SafeQueueThread (Task T)
  join : SafeQueueThread (Task T)
  serial : ℕ := 0
  nextJoin : ℕ := 0
  inserted : List T := []
  completed : List (T × Task T) := []

namespace OrderedWorker

def start (aCount : ℕ) : OrderedWorker T where
  worker := { workers := List.replicate aCount (.testing none) }
  join := { workers := [.testing none] }

def insert (s : OrderedWorker T) (aItem : T) : OrderedWorker T :=
  { s with
    worker := s.worker.insert ⟨aItem, s.serial⟩
    serial := s.serial + 1
    inserted := s.inserted ++ [aItem] }

/-- The handler of the user returns, and the task goes to the second queue. -/
def handled (s : OrderedWorker T) (i : ℕ) (aData : T) : OrderedWorker T :=
  match s.worker.workers[i]? with
  | some (.calling x) =>
      { s with
        worker := s.worker.returns i
        join := s.join.insert ⟨aData, x.value.serial⟩
        completed := s.completed ++ [(x.value.data, ⟨aData, x.value.serial⟩)] }
  | _ => s

/-- The join function returns. -/
def joined (s : OrderedWorker T) : OrderedWorker T :=
  match s.join.workers[0]? with
  | some (Pc.calling _) => { s with join := s.join.returns 0, nextJoin := s.nextJoin + 1 }
  | _ => s

end OrderedWorker

inductive Event (T : Type)
  | insert (aItem : T)
  | worker (l : Loop)
  | handled (i : ℕ) (aData : T)
  | failed (i : ℕ) (aTask : Task T)
  | join (l : Loop)
  | joined
  | joinFailed (aTask : Task T)

def orderedStep (s : OrderedWorker T) : Event T → OrderedWorker T
  | .insert aItem => s.insert aItem
  | .worker l => { s with worker := loopStep listWrapper (fun _ => true) s.worker l }
  | .handled i aData => s.handled i aData
  | .failed i aTask => { s with worker := s.worker.throws i aTask }
  | .join l =>
      { s with
        join := loopStep (priorityQueue Task.serial) (fun t => t.serial == s.nextJoin) s.join l }
  | .joined => s.joined
  | .joinFailed aTask => { s with join := s.join.throws 0 aTask }

/-! ## Serials in the queues and hands -/

/-- The tasks on their way to the join function, and those that it was called with. -/
def known (s : OrderedWorker T) : List (Item (Task T)) :=
  pending Pc.unheard s.join ++ s.join.calls

/-- Every serial that is about is there once, and belongs to an item inserted. What
goes to the join function was handled. -/
structure Serials (s : OrderedWorker T) : Prop where
  params : s.worker.params = {} ∧ s.join.params = {}
  nodup : ((pending Pc.todo s.worker ++ known s).map (·.value.serial)).Nodup
  fresh : ∀ x ∈ pending Pc.todo s.worker ++ known s, x.value.serial < s.serial
  length : s.inserted.length = s.serial
  data : ∀ x ∈ pending Pc.todo s.worker, s.inserted[x.value.serial]? = some x.value.data
  completed : ∀ x ∈ known s,
    ∃ d, s.inserted[x.value.serial]? = some d ∧ (d, x.value) ∈ s.completed

/-- The join thread takes the next serial, and has called the join function with all
before it. After an exception it has also called it with the next one; then no task
has this serial any more. -/
structure InTurn (s : OrderedWorker T) : Prop where
  order : s.join.calls.map (·.value.serial) = List.range s.join.calls.length
  next : s.nextJoin ≤ s.join.calls.length ∧ s.join.calls.length ≤ s.nextJoin + 1
  turn : ∃ pc, s.join.workers = [pc] ∧ (∀ x ∈ pc.unheard, x.value.serial = s.nextJoin) ∧
    ∀ x, pc = .calling x → s.join.calls.length = s.nextJoin + 1

theorem serials_start (aCount : ℕ) : Serials (.start aCount : OrderedWorker T) := by
  have htodo : pending Pc.todo (OrderedWorker.start aCount : OrderedWorker T).worker = [] := by
    simp [pending, OrderedWorker.start, held, Pc.todo]
  have hknown : known (.start aCount : OrderedWorker T) = [] := rfl
  constructor
  · exact ⟨rfl, rfl⟩
  · rw [htodo, hknown]
    exact List.nodup_nil
  · rw [htodo, hknown]
    simp
  · rfl
  · rw [htodo]
    simp
  · rw [hknown]
    simp

theorem inTurn_start (aCount : ℕ) : InTurn (.start aCount : OrderedWorker T) := by
  constructor
  · rfl
  · exact ⟨Nat.le_refl _, Nat.zero_le _⟩
  · exact ⟨.testing none, rfl, by simp [Pc.unheard], by simp⟩

namespace Serials
variable {s : OrderedWorker T}

/-- Tasks may go. -/
theorem less (h : Serials s) {worker join : SafeQueueThread (Task T)} (nextJoin : ℕ)
    (hparams : worker.params = {} ∧ join.params = {})
    (hworker : (pending Pc.todo worker).Subperm (pending Pc.todo s.worker))
    (hjoin : (pending Pc.unheard join ++ join.calls).Subperm (known s)) :
    Serials { s with worker := worker, join := join, nextJoin := nextJoin } := by
  have hall := hworker.append hjoin
  constructor
  · exact hparams
  · obtain ⟨l, hperm, hsub⟩ := hall
    exact (hperm.map _).nodup_iff.mp (h.nodup.sublist (hsub.map _))
  · intro x hx
    exact h.fresh x (hall.subset hx)
  · exact h.length
  · intro x hx
    exact h.data x (hworker.subset hx)
  · intro x hx
    exact h.completed x (hjoin.subset hx)

theorem lt_length (h : Serials s) {x : Item (Task T)}
    (hx : x ∈ pending Pc.todo s.worker ++ known s) : x.value.serial < s.inserted.length :=
  h.length ▸ h.fresh x hx

theorem insert (h : Serials s) (aItem : T) : Serials (s.insert aItem) := by
  have hperm : (pending Pc.todo (s.insert aItem).worker).Perm
      (⟨s.worker.queue.counter, ⟨aItem, s.serial⟩⟩ :: pending Pc.todo s.worker) := by
    simp only [pending, OrderedWorker.insert, SafeQueueThread.insert, SafeQueue.insert]
    rw [List.append_assoc]
    exact List.perm_middle
  have hold : ∀ x ∈ pending Pc.todo s.worker ++ known s,
      (s.insert aItem).inserted[x.value.serial]? = s.inserted[x.value.serial]? :=
    fun x hx => List.getElem?_append_left (h.lt_length hx)
  constructor
  · exact h.params
  · apply ((hperm.append_right (known s)).map _).nodup_iff.mpr
    rw [List.cons_append, List.map_cons, List.nodup_cons]
    refine ⟨?_, h.nodup⟩
    intro hmem
    obtain ⟨x, hx, hserial⟩ := List.mem_map.mp hmem
    exact Nat.lt_irrefl _ (hserial ▸ h.fresh x hx)
  · intro x hx
    have hx' := (hperm.append_right (known s)).subset hx
    rw [List.cons_append, List.mem_cons] at hx'
    rcases hx' with heq | hmem
    · rw [heq]
      exact Nat.lt_succ_self _
    · exact Nat.lt_succ_of_lt (h.fresh x hmem)
  · simp [OrderedWorker.insert, h.length]
  · intro x hx
    rcases List.mem_cons.mp (hperm.subset hx) with heq | hmem
    · rw [heq]
      simp [OrderedWorker.insert, ← h.length]
    · rw [hold x (List.mem_append_left _ hmem)]
      exact h.data x hmem
  · intro x hx
    rw [hold x (List.mem_append_right _ hx)]
    exact h.completed x hx

/-- The serial of the task goes from the first queue to the second. -/
theorem handled (h : Serials s) (i : ℕ) (aData : T) : Serials (s.handled i aData) := by
  unfold OrderedWorker.handled
  split
  next x hi =>
    have hreturns := SafeQueueThread.returns_of_calling hi
    rw [hreturns]
    have htodo := todo_handled hi
    generalize s.worker.setPc i (.handled x) = worker at hreturns htodo
    have hworker : worker.params = s.worker.params := by
      rw [← hreturns]
      unfold SafeQueueThread.returns
      rw [hi]
      rfl
    have hknown : (pending Pc.unheard (s.join.insert ⟨aData, x.value.serial⟩) ++
        s.join.calls).Perm
        (⟨s.join.queue.counter, ⟨aData, x.value.serial⟩⟩ :: known s) := by
      simp only [pending, SafeQueueThread.insert, SafeQueue.insert, known]
      rw [List.append_assoc, List.append_assoc, List.append_assoc]
      exact List.perm_middle
    have hserials : ((pending Pc.todo worker ++
        (pending Pc.unheard (s.join.insert ⟨aData, x.value.serial⟩) ++ s.join.calls)).map
          (·.value.serial)).Perm
        ((pending Pc.todo s.worker ++ known s).map (·.value.serial)) := by
      refine (((hknown.append_left _).trans List.perm_middle).map _).trans ?_
      exact (htodo.append_right (known s)).map (·.value.serial)
    have hx : x ∈ pending Pc.todo s.worker := htodo.subset List.mem_cons_self
    constructor
    · exact ⟨hworker.trans h.params.1, h.params.2⟩
    · exact hserials.nodup_iff.mpr h.nodup
    · intro y hy
      have hmem := hserials.subset (List.mem_map_of_mem (f := (·.value.serial)) hy)
      obtain ⟨z, hz, heq⟩ := List.mem_map.mp hmem
      exact heq ▸ h.fresh z hz
    · exact h.length
    · intro y hy
      exact h.data y (htodo.subset (List.mem_cons_of_mem x hy))
    · intro y hy
      rcases List.mem_cons.mp (hknown.subset hy) with heq | hmem
      · rw [heq]
        exact ⟨x.value.data, h.data x hx, by simp⟩
      · obtain ⟨d, hd, hdone⟩ := h.completed y hmem
        exact ⟨d, hd, List.mem_append_left _ hdone⟩
  next => exact h

end Serials

/-- Without retry a task whose handler throws is gone. -/
theorem throws_less {s : SafeQueueThread (Task T)} (hparams : s.params = {}) (i : ℕ)
    (aTask : Task T) : (s.throws i aTask).params = {} ∧
      (pending Pc.todo (s.throws i aTask)).Subperm (pending Pc.todo s) := by
  unfold SafeQueueThread.throws
  rw [hparams]
  split
  next x hi =>
    refine ⟨hparams, ?_⟩
    exact (List.Subperm.cons_right x (List.Subperm.refl _)).trans (todo_handled hi).subperm
  next => exact ⟨hparams, List.Subperm.refl _⟩

/-! ## The join thread -/

namespace InTurn
variable {s : OrderedWorker T}

/-- There is one join thread. -/
theorem only (h : InTurn s) {i : ℕ} {pc : Pc (Task T)} (hi : s.join.workers[i]? = some pc) :
    (∀ pc', s.join.workers.set i pc' = [pc']) ∧ (∀ x ∈ pc.unheard, x.value.serial = s.nextJoin) ∧
      ∀ x, pc = .calling x → s.join.calls.length = s.nextJoin + 1 := by
  obtain ⟨pc₀, hpc₀, hturn⟩ := h.turn
  have hlt := (List.getElem?_eq_some_iff.mp hi).1
  rw [hpc₀, List.length_singleton, Nat.lt_one_iff] at hlt
  rw [hpc₀, hlt, List.getElem?_cons_zero, Option.some.injEq] at hi
  rw [hpc₀, hlt, ← hi]
  exact ⟨fun _ => rfl, hturn⟩

/-- The thread goes on without a call. -/
theorem setPc (h : InTurn s) {i : ℕ} {pc : Pc (Task T)} (hi : s.join.workers[i]? = some pc)
    (pc' : Pc (Task T)) (hunheard : ∀ x ∈ pc'.unheard, x.value.serial = s.nextJoin)
    (hcalling : ∀ x, pc' ≠ .calling x) : InTurn { s with join := s.join.setPc i pc' } := by
  constructor
  · exact h.order
  · exact h.next
  · exact ⟨pc', (h.only hi).1 pc', hunheard, fun x heq => absurd heq (hcalling x)⟩

/-- The join function is called with the next serial, for the first time. -/
theorem call (h : InTurn s) {i : ℕ} {pc : Pc (Task T)} {x : Item (Task T)}
    (hi : s.join.workers[i]? = some pc) (hserial : x.value.serial = s.nextJoin)
    (hfirst : x.value.serial ∉ s.join.calls.map (·.value.serial)) :
    InTurn { s with join := s.join.proceed i (some x) } := by
  rw [h.order, List.mem_range, hserial] at hfirst
  have hlen : s.join.calls.length = s.nextJoin := by
    have hnext := h.next.1
    omega
  constructor
  · simp [SafeQueueThread.proceed, h.order, List.range_succ, hserial, hlen]
  · simp [SafeQueueThread.proceed, hlen]
  · refine ⟨.calling x, (h.only hi).1 _, by simp [Pc.unheard], ?_⟩
    simp [SafeQueueThread.proceed, hlen]

theorem proceed (h : InTurn s) (hs : Serials s) {i : ℕ} {pc : Pc (Task T)}
    {hand : Option (Item (Task T))} (hi : s.join.workers[i]? = some pc)
    (hhand : pc.unheard = hand.toList) : InTurn { s with join := s.join.proceed i hand } := by
  cases hand with
  | none =>
      have hnone := h.setPc hi .waiting (by simp [Pc.unheard]) (by simp)
      unfold SafeQueueThread.proceed
      rw [Option.toList_none, List.append_nil]
      exact hnone
  | some x =>
      have hx : x ∈ pc.unheard := by simp [hhand]
      apply h.call hi ((h.only hi).2.1 x hx)
      intro hmem
      have hnodup := hs.nodup
      rw [List.map_append, known, List.map_append, List.nodup_append] at hnodup
      have hapart := (List.nodup_append.mp hnodup.2.1).2.2
      apply hapart x.value.serial ?_ x.value.serial hmem rfl
      exact List.mem_map_of_mem (List.mem_append_right _ (mem_held hi hx))

theorem leaving_unheard (hand : Option (Item (Task T))) :
    ∀ x ∈ (Pc.leaving hand).unheard, x.value.serial = s.nextJoin := by
  cases hand <;> simp [Pc.leaving, Pc.unheard]

theorem leaving_ne (hand : Option (Item (Task T))) (x : Item (Task T)) :
    Pc.leaving hand ≠ .calling x := by
  cases hand <;> simp [Pc.leaving]

theorem moves (h : InTurn s) (hs : Serials s) {join : SafeQueueThread (Task T)} {l : Loop}
    (hmoves : Moves (priorityQueue Task.serial) (fun t => t.serial == s.nextJoin) s.join l join) :
    InTurn { s with join := join } := by
  cases hmoves with
  | stay => exact h
  | stop => exact ⟨h.order, h.next, h.turn⟩
  | look i hand hi => exact h.setPc hi _ (h.only hi).2.1 (by simp)
  | readDone i hand count hi => exact h.setPc hi _ (h.only hi).2.1 (by simp)
  | readCount i hand done hi => exact h.setPc hi _ (h.only hi).2.1 (by simp)
  | goOn i hand hi => exact h.proceed hs hi rfl
  | goOnLate i hand done count hi => exact h.proceed hs hi rfl
  | giveUp i hand hi => exact h.setPc hi (.leaving hand) (leaving_unheard hand) (leaving_ne hand)
  | giveUpLate i hand done count expired hi =>
      exact h.setPc hi (.leaving hand) (leaving_unheard hand) (leaving_ne hand)
  | take i x rest hi hpop hcheck =>
      have htake := h.setPc hi (.testing (some x)) (by simpa [Pc.unheard] using hcheck)
        (by simp)
      exact ⟨htake.order, htake.next, htake.turn⟩
  | miss i hi => exact h.setPc hi _ (by simp [Pc.unheard]) (by simp)
  | finish i x hi =>
      have hfinish := h.setPc hi (.testing none) (by simp [Pc.unheard]) (by simp)
      exact ⟨hfinish.order, hfinish.next, hfinish.turn⟩

theorem joined (h : InTurn s) : InTurn s.joined := by
  unfold OrderedWorker.joined
  split
  next x hi =>
    obtain ⟨hset, -, hcalling⟩ := h.only hi
    have hlen := hcalling x rfl
    have hreturns := SafeQueueThread.returns_of_calling hi
    rw [hreturns]
    constructor
    · exact h.order
    · exact ⟨Nat.le_of_eq hlen.symm, Nat.le_succ_of_le (Nat.le_of_eq hlen)⟩
    · exact ⟨.handled x, hset _, by simp [Pc.unheard], by simp⟩
  next => exact h

theorem throws (h : InTurn s) (hparams : s.join.params = {}) (aTask : Task T) :
    InTurn { s with join := s.join.throws 0 aTask } := by
  unfold SafeQueueThread.throws
  rw [hparams]
  split
  next x hi => exact h.setPc hi _ (by simp [Pc.unheard]) (by simp)
  next => exact h

end InTurn

/-! ## Runs -/

/-- The end of a call of the join function. -/
theorem known_setPc {s : SafeQueueThread (Task T)} {i : ℕ} {x : Item (Task T)}
    (hi : s.workers[i]? = some (.calling x)) :
    (pending Pc.unheard (s.setPc i (.handled x))).Perm (pending Pc.unheard s) := by
  have hheld := held_set_perm hi Pc.unheard (.handled x)
  simp only [Pc.unheard, List.append_nil] at hheld
  exact hheld.append_left _

theorem orderedStep_serials {s : OrderedWorker T} (h : Serials s) (e : Event T) :
    Serials (orderedStep s e) := by
  cases e with
  | insert aItem => exact h.insert aItem
  | worker l =>
      have hmoves := loopStep_moves listWrapper (fun _ => true) s.worker l
      exact h.less s.nextJoin ⟨hmoves.params_eq.trans h.params.1, h.params.2⟩ hmoves.todo_subperm
        (List.Subperm.refl _)
  | handled i aData => exact h.handled i aData
  | failed i aTask =>
      obtain ⟨hparams, hless⟩ := throws_less h.params.1 i aTask
      exact h.less s.nextJoin ⟨hparams, h.params.2⟩ hless (List.Subperm.refl _)
  | join l =>
      have hmoves := loopStep_moves (priorityQueue Task.serial) (fun t => t.serial == s.nextJoin)
        s.join l
      exact h.less s.nextJoin ⟨h.params.1, hmoves.params_eq.trans h.params.2⟩
        (List.Subperm.refl _) hmoves.unheard_subperm
  | joined =>
      simp only [orderedStep, OrderedWorker.joined]
      split
      next x hi =>
        have hreturns := SafeQueueThread.returns_of_calling hi
        rw [hreturns]
        exact h.less (s.nextJoin + 1) h.params (List.Subperm.refl _)
          ((known_setPc hi).append_right _).subperm
      next => exact h
  | joinFailed aTask =>
      simp only [orderedStep, SafeQueueThread.throws, h.params.2]
      split
      next x hi =>
        exact h.less s.nextJoin h.params (List.Subperm.refl _)
          ((known_setPc hi).append_right _).subperm
      next => exact h

theorem orderedStep_inTurn {s : OrderedWorker T} (h : InTurn s) (hs : Serials s) (e : Event T) :
    InTurn (orderedStep s e) := by
  cases e with
  | insert aItem => exact ⟨h.order, h.next, h.turn⟩
  | worker l => exact ⟨h.order, h.next, h.turn⟩
  | handled i aData =>
      simp only [orderedStep, OrderedWorker.handled]
      split
      · exact ⟨h.order, h.next, h.turn⟩
      · exact h
  | failed i aTask => exact ⟨h.order, h.next, h.turn⟩
  | join l => exact h.moves hs (loopStep_moves _ _ s.join l)
  | joined => exact h.joined
  | joinFailed aTask => exact h.throws hs.params.2 aTask

theorem run_ordered (aCount : ℕ) (es : List (Event T)) :
    Serials (run orderedStep (.start aCount) es) ∧ InTurn (run orderedStep (.start aCount) es) := by
  apply run_invariant (I := fun s : OrderedWorker T => Serials s ∧ InTurn s) ?_
    ⟨serials_start aCount, inTurn_start aCount⟩ (meets_true _ _ es)
  intro s e hs _
  exact ⟨orderedStep_serials hs.1 e, orderedStep_inTurn hs.2 hs.1 e⟩

/-- The serials of the calls are those of items inserted. -/
theorem InTurn.calls_length_le {s : OrderedWorker T} (h : InTurn s) (hs : Serials s) :
    s.join.calls.length ≤ s.inserted.length := by
  by_contra hlong
  have hmem : s.inserted.length ∈ s.join.calls.map (·.value.serial) := by
    rw [h.order, List.mem_range]
    exact Nat.lt_of_not_le hlong
  obtain ⟨x, hx, hserial⟩ := List.mem_map.mp hmem
  have hlt := hs.lt_length (List.mem_append_right _ (List.mem_append_right _ hx))
  exact Nat.lt_irrefl _ (hserial ▸ hlt)

/-- At every moment the join function was called with the first items inserted, in
their order and once each; and the handler had returned for each of them. -/
theorem joined_in_order (aCount : ℕ) (es : List (Event T)) :
    let s := run orderedStep (.start aCount) es
    s.join.calls.map (·.value.serial) <+: List.range s.inserted.length ∧
    ∀ x ∈ s.join.calls,
      ∃ d, s.inserted[x.value.serial]? = some d ∧ (d, x.value) ∈ s.completed := by
  intro s
  obtain ⟨hserials, hturn⟩ := run_ordered aCount es
  constructor
  · have hle := hturn.calls_length_le hserials
    rw [hturn.order, List.prefix_iff_eq_take, List.length_range, List.take_range,
      Nat.min_eq_left hle]
  · intro x hx
    exact hserials.completed x (List.mem_append_right _ hx)

/-- Two threads, of which the second one is faster: its task waits for the other. -/
example :
    let working (i : ℕ) : List (Event ℕ) :=
      [.worker (.test i), .worker (.wait i), .worker (.test i)]
    let joining : List (Event ℕ) := [.join (.test 0), .join (.wait 0), .join (.test 0)]
    (run orderedStep (.start 2) (List.flatten [[.insert 10, .insert 20], working 0, working 1,
      [.handled 1 21], joining, [.handled 0 11], joining])).join.calls.map (·.value.data) =
    [11] := by
  decide

end Stuff.ThreadsOrderedWorker
