import Stuff.FairRuns
import Stuff.ThreadsMapReduce

/-!
# Map and reduce on every schedule

The calling thread polls, the others go round without a task; on a fair schedule
the call returns all the same. Each task gets lighter on its way through the two
queues, and as long as one is left some thread has a piece of work before it.
-/
namespace Stuff.ThreadsMapReduce
open FairRuns ContainerListArray ThreadsSafeQueue ThreadsOrderedWorker Holders

variable {α β ρ : Type}

/-- The threads that there are. -/
def Started (aThreads : ℕ) : Thread → Prop
  | .main => True
  | .worker i => i < aThreads
  | .join => True

/-! ## What is still to be done -/

/-- Which of the two queues are stopped. -/
def Main.stops : Main ρ → Bool × Bool
  | .stopped => (true, false)
  | .joining => (true, true)
  | .returned _ => (true, true)
  | _ => (false, false)

theorem Main.stops_of_not_late {main : Main ρ} (h : main.late = false) :
    main.stops = (false, false) := by
  cases main <;> first | rfl | cases h

/-- The tasks that wait for the mapper or for their turn at the reducer. -/
def unreduced (q : OrderedWorker ℕ) : List (Item (ThreadsOrderedWorker.Task ℕ)) :=
  pending Pc.todo q.worker ++ pending Pc.todo q.join

/-- Until the polling loop is over no task is lost. -/
structure Working (aThreads : ℕ) (s : MapReduce α β ρ) : Prop where
  worker : Quiet s.queue.worker
  join : Quiet s.queue.join
  threads : s.queue.worker.workers.length = aThreads
  stops : (s.queue.worker.queue.stop, s.queue.join.queue.stop) = s.main.stops
  complete : s.main.late = false → ∀ k < s.queue.inserted.length,
    k < s.queue.nextJoin ∨ k ∈ (unreduced s.queue).map (·.value.serial)

section
variable {aMapper : List α → β} {aReducer : ρ → β → ρ} {chunks : List (List α)}
  {s : MapReduce α β ρ} {aThreads : ℕ}

namespace Working

theorem start [Inhabited β] [Inhabited ρ] (aData : ListArray α) (aThreads : ℕ) :
    Working aThreads (.start aData aThreads : MapReduce α β ρ) := by
  constructor
  · exact Quiet.start (Int.le_refl 0) aThreads
  · exact Quiet.start (Int.le_refl 0) 1
  · exact List.length_replicate
  · rfl
  · intro _ k hk
    exact absurd hk (Nat.not_lt_zero k)

theorem not_stopped (h : Working aThreads s) (hlate : s.main.late = false) :
    s.queue.worker.queue.stop = false ∧ s.queue.join.queue.stop = false := by
  have hstops := h.stops
  rw [Main.stops_of_not_late hlate] at hstops
  exact ⟨congrArg Prod.fst hstops, congrArg Prod.snd hstops⟩

/-- The threads of the queues go on; a task that is gone was reduced. -/
theorem queue_step (h : Working aThreads s) {tasks : List (MapTask α β)} {count : UInt32}
    {result : ρ} (queue : OrderedWorker ℕ) (hworker : Quiet queue.worker)
    (hjoin : Quiet queue.join)
    (hthreads : queue.worker.workers.length = s.queue.worker.workers.length)
    (hstops : queue.worker.queue.stop = s.queue.worker.queue.stop ∧
      queue.join.queue.stop = s.queue.join.queue.stop)
    (hinserted : queue.inserted = s.queue.inserted) (hnext : s.queue.nextJoin ≤ queue.nextJoin)
    (hunreduced : s.main.late = false → ∀ x ∈ unreduced s.queue,
      x.value.serial < queue.nextJoin ∨ x.value.serial ∈ (unreduced queue).map (·.value.serial)) :
    Working aThreads
      { s with tasks := tasks, count := count, result := result, queue := queue } := by
  constructor
  · exact hworker
  · exact hjoin
  · exact hthreads.trans h.threads
  · rw [hstops.1, hstops.2]
    exact h.stops
  · intro hlate k hk
    dsimp only at hlate hk ⊢
    rw [hinserted] at hk
    rcases h.complete hlate k hk with hlt | hmem
    · exact Or.inl (Nat.lt_of_lt_of_le hlt hnext)
    · obtain ⟨x, hx, rfl⟩ := List.mem_map.mp hmem
      exact hunreduced hlate x hx

theorem worker_loop (h : Working aThreads s) {l : Loop} (hl : l ≠ .stop) :
    Working aThreads { s with queue := orderedStep s.queue (.worker l) } := by
  have hmoves := loopStep_moves listWrapper (fun _ => true) s.queue.worker l
  obtain ⟨hlength, hstop⟩ := hmoves.frame hl
  apply h.queue_step (orderedStep s.queue (.worker l)) (h.worker.moves hmoves) h.join hlength
    ⟨hstop, rfl⟩ rfl (Nat.le_refl _)
  intro hlate x hx
  have htodo := h.worker.moves_todo (h.not_stopped hlate).1 hmoves
  exact Or.inr (List.mem_map_of_mem ((htodo.append_right _).symm.subset hx))

theorem join_loop (h : Working aThreads s) {l : Loop} (hl : l ≠ .stop) :
    Working aThreads { s with queue := orderedStep s.queue (.join l) } := by
  have hmoves := loopStep_moves (priorityQueue ThreadsOrderedWorker.Task.serial)
    (fun t => t.serial == s.queue.nextJoin) s.queue.join l
  obtain ⟨hlength, hstop⟩ := hmoves.frame hl
  apply h.queue_step (orderedStep s.queue (.join l)) h.worker (h.join.moves hmoves) rfl
    ⟨rfl, hstop⟩ rfl (Nat.le_refl _)
  intro hlate x hx
  have htodo := h.join.moves_todo (h.not_stopped hlate).2 hmoves
  exact Or.inr (List.mem_map_of_mem ((htodo.append_left _).symm.subset hx))

/-- The task goes to the second queue. -/
theorem mapped_step (h : Working aThreads s) {i : ℕ} {x : Item (ThreadsOrderedWorker.Task ℕ)}
    (hi : s.queue.worker.workers[i]? = some (.calling x)) :
    Working aThreads (s.mapped aMapper i x.value.data) := by
  have hreturns := SafeQueueThread.returns_of_calling hi
  have hhandled : orderedStep s.queue (.handled i x.value.data) =
      { s.queue with
        worker := s.queue.worker.setPc i (.handled x)
        join := s.queue.join.insert x.value
        completed := s.queue.completed ++ [(x.value.data, x.value)] } := by
    simp only [orderedStep, OrderedWorker.handled, hi, hreturns]
  unfold MapReduce.mapped
  rw [hhandled]
  have hworker := h.worker.returns i
  rw [hreturns] at hworker
  refine h.queue_step _ hworker ?_ ?_ ⟨rfl, rfl⟩ rfl ?_ ?_
  · exact h.join.insert x.value
  · exact List.length_set
  · exact Nat.le_refl _
  intro _ y hy
  right
  have htodo := (todo_handled hi).symm
  rcases List.mem_append.mp hy with hmap | hjoin
  · rcases List.mem_cons.mp (htodo.subset hmap) with heq | hmem
    · rw [heq]
      simp [unreduced, pending, SafeQueueThread.insert, SafeQueue.insert]
    · exact List.mem_map_of_mem (List.mem_append_left _ hmem)
  · apply List.mem_map_of_mem
    apply List.mem_append_right
    rcases List.mem_append.mp hjoin with hlist | hhand
    · exact List.mem_append_left _ (List.mem_append_left _ hlist)
    · exact List.mem_append_right _ hhand

/-- The reduced task is the next one. -/
theorem reduced_step [Inhabited β] [Inhabited ρ] (h : Working aThreads s)
    (hf : Folded aMapper aReducer chunks s) {x : Item (ThreadsOrderedWorker.Task ℕ)}
    (hi : s.queue.join.workers[0]? = some (.calling x)) :
    Working aThreads (s.reduced aReducer x.value.data) := by
  have hserial := (hf.calling x (List.mem_of_getElem? hi)).2
  have hreturns := SafeQueueThread.returns_of_calling hi
  have hjoin := h.join.returns 0
  unfold MapReduce.reduced
  simp only [orderedStep, OrderedWorker.joined, hi, hreturns] at hjoin ⊢
  refine h.queue_step _ ?_ hjoin ?_ ⟨rfl, rfl⟩ rfl ?_ ?_
  · exact h.worker
  · rfl
  · exact Nat.le_succ _
  intro _ y hy
  rcases List.mem_append.mp hy with hmap | hred
  · exact Or.inr (List.mem_map_of_mem (List.mem_append_left _ hmap))
  · rcases List.mem_cons.mp ((todo_handled hi).symm.subset hred) with heq | hmem
    · rw [heq, hserial]
      exact Or.inl (Nat.lt_succ_self _)
    · exact Or.inr (List.mem_map_of_mem (List.mem_append_right _ hmem))

theorem insert [Inhabited ρ] (h : Working aThreads s) (hf : Folded aMapper aReducer chunks s)
    {k : ℕ} (hmain : s.main = .inserting k) :
    Working aThreads
      { s with queue := orderedStep s.queue (.insert k), main := .inserting (k + 1) } := by
  have hlate : s.main.late = false := by
    rw [hmain]
    rfl
  obtain ⟨hworker, hjoin⟩ := h.not_stopped hlate
  constructor
  · exact h.worker.insert _
  · exact h.join
  · exact h.threads
  · exact Prod.ext hworker hjoin
  · intro _ j hj
    simp only [orderedStep, OrderedWorker.insert, unreduced, pending, SafeQueueThread.insert,
      SafeQueue.insert, List.length_append, List.length_singleton, List.map_append, List.mem_append,
      List.map_cons, List.map_nil, List.mem_singleton] at hj ⊢
    by_cases hold : j < s.queue.inserted.length
    · have hcomplete := h.complete hlate j hold
      simp only [unreduced, pending, List.map_append, List.mem_append] at hcomplete
      tauto
    · have heq : j = s.queue.serial := by
        have hlength := hf.serials.length
        omega
      tauto

theorem main_step [Inhabited ρ] (h : Working aThreads s) (hf : Folded aMapper aReducer chunks s) :
    Working aThreads s.mainStep := by
  have hstops := h.stops
  unfold MapReduce.mainStep
  split
  next k hmain =>
    split_ifs
    · exact h.insert hf hmain
    · rw [hmain] at hstops
      exact ⟨h.worker, h.join, h.threads, hstops, fun _ => h.complete (by rw [hmain]; rfl)⟩
  next hmain =>
    rw [hmain] at hstops
    split_ifs
    · exact h
    · exact ⟨h.worker, h.join, h.threads, hstops, by simp [Main.late]⟩
  next hmain =>
    rw [hmain] at hstops
    have hmoves := loopStep_moves listWrapper (fun _ => true) s.queue.worker .stop
    have hjoin : s.queue.join.queue.stop = false := congrArg Prod.snd hstops
    exact ⟨h.worker.moves hmoves, h.join, h.threads, Prod.ext rfl hjoin, by simp [Main.late]⟩
  next hmain =>
    rw [hmain] at hstops
    have hmoves := loopStep_moves (priorityQueue ThreadsOrderedWorker.Task.serial)
      (fun t => t.serial == s.queue.nextJoin) s.queue.join .stop
    have hworker : s.queue.worker.queue.stop = true := congrArg Prod.fst hstops
    exact ⟨h.worker, h.join.moves hmoves, h.threads, Prod.ext hworker rfl, by simp [Main.late]⟩
  next hmain =>
    rw [hmain] at hstops
    split_ifs
    · exact ⟨h.worker, h.join, h.threads, hstops, by simp [Main.late]⟩
    · exact h
  next => exact h

theorem step [Inhabited β] [Inhabited ρ] (h : Working aThreads s)
    (hf : Folded aMapper aReducer chunks s) (t : Thread) :
    Working aThreads (mapReduceStep aMapper aReducer s t) := by
  cases t with
  | main => exact h.main_step hf
  | worker i =>
      simp only [mapReduceStep, MapReduce.workerStep]
      split
      next => exact h
      next x hi => exact h.mapped_step hi
      next =>
        split
        next => exact h
        next l hl => exact h.worker_loop (nextLoop_ne_stop hl)
  | join =>
      simp only [mapReduceStep, MapReduce.joinStep]
      split
      next => exact h
      next x hi => exact h.reduced_step hf hi
      next =>
        split
        next => exact h
        next l hl => exact h.join_loop (nextLoop_ne_stop hl)

end Working

end

/-! ## Every step that does some work -/

def Main.cost (size : ℕ) : Main ρ → ℕ
  | .inserting k => 10 * (size - k) + 5
  | .polling => 4
  | .stopping => 3
  | .stopped => 2
  | .joining => 1
  | .returned _ => 0

/-- A task is lighter on each stage of its way. -/
def measure (s : MapReduce α β ρ) : ℕ :=
  s.main.cost s.tasks.length + load 9 s.queue.worker + load 5 s.queue.join

/-- A step that changes nothing but the place of a thread without a task. -/
inductive Neutral (s : MapReduce α β ρ) : Thread → MapReduce α β ρ → Prop
  | stay (t : Thread) : Neutral s t s
  | worker (i : ℕ) (pc pc' : Pc (ThreadsOrderedWorker.Task ℕ))
      (hi : s.queue.worker.workers[i]? = some pc) (hidle : pc.Idle) (hidle' : pc'.Idle) :
      Neutral s (.worker i)
        { s with queue := { s.queue with worker := s.queue.worker.setPc i pc' } }
  | join (pc pc' : Pc (ThreadsOrderedWorker.Task ℕ))
      (hi : s.queue.join.workers[0]? = some pc) (hidle : pc.Idle) (hidle' : pc'.Idle) :
      Neutral s .join { s with queue := { s.queue with join := s.queue.join.setPc 0 pc' } }

theorem Neutral.measure_eq {s s' : MapReduce α β ρ} {t : Thread} (h : Neutral s t s') :
    measure s' = measure s := by
  cases h with
  | stay => rfl
  | worker i pc pc' hi hidle hidle' =>
      have hload := load_setPc hi 9 pc'
      rw [hidle.cost, hidle'.cost] at hload
      simp only [measure]
      omega
  | join pc pc' hi hidle hidle' =>
      have hload := load_setPc hi 5 pc'
      rw [hidle.cost, hidle'.cost] at hload
      simp only [measure]
      omega

section
variable {aMapper : List α → β} {aReducer : ρ → β → ρ} {s : MapReduce α β ρ} {aThreads : ℕ}

/-- The next step of the calling thread takes it further. -/
def MapReduce.passes (s : MapReduce α β ρ) : Prop :=
  match s.main with
  | .polling => s.tasks.length ≤ s.count.toNat
  | .joining => s.ended
  | .returned _ => False
  | _ => True

theorem mainStep_measure (hpasses : s.passes) : measure s.mainStep < measure s := by
  unfold MapReduce.passes at hpasses
  cases hmain : s.main with
  | inserting k =>
      simp only [MapReduce.mainStep, hmain]
      split_ifs with hk
      · simp only [measure, hmain, Main.cost, orderedStep, OrderedWorker.insert, load_insert]
        omega
      · simp only [measure, hmain, Main.cost]
        omega
  | polling =>
      rw [hmain] at hpasses
      simp only [MapReduce.mainStep, hmain, if_neg (Nat.not_lt.mpr hpasses), measure, Main.cost]
      omega
  | stopping =>
      have hload : load 9 (orderedStep s.queue (.worker .stop)).worker =
          load 9 s.queue.worker := rfl
      have hjoin : (orderedStep s.queue (.worker .stop)).join = s.queue.join := rfl
      simp only [MapReduce.mainStep, hmain, measure, Main.cost, hload, hjoin]
      omega
  | stopped =>
      have hload : load 5 (orderedStep s.queue (.join .stop)).join = load 5 s.queue.join := rfl
      have hworker : (orderedStep s.queue (.join .stop)).worker = s.queue.worker := rfl
      simp only [MapReduce.mainStep, hmain, measure, Main.cost, hload, hworker]
      omega
  | joining =>
      rw [hmain] at hpasses
      simp only [MapReduce.mainStep, hmain, if_pos hpasses, measure, Main.cost]
      omega
  | returned r =>
      rw [hmain] at hpasses
      exact hpasses.elim

theorem mainStep_eq_self (hpasses : ¬s.passes) : s.mainStep = s := by
  unfold MapReduce.passes at hpasses
  unfold MapReduce.mainStep
  cases hmain : s.main with
  | polling =>
      rw [hmain] at hpasses
      exact if_pos (Nat.lt_of_not_le hpasses)
  | joining =>
      rw [hmain] at hpasses
      exact if_neg hpasses
  | returned r => rfl
  | _ =>
      rw [hmain] at hpasses
      exact absurd trivial hpasses

/-- The mapper hands a lighter task on. -/
theorem mapped_measure {i : ℕ} {x : Item (ThreadsOrderedWorker.Task ℕ)}
    (hi : s.queue.worker.workers[i]? = some (.calling x)) :
    measure (s.mapped aMapper i x.value.data) < measure s := by
  have hload := load_setPc hi 9 (.handled x)
  simp only [Pc.cost] at hload
  simp only [measure, MapReduce.mapped, orderedStep, OrderedWorker.handled, hi,
    SafeQueueThread.returns, List.length_modify, load_insert]
  omega

theorem reduced_measure [Inhabited β] {x : Item (ThreadsOrderedWorker.Task ℕ)}
    (hi : s.queue.join.workers[0]? = some (.calling x)) :
    measure (s.reduced aReducer x.value.data) < measure s := by
  have hload := load_setPc hi 5 (.handled x)
  simp only [Pc.cost] at hload
  simp only [measure, MapReduce.reduced, orderedStep, OrderedWorker.joined, hi,
    SafeQueueThread.returns]
  omega

theorem step_measure [Inhabited β] (h : Working aThreads s) (t : Thread) :
    measure (mapReduceStep aMapper aReducer s t) < measure s ∨
      Neutral s t (mapReduceStep aMapper aReducer s t) := by
  cases t with
  | main =>
      by_cases hpasses : s.passes
      · exact Or.inl (mainStep_measure hpasses)
      · right
        simp only [mapReduceStep, mainStep_eq_self hpasses]
        exact .stay _
  | worker i =>
      simp only [mapReduceStep, MapReduce.workerStep]
      split
      next => exact Or.inr (.stay _)
      next x hi => exact Or.inl (mapped_measure hi)
      next pc _ hi =>
        split
        next => exact Or.inr (.stay _)
        next l hl =>
          rcases h.worker.next_load hi hl listWrapper (fun _ => true) (w := 9) (by omega)
            with hless | ⟨hidle, pc', hidle', heq⟩
          · left
            simp only [measure, orderedStep]
            omega
          · right
            simp only [orderedStep, heq]
            exact .worker i pc pc' hi hidle hidle'
  | join =>
      simp only [mapReduceStep, MapReduce.joinStep]
      split
      next => exact Or.inr (.stay _)
      next x hi => exact Or.inl (reduced_measure hi)
      next pc _ hi =>
        split
        next => exact Or.inr (.stay _)
        next l hl =>
          rcases h.join.next_load hi hl (priorityQueue ThreadsOrderedWorker.Task.serial)
            (fun t => t.serial == s.queue.nextJoin) (w := 5) (by omega)
            with hless | ⟨hidle, pc', hidle', heq⟩
          · left
            simp only [measure, orderedStep]
            omega
          · right
            simp only [orderedStep, heq]
            exact .join pc pc' hi hidle hidle'

/-! ## A thread that helps -/

/-- The thread is that many steps away from a piece of work. -/
def Helps : Thread → ℕ → MapReduce α β ρ → Prop
  | .main, _, s => s.passes
  | .worker i, r, s => ∃ pc, s.queue.worker.workers[i]? = some pc ∧
      pc.away s.queue.worker.queue.stop (s.queue.worker.ready listWrapper fun _ => true) = some r
  | .join, r, s => ∃ pc, s.queue.join.workers[0]? = some pc ∧
      pc.away s.queue.join.queue.stop
        (s.queue.join.ready (priorityQueue ThreadsOrderedWorker.Task.serial)
          fun t => t.serial == s.queue.nextJoin) = some r

theorem Neutral.helps {s' : MapReduce α β ρ} {t t' : Thread} {r : ℕ} (h : Neutral s t' s')
    (hhelps : Helps t r s) (hne : t' ≠ t) : Helps t r s' := by
  cases h with
  | stay => exact hhelps
  | worker i pc pc' hi hidle =>
      cases t with
      | main =>
          simp only [Helps, MapReduce.passes] at hhelps ⊢
          cases hmain : s.main with
          | joining =>
              rw [hmain] at hhelps
              have hexited := hhelps pc (List.mem_append_left _ (List.mem_of_getElem? hi))
              exact absurd hexited (hidle.ne_exited)
          | _ =>
              rw [hmain] at hhelps
              exact hhelps
      | worker j =>
          obtain ⟨pcj, hj, haway⟩ := hhelps
          refine ⟨pcj, ?_, haway⟩
          have hij : i ≠ j := fun heq => hne (by rw [heq])
          simp only [SafeQueueThread.setPc, List.getElem?_set_ne hij]
          exact hj
      | join => exact hhelps
  | join pc pc' hi hidle =>
      cases t with
      | main =>
          simp only [Helps, MapReduce.passes] at hhelps ⊢
          cases hmain : s.main with
          | joining =>
              rw [hmain] at hhelps
              have hexited := hhelps pc (List.mem_append_right _ (List.mem_of_getElem? hi))
              exact absurd hexited (hidle.ne_exited)
          | _ =>
              rw [hmain] at hhelps
              exact hhelps
      | worker j => exact hhelps
      | join => exact absurd rfl hne

theorem Helps.own [Inhabited β] (h : Working aThreads s) {t : Thread} {r : ℕ}
    (hhelps : Helps t r s) :
    measure (mapReduceStep aMapper aReducer s t) < measure s ∨
      measure (mapReduceStep aMapper aReducer s t) = measure s ∧
        ∃ r' < r, Helps t r' (mapReduceStep aMapper aReducer s t) := by
  cases t with
  | main => exact Or.inl (mainStep_measure hhelps)
  | worker i =>
      obtain ⟨pc, hi, haway⟩ := hhelps
      simp only [mapReduceStep, MapReduce.workerStep]
      split
      next hnone =>
        rw [hi] at hnone
        cases hnone
      next x hcalling => exact Or.inl (mapped_measure hcalling)
      next pc₀ hcalling hi₀ =>
        rw [hi, Option.some.injEq] at hi₀
        subst hi₀
        split
        next hnone =>
          rcases nextLoop_eq_none hnone with ⟨x, hx⟩ | hexited
          · exact absurd hx (hcalling x)
          · rw [hexited] at haway
            cases haway
        next l hl =>
          rcases h.worker.next_away hi hl haway (w := 9) (by omega) with
            hless | ⟨hidle, pc', hidle', heq, r', hr', haway'⟩
          · left
            simp only [measure, orderedStep]
            omega
          · right
            simp only [orderedStep, heq]
            refine ⟨(Neutral.worker i pc pc' hi hidle hidle').measure_eq, r', hr', pc', ?_, haway'⟩
            exact List.getElem?_set_self (List.getElem?_eq_some_iff.mp hi).1
  | join =>
      obtain ⟨pc, hi, haway⟩ := hhelps
      simp only [mapReduceStep, MapReduce.joinStep]
      split
      next hnone =>
        rw [hi] at hnone
        cases hnone
      next x hcalling => exact Or.inl (reduced_measure hcalling)
      next pc₀ hcalling hi₀ =>
        rw [hi, Option.some.injEq] at hi₀
        subst hi₀
        split
        next hnone =>
          rcases nextLoop_eq_none hnone with ⟨x, hx⟩ | hexited
          · exact absurd hx (hcalling x)
          · rw [hexited] at haway
            cases haway
        next l hl =>
          rcases h.join.next_away hi hl haway (w := 5) (by omega) with
            hless | ⟨hidle, pc', hidle', heq, r', hr', haway'⟩
          · left
            simp only [measure, orderedStep]
            omega
          · right
            simp only [orderedStep, heq]
            refine ⟨(Neutral.join pc pc' hi hidle hidle').measure_eq, r', hr', pc', ?_, haway'⟩
            exact List.getElem?_set_self (List.getElem?_eq_some_iff.mp hi).1

/-- No worker finds a task, so the first queue and the hands are empty. -/
theorem Working.worker_helps (h : Working aThreads s) (hthreads : 0 < aThreads)
    (hexited : .exited ∉ s.queue.worker.workers) :
    pending Pc.todo s.queue.worker = [] ∨ ∃ i r, i < aThreads ∧ Helps (.worker i) r s := by
  by_cases hall : ∀ pc ∈ s.queue.worker.workers, pc.Idle ∧
      s.queue.worker.ready listWrapper (fun _ => true) = false
  · left
    have hpos : 0 < s.queue.worker.workers.length := h.threads ▸ hthreads
    have hready := (hall _ (List.getElem_mem hpos)).2
    have hlist : s.queue.worker.queue.list = [] := by
      simp only [SafeQueueThread.ready, SafeQueue.wait] at hready
      cases hpop : listWrapper.pop s.queue.worker.queue.list with
      | none => exact listWrapper.empty hpop
      | some found =>
          rw [hpop] at hready
          cases hready
    have hhands : held Pc.todo s.queue.worker.workers = [] := by
      unfold held
      rw [List.flatMap_eq_nil_iff]
      intro pc hpc
      exact (hall pc hpc).1.todo
    rw [pending, hlist, hhands, List.append_nil]
  · right
    simp only [not_forall] at hall
    obtain ⟨pc, hpc, hwork⟩ := hall
    obtain ⟨i, hi⟩ := List.mem_iff_getElem?.mp hpc
    have hlt : i < aThreads := h.threads ▸ (List.getElem?_eq_some_iff.mp hi).1
    rcases pc.away_cases (fun heq => hexited (heq ▸ hpc)) s.queue.worker.queue.stop
      (s.queue.worker.ready listWrapper fun _ => true) with ⟨hidle, -, hready⟩ | ⟨r, haway⟩
    · exact absurd ⟨hidle, hready⟩ hwork
    · exact ⟨i, r, hlt, pc, hi, haway⟩

/-- Everything is in the second queue, so the next task is on top. -/
theorem Working.join_helps [Inhabited ρ] {chunks : List (List α)} (h : Working aThreads s)
    (hf : Folded aMapper aReducer chunks s) (hlate : s.main.late = false)
    (hempty : pending Pc.todo s.queue.worker = [])
    (hlt : s.queue.nextJoin < s.queue.inserted.length) : ∃ r, Helps .join r s := by
  obtain ⟨pc, hpc, -⟩ := hf.inTurn.turn
  have hstop := (h.not_stopped hlate).2
  have hi : s.queue.join.workers[0]? = some pc := by rw [hpc, List.getElem?_cons_zero]
  have hexited : pc ≠ .exited := by
    intro heq
    have hstopped := h.join.exited (by rw [hpc, heq]; exact List.mem_singleton_self _)
    rw [hstop] at hstopped
    cases hstopped
  rcases pc.away_cases hexited s.queue.join.queue.stop
    (s.queue.join.ready (priorityQueue ThreadsOrderedWorker.Task.serial)
      fun t => t.serial == s.queue.nextJoin) with ⟨hidle, -, hready⟩ | ⟨r, haway⟩
  · have hnext := (h.complete hlate _ hlt).resolve_left (Nat.lt_irrefl _)
    rw [unreduced, hempty, List.nil_append, pending, hpc, held, List.flatMap_cons, hidle.todo,
      List.flatMap_nil, List.append_nil, List.append_nil] at hnext
    obtain ⟨y, hy, hserial⟩ := List.mem_map.mp hnext
    simp only [SafeQueueThread.ready, SafeQueue.wait] at hready
    cases hpop : (priorityQueue ThreadsOrderedWorker.Task.serial).pop s.queue.join.queue.list with
    | none =>
        rw [(priorityQueue ThreadsOrderedWorker.Task.serial).empty hpop] at hy
        cases hy
    | some found =>
        obtain ⟨x, rest⟩ := found
        obtain ⟨hperm, hleast⟩ := popLeast_spec hpop
        have hx : x ∈ s.queue.join.queue.list := hperm.symm.subset List.mem_cons_self
        have hle := hleast y hy
        have hge : s.queue.nextJoin ≤ x.value.serial := by
          by_contra hlow
          have hmem : x.value.serial ∈ s.queue.join.calls.map (·.value.serial) := by
            rw [hf.inTurn.order, List.mem_range]
            exact Nat.lt_of_lt_of_le (Nat.lt_of_not_le hlow) hf.inTurn.next.1
          have hnodup := hf.serials.nodup
          rw [List.map_append, known, List.map_append, List.nodup_append] at hnodup
          have hapart := (List.nodup_append.mp hnodup.2.1).2.2
          apply hapart x.value.serial ?_ x.value.serial hmem rfl
          exact List.mem_map_of_mem (List.mem_append_left _ hx)
        have hturn : x.value.serial = s.queue.nextJoin :=
          Nat.le_antisymm (hserial ▸ hle) hge
        rw [hpop] at hready
        simp [hturn] at hready
  · exact ⟨r, pc, hi, haway⟩

/-- As long as the call has not returned, some thread has work before it: the count of
the reductions is right, as there are not too many. -/
theorem someone_helps [Inhabited ρ] {chunks : List (List α)} (hsize : chunks.length < 2 ^ 32)
    (hthreads : 0 < aThreads) (h : Working aThreads s) (hf : Folded aMapper aReducer chunks s)
    (hreturned : ∀ r, s.main ≠ .returned r) : ∃ t r, Started aThreads t ∧ Helps t r s := by
  by_cases hpasses : s.passes
  · exact ⟨.main, 0, trivial, hpasses⟩
  · have hstops := h.stops
    have hinserted := hf.inserted
    have hnext := hf.nextJoin_le
    unfold MapReduce.passes at hpasses
    cases hmain : s.main with
    | polling =>
        rw [hmain] at hpasses hstops hinserted hnext
        have hlate : s.main.late = false := by
          rw [hmain]
          rfl
        have hexited : .exited ∉ s.queue.worker.workers := by
          intro hmem
          have hstop := h.worker.exited hmem
          rw [(h.not_stopped hlate).1] at hstop
          cases hstop
        rcases h.worker_helps hthreads hexited with hempty | ⟨i, r, hi, hhelps⟩
        · have hcount : s.count.toNat < chunks.length := by
            rw [← hf.length_tasks]
            exact Nat.lt_of_not_le hpasses
          have hlt : s.queue.nextJoin < s.queue.inserted.length := by
            rw [hinserted, List.length_range]
            rw [hf.count] at hcount
            change s.queue.nextJoin ≤ chunks.length at hnext
            change s.queue.nextJoin < chunks.length
            omega
          obtain ⟨r, hhelps⟩ := h.join_helps hf hlate hempty hlt
          exact ⟨.join, r, trivial, hhelps⟩
        · exact ⟨.worker i, r, hi, hhelps⟩
    | joining =>
        rw [hmain] at hpasses hstops
        have hworker : s.queue.worker.queue.stop = true := congrArg Prod.fst hstops
        have hjoin : s.queue.join.queue.stop = true := congrArg Prod.snd hstops
        simp only [MapReduce.ended, not_forall] at hpasses
        obtain ⟨pc, hpc, hexited⟩ := hpasses
        rcases List.mem_append.mp hpc with hmem | hmem
        · obtain ⟨i, hi⟩ := List.mem_iff_getElem?.mp hmem
          have hlt : i < aThreads := h.threads ▸ (List.getElem?_eq_some_iff.mp hi).1
          rcases pc.away_cases hexited s.queue.worker.queue.stop
            (s.queue.worker.ready listWrapper fun _ => true) with ⟨-, hstop, -⟩ | ⟨r, haway⟩
          · rw [hworker] at hstop
            cases hstop
          · exact ⟨.worker i, r, hlt, pc, hi, haway⟩
        · obtain ⟨pc₀, hpc₀, -⟩ := hf.inTurn.turn
          have hi : s.queue.join.workers[0]? = some pc := by
            rw [hpc₀, List.mem_singleton] at hmem
            rw [hpc₀, hmem, List.getElem?_cons_zero]
          rcases pc.away_cases hexited s.queue.join.queue.stop
            (s.queue.join.ready (priorityQueue ThreadsOrderedWorker.Task.serial)
              fun t => t.serial == s.queue.nextJoin) with ⟨-, hstop, -⟩ | ⟨r, haway⟩
          · rw [hjoin] at hstop
            cases hstop
          · exact ⟨.join, r, trivial, pc, hi, haway⟩
    | returned r => exact absurd hmain (hreturned r)
    | _ =>
        rw [hmain] at hpasses
        exact absurd trivial hpasses

/-- The rule for fair schedules, with the measure of the work. -/
theorem help [Inhabited β] [Inhabited ρ] (aMapper : List α → β) (aReducer : ρ → β → ρ)
    {chunks : List (List α)} (hsize : chunks.length < 2 ^ 32) (hthreads : 0 < aThreads) :
    Help (mapReduceStep aMapper aReducer) (Started aThreads)
      (fun s : MapReduce α β ρ => Working aThreads s ∧ Folded aMapper aReducer chunks s)
      (fun s => ∃ r, s.main = .returned r) measure Helps where
  invariant := fun s t hs => ⟨hs.1.step hs.2 t, hs.2.step t⟩
  someone := fun s hs hgoal =>
    someone_helps hsize hthreads hs.1 hs.2 fun r hr => hgoal ⟨r, hr⟩
  other := by
    intro s t r t' hs hhelps hne
    rcases step_measure hs.1 t' with hless | hneutral
    · exact Or.inl hless
    · exact Or.inr ⟨hneutral.measure_eq, hneutral.helps hhelps hne⟩
  own := fun s t r hs hhelps => hhelps.own hs.1

end

/-! ## All schedules -/

/-- The counter never gets to a number of chunks that it can not hold. -/
theorem polls_for_ever [Inhabited β] [Inhabited ρ] (aData : ListArray α) (aMapper : List α → β)
    (aReducer : ρ → β → ρ) (aThreads : ℕ) (hsize : 2 ^ 32 ≤ aData.list.length)
    (sched : ℕ → Thread) (n : ℕ) :
    (trace (mapReduceStep aMapper aReducer) (.start aData aThreads) sched n).main.late = false := by
  have hinv := trace_invariant (mapReduceStep aMapper aReducer)
    (I := fun s => Folded aMapper aReducer aData.list s ∧ s.main.late = false) ?_
    ⟨Folded.start aMapper aReducer aData aThreads, rfl⟩ sched n
  · exact hinv.2
  · intro s t hs
    refine ⟨hs.1.step t, ?_⟩
    cases t with
    | main =>
        have hlate := hs.2
        simp only [mapReduceStep, MapReduce.mainStep]
        split
        next => split_ifs <;> rfl
        next hmain =>
          have hcount := s.count.toNat_lt
          rw [hs.1.length_tasks, if_pos (Nat.lt_of_lt_of_le hcount hsize)]
          exact hlate
        all_goals
          next hmain =>
            rw [hmain] at hlate
            cases hlate
    | worker i =>
        simp only [mapReduceStep, MapReduce.workerStep]
        split
        · exact hs.2
        · exact hs.2
        · split <;> exact hs.2
    | join =>
        simp only [mapReduceStep, MapReduce.joinStep]
        split
        · exact hs.2
        · exact hs.2
        · split <;> exact hs.2

/-- One thread after another, the caller first. -/
def inTurns (aThreads : ℕ) : ℕ → Thread :=
  roundRobin (.main :: .join :: (List.range aThreads).map .worker) .main

theorem inTurns_fair (aThreads : ℕ) : Fair (Started aThreads) (inTurns aThreads) := by
  intro t ht
  apply roundRobin_fair _ _ t
  cases t with
  | main => simp
  | worker i => simpa [Started] using ht
  | join => simp

/-- On every schedule that is fair to the threads the call returns what the sequential
one does, and it never returns anything else, if and only if the number of the
chunks fits the counter. -/
theorem mapReduce_eq_sequential_iff [Inhabited β] [Inhabited ρ] (aData : ListArray α)
    (aMapper : List α → β) (aReducer : ρ → β → ρ) (aThreads : ℕ) (hthreads : 0 < aThreads) :
    ((∀ sched, Fair (Started aThreads) sched → ∃ n,
        (trace (mapReduceStep aMapper aReducer) (.start aData aThreads) sched n).main =
          .returned (sequential aData aMapper aReducer)) ∧
      (∀ sched n r,
        (trace (mapReduceStep aMapper aReducer) (.start aData aThreads) sched n).main =
          .returned r → r = sequential aData aMapper aReducer) ∧
      (aData.list = [] → sequential aData aMapper aReducer = default)) ↔
    aData.list.length < 2 ^ 32 := by
  have hfolded := fun sched n => trace_invariant (mapReduceStep aMapper aReducer)
    (I := Folded aMapper aReducer aData.list) (fun s t hs => hs.step t)
    (Folded.start aMapper aReducer aData aThreads) sched n
  constructor
  · intro h
    by_contra hsize
    obtain ⟨n, hn⟩ := h.1 (inTurns aThreads) (inTurns_fair aThreads)
    have hlate := polls_for_ever aData aMapper aReducer aThreads (Nat.le_of_not_lt hsize)
      (inTurns aThreads) n
    rw [hn] at hlate
    cases hlate
  · intro hsize
    refine ⟨?_, ?_, ?_⟩
    · intro sched hfair
      obtain ⟨n, r, hr⟩ := (help aMapper aReducer hsize hthreads).reaches
        ⟨Working.start aData aThreads, Folded.start aMapper aReducer aData aThreads⟩ hfair
      exact ⟨n, (hfolded sched n).eq_sequential hr ▸ hr⟩
    · intro sched n r hr
      exact (hfolded sched n).eq_sequential hr
    · intro hempty
      rw [sequential, hempty, List.foldl_nil]

/-- Concatenation is not commutative. -/
theorem mapReduce_eq_sequential_iff_two :
    0 < 2 ∧ ∀ sched, Fair (Started 2) sched → ∃ n,
      (trace (mapReduceStep List.reverse (· ++ ·)) (.start ⟨[[1, 2], [3]], 2⟩ 2) sched n).main =
        .returned [2, 1, 3] := by
  refine ⟨by decide, ?_⟩
  exact ((mapReduce_eq_sequential_iff ⟨[[1, 2], [3]], 2⟩ List.reverse (· ++ ·) 2
    (by decide)).mpr (by decide)).1

/-- Elements in chunks of their own. -/
def singles (n : ℕ) : ListArray Unit := (List.replicate n ()).foldl ListArray.pushBack { size := 1 }

theorem length_singles (n : ℕ) : (singles n).list.length = n := by
  rw [singles, ListArray.list_foldl_pushBack rfl (by simp)]
  simp

/-- With `2 ^ 32` chunks the call does not return. -/
theorem mapReduce_hangs_of_overflow :
    ∃ sched, Fair (Started 1) sched ∧ ∀ n r,
      (trace (mapReduceStep List.length (· + ·)) (.start (singles (2 ^ 32)) 1) sched n).main ≠
        .returned r := by
  refine ⟨inTurns 1, inTurns_fair 1, ?_⟩
  intro n r hr
  have hlate := polls_for_ever (singles (2 ^ 32)) List.length (· + ·) 1
    (Nat.le_of_eq (length_singles (2 ^ 32)).symm) (inTurns 1) n
  rw [hr] at hlate
  cases hlate

end Stuff.ThreadsMapReduce
