import Stuff.ContainerListArray
import Stuff.ThreadsOrderedWorker
import Stuff.ThreadsSafeQueueProgress

/-!
# Map and reduce over the chunks of a list

`Threads::MapReduce` maps each chunk in one of several threads and reduces the
results in the order of the chunks. The caller polls a counter of the reductions
until it is the number of chunks, then stops the threads. The counter has 32 bits,
the number of chunks 64.
-/
namespace Stuff.ThreadsMapReduce
open ContainerListArray ThreadsSafeQueue ThreadsOrderedWorker

variable {α β ρ : Type}

/-- One chunk, with a place for what the mapper makes of it. -/
structure MapTask (α β : Type) where
  input : List α
  result : β

/-- Where the calling thread is: at an insert, in the polling loop, before each of the
two stops, at the joins, or back. -/
inductive Main (ρ : Type)
  | inserting (next : ℕ)
  | polling
  | stopping
  | stopped
  | joining
  | returned (aResult : ρ)

inductive Thread
  | main
  | worker (i : ℕ)
  | join
deriving DecidableEq, Repr

/-- The local variables. A pointer to a task is its place in the list. -/
structure MapReduce (α β ρ : Type) where
  tasks : List (MapTask α β)
  count : UInt32 := 0
  result : ρ
  queue : OrderedWorker ℕ
  main : Main ρ := .inserting 0

namespace MapReduce

def start [Inhabited β] [Inhabited ρ] (aData : ListArray α) (aThreads : ℕ) :
    MapReduce α β ρ where
  tasks := aData.forChunks (fun tasks x => tasks ++ [⟨x, default⟩]) []
  result := default
  queue := .start aThreads

/-- The handler of the queue: the mapper writes to the task. -/
def mapped (s : MapReduce α β ρ) (aMapper : List α → β) (i task : ℕ) : MapReduce α β ρ :=
  { s with
    tasks := s.tasks.modify task fun t => { t with result := aMapper t.input }
    queue := orderedStep s.queue (.handled i task) }

/-- The join function. -/
def reduced [Inhabited β] (s : MapReduce α β ρ) (aReducer : ρ → β → ρ) (task : ℕ) :
    MapReduce α β ρ :=
  { s with
    result := aReducer s.result ((s.tasks[task]?.map MapTask.result).getD default)
    count := s.count + 1
    queue := orderedStep s.queue .joined }

def workerStep (aMapper : List α → β) (s : MapReduce α β ρ) (i : ℕ) : MapReduce α β ρ :=
  match s.queue.worker.workers[i]? with
  | none => s
  | some (Pc.calling x) => s.mapped aMapper i x.value.data
  | some pc =>
      match nextLoop i pc with
      | none => s
      | some l => { s with queue := orderedStep s.queue (.worker l) }

def joinStep [Inhabited β] (aReducer : ρ → β → ρ) (s : MapReduce α β ρ) : MapReduce α β ρ :=
  match s.queue.join.workers[0]? with
  | none => s
  | some (Pc.calling x) => s.reduced aReducer x.value.data
  | some pc =>
      match nextLoop 0 pc with
      | none => s
      | some l => { s with queue := orderedStep s.queue (.join l) }

/-- The threads that `Group::wait` joins have all ended. -/
def ended (s : MapReduce α β ρ) : Prop :=
  ∀ pc ∈ s.queue.worker.workers ++ s.queue.join.workers, pc = .exited

instance (s : MapReduce α β ρ) : Decidable s.ended := inferInstanceAs (Decidable (∀ _ ∈ _, _))

def mainStep (s : MapReduce α β ρ) : MapReduce α β ρ :=
  match s.main with
  | .inserting next =>
      if next < s.tasks.length then
        { s with queue := orderedStep s.queue (.insert next), main := .inserting (next + 1) }
      else { s with main := .polling }
  | .polling => if s.count.toNat < s.tasks.length then s else { s with main := .stopping }
  | .stopping => { s with queue := orderedStep s.queue (.worker .stop), main := .stopped }
  | .stopped => { s with queue := orderedStep s.queue (.join .stop), main := .joining }
  | .joining => if s.ended then { s with main := .returned s.result } else s
  | .returned _ => s

end MapReduce

/-- The next step of one thread. -/
def mapReduceStep [Inhabited β] (aMapper : List α → β) (aReducer : ρ → β → ρ)
    (s : MapReduce α β ρ) : Thread → MapReduce α β ρ
  | .main => s.mainStep
  | .worker i => s.workerStep aMapper i
  | .join => s.joinStep aReducer

/-- What the call is for: one chunk after another. -/
def sequential [Inhabited ρ] (aData : ListArray α) (aMapper : List α → β)
    (aReducer : ρ → β → ρ) : ρ :=
  aData.list.foldl (fun r x => aReducer r (aMapper x)) default

/-! ## What has been reduced -/

/-- The number of tasks inserted. -/
def Main.inserted (size : ℕ) : Main ρ → ℕ
  | .inserting next => next
  | _ => size

/-- The polling loop is over. -/
def Main.late : Main ρ → Bool
  | .inserting _ => false
  | .polling => false
  | _ => true

/-- The results of the chunks before `nextJoin` are reduced, in their order, and
counted. A task that was handled has its result. -/
structure Folded [Inhabited ρ] (aMapper : List α → β) (aReducer : ρ → β → ρ)
    (chunks : List (List α)) (s : MapReduce α β ρ) : Prop where
  serials : Serials s.queue
  inTurn : InTurn s.queue
  tasks : s.tasks.map MapTask.input = chunks
  inserted : s.queue.inserted = List.range (s.main.inserted chunks.length)
  inserted_le : s.main.inserted chunks.length ≤ chunks.length
  mapped : ∀ done ∈ s.queue.completed, done.2.data = done.1 ∧
    ∀ t ∈ s.tasks[done.1]?, t.result = aMapper t.input
  calling : ∀ x, .calling x ∈ s.queue.join.workers →
    x ∈ s.queue.join.calls ∧ x.value.serial = s.queue.nextJoin
  result : s.result =
    (chunks.take s.queue.nextJoin).foldl (fun r x => aReducer r (aMapper x)) default
  count : s.count.toNat = s.queue.nextJoin % 2 ^ 32
  late : s.main.late = true → s.queue.nextJoin = chunks.length
  returned : ∀ r, s.main = .returned r → r = s.result

theorem forChunks_tasks (aData : ListArray α) (b : β) :
    aData.forChunks (fun tasks x => tasks ++ [(⟨x, b⟩ : MapTask α β)]) [] =
      aData.list.map fun x => ⟨x, b⟩ := by
  have hfold : ∀ (l : List (List α)) (tasks : List (MapTask α β)),
      l.foldl (fun tasks x => tasks ++ [⟨x, b⟩]) tasks = tasks ++ l.map fun x => ⟨x, b⟩ := by
    intro l
    induction l with
    | nil => simp
    | cons x l ih =>
        intro tasks
        rw [List.foldl_cons, ih, List.map_cons, List.append_assoc, List.singleton_append]
  exact hfold aData.list []

section
variable {aMapper : List α → β} {aReducer : ρ → β → ρ} {chunks : List (List α)}
  {s : MapReduce α β ρ}

namespace Folded

theorem start [Inhabited β] [Inhabited ρ] (aMapper : List α → β) (aReducer : ρ → β → ρ)
    (aData : ListArray α) (aThreads : ℕ) :
    Folded aMapper aReducer aData.list (.start aData aThreads) := by
  constructor
  · exact serials_start aThreads
  · exact inTurn_start aThreads
  · rw [MapReduce.start, forChunks_tasks, List.map_map]
    exact List.map_id _
  · rfl
  · exact Nat.zero_le _
  · simp [MapReduce.start, OrderedWorker.start]
  · simp [MapReduce.start, OrderedWorker.start]
  · rfl
  · rfl
  · simp [MapReduce.start, Main.late]
  · simp [MapReduce.start]

variable [Inhabited ρ]

theorem length_tasks (h : Folded aMapper aReducer chunks s) : s.tasks.length = chunks.length := by
  rw [← h.tasks, List.length_map]

theorem nextJoin_le (h : Folded aMapper aReducer chunks s) :
    s.queue.nextJoin ≤ s.main.inserted chunks.length := by
  have hcalls := h.inTurn.calls_length_le h.serials
  rw [h.inserted, List.length_range] at hcalls
  exact Nat.le_trans h.inTurn.next.1 hcalls

/-- A step of the threads between the calls. -/
theorem loop (h : Folded aMapper aReducer chunks s) {e : ThreadsOrderedWorker.Event ℕ}
    (hinserted : (orderedStep s.queue e).inserted = s.queue.inserted)
    (hcompleted : (orderedStep s.queue e).completed = s.queue.completed)
    (hnext : (orderedStep s.queue e).nextJoin = s.queue.nextJoin)
    (hcalling : ∀ x, .calling x ∈ (orderedStep s.queue e).join.workers →
      x ∈ (orderedStep s.queue e).join.calls ∧ x.value.serial = s.queue.nextJoin) :
    Folded aMapper aReducer chunks { s with queue := orderedStep s.queue e } := by
  constructor
  · exact orderedStep_serials h.serials e
  · exact orderedStep_inTurn h.inTurn h.serials e
  · exact h.tasks
  · exact hinserted.trans h.inserted
  · exact h.inserted_le
  · simpa only [hcompleted] using h.mapped
  · simpa only [hnext] using hcalling
  · simpa only [hnext] using h.result
  · simpa only [hnext] using h.count
  · simpa only [hnext] using h.late
  · exact h.returned

theorem worker (h : Folded aMapper aReducer chunks s) (l : Loop) :
    Folded aMapper aReducer chunks { s with queue := orderedStep s.queue (.worker l) } :=
  h.loop rfl rfl rfl h.calling

/-- A thread that goes on without a call. -/
theorem calling_setPc (h : Folded aMapper aReducer chunks s) {i : ℕ}
    {pc : Pc (ThreadsOrderedWorker.Task ℕ)} (hpc : ∀ x, pc ≠ .calling x)
    (x : Item (ThreadsOrderedWorker.Task ℕ)) (hx : .calling x ∈ s.queue.join.workers.set i pc) :
    x ∈ s.queue.join.calls ∧ x.value.serial = s.queue.nextJoin := by
  rcases List.mem_or_eq_of_mem_set hx with hold | hnew
  · exact h.calling x hold
  · exact absurd hnew.symm (hpc x)

theorem calling_proceed (h : Folded aMapper aReducer chunks s) {i : ℕ}
    {pc : Pc (ThreadsOrderedWorker.Task ℕ)} {hand : Option (Item (ThreadsOrderedWorker.Task ℕ))}
    (hi : s.queue.join.workers[i]? = some pc) (hhand : pc.unheard = hand.toList)
    (x : Item (ThreadsOrderedWorker.Task ℕ))
    (hx : .calling x ∈ (s.queue.join.proceed i hand).workers) :
    x ∈ (s.queue.join.proceed i hand).calls ∧ x.value.serial = s.queue.nextJoin := by
  cases hand with
  | none =>
      rw [proceed_none] at hx ⊢
      exact h.calling_setPc (by simp) x hx
  | some y =>
      rcases List.mem_or_eq_of_mem_set hx with hold | hnew
      · obtain ⟨hcalls, hserial⟩ := h.calling x hold
        exact ⟨List.mem_append_left _ hcalls, hserial⟩
      · cases hnew
        refine ⟨List.mem_append_right _ (List.mem_singleton_self x), ?_⟩
        exact (h.inTurn.only hi).2.1 x (by simp [hhand])

theorem join (h : Folded aMapper aReducer chunks s) (l : Loop) :
    Folded aMapper aReducer chunks { s with queue := orderedStep s.queue (.join l) } := by
  apply h.loop rfl rfl rfl
  have hmoves := loopStep_moves (priorityQueue ThreadsOrderedWorker.Task.serial)
    (fun t => t.serial == s.queue.nextJoin) s.queue.join l
  simp only [orderedStep]
  generalize loopStep (priorityQueue ThreadsOrderedWorker.Task.serial)
    (fun t => t.serial == s.queue.nextJoin) s.queue.join l = join at hmoves
  cases hmoves with
  | stay => exact h.calling
  | stop => exact h.calling
  | look i hand hi => exact h.calling_setPc (by simp)
  | readDone i hand count hi => exact h.calling_setPc (by simp)
  | readCount i hand done hi => exact h.calling_setPc (by simp)
  | goOn i hand hi => exact h.calling_proceed hi rfl
  | goOnLate i hand done count hi => exact h.calling_proceed hi rfl
  | giveUp i hand hi => exact h.calling_setPc (InTurn.leaving_ne hand)
  | giveUpLate i hand done count expired hi => exact h.calling_setPc (InTurn.leaving_ne hand)
  | take i x rest hi => exact h.calling_setPc (by simp)
  | miss i hi => exact h.calling_setPc (by simp)
  | finish i x hi => exact h.calling_setPc (by simp)

theorem mapped_step (h : Folded aMapper aReducer chunks s) {i : ℕ}
    {x : Item (ThreadsOrderedWorker.Task ℕ)}
    (hi : s.queue.worker.workers[i]? = some (.calling x)) :
    Folded aMapper aReducer chunks (s.mapped aMapper i x.value.data) := by
  have hserials := orderedStep_serials h.serials (.handled i x.value.data)
  have hinTurn := orderedStep_inTurn h.inTurn h.serials (.handled i x.value.data)
  unfold MapReduce.mapped
  simp only [orderedStep, OrderedWorker.handled, hi] at hserials hinTurn ⊢
  have hold : ∀ (task : ℕ), ∀ t ∈ (s.tasks.modify x.value.data fun t =>
      { t with result := aMapper t.input })[task]?, ∃ t₀ ∈ s.tasks[task]?, t.input = t₀.input ∧
        (t = t₀ ∨ t.result = aMapper t.input) ∧
          (task = x.value.data → t.result = aMapper t.input) := by
    intro task t ht
    rw [List.getElem?_modify] at ht
    obtain ⟨t₀, ht₀, rfl⟩ := Option.map_eq_some_iff.mp ht
    refine ⟨t₀, ht₀, ?_⟩
    split_ifs with heq
    · exact ⟨rfl, Or.inr rfl, fun _ => rfl⟩
    · exact ⟨rfl, Or.inl rfl, fun hne => absurd hne.symm heq⟩
  constructor
  · exact hserials
  · exact hinTurn
  · rw [← h.tasks]
    apply List.ext_getElem?
    intro j
    rw [List.getElem?_map, List.getElem?_map, List.getElem?_modify]
    cases s.tasks[j]? with
    | none => rfl
    | some t =>
        simp only [Option.map_eq_map, Option.map_some]
        split_ifs <;> rfl
  · exact h.inserted
  · exact h.inserted_le
  · intro done hdone
    rcases List.mem_append.mp hdone with hmem | hnew
    · obtain ⟨hdata, hresult⟩ := h.mapped done hmem
      refine ⟨hdata, ?_⟩
      intro t ht
      obtain ⟨t₀, ht₀, hinput, hsame | hnew, -⟩ := hold done.1 t ht
      · rw [hsame]
        exact hresult t₀ ht₀
      · exact hnew
    · rw [List.mem_singleton.mp hnew]
      refine ⟨rfl, ?_⟩
      intro t ht
      obtain ⟨t₀, ht₀, hinput, -, hnew⟩ := hold x.value.data t ht
      exact hnew rfl
  · exact h.calling
  · exact h.result
  · exact h.count
  · exact h.late
  · exact h.returned

/-- The task of the call is the one after those that are reduced. -/
theorem task_of_calling (h : Folded aMapper aReducer chunks s)
    {x : Item (ThreadsOrderedWorker.Task ℕ)} (hx : .calling x ∈ s.queue.join.workers) :
    ∃ c, chunks[s.queue.nextJoin]? = some c ∧
      s.tasks[x.value.data]?.map MapTask.result = some (aMapper c) := by
  obtain ⟨hcalls, hserial⟩ := h.calling x hx
  obtain ⟨d, hd, hdone⟩ := h.serials.completed x (List.mem_append_right _ hcalls)
  obtain ⟨hdata, hresult⟩ := h.mapped _ hdone
  rw [h.inserted, hserial] at hd
  obtain ⟨hlt, hget⟩ := List.getElem?_eq_some_iff.mp hd
  rw [List.length_range] at hlt
  rw [List.getElem_range] at hget
  have hlen : s.queue.nextJoin < s.tasks.length := by
    rw [h.length_tasks]
    exact Nat.lt_of_lt_of_le hlt h.inserted_le
  have htask := List.getElem?_eq_getElem hlen
  refine ⟨s.tasks[s.queue.nextJoin].input, ?_, ?_⟩
  · rw [← h.tasks, List.getElem?_map, htask, Option.map_some]
  · dsimp only at hdata hresult
    rw [hdata, ← hget, htask, Option.map_some, hresult _ (hget ▸ htask)]

theorem reduced_step [Inhabited β] (h : Folded aMapper aReducer chunks s)
    {x : Item (ThreadsOrderedWorker.Task ℕ)}
    (hi : s.queue.join.workers[0]? = some (.calling x)) :
    Folded aMapper aReducer chunks (s.reduced aReducer x.value.data) := by
  have hserials := orderedStep_serials h.serials .joined
  have hinTurn := orderedStep_inTurn h.inTurn h.serials .joined
  obtain ⟨c, hc, hresult⟩ := h.task_of_calling (List.mem_of_getElem? hi)
  have hlt : s.queue.nextJoin < chunks.length := (List.getElem?_eq_some_iff.mp hc).1
  have hreturns := SafeQueueThread.returns_of_calling hi
  unfold MapReduce.reduced
  simp only [orderedStep, OrderedWorker.joined, hi, hreturns] at hserials hinTurn ⊢
  constructor
  · exact hserials
  · exact hinTurn
  · exact h.tasks
  · exact h.inserted
  · exact h.inserted_le
  · exact h.mapped
  · intro y hy
    dsimp only [SafeQueueThread.setPc] at hy
    rw [(h.inTurn.only hi).1 (.handled x), List.mem_singleton] at hy
    cases hy
  · rw [hresult, Option.getD_some, List.take_add_one, hc, Option.toList_some, List.foldl_append,
      List.foldl_cons, List.foldl_nil, ← h.result]
  · have hcount := h.count
    rw [UInt32.toNat_add, hcount]
    simp only [UInt32.toNat_one]
    omega
  · intro hlate
    exact absurd (h.late hlate) (Nat.ne_of_lt hlt)
  · intro r hr
    have hlate : s.main.late = true := by
      rw [show s.main = .returned r from hr]
      rfl
    exact absurd (h.late hlate) (Nat.ne_of_lt hlt)

/-- The calling thread goes on. -/
theorem setMain (h : Folded aMapper aReducer chunks s) (main : Main ρ)
    (hinserted : main.inserted chunks.length = s.main.inserted chunks.length)
    (hlate : main.late = true → s.queue.nextJoin = chunks.length)
    (hreturned : ∀ r, main = .returned r → r = s.result) :
    Folded aMapper aReducer chunks { s with main := main } := by
  constructor
  · exact h.serials
  · exact h.inTurn
  · exact h.tasks
  · exact hinserted ▸ h.inserted
  · exact hinserted ▸ h.inserted_le
  · exact h.mapped
  · exact h.calling
  · exact h.result
  · exact h.count
  · exact hlate
  · exact hreturned

theorem insert (h : Folded aMapper aReducer chunks s) {k : ℕ} (hmain : s.main = .inserting k)
    (hk : k < chunks.length) :
    Folded aMapper aReducer chunks
      { s with queue := orderedStep s.queue (.insert k), main := .inserting (k + 1) } := by
  have hinserted : s.queue.inserted = List.range k := by
    rw [h.inserted, hmain]
    rfl
  constructor
  · exact orderedStep_serials h.serials (.insert k)
  · exact orderedStep_inTurn h.inTurn h.serials (.insert k)
  · exact h.tasks
  · simp only [orderedStep, OrderedWorker.insert, hinserted, Main.inserted, List.range_succ]
  · exact hk
  · exact h.mapped
  · exact h.calling
  · exact h.result
  · exact h.count
  · simp [Main.late]
  · simp

theorem main_step (h : Folded aMapper aReducer chunks s) :
    Folded aMapper aReducer chunks s.mainStep := by
  have hnext := h.nextJoin_le
  have hle := h.inserted_le
  have hlate := h.late
  unfold MapReduce.mainStep
  split
  next k hmain =>
    rw [hmain] at hle
    rw [h.length_tasks]
    split_ifs with hk
    · exact h.insert hmain hk
    · apply h.setMain .polling ?_ (by simp [Main.late]) (by simp)
      rw [hmain]
      exact Nat.le_antisymm (Nat.le_of_not_lt hk) hle
  next hmain =>
    rw [hmain] at hnext
    rw [h.length_tasks, h.count]
    split_ifs with hcount
    · exact h
    · apply h.setMain .stopping (by rw [hmain]; rfl) ?_ (by simp)
      intro _
      have hmod := Nat.mod_le s.queue.nextJoin (2 ^ 32)
      exact Nat.le_antisymm hnext (Nat.le_trans (Nat.le_of_not_lt hcount) hmod)
  next hmain =>
    rw [hmain] at hlate
    exact (h.worker .stop).setMain .stopped (by dsimp only; rw [hmain]; rfl) hlate (by simp)
  next hmain =>
    rw [hmain] at hlate
    exact (h.join .stop).setMain .joining (by dsimp only; rw [hmain]; rfl) hlate (by simp)
  next hmain =>
    rw [hmain] at hlate
    split_ifs
    · apply h.setMain (.returned s.result) (by rw [hmain]; rfl) hlate
      intro r hr
      exact (Main.returned.inj hr).symm
    · exact h
  next => exact h

theorem step [Inhabited β] (h : Folded aMapper aReducer chunks s) (t : Thread) :
    Folded aMapper aReducer chunks (mapReduceStep aMapper aReducer s t) := by
  cases t with
  | main => exact h.main_step
  | worker i =>
      simp only [mapReduceStep, MapReduce.workerStep]
      split
      next => exact h
      next x hi => exact h.mapped_step hi
      next =>
        split
        · exact h
        · exact h.worker _
  | join =>
      simp only [mapReduceStep, MapReduce.joinStep]
      split
      next => exact h
      next x hi => exact h.reduced_step hi
      next =>
        split
        · exact h
        · exact h.join _

/-- What is returned is what the sequential one returns. -/
theorem eq_sequential {aData : ListArray α} (h : Folded aMapper aReducer aData.list s) {r : ρ}
    (hr : s.main = .returned r) : r = sequential aData aMapper aReducer := by
  have hlate : s.main.late = true := by
    rw [hr]
    rfl
  rw [h.returned r hr, h.result, h.late hlate, List.take_length]
  rfl

end Folded

end

end Stuff.ThreadsMapReduce
