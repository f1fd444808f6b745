import Stuff.MysqlMessageQueue

/-!
# Delivery by `MySQL::MessageQueue`

The serials of a queue are committed one after another, so what is not seen yet has
greater serials than what is. So a consumer that remembers only a position misses
nothing and gets nothing twice.
-/
namespace Stuff.MysqlMessageQueue
open EventRuns

variable {Q N T : Type}

section
variable [DecidableEq Q]

/-! ## What a step leaves alone -/

/-- A statement writes nothing that is committed. -/
theorem statement_rest (same : T → T → Bool) (keeps : Bool) (s : State Q N T) (p : ℕ)
    (producer : Producer Q T) :
    ∃ producers, s.statement same keeps p producer = { s with producers := producers } := by
  have hset : ∀ producer', ∃ producers,
      s.setProducer p producer' = { s with producers := producers } := fun _ => ⟨_, rfl⟩
  have hsame : ∃ producers, s = { s with producers := producers } := ⟨s.producers, rfl⟩
  unfold State.statement
  split
  · exact hsame
  split
  · unfold State.selectForUpdate
    split_ifs
    · exact hsame
    · split
      · exact hset _
      · exact hset _
  · unfold State.isExists
    split_ifs
    · exact hset _
    · exact hset _
  · unfold State.insertData
    split_ifs
    · exact hsame
    · exact hset _
    · exact hset _
  · unfold State.insertProducer
    split_ifs
    · exact hsame
    · exact hset _
  · exact hsame

/-- What is committed stays, and the consumers do not notice. -/
structure Grows (s t : State Q N T) : Prop where
  consumers : t.consumers = s.consumers
  updates : t.updates = s.updates
  consumer : t.db.consumer = s.db.consumer
  data : s.db.data <+: t.db.data

omit [DecidableEq Q] in
theorem Grows.of_producers (s : State Q N T) (producers : List (Producer Q T)) :
    Grows s { s with producers := producers } :=
  ⟨rfl, rfl, rfl, List.prefix_refl _⟩

omit [DecidableEq Q] in
theorem commit_grows (s : State Q N T) (p : ℕ) (producer : Producer Q T) :
    Grows s (s.commit p producer) := by
  unfold State.commit
  split
  · exact Grows.of_producers s s.producers
  · exact ⟨rfl, rfl, rfl, List.prefix_append _ _⟩

theorem producerStep_grows (same : T → T → Bool) (keeps : Bool) (s : State Q N T) (p : ℕ)
    (producer : Producer Q T) (e : ProducerEvent Q T) :
    Grows s (producerStep same keeps s p producer e) := by
  have hsame : Grows s s := Grows.of_producers s s.producers
  cases e with
  | begin =>
      simp only [producerStep]
      split_ifs
      · have hcommit := commit_grows s p producer
        exact ⟨hcommit.consumers, hcommit.updates, hcommit.consumer, hcommit.data⟩
      · exact hsame
  | insert queue aTask =>
      simp only [producerStep]
      split_ifs
      · exact Grows.of_producers s _
      · exact hsame
  | statement =>
      obtain ⟨producers, heq⟩ := statement_rest same keeps s p producer
      simp only [producerStep, heq]
      exact Grows.of_producers s producers
  | commit =>
      simp only [producerStep]
      split_ifs
      · exact commit_grows s p producer
      · exact hsame
  | rollback => exact Grows.of_producers s _

/-! ## One consumer -/

theorem prefix_range' {l : List ℕ} {start n : ℕ} (h : l <+: List.range' start n) :
    l = List.range' start l.length := by
  have hlength := h.length_le
  rw [List.length_range'] at hlength
  have htake := List.prefix_iff_eq_take.mp h
  rw [List.take_range'_of_length_ge hlength] at htake
  exact htake

theorem GapFree.of_prefix {view data : List (Row Q T)} (h : GapFree data) (hview : view <+: data) :
    GapFree view := by
  intro queue
  obtain ⟨n, hn⟩ := h queue
  have hrows : (rowsOf queue view).map (fun row => row.serial) <+:
      (rowsOf queue data).map (fun row => row.serial) := (hview.filter _).map _
  rw [hn] at hrows
  exact ⟨_, prefix_range' hrows⟩

theorem filter_range' (position n : ℕ) :
    (List.range' 1 n).filter (fun serial => position < serial) =
      List.range' (position + 1) (n - position) := by
  induction n with
  | zero => simp
  | succ n ih =>
      rw [List.range'_1_concat, List.filter_append, ih]
      by_cases hlt : position < 1 + n
      · rw [List.filter_cons_of_pos (by simpa using hlt), List.filter_nil,
          show n + 1 - position = n - position + 1 by omega, List.range'_1_concat,
          show position + 1 + (n - position) = 1 + n by omega]
      · rw [List.filter_cons_of_neg (by simpa using hlt), List.filter_nil, List.append_nil,
          show n + 1 - position = n - position by omega]

namespace Consumer

/-- `select` gets what follows the position, in order. -/
theorem query_serials {sees : Db Q N T} (h : GapFree sees.data) (config : Config Q N)
    (position : ℕ) : (query sees config position).map (fun sTask => sTask.serial) =
      List.range' (position + 1) (query sees config position).length := by
  obtain ⟨n, hn⟩ := h config.queue
  have hrows : (sees.data.filter fun row => row.queue = config.queue && position < row.serial) =
      (rowsOf config.queue sees.data).filter fun row => position < row.serial := by
    rw [rowsOf, List.filter_filter]
    apply List.filter_congr
    intro row _
    exact Bool.and_comm _ _
  have hserials : ((rowsOf config.queue sees.data).filter fun row => position < row.serial).map
      (fun row => row.serial) = List.range' (position + 1) (n - position) := by
    rw [← filter_range' position n, ← hn, List.filter_map]
    rfl
  have hsorted : ((rowsOf config.queue sees.data).filter fun row =>
      position < row.serial).Pairwise fun x y => x.serial ≤ y.serial := by
    rw [← List.pairwise_map (f := fun row : Row Q T => row.serial) (R := fun x y => x ≤ y),
      hserials]
    exact List.pairwise_le_range'
  have htaken : (query sees config position).map (fun sTask => sTask.serial) <+:
      List.range' (position + 1) (n - position) := by
    simp only [query]
    rw [hrows, hsorted.insertionSort_eq, List.map_map, ← hserials]
    exact (List.take_prefix _ _).map _
  have heq := prefix_range' htaken
  rw [List.length_map] at heq
  exact heq

theorem query_mem {sees : Db Q N T} {config : Config Q N} {position : ℕ} {sTask : Task T}
    (h : sTask ∈ query sees config position) :
    ⟨config.queue, sTask.serial, sTask.task⟩ ∈ sees.data := by
  obtain ⟨row, hrow, rfl⟩ := List.mem_map.mp h
  have hmem := (List.mem_insertionSort _).mp (List.mem_of_mem_take hrow)
  obtain ⟨hdata, hqueue⟩ := List.mem_filter.mp hmem
  rw [Bool.and_eq_true, decide_eq_true_eq] at hqueue
  rw [← hqueue.1]
  exact hdata

end Consumer

end

section
variable {db db' : Db Q N T} {consumer : Consumer Q N T}

/-- What a transaction sees was committed, and the object got what follows its start. -/
structure ConsumerSound (db : Db Q N T) (consumer : Consumer Q N T) : Prop where
  view : (consumer.sees db).data <+: db.data
  received : consumer.received.map (fun sTask => sTask.serial) =
    List.range' (consumer.started + 1) consumer.received.length
  tasks : ∀ sTask ∈ consumer.received,
    ⟨consumer.config.queue, sTask.serial, sTask.task⟩ ∈ db.data
  position : consumer.position = consumer.started + consumer.received.length

@[simp] theorem read_received (keeps : Bool) (db : Db Q N T) (consumer : Consumer Q N T) :
    (consumer.read keeps db).received = consumer.received := by
  unfold Consumer.read
  split <;> rfl

@[simp] theorem read_started (keeps : Bool) (db : Db Q N T) (consumer : Consumer Q N T) :
    (consumer.read keeps db).started = consumer.started := by
  unfold Consumer.read
  split <;> rfl

@[simp] theorem read_config (keeps : Bool) (db : Db Q N T) (consumer : Consumer Q N T) :
    (consumer.read keeps db).config = consumer.config := by
  unfold Consumer.read
  split <;> rfl

/-- A read does not change what is seen. -/
theorem read_sees (keeps : Bool) (db : Db Q N T) (consumer : Consumer Q N T) :
    ((consumer.read keeps db).tx.bind fun tx => tx.view).getD db = consumer.sees db := by
  unfold Consumer.read
  split
  · unfold Consumer.sees
    cases consumer.tx <;> rfl
  · rfl

namespace ConsumerSound

theorem grow (h : ConsumerSound db consumer) (hdata : db.data <+: db'.data) :
    ConsumerSound db' consumer := by
  refine ⟨?_, h.received, fun sTask hmem => hdata.subset (h.tasks sTask hmem), h.position⟩
  have hview := h.view
  unfold Consumer.sees at hview ⊢
  cases hseen : consumer.tx.bind fun tx => tx.view with
  | none => exact List.prefix_refl _
  | some view =>
      rw [hseen] at hview
      exact hview.trans hdata

theorem fresh (db : Db Q N T) (config : Config Q N) (tx : Option (ConsumerTx Q N T))
    (hview : ((tx.bind fun tx => tx.view).getD db).data <+: db.data) (position : ℕ) :
    ConsumerSound db
      { config := config, position := position, tx := tx, started := position, received := [] } :=
  ⟨hview, rfl, by simp, rfl⟩

/-- Another transaction, or none. -/
theorem set_tx (h : ConsumerSound db consumer) (tx : Option (ConsumerTx Q N T))
    (hview : ((tx.bind fun tx => tx.view).getD db).data <+: db.data) :
    ConsumerSound db { consumer with tx := tx } :=
  ⟨hview, h.received, h.tasks, h.position⟩

theorem select [DecidableEq Q] (h : ConsumerSound db consumer) (hgap : GapFree db.data)
    (keeps : Bool) : ConsumerSound db (consumer.select keeps db) := by
  have hserials := Consumer.query_serials (hgap.of_prefix h.view) consumer.config consumer.position
  generalize hq : Consumer.query (consumer.sees db) consumer.config consumer.position = sTasks
    at hserials
  have hlast : (sTasks.getLast?.map fun sTask => sTask.serial).getD consumer.position =
      consumer.position + sTasks.length := by
    rw [← List.getLast?_map, hserials, List.getLast?_range']
    split_ifs with hzero
    · rw [Option.getD_none, hzero, Nat.add_zero]
    · rw [Option.getD_some]
      omega
  have hstate : consumer.select keeps db = { consumer.read keeps db with
      position := consumer.position + sTasks.length
      received := consumer.received ++ sTasks } := by
    simp only [Consumer.select, hq, hlast]
  rw [hstate]
  constructor
  · exact (congrArg (fun sees : Db Q N T => sees.data <+: db.data)
      (read_sees keeps db consumer)).mpr h.view
  · simp only [read_started]
    rw [List.map_append, hserials, h.received, h.position, List.length_append,
      Nat.add_right_comm consumer.started, List.range'_append_1]
  · intro sTask hmem
    simp only [read_config]
    rcases List.mem_append.mp hmem with hold | hnew
    · exact h.tasks sTask hold
    · rw [← hq] at hnew
      exact h.view.subset (Consumer.query_mem hnew)
  · simp only [read_started]
    rw [List.length_append, h.position, Nat.add_assoc]

theorem init (h : ConsumerSound db consumer) (keeps : Bool) :
    ConsumerSound db (consumer.init keeps db) := by
  refine ⟨?_, rfl, by simp [Consumer.init], rfl⟩
  exact (congrArg (fun sees : Db Q N T => sees.data <+: db.data)
    (read_sees keeps db consumer)).mpr h.view

end ConsumerSound

end

/-! ## Every run -/

section
variable [DecidableEq Q] [DecidableEq N] {s t : State Q N T}

structure Sound (s : State Q N T) : Prop where
  queues : ∀ queue, QueueSound queue s
  consumers : ∀ consumer ∈ s.consumers, ConsumerSound s.db consumer
  saved : ∀ key, (s.db.consumer key).getD 0 = s.lastUpdate key

namespace Sound

theorem gapFree (h : Sound s) : GapFree s.db.data :=
  fun queue => ⟨_, (h.queues queue).serials⟩

theorem grow (h : Sound s) (hgrows : Grows s t) (hqueues : ∀ queue, QueueSound queue t) :
    Sound t := by
  refine ⟨hqueues, ?_, ?_⟩
  · rw [hgrows.consumers]
    intro consumer hmem
    exact (h.consumers consumer hmem).grow hgrows.data
  · intro key
    rw [hgrows.consumer, State.lastUpdate, hgrows.updates]
    exact h.saved key

theorem set (h : Sound s) (c : ℕ) {consumer : Consumer Q N T}
    (hconsumer : ConsumerSound s.db consumer) : Sound (s.setConsumer c consumer) := by
  refine ⟨fun queue => (h.queues queue).congr rfl rfl rfl, ?_, h.saved⟩
  intro consumer' hmem
  rcases List.mem_or_eq_of_mem_set hmem with hold | rfl
  · exact h.consumers consumer' hold
  · exact hconsumer

theorem save (h : Sound s) (key : N × Q) (position : ℕ) : Sound (s.save key position) := by
  refine ⟨fun queue => (h.queues queue).congr rfl rfl rfl, ?_, ?_⟩
  · intro consumer hmem
    exact (h.consumers consumer hmem).grow (List.prefix_refl _)
  · intro key'
    simp only [State.save, State.lastUpdate, List.filter_append]
    by_cases hkey : key' = key
    · subst hkey
      simp
    · rw [Function.update_of_ne hkey]
      simpa [Ne.symm hkey, State.lastUpdate] using h.saved key'

theorem consumerCommit (h : Sound s) (c : ℕ) {consumer : Consumer Q N T}
    (hconsumer : ConsumerSound s.db consumer) : Sound (s.consumerCommit c consumer) := by
  have hclosed := h.set c (hconsumer.set_tx none (List.prefix_refl _))
  unfold State.consumerCommit
  split
  · exact hclosed
  · exact hclosed.save consumer.key _

theorem consumerStep (h : Sound s) (keeps : Bool) {c : ℕ} {consumer : Consumer Q N T}
    (hc : s.consumers[c]? = some consumer) (e : ConsumerEvent) :
    Sound (consumerStep keeps s c consumer e) := by
  have hconsumer := h.consumers consumer (List.mem_of_getElem? hc)
  cases e with
  | begin =>
      have hcommit := h.consumerCommit c hconsumer
      apply hcommit.set c
      have hdata : (s.consumerCommit c consumer).db.data = s.db.data := by
        unfold State.consumerCommit
        split <;> rfl
      have hgrown : ConsumerSound (s.consumerCommit c consumer).db consumer :=
        hconsumer.grow (by rw [hdata])
      exact hgrown.set_tx _ (List.prefix_refl _)
  | select => exact h.set c (hconsumer.select h.gapFree keeps)
  | update =>
      simp only [MysqlMessageQueue.consumerStep, State.update]
      split_ifs
      · exact h
      · split
        · exact h.save consumer.key consumer.position
        · rename_i tx htx
          apply h.set c
          apply hconsumer.set_tx
          have hview := hconsumer.view
          unfold Consumer.sees at hview
          rw [htx] at hview
          exact hview
  | commit => exact h.consumerCommit c hconsumer
  | rollback => exact h.set c (hconsumer.set_tx none (List.prefix_refl _))
  | restart reconnect =>
      simp only [MysqlMessageQueue.consumerStep]
      apply h.set c
      split_ifs
      · exact (hconsumer.set_tx none (List.prefix_refl _)).init keeps
      · exact hconsumer.init keeps

theorem step (h : Sound s) (same : T → T → Bool) (keeps : Bool) (e : Event Q T) :
    Sound (step same keeps s e) := by
  cases e with
  | producer p e =>
      simp only [MysqlMessageQueue.step]
      split
      · exact h
      · rename_i producer hp
        exact h.grow (producerStep_grows same keeps s p producer e) fun queue =>
          (h.queues queue).producerStep same keeps hp e
  | consumer c e =>
      simp only [MysqlMessageQueue.step]
      split
      · exact h
      · rename_i consumer hc
        exact h.consumerStep keeps hc e

theorem start (producers : ℕ) (configs : List (Config Q N)) :
    Sound (State.start producers configs : State Q N T) := by
  refine ⟨fun queue => QueueSound.start queue producers configs, ?_, fun _ => rfl⟩
  intro consumer hmem
  obtain ⟨config, -, rfl⟩ := List.mem_map.mp hmem
  exact ConsumerSound.fresh {} config none (List.prefix_refl _) 0

theorem run (same : T → T → Bool) (keeps : Bool) (producers : ℕ) (configs : List (Config Q N))
    (es : List (Event Q T)) :
    Sound (run (MysqlMessageQueue.step same keeps) (State.start producers configs) es) :=
  run_invariant (fun _ e h _ => h.step same keeps e) (start producers configs)
    (meets_true _ _ es)

theorem delivered (h : Sound s) : Delivered s where
  committed := h.gapFree
  visible consumer hmem := h.gapFree.of_prefix (h.consumers consumer hmem).view
  received consumer hmem := (h.consumers consumer hmem).received
  tasks consumer hmem := (h.consumers consumer hmem).tasks
  position consumer hmem := (h.consumers consumer hmem).position

/-- A new object whose connection has no open transaction. -/
theorem restart (h : Sound s) (same : T → T → Bool) (keeps : Bool) {c : ℕ}
    {consumer : Consumer Q N T} (hc : s.consumers[c]? = some consumer) {reconnect : Bool}
    (hclosed : reconnect = true ∨ consumer.tx = none) :
    ∃ consumer' : Consumer Q N T, (MysqlMessageQueue.step same keeps s
        (.consumer c (.restart reconnect))).consumers[c]? = some consumer' ∧
      consumer'.config = consumer.config ∧ consumer'.position = s.lastUpdate consumer.key ∧
      consumer'.received = [] := by
  obtain ⟨hlt, -⟩ := List.getElem?_eq_some_iff.mp hc
  have hopen : (if reconnect then { consumer with tx := none } else consumer) =
      ({ consumer with tx := none } : Consumer Q N T) := by
    rcases hclosed with rfl | hnone
    · rfl
    · split_ifs
      · rfl
      · rw [← hnone]
  refine ⟨({ consumer with tx := none } : Consumer Q N T).init keeps s.db, ?_, ?_, ?_, rfl⟩
  · simp only [MysqlMessageQueue.step, hc, MysqlMessageQueue.consumerStep, hopen]
    exact List.getElem?_set_self hlt
  · simp [Consumer.init]
  · rw [← h.saved consumer.key]
    rfl

end Sound

/-- The serials of every queue are `1..n` to everyone at any time; every consumer object gets
the tasks after its start one by one, and one that is made when its connection has no open
transaction starts with the position that was committed last. -/
theorem messageQueue_delivers (same : T → T → Bool) (keeps : Bool) (producers : ℕ)
    (configs : List (Config Q N)) (es : List (Event Q T)) :
    Delivered (run (step same keeps) (State.start producers configs : State Q N T) es) ∧
      ∀ (c : ℕ) (consumer : Consumer Q N T) (reconnect : Bool),
        (run (step same keeps) (State.start producers configs) es).consumers[c]? =
          some consumer → reconnect = true ∨ consumer.tx = none →
        ∃ consumer' : Consumer Q N T,
          (run (step same keeps) (State.start producers configs)
            (es ++ [.consumer c (.restart reconnect)])).consumers[c]? = some consumer' ∧
          consumer'.config = consumer.config ∧
          consumer'.position = (run (step same keeps) (State.start producers configs)
            es).lastUpdate consumer.key ∧ consumer'.received = [] := by
  have hsound := Sound.run same keeps producers configs es
  refine ⟨hsound.delivered, ?_⟩
  intro c consumer reconnect hc hclosed
  have hrestart := hsound.restart same keeps hc hclosed
  rw [run_concat]
  exact hrestart

/-- The task of a committed transaction is taken, and the position is written in a
transaction that is still open. -/
def openRun : List (Event ℕ ℕ) :=
  [.producer 0 .begin, .producer 0 (.insert 5 10), .producer 0 .statement,
    .producer 0 .statement, .producer 0 .statement, .producer 0 .statement, .producer 0 .commit,
    .consumer 0 .begin, .consumer 0 .select, .consumer 0 .update]

/-- An object that is made inside of this transaction starts with a position that was not
committed, and after a rollback it does not get the task. -/
theorem messageQueue_skips :
    let start : State ℕ ℕ ℕ := State.start 1 [{ name := 7, queue := 5 }]
    let same := fun x y : ℕ => decide (x = y)
    (run (step same true) start openRun).lastUpdate (7, 5) = 0 ∧
      (run (step same true) start
        (openRun ++ [.consumer 0 (.restart false)])).consumers.map (fun c => c.position) = [1] ∧
      (run (step same true) start (openRun ++
        [.consumer 0 (.restart false), .consumer 0 .rollback, .consumer 0 .select])).consumers.map
          (fun c => (c.position, c.received)) = [(1, [])] ∧
      (run (step same true) start openRun).db.data = [⟨5, 1, 10⟩] := by
  decide

end

end Stuff.MysqlMessageQueue
