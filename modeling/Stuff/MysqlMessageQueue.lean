import Stuff.EventRuns
import Mathlib.Data.List.Basic
import Mathlib.Data.List.Infix
import Mathlib.Data.List.Sort
import Mathlib.Logic.Function.Basic

/-!
# `MySQL::MessageQueue`

A producer numbers the tasks of a queue. In a transaction of its user, `insert` reads the
last number from `mq_producer` with a lock, looks for the task, and writes the row of the
task and the number. A consumer reads the tasks after its position without a lock, and
`update` saves this position. The columns `queue` and `name` are only compared, so the
tables have what the collation makes of these texts.

Each statement is one event. Every producer and every consumer is on its own connection.
-/
namespace Stuff.MysqlMessageQueue
open EventRuns

variable {Q N T : Type}

/-- A row of `mq_data`. -/
structure Row (Q T : Type) where
  queue : Q
  serial : ℕ
  task : T
deriving DecidableEq, Repr

/-- The committed tables `mq_data`, `mq_producer` and `mq_consumer`. -/
structure Db (Q N T : Type) where
  data : List (Row Q T) := []
  producer : Q → Option ℕ := fun _ => none
  consumer : N × Q → Option ℕ := fun _ => none

/-- What a transaction has written, the rows of `mq_producer` that it has locked, and the
`mq_data` of its first plain read. -/
structure ProducerTx (Q T : Type) where
  data : List (Row Q T) := []
  producer : Q → Option ℕ := fun _ => none
  locks : List Q := []
  view : Option (List (Row Q T)) := none

inductive Status
  | ok
  | already
deriving DecidableEq, Repr

/-- Before which statement a call of `insert` is, or how the last one has ended. -/
inductive Pc (Q T : Type)
  | ready
  | selecting (queue : Q) (aTask : T)
  | checking (queue : Q) (aTask : T) (sPosition : ℕ)
  | inserting (queue : Q) (aTask : T) (sPosition : ℕ)
  | counting (queue : Q) (aTask : T) (sPosition : ℕ)
  | returned (status : Status)
  | raised
deriving DecidableEq, Repr

/-- No call is under way. -/
def Pc.idle : Pc Q T → Bool
  | .ready => true
  | .selecting _ _ => false
  | .checking _ _ _ => false
  | .inserting _ _ _ => false
  | .counting _ _ _ => false
  | .returned _ => true
  | .raised => true

structure Producer (Q T : Type) where
  tx : Option (ProducerTx Q T) := none
  pc : Pc Q T := .ready

structure Config (Q N : Type) where
  name : N
  queue : Q
  limit : ℕ := 10
deriving DecidableEq, Repr

structure Task (T : Type) where
  serial : ℕ
  task : T
deriving DecidableEq, Repr

/-- The position that a transaction has written, and the tables of its first read. -/
structure ConsumerTx (Q N T : Type) where
  position : Option ℕ := none
  view : Option (Db Q N T) := none

/-- A consumer object on its connection; for the history, the position that its `init`
found, and the tasks that it got since. -/
structure Consumer (Q N T : Type) where
  config : Config Q N
  position : ℕ := 0
  tx : Option (ConsumerTx Q N T) := none
  started : ℕ := 0
  received : List (Task T) := []

/-- The committed updates are kept for the history, in their order. -/
structure State (Q N T : Type) where
  db : Db Q N T := {}
  producers : List (Producer Q T)
  consumers : List (Consumer Q N T)
  updates : List ((N × Q) × ℕ) := []

/-! ## The producer -/

/-- A plain read; a transaction keeps the tables of its first one, or reads them anew. -/
def ProducerTx.read (keeps : Bool) (data : List (Row Q T)) (tx : ProducerTx Q T) :
    ProducerTx Q T :=
  if keeps then { tx with view := some (tx.view.getD data) } else tx

@[simp] theorem read_data (keeps : Bool) (data : List (Row Q T)) (tx : ProducerTx Q T) :
    (tx.read keeps data).data = tx.data := by
  unfold ProducerTx.read
  split <;> rfl

@[simp] theorem read_locks (keeps : Bool) (data : List (Row Q T)) (tx : ProducerTx Q T) :
    (tx.read keeps data).locks = tx.locks := by
  unfold ProducerTx.read
  split <;> rfl

@[simp] theorem read_producer (keeps : Bool) (data : List (Row Q T)) (tx : ProducerTx Q T) :
    (tx.read keeps data).producer = tx.producer := by
  unfold ProducerTx.read
  split <;> rfl

section
variable [DecidableEq Q]

/-- The primary key is there. -/
def hasKey (queue : Q) (sPosition : ℕ) (data : List (Row Q T)) : Bool :=
  data.any fun row => row.queue = queue && row.serial = sPosition

namespace State

def setProducer (s : State Q N T) (p : ℕ) (producer : Producer Q T) : State Q N T :=
  { s with producers := s.producers.set p producer }

/-- The open transaction of another producer has what this one waits for. -/
def blocks (s : State Q N T) (p : ℕ) (f : ProducerTx Q T → Bool) : Bool :=
  s.producers.zipIdx.any fun x => x.2 != p && x.1.tx.any f

/-- `SELECT position FROM mq_producer … FOR UPDATE` -/
def selectForUpdate (s : State Q N T) (p : ℕ) (tx : ProducerTx Q T) (queue : Q) (aTask : T) :
    State Q N T :=
  if s.blocks p fun tx' => tx'.locks.contains queue then s
  else
    match (tx.producer queue).or (s.db.producer queue) with
    | some sPosition =>
        s.setProducer p
          { tx := some { tx with locks := queue :: tx.locks }
            pc := .checking queue aTask sPosition }
    | none => s.setProducer p { tx := some tx, pc := .checking queue aTask 0 }

/-- `is_exists` -/
def isExists (same : T → T → Bool) (keeps : Bool) (s : State Q N T) (p : ℕ) (tx : ProducerTx Q T)
    (queue : Q) (aTask : T) (sPosition : ℕ) : State Q N T :=
  if (tx.view.getD s.db.data ++ tx.data).any fun row =>
      row.queue = queue && same row.task aTask then
    s.setProducer p { tx := some (tx.read keeps s.db.data), pc := .returned .already }
  else
    s.setProducer p
      { tx := some (tx.read keeps s.db.data), pc := .inserting queue aTask (sPosition + 1) }

/-- `INSERT INTO mq_data …`; the transaction fails if the key is there. -/
def insertData (s : State Q N T) (p : ℕ) (tx : ProducerTx Q T) (queue : Q) (aTask : T)
    (sPosition : ℕ) : State Q N T :=
  if s.blocks p fun tx' => hasKey queue sPosition tx'.data then s
  else if hasKey queue sPosition s.db.data || hasKey queue sPosition tx.data then
    s.setProducer p { tx := none, pc := .raised }
  else
    s.setProducer p
      { tx := some { tx with data := tx.data ++ [⟨queue, sPosition, aTask⟩] }
        pc := .counting queue aTask sPosition }

/-- `INSERT INTO mq_producer … ON DUPLICATE KEY UPDATE …` -/
def insertProducer (s : State Q N T) (p : ℕ) (tx : ProducerTx Q T) (queue : Q) (sPosition : ℕ) :
    State Q N T :=
  if s.blocks p fun tx' => tx'.locks.contains queue then s
  else
    s.setProducer p
      { tx := some
          { tx with
            producer := Function.update tx.producer queue (some sPosition)
            locks := queue :: tx.locks }
        pc := .returned .ok }

/-- The next statement of `insert`. -/
def statement (same : T → T → Bool) (keeps : Bool) (s : State Q N T) (p : ℕ)
    (producer : Producer Q T) : State Q N T :=
  match producer.tx with
  | none => s
  | some tx =>
      match producer.pc with
      | .selecting queue aTask => s.selectForUpdate p tx queue aTask
      | .checking queue aTask sPosition => s.isExists same keeps p tx queue aTask sPosition
      | .inserting queue aTask sPosition => s.insertData p tx queue aTask sPosition
      | .counting queue _ sPosition => s.insertProducer p tx queue sPosition
      | _ => s

/-- The writes of the transaction become visible, and its locks are gone. -/
def commit (s : State Q N T) (p : ℕ) (producer : Producer Q T) : State Q N T :=
  match producer.tx with
  | none => s
  | some tx =>
      { s.setProducer p { producer with tx := none } with
        db :=
          { s.db with
            data := s.db.data ++ tx.data
            producer := fun queue => (tx.producer queue).or (s.db.producer queue) } }

end State

end

/-! ## The consumer -/

namespace Consumer

def key (consumer : Consumer Q N T) : N × Q := (consumer.config.name, consumer.config.queue)

/-- What a plain read sees of the tables of others. -/
def sees (db : Db Q N T) (consumer : Consumer Q N T) : Db Q N T :=
  ((consumer.tx.bind fun tx => tx.view).getD db)

/-- A plain read. -/
def read (keeps : Bool) (db : Db Q N T) (consumer : Consumer Q N T) : Consumer Q N T :=
  if keeps then
    { consumer with tx := consumer.tx.map fun tx => { tx with view := some (consumer.sees db) } }
  else consumer

section
variable [DecidableEq Q]

/-- The query of `select`. -/
def query (sees : Db Q N T) (config : Config Q N) (position : ℕ) : List (Task T) :=
  let sRows := sees.data.filter fun row => row.queue = config.queue && position < row.serial
  ((sRows.insertionSort fun x y => x.serial ≤ y.serial).take config.limit).map fun row =>
    ⟨row.serial, row.task⟩

def select (keeps : Bool) (db : Db Q N T) (consumer : Consumer Q N T) : Consumer Q N T :=
  let sTasks := query (consumer.sees db) consumer.config consumer.position
  { consumer.read keeps db with
    position := (sTasks.getLast?.map fun sTask => sTask.serial).getD consumer.position
    received := consumer.received ++ sTasks }

end

/-- A new object, whose `init` sees the position that its own transaction has written. -/
def init (keeps : Bool) (db : Db Q N T) (consumer : Consumer Q N T) : Consumer Q N T :=
  let sPosition := ((consumer.tx.bind fun tx => tx.position).or
    ((consumer.sees db).consumer consumer.key)).getD 0
  { consumer.read keeps db with position := sPosition, started := sPosition, received := [] }

end Consumer

section
variable [DecidableEq Q] [DecidableEq N]

namespace State

def setConsumer (s : State Q N T) (c : ℕ) (consumer : Consumer Q N T) : State Q N T :=
  { s with consumers := s.consumers.set c consumer }

/-- A position is committed. -/
def save (s : State Q N T) (key : N × Q) (position : ℕ) : State Q N T :=
  { s with
    db := { s.db with consumer := Function.update s.db.consumer key (some position) }
    updates := s.updates ++ [(key, position)] }

/-- `INSERT INTO mq_consumer … ON DUPLICATE KEY UPDATE …`, in a transaction or by itself. It
waits for another transaction that has written the row. -/
def update (s : State Q N T) (c : ℕ) (consumer : Consumer Q N T) : State Q N T :=
  if s.consumers.zipIdx.any fun x => x.2 != c && x.1.key = consumer.key &&
      x.1.tx.any fun tx => tx.position.isSome then s
  else
    match consumer.tx with
    | none => s.save consumer.key consumer.position
    | some tx =>
        s.setConsumer c { consumer with tx := some { tx with position := some consumer.position } }

def consumerCommit (s : State Q N T) (c : ℕ) (consumer : Consumer Q N T) : State Q N T :=
  match consumer.tx.bind fun tx => tx.position with
  | none => s.setConsumer c { consumer with tx := none }
  | some position => (s.setConsumer c { consumer with tx := none }).save consumer.key position

end State

end

/-! ## Runs -/

/-- `rollback` is the user's, or a statement or the connection has failed. -/
inductive ProducerEvent (Q T : Type)
  | begin
  | insert (queue : Q) (aTask : T)
  | statement
  | commit
  | rollback
deriving DecidableEq, Repr

/-- The object is made anew on its connection, or on another one, by which an open
transaction is lost. -/
inductive ConsumerEvent
  | begin
  | select
  | update
  | commit
  | rollback
  | restart (reconnect : Bool)
deriving DecidableEq, Repr

inductive Event (Q T : Type)
  | producer (p : ℕ) (e : ProducerEvent Q T)
  | consumer (c : ℕ) (e : ConsumerEvent)
deriving DecidableEq, Repr

section
variable [DecidableEq Q] [DecidableEq N]

/-- A step of one producer. `BEGIN` commits what is open. -/
def producerStep (same : T → T → Bool) (keeps : Bool) (s : State Q N T) (p : ℕ)
    (producer : Producer Q T) : ProducerEvent Q T → State Q N T
  | .begin =>
      if producer.pc.idle then (s.commit p producer).setProducer p { tx := some {} } else s
  | .insert queue aTask =>
      if producer.pc.idle && producer.tx.isSome then
        s.setProducer p { producer with pc := .selecting queue aTask }
      else s
  | .statement => s.statement same keeps p producer
  | .commit => if producer.pc.idle then s.commit p producer else s
  | .rollback =>
      s.setProducer p { tx := none, pc := if producer.pc.idle then producer.pc else .raised }

def consumerStep (keeps : Bool) (s : State Q N T) (c : ℕ) (consumer : Consumer Q N T) :
    ConsumerEvent → State Q N T
  | .begin => (s.consumerCommit c consumer).setConsumer c { consumer with tx := some {} }
  | .select => s.setConsumer c (consumer.select keeps s.db)
  | .update => s.update c consumer
  | .commit => s.consumerCommit c consumer
  | .rollback => s.setConsumer c { consumer with tx := none }
  | .restart reconnect =>
      let sConsumer := if reconnect then { consumer with tx := none } else consumer
      s.setConsumer c (sConsumer.init keeps s.db)

/-- Tasks are compared by `same`; `keeps` is the isolation level, by which a transaction
reads one state of the tables or each time the last one. -/
def step (same : T → T → Bool) (keeps : Bool) (s : State Q N T) : Event Q T → State Q N T
  | .producer p e =>
      match s.producers[p]? with
      | none => s
      | some producer => producerStep same keeps s p producer e
  | .consumer c e =>
      match s.consumers[c]? with
      | none => s
      | some consumer => consumerStep keeps s c consumer e

end

/-- Empty tables, with any number of producers and of consumers. -/
def State.start (producers : ℕ) (configs : List (Config Q N)) : State Q N T where
  producers := List.replicate producers {}
  consumers := configs.map fun config => { config := config }

/-! ## What is delivered -/

section
variable [DecidableEq Q]

/-- The rows of a queue, in the order in which they were committed. -/
def rowsOf (queue : Q) (data : List (Row Q T)) : List (Row Q T) :=
  data.filter fun row => row.queue = queue

/-- The serials of each queue are `1..n`. -/
def GapFree (data : List (Row Q T)) : Prop :=
  ∀ queue, ∃ n, (rowsOf queue data).map (fun row => row.serial) = List.range' 1 n

end

/-- The last position that was committed for a consumer. -/
def State.lastUpdate [DecidableEq Q] [DecidableEq N] (s : State Q N T) (key : N × Q) : ℕ :=
  (((s.updates.filter fun x => x.1 = key).getLast?).map Prod.snd).getD 0

/-- The tables are gap-free, and so is what an open transaction sees of them; what a
consumer object got is what follows the position that it started with. -/
structure Delivered [DecidableEq Q] (s : State Q N T) : Prop where
  committed : GapFree s.db.data
  visible : ∀ consumer ∈ s.consumers, GapFree (consumer.sees s.db).data
  received : ∀ consumer ∈ s.consumers,
    consumer.received.map (fun sTask => sTask.serial) =
      List.range' (consumer.started + 1) consumer.received.length
  tasks : ∀ consumer ∈ s.consumers, ∀ sTask ∈ consumer.received,
    ⟨consumer.config.queue, sTask.serial, sTask.task⟩ ∈ s.db.data
  position : ∀ consumer ∈ s.consumers,
    consumer.position = consumer.started + consumer.received.length

/-! ## One queue -/

section
variable [DecidableEq Q]

theorem rowsOf_append (queue : Q) (x y : List (Row Q T)) :
    rowsOf queue (x ++ y) = rowsOf queue x ++ rowsOf queue y := List.filter_append x y

theorem rowsOf_concat_self (queue : Q) (data : List (Row Q T)) (serial : ℕ) (aTask : T) :
    rowsOf queue (data ++ [⟨queue, serial, aTask⟩]) =
      rowsOf queue data ++ [⟨queue, serial, aTask⟩] := by
  simp [rowsOf]

theorem rowsOf_concat_of_ne {queue queue' : Q} (h : queue' ≠ queue) (data : List (Row Q T))
    (serial : ℕ) (aTask : T) : rowsOf queue (data ++ [⟨queue', serial, aTask⟩]) =
      rowsOf queue data := by
  simp [rowsOf, h]

theorem hasKey_iff {queue : Q} {sPosition : ℕ} {data : List (Row Q T)} :
    hasKey queue sPosition data = true ↔
      sPosition ∈ (rowsOf queue data).map fun row => row.serial := by
  simp only [hasKey, rowsOf, List.any_eq_true, Bool.and_eq_true, decide_eq_true_eq, List.mem_map,
    List.mem_filter]
  constructor
  · rintro ⟨row, hmem, hqueue, hserial⟩
    exact ⟨row, ⟨hmem, hqueue⟩, hserial⟩
  · rintro ⟨row, ⟨hmem, hqueue⟩, hserial⟩
    exact ⟨row, hmem, hqueue, hserial⟩

/-- The call works on a number of this queue. -/
def Pc.concerns (queue : Q) : Pc Q T → Bool
  | .checking q _ _ => q = queue
  | .inserting q _ _ => q = queue
  | .counting q _ _ => q = queue
  | _ => false

/-- How many rows of the queue there are. -/
def count (queue : Q) (data : List (Row Q T)) : ℕ := (rowsOf queue data).length

/-- What an open transaction has of a queue with `n` committed rows. -/
structure OwnSound (queue : Q) (n : ℕ) (pc : Pc Q T) (tx : ProducerTx Q T) : Prop where
  rows : (rowsOf queue tx.data).map (fun row => row.serial) =
    List.range' (n + 1) (count queue tx.data)
  locked : queue ∈ tx.locks → 0 < n + count queue tx.data
  settled : (∀ aTask sPosition, pc ≠ .counting queue aTask sPosition) →
    tx.producer queue =
      (if count queue tx.data = 0 then none else some (n + count queue tx.data)) ∧
      (0 < count queue tx.data → queue ∈ tx.locks)
  checking : ∀ aTask sPosition, pc = .checking queue aTask sPosition →
    sPosition = if queue ∈ tx.locks then n + count queue tx.data else 0
  inserting : ∀ aTask sPosition, pc = .inserting queue aTask sPosition →
    sPosition = (if queue ∈ tx.locks then n + count queue tx.data else 0) + 1
  counting : ∀ aTask sPosition, pc = .counting queue aTask sPosition →
    0 < count queue tx.data ∧ sPosition = n + count queue tx.data ∧
      (queue ∈ tx.locks ∨ n = 0 ∧ count queue tx.data = 1)

/-- At most one transaction has the lock of the queue, and at most one has rows of it. -/
structure Apart (queue : Q) (tx tx' : ProducerTx Q T) : Prop where
  locks : queue ∈ tx.locks → queue ∉ tx'.locks
  rows : count queue tx.data = 0 ∨ count queue tx'.data = 0

structure QueueSound (queue : Q) (s : State Q N T) : Prop where
  serials : (rowsOf queue s.db.data).map (fun row => row.serial) =
    List.range' 1 (count queue s.db.data)
  counter : s.db.producer queue =
    if count queue s.db.data = 0 then none else some (count queue s.db.data)
  own : ∀ (p : ℕ) tx pc, s.producers[p]? = some { tx := some tx, pc := pc } →
    OwnSound queue (count queue s.db.data) pc tx
  apart : ∀ (p p' : ℕ) tx tx' pc pc', p ≠ p' → s.producers[p]? = some { tx := some tx, pc := pc } →
    s.producers[p']? = some { tx := some tx', pc := pc' } → Apart queue tx tx'

variable {queue : Q} {s : State Q N T} {n p : ℕ} {tx tx' : ProducerTx Q T} {pc pc' : Pc Q T}

theorem Apart.symm (h : Apart queue tx tx') : Apart queue tx' tx :=
  ⟨fun hlock hlock' => h.locks hlock' hlock, h.rows.symm⟩

namespace OwnSound

theorem empty (queue : Q) (n : ℕ) : OwnSound queue n (.ready : Pc Q T) {} := by
  constructor <;> simp [count, rowsOf]

/-- A statement that changes nothing of the queue. -/
theorem frame (h : OwnSound queue n pc tx) (hrows : rowsOf queue tx'.data = rowsOf queue tx.data)
    (hlocks : queue ∈ tx'.locks ↔ queue ∈ tx.locks)
    (hproducer : tx'.producer queue = tx.producer queue)
    (hpc : ∀ aTask sPosition, pc ≠ .counting queue aTask sPosition)
    (hpc' : pc'.concerns queue = false) : OwnSound queue n pc' tx' := by
  have hcount : count queue tx'.data = count queue tx.data := by
    rw [count, count, hrows]
  constructor
  · rw [hrows, hcount]
    exact h.rows
  · rw [hlocks, hcount]
    exact h.locked
  · intro _
    rw [hproducer, hcount, hlocks]
    exact h.settled hpc
  · rintro aTask sPosition rfl
    simp [Pc.concerns] at hpc'
  · rintro aTask sPosition rfl
    simp [Pc.concerns] at hpc'
  · rintro aTask sPosition rfl
    simp [Pc.concerns] at hpc'

/-- A transaction that has nothing of the queue does not depend on the committed rows. -/
theorem untouched (h : OwnSound queue n pc tx) (hcount : count queue tx.data = 0)
    (hlock : queue ∉ tx.locks) (n' : ℕ) : OwnSound queue n' pc tx := by
  constructor
  · have hrows := h.rows
    rw [hcount] at hrows ⊢
    exact hrows
  · intro hlock'
    exact absurd hlock' hlock
  · intro hpc
    have hsettled := h.settled hpc
    rw [hcount] at hsettled ⊢
    exact hsettled
  · intro aTask sPosition hpc
    have hchecking := h.checking aTask sPosition hpc
    rw [if_neg hlock] at hchecking ⊢
    exact hchecking
  · intro aTask sPosition hpc
    have hinserting := h.inserting aTask sPosition hpc
    rw [if_neg hlock] at hinserting ⊢
    exact hinserting
  · intro aTask sPosition hpc
    obtain ⟨hpos, -⟩ := h.counting aTask sPosition hpc
    rw [hcount] at hpos
    exact absurd hpos (Nat.lt_irrefl 0)

/-- Who has rows of the queue has the lock, or has written the first row of all. -/
theorem lock_or_first (h : OwnSound queue n pc tx) (hpos : 0 < count queue tx.data) :
    queue ∈ tx.locks ∨ n = 0 := by
  by_cases hpc : ∃ aTask sPosition, pc = .counting queue aTask sPosition
  · obtain ⟨aTask, sPosition, rfl⟩ := hpc
    obtain ⟨-, -, hlock | ⟨hn, -⟩⟩ := h.counting aTask sPosition rfl
    · exact Or.inl hlock
    · exact Or.inr hn
  · refine Or.inl ((h.settled ?_).2 hpos)
    intro aTask sPosition heq
    exact hpc ⟨aTask, sPosition, heq⟩

/-- The lock keeps others from the rows. -/
theorem no_rows (h : OwnSound queue n pc tx) (h' : OwnSound queue n pc' tx')
    (hapart : Apart queue tx tx') (hlock : queue ∈ tx.locks) : count queue tx'.data = 0 := by
  by_contra hne
  rcases h'.lock_or_first (Nat.pos_of_ne_zero hne) with hlock' | hn
  · exact hapart.locks hlock hlock'
  · have hpos := h.locked hlock
    rcases hapart.rows with hzero | hzero
    · omega
    · exact hne hzero

end OwnSound

omit [DecidableEq Q] in
theorem blocks_eq_false {f : ProducerTx Q T → Bool} (h : ¬s.blocks p f = true) {p' : ℕ}
    (hne : p' ≠ p) (hp' : s.producers[p']? = some { tx := some tx', pc := pc' }) :
    f tx' = false := by
  by_contra hf
  apply h
  unfold State.blocks
  rw [List.any_eq_true]
  refine ⟨({ tx := some tx', pc := pc' }, p'), List.mem_zipIdx_iff_getElem?.mpr hp', ?_⟩
  simpa [hne] using hf

namespace QueueSound

/-- A step of one producer that commits nothing. -/
theorem set (h : QueueSound queue s) {producer : Producer Q T}
    (hnew : ∀ tx pc, producer = { tx := some tx, pc := pc } →
      OwnSound queue (count queue s.db.data) pc tx ∧
        ∀ (p' : ℕ) tx' pc', p' ≠ p → s.producers[p']? = some { tx := some tx', pc := pc' } →
          Apart queue tx tx') : QueueSound queue (s.setProducer p producer) := by
  have hold : ∀ (p' : ℕ) tx' pc',
      (s.producers.set p producer)[p']? = some { tx := some tx', pc := pc' } →
      p' = p ∧ producer = { tx := some tx', pc := pc' } ∨
        p' ≠ p ∧ s.producers[p']? = some { tx := some tx', pc := pc' } := by
    intro p' tx' pc' hp'
    rw [List.getElem?_set] at hp'
    split_ifs at hp' with heq hlt
    · exact Or.inl ⟨heq.symm, Option.some.inj hp'⟩
    · exact Or.inr ⟨Ne.symm heq, hp'⟩
  refine ⟨h.serials, h.counter, ?_, ?_⟩
  · intro p' tx' pc' hp'
    rcases hold p' tx' pc' hp' with ⟨-, heq⟩ | ⟨-, hget⟩
    · exact (hnew tx' pc' heq).1
    · exact h.own p' tx' pc' hget
  · intro p₁ p₂ tx₁ tx₂ pc₁ pc₂ hne hp₁ hp₂
    rcases hold p₁ tx₁ pc₁ hp₁ with ⟨rfl, heq₁⟩ | ⟨hne₁, hget₁⟩
    · rcases hold p₂ tx₂ pc₂ hp₂ with ⟨rfl, -⟩ | ⟨hne₂, hget₂⟩
      · exact absurd rfl hne
      · exact (hnew tx₁ pc₁ heq₁).2 p₂ tx₂ pc₂ hne₂ hget₂
    · rcases hold p₂ tx₂ pc₂ hp₂ with ⟨rfl, heq₂⟩ | ⟨hne₂, hget₂⟩
      · exact ((hnew tx₂ pc₂ heq₂).2 p₁ tx₁ pc₁ hne₁ hget₁).symm
      · exact h.apart p₁ p₂ tx₁ tx₂ pc₁ pc₂ hne hget₁ hget₂

/-- A step that leaves locks and rows of the queue as they are. -/
theorem set_frame (h : QueueSound queue s) (hp : s.producers[p]? = some { tx := some tx, pc := pc })
    (hrows : rowsOf queue tx'.data = rowsOf queue tx.data)
    (hlocks : queue ∈ tx'.locks ↔ queue ∈ tx.locks)
    (hown : OwnSound queue (count queue s.db.data) pc' tx') :
    QueueSound queue (s.setProducer p { tx := some tx', pc := pc' }) := by
  apply h.set
  intro tx'' pc'' heq
  cases heq
  refine ⟨hown, ?_⟩
  intro p' tx'' pc'' hne hp'
  have hapart := h.apart p p' tx tx'' pc pc'' (Ne.symm hne) hp hp'
  refine ⟨fun hlock => hapart.locks (hlocks.mp hlock), ?_⟩
  rw [count, hrows]
  exact hapart.rows

theorem set_none (h : QueueSound queue s) (p : ℕ) (pc : Pc Q T) :
    QueueSound queue (s.setProducer p { tx := none, pc := pc }) := by
  apply h.set
  intro tx' pc' heq
  cases heq

/-- The number that a locking read finds. -/
theorem last_position (h : QueueSound queue s)
    (hown : OwnSound queue (count queue s.db.data) pc tx)
    (hpc : ∀ aTask sPosition, pc ≠ .counting queue aTask sPosition) :
    (tx.producer queue).or (s.db.producer queue) =
      if count queue s.db.data + count queue tx.data = 0 then none
      else some (count queue s.db.data + count queue tx.data) := by
  rw [(hown.settled hpc).1, h.counter]
  by_cases hown0 : count queue tx.data = 0
  · simp [hown0]
  · simp [hown0]

theorem selectForUpdate (h : QueueSound queue s) {queue' : Q} {aTask : T}
    (hp : s.producers[p]? = some { tx := some tx, pc := .selecting queue' aTask }) :
    QueueSound queue (s.selectForUpdate p tx queue' aTask) := by
  have hown := h.own p tx _ hp
  unfold State.selectForUpdate
  split_ifs with hblocks
  · exact h
  by_cases hqueue : queue' = queue
  swap
  · -- the lock of another queue
    split
    · rename_i sPosition _
      have hlocks : queue ∈ queue' :: tx.locks ↔ queue ∈ tx.locks := by
        simp [Ne.symm hqueue]
      refine h.set_frame hp ?_ hlocks ?_
      · rfl
      · exact hown.frame rfl hlocks rfl (by simp) (by simp [Pc.concerns, hqueue])
    · apply h.set_frame hp rfl Iff.rfl
      exact hown.frame rfl Iff.rfl rfl (by simp) (by simp [Pc.concerns, hqueue])
  subst hqueue
  obtain ⟨hproducer, hlocks⟩ := hown.settled (by simp)
  split
  · rename_i sPosition hread
    have hposition : sPosition = count queue' s.db.data + count queue' tx.data ∧
        0 < count queue' s.db.data + count queue' tx.data := by
      rw [h.last_position hown (by simp)] at hread
      split_ifs at hread with hzero
      cases hread
      exact ⟨rfl, Nat.pos_of_ne_zero hzero⟩
    apply h.set
    intro tx' pc' heq
    cases heq
    refine ⟨⟨hown.rows, fun _ => hposition.2, ?_, ?_, ?_, ?_⟩, ?_⟩
    · intro _
      exact ⟨hproducer, fun _ => List.mem_cons_self⟩
    · rintro aTask' sPosition' heq
      cases heq
      rw [if_pos List.mem_cons_self]
      exact hposition.1
    · simp
    · simp
    · intro p' tx' pc' hne hp'
      have hfree := blocks_eq_false hblocks hne hp'
      refine ⟨fun _ hlock => ?_, (h.apart p p' tx tx' _ pc' (Ne.symm hne) hp hp').rows⟩
      rw [List.contains_iff_mem.mpr hlock] at hfree
      cases hfree
  · rename_i hread
    rw [h.last_position hown (by simp)] at hread
    split_ifs at hread with hzero
    have hunlocked : queue' ∉ tx.locks := by
      intro hlock
      have hpos := hown.locked hlock
      omega
    apply h.set_frame hp rfl Iff.rfl
    refine ⟨hown.rows, hown.locked, fun _ => ⟨hproducer, hlocks⟩, ?_, ?_, ?_⟩
    · rintro aTask' sPosition' heq
      cases heq
      rw [if_neg hunlocked]
    · simp
    · simp

theorem isExists (h : QueueSound queue s) (same : T → T → Bool) (keeps : Bool) {queue' : Q}
    {aTask : T} {sPosition : ℕ}
    (hp : s.producers[p]? = some { tx := some tx, pc := .checking queue' aTask sPosition }) :
    QueueSound queue (s.isExists same keeps p tx queue' aTask sPosition) := by
  have hown := h.own p tx _ hp
  unfold State.isExists
  split_ifs
  · apply h.set_frame hp (by simp) (by simp)
    exact hown.frame (by simp) (by simp) (by simp) (by simp) rfl
  · apply h.set_frame hp (by simp) (by simp)
    by_cases hqueue : queue' = queue
    · subst hqueue
      have hsettled := hown.settled (by simp)
      constructor
      · rw [read_data]
        exact hown.rows
      · rw [read_locks, read_data]
        exact hown.locked
      · intro _
        rw [read_producer, read_data, read_locks]
        exact hsettled
      · simp
      · rintro aTask' sPosition' heq
        cases heq
        rw [read_locks, read_data, ← hown.checking aTask sPosition rfl]
      · simp
    · exact hown.frame (by simp) (by simp) (by simp) (by simp) (by simp [Pc.concerns, hqueue])

theorem insertData (h : QueueSound queue s) {queue' : Q} {aTask : T} {sPosition : ℕ}
    (hp : s.producers[p]? = some { tx := some tx, pc := .inserting queue' aTask sPosition }) :
    QueueSound queue (s.insertData p tx queue' aTask sPosition) := by
  have hown := h.own p tx _ hp
  unfold State.insertData
  split_ifs with hblocks hkey
  · exact h
  · exact h.set_none p .raised
  by_cases hqueue : queue' = queue
  swap
  · have hrows := rowsOf_concat_of_ne hqueue tx.data sPosition aTask
    refine h.set_frame hp hrows ?_ ?_
    · rfl
    · exact hown.frame hrows Iff.rfl rfl (by simp) (by simp [Pc.concerns, hqueue])
  subst hqueue
  obtain ⟨hproducer, hlocks⟩ := hown.settled (by simp)
  have hposition := hown.inserting aTask sPosition rfl
  rw [Bool.or_eq_true, not_or] at hkey
  have hcount : count queue' (tx.data ++ [⟨queue', sPosition, aTask⟩]) =
      count queue' tx.data + 1 := by
    rw [count, rowsOf_concat_self, List.length_append]
    rfl
  -- without the lock this is the first row of all
  have hnext : sPosition = count queue' s.db.data + count queue' tx.data + 1 ∧
      (queue' ∈ tx.locks ∨ count queue' s.db.data = 0 ∧ count queue' tx.data = 0) := by
    by_cases hlock : queue' ∈ tx.locks
    · rw [if_pos hlock] at hposition
      exact ⟨hposition, Or.inl hlock⟩
    · rw [if_neg hlock] at hposition
      have hown0 : count queue' tx.data = 0 := by
        by_contra hne
        exact hlock (hlocks (Nat.pos_of_ne_zero hne))
      have hdb0 : count queue' s.db.data = 0 := by
        by_contra hne
        apply hkey.1
        rw [hasKey_iff, h.serials, List.mem_range'_1]
        omega
      exact ⟨by omega, Or.inr ⟨hdb0, hown0⟩⟩
  have hothers : ∀ (p' : ℕ) tx' pc', p' ≠ p →
      s.producers[p']? = some { tx := some tx', pc := pc' } → count queue' tx'.data = 0 := by
    intro p' tx' pc' hne hp'
    have hown' := h.own p' tx' pc' hp'
    have hapart := h.apart p p' tx tx' _ pc' (Ne.symm hne) hp hp'
    rcases hnext.2 with hlock | ⟨hdb0, hown0⟩
    · exact hown.no_rows hown' hapart hlock
    · have hfree := blocks_eq_false hblocks hne hp'
      by_contra hpos
      have hin : hasKey queue' sPosition tx'.data = true := by
        rw [hasKey_iff, hown'.rows, List.mem_range'_1]
        omega
      rw [hin] at hfree
      cases hfree
  apply h.set
  intro tx' pc' heq
  cases heq
  constructor
  · constructor
    · rw [hcount, rowsOf_concat_self, List.map_append, hown.rows, List.range'_1_concat, hnext.1]
      simp only [List.map_cons, List.map_nil]
      congr 2
      omega
    · intro _
      rw [hcount]
      omega
    · intro hpc
      exact absurd rfl (hpc aTask sPosition)
    · simp
    · simp
    · rintro aTask' sPosition' heq
      cases heq
      rw [hcount]
      refine ⟨Nat.succ_pos _, hnext.1, ?_⟩
      rcases hnext.2 with hlock | ⟨hdb0, hown0⟩
      · exact Or.inl hlock
      · exact Or.inr ⟨hdb0, by rw [hown0]⟩
  · intro p' tx' pc' hne hp'
    have hapart := h.apart p p' tx tx' _ pc' (Ne.symm hne) hp hp'
    exact ⟨hapart.locks, Or.inr (hothers p' tx' pc' hne hp')⟩

theorem insertProducer (h : QueueSound queue s) {queue' : Q} {aTask : T} {sPosition : ℕ}
    (hp : s.producers[p]? = some { tx := some tx, pc := .counting queue' aTask sPosition }) :
    QueueSound queue (s.insertProducer p tx queue' sPosition) := by
  have hown := h.own p tx _ hp
  unfold State.insertProducer
  split_ifs with hblocks
  · exact h
  by_cases hqueue : queue' = queue
  swap
  · have hlocks : queue ∈ queue' :: tx.locks ↔ queue ∈ tx.locks := by
      simp [Ne.symm hqueue]
    refine h.set_frame hp ?_ hlocks ?_
    · rfl
    · refine hown.frame rfl hlocks ?_ (by simp [hqueue]) rfl
      exact Function.update_of_ne (Ne.symm hqueue) _ _
  subst hqueue
  obtain ⟨hpos, hposition, -⟩ := hown.counting aTask sPosition rfl
  apply h.set
  intro tx' pc' heq
  cases heq
  constructor
  · refine ⟨hown.rows, fun _ => by dsimp only; omega, ?_, ?_, ?_, ?_⟩
    · intro _
      dsimp only
      rw [Function.update_self, if_neg (Nat.ne_of_gt hpos), hposition]
      exact ⟨rfl, fun _ => List.mem_cons_self⟩
    · simp
    · simp
    · simp
  · intro p' tx' pc' hne hp'
    have hfree := blocks_eq_false hblocks hne hp'
    refine ⟨fun _ hlock => ?_, (h.apart p p' tx tx' _ pc' (Ne.symm hne) hp hp').rows⟩
    rw [List.contains_iff_mem.mpr hlock] at hfree
    cases hfree

/-- The rows of the transaction follow the committed ones; who is open has nothing of them. -/
theorem commit (h : QueueSound queue s) {producer : Producer Q T}
    (hp : s.producers[p]? = some producer) (hidle : producer.pc.idle = true) :
    QueueSound queue (s.commit p producer) := by
  obtain ⟨_ | tx, pc⟩ := producer
  · exact h
  have hown := h.own p tx pc hp
  have hpc : ∀ aTask sPosition, pc ≠ .counting queue aTask sPosition := by
    rintro aTask sPosition rfl
    cases hidle
  obtain ⟨hproducer, hlock⟩ := hown.settled hpc
  have hcount : count queue (s.db.data ++ tx.data) =
      count queue s.db.data + count queue tx.data := by
    rw [count, rowsOf_append, List.length_append]
    rfl
  have hold : ∀ (p' : ℕ) tx' pc',
      (s.producers.set p { tx := none, pc := pc })[p']? = some { tx := some tx', pc := pc' } →
      p' ≠ p ∧ s.producers[p']? = some { tx := some tx', pc := pc' } := by
    intro p' tx' pc' hp'
    rw [List.getElem?_set] at hp'
    split_ifs at hp' with heq hlt
    · cases hp'
    · exact ⟨Ne.symm heq, hp'⟩
  constructor
  · change (rowsOf queue (s.db.data ++ tx.data)).map (fun row => row.serial) =
      List.range' 1 (count queue (s.db.data ++ tx.data))
    rw [rowsOf_append, List.map_append, h.serials, hown.rows, hcount, Nat.add_comm _ 1,
      List.range'_append_1]
  · change (tx.producer queue).or (s.db.producer queue) =
      if count queue (s.db.data ++ tx.data) = 0 then none
      else some (count queue (s.db.data ++ tx.data))
    rw [h.last_position hown hpc, hcount]
  · intro p' tx' pc' hp'
    obtain ⟨hne, hget⟩ := hold p' tx' pc' hp'
    have hown' := h.own p' tx' pc' hget
    have hapart := h.apart p p' tx tx' pc pc' (Ne.symm hne) hp hget
    change OwnSound queue (count queue (s.db.data ++ tx.data)) pc' tx'
    rw [hcount]
    by_cases hzero : count queue tx.data = 0
    · rw [hzero]
      exact hown'
    · have hlocked := hlock (Nat.pos_of_ne_zero hzero)
      exact hown'.untouched (hown.no_rows hown' hapart hlocked) (hapart.locks hlocked) _
  · intro p₁ p₂ tx₁ tx₂ pc₁ pc₂ hne hp₁ hp₂
    obtain ⟨-, hget₁⟩ := hold p₁ tx₁ pc₁ hp₁
    obtain ⟨-, hget₂⟩ := hold p₂ tx₂ pc₂ hp₂
    exact h.apart p₁ p₂ tx₁ tx₂ pc₁ pc₂ hne hget₁ hget₂

theorem statement (h : QueueSound queue s) (same : T → T → Bool) (keeps : Bool)
    {producer : Producer Q T} (hp : s.producers[p]? = some producer) :
    QueueSound queue (s.statement same keeps p producer) := by
  obtain ⟨_ | tx, pc⟩ := producer
  · exact h
  cases pc with
  | selecting queue' aTask => exact h.selectForUpdate hp
  | checking queue' aTask sPosition => exact h.isExists same keeps hp
  | inserting queue' aTask sPosition => exact h.insertData hp
  | counting queue' aTask sPosition => exact h.insertProducer hp
  | ready => exact h
  | returned status => exact h
  | raised => exact h

theorem producerStep (h : QueueSound queue s) (same : T → T → Bool) (keeps : Bool)
    {producer : Producer Q T} (hp : s.producers[p]? = some producer) (e : ProducerEvent Q T) :
    QueueSound queue (producerStep same keeps s p producer e) := by
  cases e with
  | begin =>
      simp only [MysqlMessageQueue.producerStep]
      split_ifs with hidle
      · apply (h.commit hp hidle).set
        intro tx pc heq
        cases heq
        refine ⟨OwnSound.empty queue _, ?_⟩
        intro p' tx' pc' _ _
        exact ⟨by simp, Or.inl rfl⟩
      · exact h
  | insert queue' aTask =>
      simp only [MysqlMessageQueue.producerStep]
      split_ifs with hready
      · rw [Bool.and_eq_true] at hready
        obtain ⟨_ | tx, pc⟩ := producer
        · exact h.set_none p _
        refine h.set_frame hp ?_ Iff.rfl ?_
        · rfl
        · apply (h.own p tx pc hp).frame rfl Iff.rfl rfl ?_ rfl
          rintro aTask' sPosition rfl
          cases hready.1
      · exact h
  | statement => exact h.statement same keeps hp
  | commit =>
      simp only [MysqlMessageQueue.producerStep]
      split_ifs with hidle
      · exact h.commit hp hidle
      · exact h
  | rollback => exact h.set_none p _

/-- Only the rows, the numbers and the producers matter. -/
theorem congr {t : State Q N T} (h : QueueSound queue s) (hdata : t.db.data = s.db.data)
    (hproducer : t.db.producer = s.db.producer) (hproducers : t.producers = s.producers) :
    QueueSound queue t := by
  constructor
  · rw [hdata]
    exact h.serials
  · rw [hproducer, hdata]
    exact h.counter
  · rw [hproducers, hdata]
    exact h.own
  · rw [hproducers]
    exact h.apart

theorem start (queue : Q) (producers : ℕ) (configs : List (Config Q N)) :
    QueueSound queue (State.start producers configs : State Q N T) := by
  have hnone : ∀ (p : ℕ) (tx : ProducerTx Q T) (pc : Pc Q T),
      (State.start producers configs : State Q N T).producers[p]? ≠
        some { tx := some tx, pc := pc } := by
    intro p tx pc hp
    have hmem := List.mem_of_getElem? hp
    cases (List.mem_replicate.mp hmem).2
  refine ⟨rfl, rfl, ?_, ?_⟩
  · intro p tx pc hp
    exact absurd hp (hnone p tx pc)
  · intro p p' tx tx' pc pc' _ hp
    exact absurd hp (hnone p tx pc)

end QueueSound

end

end Stuff.MysqlMessageQueue
