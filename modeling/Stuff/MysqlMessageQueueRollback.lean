import Stuff.MysqlMessageQueueDelivery

/-!
# A consumer whose transaction has failed

`select` moves the position in the object, and only `update` and a commit move the one in
`mq_consumer`. A rollback takes back the second, and nothing takes back the first. So a failure
loses nothing only if it finds the two at the same place.
-/
namespace Stuff.MysqlMessageQueue
open EventRuns

variable {Q N T : Type} [DecidableEq Q]

/-- The position that is committed for the consumer. -/
def State.committed (s : State Q N T) (key : N × Q) : ℕ := (s.db.consumer key).getD 0

/-- One consumer is watched: whether its object has selected in the transaction that is open, and
whether such a transaction was rolled back, or an update failed, since its last `select`. -/
structure Watch (Q N T : Type) where
  state : State Q N T
  selected : Bool := false
  failed : Bool := false

/-- The statement of `update` fails by itself, such as one that has waited too long. -/
inductive Action (Q T : Type)
  | event (e : Event Q T)
  | updateFails
deriving DecidableEq, Repr

def Watch.note (w : Watch Q N T) (inTx : Bool) : ConsumerEvent → Watch Q N T
  | .begin => { w with selected := false }
  | .select => { w with selected := inTx, failed := false }
  | .update => w
  | .commit => { w with selected := false }
  | .rollback => { w with selected := false, failed := w.failed || w.selected }
  | .restart _ => { w with selected := false, failed := false }

/-- The transaction of the consumer is open. -/
def State.isOpen (s : State Q N T) (c : ℕ) : Bool :=
  s.consumers[c]?.any fun consumer => consumer.tx.isSome

/-- After a failure, `select` returns the tasks behind the committed position. -/
def Redelivers (keeps : Bool) (c : ℕ) (w : Watch Q N T) : Action Q T → Prop
  | .event (.consumer c' .select) => c' = c → w.failed = true →
      ∀ consumer, w.state.consumers[c]? = some consumer →
        (consumer.select keeps w.state.db).received = consumer.received ++
          Consumer.query (consumer.sees w.state.db) consumer.config
            (w.state.committed consumer.key)
  | _ => True

/-- A rollback of a transaction in which the object has selected, or an update that fails. -/
def Fails (c : ℕ) (w : Watch Q N T) : Action Q T → Prop
  | .event (.consumer c' e) => e = .rollback ∧ c' = c ∧ w.selected = true
  | .event (.producer _ _) => False
  | .updateFails => True

instance (c : ℕ) (w : Watch Q N T) : (a : Action Q T) → Decidable (Fails c w a)
  | .event (.consumer _ _) => inferInstanceAs (Decidable (_ ∧ _))
  | .event (.producer _ _) => inferInstanceAs (Decidable False)
  | .updateFails => inferInstanceAs (Decidable True)

/-- What the object has selected is committed. -/
def Settled (s : State Q N T) (consumer : Consumer Q N T) : Prop :=
  consumer.position = s.committed consumer.key

instance (s : State Q N T) (consumer : Consumer Q N T) : Decidable (Settled s consumer) :=
  inferInstanceAs (Decidable (_ = _))

/-- The object of an action, if it is another one. -/
def Action.other (c : ℕ) (w : Watch Q N T) : Action Q T → Option (Consumer Q N T)
  | .event (.consumer c' _) => if c' = c then none else w.state.consumers[c']?
  | _ => none

/-- A failure finds the object settled, and other objects have another name or queue. -/
structure Unmoved (c : ℕ) (w : Watch Q N T) (a : Action Q T) : Prop where
  failure : Fails c w a → ∀ consumer ∈ w.state.consumers[c]?, Settled w.state consumer
  alone : ∀ consumer ∈ w.state.consumers[c]?, ∀ other ∈ a.other c w, consumer.key ≠ other.key

instance [DecidableEq N] (c : ℕ) (w : Watch Q N T) (a : Action Q T) : Decidable (Unmoved c w a) :=
  decidable_of_iff
    ((Fails c w a → ∀ consumer ∈ w.state.consumers[c]?, Settled w.state consumer) ∧
      ∀ consumer ∈ w.state.consumers[c]?, ∀ other ∈ a.other c w, consumer.key ≠ other.key)
    ⟨fun h => ⟨h.1, h.2⟩, fun h => ⟨h.failure, h.alone⟩⟩

/-! ## The query -/

namespace Consumer

theorem mem_rows {sees : Db Q N T} {config : Config Q N} {position : ℕ} {row : Row Q T} :
    row ∈ (sees.data.filter fun row => row.queue = config.queue && position < row.serial) ↔
      row ∈ sees.data ∧ row.queue = config.queue ∧ position < row.serial := by
  rw [List.mem_filter, Bool.and_eq_true, decide_eq_true_eq, decide_eq_true_eq]

/-- The first task of a query has the least serial of all. -/
theorem query_eq_cons {sees : Db Q N T} {config : Config Q N} {position : ℕ} {row : Row Q T}
    (hlimit : config.limit ≠ 0) (hrow : row ∈ sees.data) (hqueue : row.queue = config.queue)
    (hserial : position < row.serial) :
    ∃ sTask sTasks, query sees config position = sTask :: sTasks ∧ sTask.serial ≤ row.serial := by
  have htotal : Std.Total fun x y : Row Q T => x.serial ≤ y.serial := ⟨fun _ _ => le_total _ _⟩
  have htrans : IsTrans (Row Q T) fun x y => x.serial ≤ y.serial := ⟨fun _ _ _ => le_trans⟩
  have hmem := (List.mem_insertionSort fun x y : Row Q T => x.serial ≤ y.serial).mpr
    (mem_rows.mpr ⟨hrow, hqueue, hserial⟩)
  have hsorted := List.pairwise_insertionSort (fun x y : Row Q T => x.serial ≤ y.serial)
    (sees.data.filter fun row => row.queue = config.queue && position < row.serial)
  obtain ⟨limit, hn⟩ := Nat.exists_eq_succ_of_ne_zero hlimit
  simp only [query]
  generalize (sees.data.filter fun row => row.queue = config.queue &&
    position < row.serial).insertionSort (fun x y => x.serial ≤ y.serial) = sRows at hmem hsorted
  cases sRows with
  | nil => cases hmem
  | cons first sRows =>
      refine ⟨_, _, by rw [hn, List.take_succ_cons, List.map_cons], ?_⟩
      rw [List.mem_cons] at hmem
      rcases hmem with rfl | hmem
      · exact le_refl _
      · exact List.rel_of_pairwise_cons hsorted hmem

theorem lt_of_mem_query {sees : Db Q N T} {config : Config Q N} {position : ℕ} {sTask : Task T}
    (h : sTask ∈ query sees config position) : position < sTask.serial := by
  obtain ⟨row, hrow, rfl⟩ := List.mem_map.mp h
  have hmem := (List.mem_insertionSort _).mp (List.mem_of_mem_take hrow)
  exact (mem_rows.mp hmem).2.2

/-- A task behind one position only is what tells the queries apart. -/
theorem query_ne {sees : Db Q N T} {config : Config Q N} {position committed : ℕ} {row : Row Q T}
    (hlimit : config.limit ≠ 0) (hrow : row ∈ sees.data) (hqueue : row.queue = config.queue)
    (hserial : position < row.serial) (hbehind : row.serial ≤ committed) :
    query sees config position ≠ query sees config committed := by
  obtain ⟨sTask, sTasks, hquery, hle⟩ := query_eq_cons hlimit hrow hqueue hserial
  intro heq
  have hmem : sTask ∈ query sees config committed := by
    rw [← heq, hquery]
    exact List.mem_cons_self
  have hlt := lt_of_mem_query hmem
  omega

/-- A position only moves forwards. -/
theorem le_position_select (keeps : Bool) (db : Db Q N T) (consumer : Consumer Q N T) :
    consumer.position ≤ (consumer.select keeps db).position := by
  unfold select
  dsimp only
  cases hlast : (query (consumer.sees db) consumer.config consumer.position).getLast? with
  | none => exact le_refl _
  | some sTask => exact Nat.le_of_lt (lt_of_mem_query (List.mem_of_getLast? hlast))

end Consumer

/-! ## The three positions -/

/-- The committed position, the one that the transaction has written and the one of the object
come in this order, and the transaction sees the first one. -/
structure Ordered (s : State Q N T) (consumer : Consumer Q N T) : Prop where
  position : s.committed consumer.key ≤ consumer.position
  pending : ∀ tx, consumer.tx = some tx → ∀ position, tx.position = some position →
    s.committed consumer.key ≤ position ∧ position ≤ consumer.position
  view : ∀ tx, consumer.tx = some tx → ∀ db, tx.view = some db →
    db.consumer consumer.key = s.db.consumer consumer.key

namespace Ordered

variable {s t : State Q N T} {consumer : Consumer Q N T}

omit [DecidableEq Q] in
/-- A transaction that has done nothing yet, or none. -/
theorem of_le (hle : t.committed consumer.key ≤ consumer.position) {tx : Option (ConsumerTx Q N T)}
    (htx : tx = none ∨ tx = some {}) : Ordered t { consumer with tx := tx } := by
  refine ⟨hle, ?_, ?_⟩
  · rintro tx' rfl position hposition
    rcases htx with htx | htx <;> cases htx
    cases hposition
  · rintro tx' rfl db hdb
    rcases htx with htx | htx <;> cases htx
    cases hdb

omit [DecidableEq Q] in
theorem congr (h : Ordered s consumer)
    (hdb : t.db.consumer consumer.key = s.db.consumer consumer.key) : Ordered t consumer := by
  have hcommitted : t.committed consumer.key = s.committed consumer.key := by
    rw [State.committed, State.committed, hdb]
  constructor
  case position => rw [hcommitted]; exact h.position
  case pending => rw [hcommitted]; exact h.pending
  case view => rw [hdb]; exact h.view

omit [DecidableEq Q] in
/-- The transaction sees the committed position of its consumer. -/
theorem sees (h : Ordered s consumer) :
    (consumer.sees s.db).consumer consumer.key = s.db.consumer consumer.key := by
  unfold Consumer.sees
  cases htx : consumer.tx with
  | none => rfl
  | some tx =>
      cases hview : tx.view with
      | none => simp only [Option.bind_some, hview, Option.getD_none]
      | some db =>
          simp only [Option.bind_some, hview, Option.getD_some]
          exact h.view tx htx db hview

omit [DecidableEq Q] in
/-- A plain read keeps what it has seen. -/
theorem read (h : Ordered s consumer) (keeps : Bool) : Ordered s (consumer.read keeps s.db) := by
  unfold Consumer.read
  split
  case isFalse => exact h
  case isTrue =>
    refine ⟨h.position, ?_, ?_⟩
    · intro tx htx position hposition
      obtain ⟨tx', htx', rfl⟩ := Option.map_eq_some_iff.mp htx
      exact h.pending tx' htx' position hposition
    · intro tx htx db hdb
      obtain ⟨tx', htx', rfl⟩ := Option.map_eq_some_iff.mp htx
      cases hdb
      exact h.sees

omit [DecidableEq Q] in
/-- The object moves forwards. -/
theorem forward (h : Ordered s consumer) {position : ℕ} (hle : consumer.position ≤ position)
    (started : ℕ) (received : List (Task T)) :
    Ordered s
      { consumer with position := position, started := started, received := received } := by
  refine ⟨h.position.trans hle, ?_, h.view⟩
  intro tx htx p hp
  exact ⟨(h.pending tx htx p hp).1, (h.pending tx htx p hp).2.trans hle⟩

omit [DecidableEq Q] in
/-- A new object starts where its transaction is, or at the committed position. -/
theorem init (h : Ordered s consumer) (keeps : Bool) : Ordered s (consumer.init keeps s.db) := by
  have hread := h.read keeps
  have hkey : (consumer.read keeps s.db).key = consumer.key := by
    rw [Consumer.key, read_config, Consumer.key]
  have hwritten : ((consumer.read keeps s.db).tx.bind fun tx => tx.position) =
      consumer.tx.bind fun tx => tx.position := by
    unfold Consumer.read
    split
    · cases consumer.tx <;> rfl
    · rfl
  refine ⟨?_, ?_, hread.view⟩
  · change s.committed (consumer.read keeps s.db).key ≤ ((consumer.tx.bind fun tx => tx.position).or
      ((consumer.sees s.db).consumer consumer.key)).getD 0
    rw [hkey, h.sees]
    cases hposition : consumer.tx.bind fun tx => tx.position with
    | none => exact le_refl _
    | some position =>
        obtain ⟨tx, htx, hp⟩ := Option.bind_eq_some_iff.mp hposition
        exact (h.pending tx htx position hp).1
  · intro tx htx position hp
    refine ⟨(hread.pending tx htx position hp).1, ?_⟩
    have hsome : (consumer.tx.bind fun tx => tx.position) = some position := by
      rw [← hwritten]
      exact Option.bind_eq_some_iff.mpr ⟨tx, htx, hp⟩
    change position ≤ ((consumer.tx.bind fun tx => tx.position).or _).getD 0
    rw [hsome]
    exact le_refl _

end Ordered

theorem eq_of_getElem?_set {α : Type} {l : List α} {c : ℕ} {x y : α}
    (h : (l.set c x)[c]? = some y) : y = x := by
  rw [List.getElem?_set, if_pos rfl] at h
  split at h
  case isTrue => exact (Option.some.inj h).symm
  case isFalse => cases h

section
variable [DecidableEq N] {s : State Q N T} {c : ℕ} {consumer : Consumer Q N T}

theorem committed_save (s : State Q N T) (key : N × Q) (position : ℕ) :
    (s.save key position).committed key = position := by
  rw [State.committed, State.save]
  simp only [Function.update_self, Option.getD_some]

/-- What a commit, by itself or before a `BEGIN`, makes of the committed position. -/
theorem Ordered.commit (h : Ordered s consumer) (c : ℕ) :
    (s.consumerCommit c consumer).committed consumer.key ≤ consumer.position ∧
      (Settled s consumer →
        (s.consumerCommit c consumer).committed consumer.key = consumer.position) := by
  unfold State.consumerCommit
  cases htx : consumer.tx with
  | none => exact ⟨h.position, fun hsettled => hsettled.symm⟩
  | some tx =>
      cases hposition : tx.position with
      | none =>
          simp only [Option.bind_some, hposition]
          exact ⟨h.position, fun hsettled => hsettled.symm⟩
      | some position =>
          obtain ⟨hle, hge⟩ := h.pending tx htx position hposition
          simp only [Option.bind_some, hposition, committed_save]
          refine ⟨hge, fun hsettled => ?_⟩
          unfold Settled at hsettled
          omega

theorem consumers_consumerCommit (s : State Q N T) (c : ℕ) (consumer : Consumer Q N T) :
    (s.consumerCommit c consumer).consumers = s.consumers.set c { consumer with tx := none } := by
  unfold State.consumerCommit
  split <;> rfl

/-- The events that leave the position of the object where it is. -/
def Stays : ConsumerEvent → Prop
  | .select => False
  | .restart _ => False
  | _ => True

theorem Ordered.update (h : Ordered s consumer) (hc : s.consumers[c]? = some consumer)
    {consumer' : Consumer Q N T}
    (hc' : (s.update c consumer).consumers[c]? = some consumer') :
    Ordered (s.update c consumer) consumer' ∧
      (Settled s consumer → Settled (s.update c consumer) consumer') := by
  simp only [State.update] at hc' ⊢
  split at hc'
  case isTrue hblocked =>
    rw [if_pos hblocked]
    cases hc.symm.trans hc'
    exact ⟨h, id⟩
  case isFalse hblocked =>
    rw [if_neg hblocked]
    cases htx : consumer.tx with
    | none =>
        simp only [htx] at hc' ⊢
        cases hc.symm.trans hc'
        have hsaved := committed_save s consumer.key consumer.position
        have hordered : Ordered (s.save consumer.key consumer.position)
            { consumer with tx := none } := Ordered.of_le hsaved.le (.inl rfl)
        rw [← htx] at hordered
        exact ⟨hordered, fun _ => hsaved.symm⟩
    | some tx =>
        simp only [htx] at hc' ⊢
        cases eq_of_getElem?_set hc'
        refine ⟨⟨h.position, ?_, ?_⟩, id⟩
        · rintro tx' ⟨⟩ position ⟨⟩
          exact ⟨h.position, le_refl _⟩
        · rintro tx' ⟨⟩ db hdb
          exact h.view tx htx db hdb

theorem Ordered.step (h : Ordered s consumer) (keeps : Bool)
    (hc : s.consumers[c]? = some consumer) (e : ConsumerEvent) {consumer' : Consumer Q N T}
    (hc' : (consumerStep keeps s c consumer e).consumers[c]? = some consumer') :
    Ordered (consumerStep keeps s c consumer e) consumer' ∧
      (Stays e → Settled s consumer → Settled (consumerStep keeps s c consumer e) consumer') := by
  cases e with
  | begin =>
      obtain ⟨hle, heq⟩ := h.commit c
      cases eq_of_getElem?_set hc'
      exact ⟨(Ordered.of_le hle (.inr rfl)).congr rfl, fun _ hsettled => (heq hsettled).symm⟩
  | select =>
      cases eq_of_getElem?_set hc'
      refine ⟨?_, fun hstays => hstays.elim⟩
      have hposition : (consumer.read keeps s.db).position = consumer.position := by
        unfold Consumer.read
        split <;> rfl
      have hle : (consumer.read keeps s.db).position ≤ (consumer.select keeps s.db).position := by
        rw [hposition]
        exact Consumer.le_position_select keeps s.db consumer
      have hmoved : Ordered s (consumer.select keeps s.db) := (h.read keeps).forward hle _ _
      exact hmoved.congr rfl
  | update =>
      obtain ⟨hordered, hsettled⟩ := h.update hc hc'
      exact ⟨hordered, fun _ => hsettled⟩
  | commit =>
      obtain ⟨hle, heq⟩ := h.commit c
      simp only [consumerStep, consumers_consumerCommit] at hc'
      cases eq_of_getElem?_set hc'
      exact ⟨Ordered.of_le hle (.inl rfl), fun _ hsettled => (heq hsettled).symm⟩
  | rollback =>
      cases eq_of_getElem?_set hc'
      exact ⟨(Ordered.of_le h.position (.inl rfl)).congr rfl, fun _ hsettled => hsettled⟩
  | restart reconnect =>
      cases eq_of_getElem?_set hc'
      refine ⟨?_, fun hstays => hstays.elim⟩
      have hopen : Ordered s (if reconnect then { consumer with tx := none } else consumer) := by
        split
        case isTrue => exact Ordered.of_le h.position (.inl rfl)
        case isFalse => exact h
      exact (hopen.init keeps).congr rfl

/-- An event of another consumer. -/
theorem getElem?_consumerStep (keeps : Bool) {c' : ℕ} (other : Consumer Q N T) (hne : c' ≠ c)
    (e : ConsumerEvent) :
    (consumerStep keeps s c' other e).consumers[c]? = s.consumers[c]? := by
  have hset (other' : Consumer Q N T) :
      (s.consumers.set c' other')[c]? = s.consumers[c]? := List.getElem?_set_ne hne
  cases e with
  | begin =>
      simp only [consumerStep, State.setConsumer, consumers_consumerCommit, List.set_set]
      exact hset _
  | commit =>
      simp only [consumerStep, consumers_consumerCommit]
      exact hset _
  | update =>
      simp only [consumerStep, State.update]
      split
      · rfl
      · split
        · rfl
        · exact hset _
  | _ => exact hset _

/-- A consumer with another name or queue commits other positions. -/
theorem consumer_consumerStep (keeps : Bool) (c' : ℕ) {other : Consumer Q N T} {key : N × Q}
    (hkey : key ≠ other.key) (e : ConsumerEvent) :
    (consumerStep keeps s c' other e).db.consumer key = s.db.consumer key := by
  have hsave (position : ℕ) : Function.update s.db.consumer other.key (some position) key =
      s.db.consumer key := Function.update_of_ne hkey _ _
  have hcommit : (s.consumerCommit c' other).db.consumer key = s.db.consumer key := by
    unfold State.consumerCommit
    split
    · rfl
    · exact hsave _
  cases e with
  | begin => exact hcommit
  | commit => exact hcommit
  | update =>
      simp only [consumerStep, State.update]
      split
      · rfl
      · split
        · exact hsave _
        · rfl
  | _ => rfl

/-! ## Runs -/

def watchStep (same : T → T → Bool) (keeps : Bool) (c : ℕ) (w : Watch Q N T) :
    Action Q T → Watch Q N T
  | .event (.consumer c' e) =>
      let w' := if c' = c then w.note (w.state.isOpen c) e else w
      { w' with state := step same keeps w.state (.consumer c' e) }
  | .event (.producer p e) => { w with state := step same keeps w.state (.producer p e) }
  | .updateFails => { w with failed := true }

/-- The consumer that is watched is behind no failure, or it is settled. -/
def Inv (c : ℕ) (w : Watch Q N T) : Prop :=
  ∀ consumer, w.state.consumers[c]? = some consumer →
    Ordered w.state consumer ∧ (w.failed = true → Settled w.state consumer)

variable {w : Watch Q N T} {a : Action Q T}

omit [DecidableEq Q] [DecidableEq N] in
/-- A step that leaves the consumer and what is committed for it alone. -/
theorem Inv.frame (h : Inv c w) {t : State Q N T} {failed selected : Bool}
    (hconsumers : t.consumers[c]? = w.state.consumers[c]?)
    (hdb : ∀ consumer, w.state.consumers[c]? = some consumer →
      t.db.consumer consumer.key = w.state.db.consumer consumer.key)
    (hfailed : failed = true → ∀ consumer, w.state.consumers[c]? = some consumer →
      Settled w.state consumer) :
    Inv c { state := t, selected := selected, failed := failed } := by
  intro consumer hc
  have hc : w.state.consumers[c]? = some consumer := hconsumers ▸ hc
  refine ⟨(h consumer hc).1.congr (hdb consumer hc), fun hfail => ?_⟩
  have hsettled := hfailed hfail consumer hc
  unfold Settled State.committed at hsettled ⊢
  rw [hdb consumer hc]
  exact hsettled

omit [DecidableEq Q] [DecidableEq N] in
/-- What is noted of an event: a failure is behind a select, or it is new. -/
theorem failed_note {inTx : Bool} {e : ConsumerEvent} (h : (w.note inTx e).failed = true) :
    Stays e ∧ (w.failed = true ∨ e = .rollback ∧ w.selected = true) := by
  cases e with
  | select => cases h
  | restart reconnect => cases h
  | rollback =>
      rcases Bool.or_eq_true_iff.mp h with hfailed | hselected
      · exact ⟨trivial, .inl hfailed⟩
      · exact ⟨trivial, .inr ⟨rfl, hselected⟩⟩
  | _ => exact ⟨trivial, .inl h⟩

theorem Inv.step (h : Inv c w) (same : T → T → Bool) (keeps : Bool) (ha : Unmoved c w a) :
    Inv c (watchStep same keeps c w a) := by
  cases a with
  | updateFails =>
      exact h.frame rfl (fun _ _ => rfl) fun _ => ha.failure trivial
  | event e =>
      cases e with
      | producer p e =>
          have hgrows :
              Grows w.state (MysqlMessageQueue.step same keeps w.state (.producer p e)) := by
            simp only [MysqlMessageQueue.step]
            split
            · exact Grows.of_producers _ _
            · exact producerStep_grows same keeps _ p _ e
          exact h.frame (congrArg (·[c]?) hgrows.consumers)
            (fun _ _ => congrFun hgrows.consumer _) fun hfailed consumer hc =>
              (h consumer hc).2 hfailed
      | consumer c' e =>
          simp only [watchStep, MysqlMessageQueue.step]
          by_cases hown : c' = c
          · subst hown
            rw [if_pos rfl]
            cases hc : w.state.consumers[c']? with
            | none =>
                intro consumer hc'
                cases hc.symm.trans hc'
            | some consumer =>
                intro consumer' hc'
                obtain ⟨hordered, hsettled⟩ := h consumer hc
                have hstep := hordered.step keeps hc e hc'
                refine ⟨hstep.1, fun hfailed => ?_⟩
                obtain ⟨hstays, hbehind⟩ := failed_note hfailed
                refine hstep.2 hstays ?_
                rcases hbehind with hold | ⟨rfl, hselected⟩
                · exact hsettled hold
                · exact ha.failure ⟨rfl, rfl, hselected⟩ consumer hc
          · rw [if_neg hown]
            cases hc' : w.state.consumers[c']? with
            | none => exact h
            | some other =>
                have hother : (Action.event (.consumer c' e)).other c w = some other := by
                  rw [Action.other, if_neg hown, hc']
                refine h.frame (getElem?_consumerStep keeps other hown e) ?_ ?_
                · intro consumer hc
                  exact consumer_consumerStep keeps c' (ha.alone consumer hc other hother) e
                · exact fun hfailed consumer hc => (h consumer hc).2 hfailed

omit [DecidableEq N] in
/-- Behind a failure that has found it settled, the object selects from the committed position. -/
theorem Inv.redelivers (h : Inv c w) (keeps : Bool) (a : Action Q T) : Redelivers keeps c w a := by
  cases a with
  | updateFails => trivial
  | event e =>
      cases e with
      | producer p e => trivial
      | consumer c' e =>
          cases e with
          | select =>
              intro _ hfailed consumer hc
              have hsettled : consumer.position = w.state.committed consumer.key :=
                (h consumer hc).2 hfailed
              rw [← hsettled]
              rfl
          | _ => trivial

/-- The object has just been made, on a connection without a transaction. -/
def Made (s : State Q N T) (c : ℕ) : Prop :=
  ∀ consumer, s.consumers[c]? = some consumer → consumer.tx = none ∧ Settled s consumer

omit [DecidableEq Q] [DecidableEq N] in
theorem Made.inv (h : Made s c) : Inv c { state := s } := by
  intro consumer hc
  obtain ⟨htx, hsettled⟩ := h consumer hc
  have hordered : Ordered s { consumer with tx := none } :=
    Ordered.of_le hsettled.ge (.inl rfl)
  rw [← htx] at hordered
  exact ⟨hordered, fun hfailed => by cases hfailed⟩

/-- From any tables, and with any other producers and consumers: if each failure finds the object
at the committed position, then each select behind a failure returns the tasks behind it. -/
theorem select_redelivers (same : T → T → Bool) (keeps : Bool) (hmade : Made s c)
    {actions : List (Action Q T)}
    (h : Meets (watchStep same keeps c) (Unmoved c) { state := s } actions) :
    Meets (watchStep same keeps c) (Redelivers keeps c) { state := s } actions := by
  have hiff : Meets (watchStep same keeps c) (fun _ _ => True) { state := s } actions ↔
      Meets (watchStep same keeps c) (Redelivers keeps c) { state := s } actions :=
    meets_iff (fun w a (hw : Inv c w) _ => (true_iff _).mpr (hw.redelivers keeps a))
      (fun w a hw ha _ => hw.step same keeps ha) hmade.inv h
  exact hiff.mp (meets_true _ _ _)

/-- A failure that does not find the object settled: a task that it was given before, and that
is not committed, is missing in the next select. -/
theorem select_misses (same : T → T → Bool) (keeps : Bool) (hfails : Fails c w a)
    (hc : w.state.consumers[c]? = some consumer) (hlimit : consumer.config.limit ≠ 0)
    {row : Row Q T} (hrow : row ∈ w.state.db.data) (hsees : row ∈ (consumer.sees w.state.db).data)
    (hqueue : row.queue = consumer.config.queue)
    (hcommitted : w.state.committed consumer.key < row.serial)
    (hgiven : row.serial ≤ consumer.position) :
    ¬ Redelivers keeps c (watchStep same keeps c w a) (.event (.consumer c .select)) := by
  intro h
  obtain ⟨hlt, -⟩ := List.getElem?_eq_some_iff.mp hc
  cases a with
  | updateFails =>
      have heq := List.append_cancel_left (h rfl rfl consumer hc)
      exact Consumer.query_ne hlimit hsees hqueue hcommitted hgiven heq.symm
  | event e =>
      cases e with
      | producer p e => cases hfails
      | consumer c' e =>
          obtain ⟨rfl, rfl, hselected⟩ := hfails
          have hstep : (watchStep same keeps c' w (.event (.consumer c' .rollback))).state =
              w.state.setConsumer c' { consumer with tx := none } := by
            simp only [watchStep, step, hc, consumerStep]
          have hget : (w.state.setConsumer c' { consumer with tx := none }).consumers[c']? =
              some { consumer with tx := none } := List.getElem?_set_self hlt
          have hfailed : (watchStep same keeps c' w (.event (.consumer c' .rollback))).failed =
              true := by
            simp only [watchStep, Watch.note, if_true, hselected, Bool.or_true]
          have hredelivers := h rfl hfailed { consumer with tx := none } (by rw [hstep, hget])
          rw [hstep] at hredelivers
          have heq := List.append_cancel_left hredelivers
          exact Consumer.query_ne hlimit hrow hqueue hcommitted hgiven heq.symm

end

/-- One task, and a consumer that has got nothing yet. -/
def oneTask : State ℕ ℕ ℕ where
  db := { data := [⟨5, 1, 10⟩] }
  producers := []
  consumers := [{ config := { name := 7, queue := 5 } }]

/-- An update fails before anything was selected, and a transaction is rolled back that has found
nothing more. -/
def settledActions : List (Action ℕ ℕ) :=
  [.updateFails, .event (.consumer 0 .select), .event (.consumer 0 .update),
    .event (.consumer 0 .begin), .event (.consumer 0 .select), .event (.consumer 0 .update),
    .event (.consumer 0 .rollback), .event (.consumer 0 .select)]

theorem select_redelivers_settled :
    Meets (watchStep (fun x y => x == y) true 0) (Redelivers true 0) { state := oneTask }
      settledActions := by
  have hmade : Made oneTask 0 := by
    intro consumer hc
    cases hc
    exact ⟨rfl, rfl⟩
  exact select_redelivers _ _ hmade (by decide)

/-- After these actions a `select` returns nothing more, and the task is still not done by the
tables. -/
def Loses (actions : List (Action ℕ ℕ)) : Prop :=
  ¬ Meets (watchStep (fun x y => x == y) true 0) (Redelivers true 0) { state := oneTask }
      (actions ++ [.event (.consumer 0 .select)]) ∧
    (run (watchStep (fun x y => x == y) true 0) { state := oneTask }
        (actions ++ [.event (.consumer 0 .select)])).state.consumers.map
      (fun consumer => consumer.received) = [[⟨1, 10⟩]] ∧
    (run (watchStep (fun x y => x == y) true 0) { state := oneTask }
      actions).state.committed (7, 5) = 0

/-- A transaction around a `select` and an `update` is rolled back, or the update fails. -/
theorem select_loses :
    Loses [.event (.consumer 0 .begin), .event (.consumer 0 .select),
        .event (.consumer 0 .update), .event (.consumer 0 .rollback)] ∧
      Loses [.event (.consumer 0 .select), .updateFails] := by
  constructor
  · refine ⟨fun h => ?_, by decide, by decide⟩
    exact absurd (h.2.2.2.2.1 rfl rfl _ rfl) (by decide)
  · refine ⟨fun h => ?_, by decide, by decide⟩
    exact absurd (h.2.2.1 rfl rfl _ rfl) (by decide)

end Stuff.MysqlMessageQueue
