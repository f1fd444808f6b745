import Stuff.MachineWords
import Stuff.RowLocks

/-!
# `MySQL::TaskQueue`

`get` takes a row of `task_queue` that is new, or that was started long ago, and marks it
as started; `update` and `done` are for the worker that has it. The lease of a worker is
the column `updated`, which the server sets by itself, and only when another column
changes. Every statement of every manager is one event.
-/
namespace Stuff.MysqlTaskQueue

open EventRuns MachineWords RowLocks

/-- The statements of `Manager`, in `TaskQueue` and in `Workflow`: those of `get`, and
the row that `update` and `done` leave. -/
structure Manager (Arg Row : Type) where
  get : Statements Arg Row
  update : Bytes → ℕ → Row → Row
  done : Bool → ℕ → Row → Row

/-- The statements of all managers, one by one. The `k`-th call of `get` is run by
`begin`, `select`, `change` and `commit`; it is given up by `rollback`, after an error or
when its connection is lost. -/
inductive Call (Arg Row : Type)
  | tick (d : ℕ)
  | insert (row : Row)
  | begin (a : Arg)
  | select (k : ℕ)
  | change (k : ℕ)
  | commit (k : ℕ) (replied : Bool)
  | rollback (k : ℕ)
  | update (aID : ℕ) (aCookie : Bytes)
  | done (aID : ℕ) (aSuccess : Bool)
deriving DecidableEq, Repr

section Manager
variable {Arg Row : Type}

def Manager.event (m : Manager Arg Row) : Call Arg Row → Event Row Arg
  | .tick d => .tick d
  | .insert row => .insert row
  | .begin a => .start a
  | .select k => .select k
  | .change k => .change k
  | .commit k replied => .commit k replied
  | .rollback k => .rollback k
  | .update aID aCookie => .statement aID (m.update aCookie)
  | .done aID aSuccess => .statement aID (m.done aSuccess)

def Manager.apply (m : Manager Arg Row) (s : Table Arg Row) (c : Call Arg Row) : Table Arg Row :=
  RowLocks.step m.get s (m.event c)

/-- A call of `get` that is not disturbed. -/
def wholeGet (k : ℕ) (a : Arg) : List (Call Arg Row) :=
  [.begin a, .select k, .change k, .commit k true]

/-- A statement on one row is an `update` or a `done`. -/
theorem Manager.statement {m : Manager Arg Row} {c : Call Arg Row} {aID : ℕ} {f : ℕ → Row → Row}
    (hc : m.event c = .statement aID f) :
    (∃ aCookie, f = m.update aCookie) ∨ ∃ aSuccess, f = m.done aSuccess := by
  cases c with
  | update _ aCookie =>
      cases hc
      exact .inl ⟨aCookie, rfl⟩
  | done _ aSuccess =>
      cases hc
      exact .inr ⟨aSuccess, rfl⟩
  | _ => cases hc

theorem Manager.commit {m : Manager Arg Row} {c : Call Arg Row} {k : ℕ} {replied : Bool}
    (hc : m.event c = .commit k replied) : c = .commit k replied := by
  cases c with
  | commit _ _ =>
      cases hc
      rfl
  | _ => cases hc

end Manager

inductive Status
  | new
  | started
  | done
  | error
deriving DecidableEq, Repr

/-- The id of a row is its place in the table. -/
structure Row where
  task : Bytes
  worker : Bytes := []
  cookie : Option Bytes := none
  status : Status := .new
  updated : ℕ
deriving DecidableEq, Repr

/-- A condition of SQL, at the time of `NOW()`. -/
abbrev Cond := ℕ → Row → Bool

def hour : ℕ := 3600

/-- `status = 'started' AND updated < DATE_SUB(NOW(), INTERVAL 1 HOUR)` -/
def defaultResume : Cond := fun now row => row.status = .started && row.updated + hour < now

/-- An empty text of the source is `none`. -/
structure Config where
  resume : Option Cond := some defaultResume
  extra : Option Cond := none
  isolation : Bool := false
  reverse : Bool := false

/-- `Manager::where`. Texts are compared as the column's collation does. -/
def Config.whereCond (m_Config : Config) (same : Bytes → Bytes → Bool) (aWorker : Bytes) : Cond :=
  fun now row =>
    let sResume := match m_Config.resume with
      | some resume => resume now row && (!m_Config.isolation || same row.worker aWorker)
      | none => false
    let sCond := row.status = .new || sResume
    match m_Config.extra with
    | some extra => extra now row && sCond
    | none => sCond

/-- The row as an `UPDATE` leaves it: `updated` is set if another column has changed. -/
def Row.store (now : ℕ) (old new : Row) : Row :=
  if new = old then old else { new with updated := now }

/-- The rows that `SELECT … FOR UPDATE SKIP LOCKED` can return, by id. -/
def candidates (cond : Cond) (now : ℕ) (rows : List Row) (locked : ℕ → Bool) : List ℕ :=
  (List.range rows.length).filter fun i => !locked i && rows[i]?.any (cond now)

theorem mem_candidates {cond : Cond} {now : ℕ} {rows : List Row} {locked : ℕ → Bool} {i : ℕ}
    (hi : i ∈ candidates cond now rows locked) :
    locked i = false ∧ ∃ row, rows[i]? = some row ∧ cond now row = true := by
  obtain ⟨-, hcond⟩ := List.mem_filter.mp hi
  obtain ⟨hfree, hany⟩ := Bool.and_eq_true_iff.mp hcond
  obtain ⟨row, hrow, hc⟩ := (Option.any_eq_true _ _).mp hany
  exact ⟨by simpa using hfree, row, hrow, hc⟩

/-- `ORDER BY id … LIMIT 1` -/
def Config.select (m_Config : Config) (same : Bytes → Bytes → Bool) (aWorker : Bytes) (now : ℕ)
    (rows : List Row) (locked : ℕ → Bool) : Option ℕ :=
  let ids := candidates (m_Config.whereCond same aWorker) now rows locked
  if m_Config.reverse then ids.getLast? else ids.head?

theorem select_mem {m_Config : Config} {same : Bytes → Bytes → Bool} {aWorker : Bytes} {now : ℕ}
    {rows : List Row} {locked : ℕ → Bool} {i : ℕ}
    (h : m_Config.select same aWorker now rows locked = some i) :
    i ∈ candidates (m_Config.whereCond same aWorker) now rows locked := by
  simp only [Config.select] at h
  split at h
  case isTrue => exact List.mem_of_getLast? h
  case isFalse => exact List.mem_of_head? h

/-- `UPDATE … SET status = 'started', worker = …` -/
def start (aWorker : Bytes) (now : ℕ) (row : Row) : Row :=
  row.store now { row with status := .started, worker := aWorker }

/-- The statements of `Manager::get`. -/
def Config.get (m_Config : Config) (same : Bytes → Bytes → Bool) : Statements Bytes Row where
  choose := m_Config.select same
  change aWorker now row := some (start aWorker now row)
  skips := by
    intro aWorker now rows locked i h
    obtain ⟨hfree, row, hrow, -⟩ := mem_candidates (select_mem h)
    exact ⟨hfree, (List.getElem?_eq_some_iff.mp hrow).1⟩

/-- `Manager::update` -/
def update (aCookie : Bytes) (now : ℕ) (row : Row) : Row :=
  if row.status = .started then row.store now { row with cookie := some aCookie } else row

/-- `Manager::done` -/
def done (aSuccess : Bool) (now : ℕ) (row : Row) : Row :=
  if row.status = .started ∨ row.status = .done then
    row.store now { row with status := if aSuccess then .done else .error }
  else row

def Config.manager (m_Config : Config) (same : Bytes → Bytes → Bool) : Manager Bytes Row where
  get := m_Config.get same
  update := update
  done := done

abbrev Queue := Table Bytes Row

/-! ## Leases -/

/-- What the table still knows of a task that was handed out: it is done, or it is started
and its time is not before the one of the grant. -/
def Leased (time : ℕ) (row : Row) : Prop :=
  row.status = .done ∨ row.status = .error ∨ row.status = .started ∧ time ≤ row.updated

theorem Leased.expired {time now : ℕ} {row : Row} {same : Bytes → Bytes → Bool} {aWorker : Bytes}
    (h : Leased time row) (hw : ({} : Config).whereCond same aWorker now row = true) :
    time + hour < now := by
  simp only [Config.whereCond, defaultResume, Bool.or_eq_true, Bool.and_eq_true,
    decide_eq_true_eq] at hw
  rcases h with hdone | herror | ⟨hs, hle⟩
  · simp [hdone] at hw
  · simp [herror] at hw
  · rcases hw with hnew | ⟨⟨-, hlt⟩, -⟩
    · rw [hs] at hnew
      cases hnew
    · omega

theorem updated_store {time now : ℕ} {old new : Row} (hold : time ≤ old.updated)
    (hnow : time ≤ now) : time ≤ (old.store now new).updated := by
  unfold Row.store
  split
  case isTrue => exact hold
  case isFalse => exact hnow

theorem status_store {now : ℕ} {old new : Row} : (old.store now new).status = new.status := by
  unfold Row.store
  split
  case isTrue heq => rw [heq]
  case isFalse => rfl

theorem Leased.update {time now : ℕ} {row : Row} (h : Leased time row) (hnow : time ≤ now)
    (aCookie : Bytes) : Leased time (update aCookie now row) := by
  unfold MysqlTaskQueue.update
  split
  case isTrue hs =>
    rcases h with hdone | herror | ⟨-, hle⟩
    · simp [hdone] at hs
    · simp [herror] at hs
    · exact .inr (.inr ⟨status_store.trans hs, updated_store hle hnow⟩)
  case isFalse => exact h

theorem Leased.done {time : ℕ} {row : Row} (h : Leased time row) (now : ℕ) (aSuccess : Bool) :
    Leased time (done aSuccess now row) := by
  unfold MysqlTaskQueue.done
  split
  case isTrue =>
    cases aSuccess with
    | true => exact .inl status_store
    | false => exact .inr (.inl status_store)
  case isFalse => exact h

/-- The row is started, and the worker that it names is this one. -/
def Own (aWorker : Bytes) (row : Row) : Prop := row.status = .started ∧ row.worker = aWorker

instance (aWorker : Bytes) (row : Row) : Decidable (Own aWorker row) :=
  inferInstanceAs (Decidable (_ ∧ _))

/-- The lease starts anew, unless nothing changes. -/
theorem start_leased {aWorker : Bytes} {row : Row} (hown : ¬ Own aWorker row) (now : ℕ) :
    Leased now (start aWorker now row) := by
  have hne : { row with status := .started, worker := aWorker } ≠ row := by
    intro heq
    exact hown ⟨(congrArg Row.status heq).symm, (congrArg Row.worker heq).symm⟩
  simp only [start, Row.store, if_neg hne]
  exact .inr (.inr ⟨rfl, Nat.le_refl _⟩)

/-- A task that a call of `get` has returned is returned by another one an hour later at the
earliest, if at all. -/
def Leases (s : Queue) : Prop :=
  s.grants.Pairwise fun g g' => g.row = g'.row → g.returned + hour ≤ g'.returned

instance (s : Queue) : Decidable (Leases s) := inferInstanceAs (Decidable (List.Pairwise _ _))

section Run
variable {same : Bytes → Bytes → Bool} {s : Queue} {c : Call Bytes Row}

/-- The `UPDATE` of a call of `get` does not find its own name in a row that is started. -/
def NotOwn (same : Bytes → Bytes → Bool) (s : Queue) (c : Call Bytes Row) : Prop :=
  Admits (fun aWorker row => ¬ Own aWorker row) s ((({} : Config).manager same).event c)

instance (same : Bytes → Bytes → Bool) (s : Queue) (c : Call Bytes Row) :
    Decidable (NotOwn same s c) := inferInstanceAs (Decidable (Admits _ _ _))

/-- A transaction that is answered now has set `updated` a second ago at the most. -/
def Pc.fresh (now : ℕ) : Pc Row → Prop
  | .changed _ _ time _ => now ≤ time + 1
  | _ => True

instance (now : ℕ) : (pc : Pc Row) → Decidable (Pc.fresh now pc)
  | .changed _ _ time _ => inferInstanceAs (Decidable (now ≤ time + 1))
  | .begun | .holds _ _ | .ended => inferInstanceAs (Decidable True)

/-- `get` returns in the second of its `UPDATE` or in the next one. -/
def Prompt (s : Queue) : Call Bytes Row → Prop
  | .commit k true => ∀ t ∈ s.txs[k]?, Pc.fresh s.now t.pc
  | _ => True

instance (s : Queue) : (c : Call Bytes Row) → Decidable (Prompt s c)
  | .commit k true => inferInstanceAs (Decidable (∀ t ∈ s.txs[k]?, Pc.fresh s.now t.pc))
  | .commit _ false | .tick _ | .insert _ | .begin _ | .select _ | .change _ | .rollback _
  | .update _ _ | .done _ _ => inferInstanceAs (Decidable True)

/-- The lease of a call of `get` starts anew, and when it returns. -/
def Renews (same : Bytes → Bytes → Bool) (s : Queue) (c : Call Bytes Row) : Prop :=
  NotOwn same s c ∧ Prompt s c

instance (same : Bytes → Bytes → Bool) (s : Queue) (c : Call Bytes Row) :
    Decidable (Renews same s c) := inferInstanceAs (Decidable (_ ∧ _))

/-- A task that was handed out is leased from the second before its return at the latest. -/
structure Inv (same : Bytes → Bytes → Bool) (s : Queue) : Prop where
  knows : Knows (({} : Config).get same)
    (fun aWorker now row => ({} : Config).whereCond same aWorker now row = true)
    (fun aWorker row => ¬ Own aWorker row) s
  grants : ∀ g ∈ s.grants, g.time ≤ s.now ∧ g.returned ≤ g.time + 1 ∧
    ∃ row, s.rows[g.row]? = some row ∧ Leased g.time row
  leases : Leases s

theorem leased_statement {aID : ℕ} {f : ℕ → Row → Row}
    (hc : (({} : Config).manager same).event c = .statement aID f) {time now : ℕ} {row : Row}
    (h : Leased time row) (hnow : time ≤ now) : Leased time (f now row) := by
  rcases Manager.statement hc with ⟨aCookie, rfl⟩ | ⟨aSuccess, rfl⟩
  · exact h.update hnow aCookie
  · exact h.done now aSuccess

/-- What a transaction is about to commit: its row was free to be taken, and the lease
will start at the time of the `UPDATE`. -/
theorem Inv.changed (hs : Inv same s) {k : ℕ} {aWorker : Bytes} {i picked time : ℕ} {row' : Row}
    (ht : s.txs[k]? = some ⟨aWorker, .changed i picked time row'⟩) :
    (∀ g ∈ s.grants, g.row = i → g.time + hour < picked) ∧ picked ≤ time ∧ time ≤ s.now ∧
      i < s.rows.length ∧ Leased time row' := by
  obtain ⟨hpt, htn, row, hrow, hwhere, hown, hchange⟩ := hs.knows.changed ht
  cases hchange
  refine ⟨?_, hpt, htn, (List.getElem?_eq_some_iff.mp hrow).1, start_leased hown time⟩
  rintro g hg rfl
  obtain ⟨-, -, row₀, hrow₀, hleased⟩ := hs.grants g hg
  cases hrow.symm.trans hrow₀
  exact hleased.expired hwhere

/-- A row that was handed out keeps its lease. -/
theorem Inv.leased (hs : Inv same s) {g : Grant Bytes} (hg : g ∈ s.grants) :
    ∃ row, ((({} : Config).manager same).apply s c).rows[g.row]? = some row ∧
      Leased g.time row := by
  have h := step_effect (({} : Config).get same) s ((({} : Config).manager same).event c)
  obtain ⟨hnow, -, old, hold, hleased⟩ := hs.grants g hg
  have hlt := Nat.lt_of_lt_of_le (List.getElem?_eq_some_iff.mp hold).1 h.length_le
  refine ⟨_, List.getElem?_eq_getElem hlt, ?_⟩
  rcases h.row_cases (List.getElem?_eq_getElem hlt) with hsame | ⟨-, heq⟩ |
    ⟨f, old', hf, -, hold', hrow⟩ | ⟨k, aWorker, picked, time, replied, -, ht⟩
  · cases hold.symm.trans hsame
    exact hleased
  · have := (List.getElem?_eq_some_iff.mp hold).1
    omega
  · cases hold.symm.trans hold'
    rw [hrow]
    exact leased_statement hf hleased hnow
  · obtain ⟨hexp, hpt, -, -, hnew⟩ := hs.changed ht
    have hle := hexp g hg rfl
    rcases hnew with hdone | herror | ⟨hstarted, hupd⟩
    · exact .inl hdone
    · exact .inr (.inl herror)
    · exact .inr (.inr ⟨hstarted, by omega⟩)

theorem get_finds {m_Config : Config} {aWorker : Bytes} {now : ℕ} {rows : List Row}
    {locked : ℕ → Bool} {i : ℕ} (h : (m_Config.get same).choose aWorker now rows locked = some i) :
    ∃ row, rows[i]? = some row ∧ m_Config.whereCond same aWorker now row = true :=
  (mem_candidates (select_mem h)).2

theorem Inv.step (hs : Inv same s) (hc : Renews same s c) :
    Inv same ((({} : Config).manager same).apply s c) := by
  have h := step_effect (({} : Config).get same) s ((({} : Config).manager same).event c)
  have hold : ∀ g ∈ s.grants, g.time ≤ ((({} : Config).manager same).apply s c).now ∧
      g.returned ≤ g.time + 1 ∧
      ∃ row, ((({} : Config).manager same).apply s c).rows[g.row]? = some row ∧
        Leased g.time row := fun g hg =>
    ⟨Nat.le_trans (hs.grants g hg).1 h.now_le, (hs.grants g hg).2.1, hs.leased hg⟩
  refine ⟨hs.knows.effect get_finds h hc.1, ?_, ?_⟩
  · intro g hg
    rcases h.grants_cases with hgrants | ⟨k, aWorker, i, picked, time, row, he, ht, hgrants, hrows⟩
    · exact hold g (hgrants ▸ hg)
    · obtain ⟨-, -, htn, hlt, hnew⟩ := hs.changed ht
      have hprompt := hc.2
      obtain rfl := Manager.commit he
      rcases List.mem_append.mp (hgrants ▸ hg) with hg | hg
      · exact hold g hg
      · obtain rfl := List.mem_singleton.mp hg
        refine ⟨Nat.le_trans htn h.now_le, hprompt _ ht, row, ?_, hnew⟩
        exact (congrArg (·[i]?) hrows).trans (List.getElem?_set_self hlt)
  · rcases h.grants_cases with hgrants | ⟨k, aWorker, i, picked, time, row, -, ht, hgrants, -⟩
    · exact (congrArg (List.Pairwise _) hgrants).mpr hs.leases
    · refine (congrArg (List.Pairwise _) hgrants).mpr (List.pairwise_append.mpr ⟨hs.leases, ?_, ?_⟩)
      · exact List.pairwise_singleton _ _
      · intro g hg g' hg' heq
        obtain rfl := List.mem_singleton.mp hg'
        obtain ⟨hexp, hpt, htn, -, -⟩ := hs.changed ht
        have hlate := hexp g hg heq
        have hearly := (hs.grants g hg).2.1
        dsimp only
        omega

end Run

end Stuff.MysqlTaskQueue
