import Stuff.EventRuns
import Stuff.MachineWords

/-!
# `MySQL::Once`

`transaction` runs a handler in a transaction that also puts a row into
`transaction_log`; if the row is there already, the handler is not run. The connection is
used again and again: an exception leaves the transaction open, and the `BEGIN` of the
next call commits what is open. Each query is one event, with its outcome.
-/
namespace Stuff.MysqlOnce

open EventRuns MachineWords

variable {Stmt : Type}

/-- A row of `transaction_log`. -/
structure Key where
  service : Bytes
  task : Bytes
  id : Bytes
deriving DecidableEq, Repr

/-- The comparison of the table, by what the collation makes of a text. -/
def Key.same (collate : Bytes → Bytes) (k k' : Key) : Bool :=
  collate k.service = collate k'.service && collate k.task = collate k'.task &&
    collate k.id = collate k'.id

theorem Key.same_symm {collate : Bytes → Bytes} {k k' : Key} (h : k.same collate k' = true) :
    k'.same collate k = true := by
  simp only [Key.same, Bool.and_eq_true, decide_eq_true_eq] at h ⊢
  exact ⟨⟨h.1.1.symm, h.1.2.symm⟩, h.2.symm⟩

theorem Key.same_self (collate : Bytes → Bytes) (k : Key) : k.same collate k = true := by
  simp [Key.same]

/-- A call of `transaction`, with the statements that its handler makes. -/
structure Call (Stmt : Type) where
  key : Key
  stmts : List Stmt
deriving DecidableEq, Repr

/-- An open transaction: whether the row of its call has been inserted, and the statements
of the handler so far. -/
structure Open (Stmt : Type) where
  call : Call Stmt
  row : Bool := false
  ran : List Stmt := []
deriving DecidableEq, Repr

/-- What has been committed: the rows, and the statements of handlers, transaction by
transaction. -/
structure Db (Stmt : Type) where
  log : List Key := []
  work : List (Key × List Stmt) := []
deriving DecidableEq, Repr

namespace Db

def commit (db : Db Stmt) (t : Open Stmt) : Db Stmt where
  log := db.log ++ if t.row then [t.call.key] else []
  work := db.work ++ if t.row || !t.ran.isEmpty then [(t.call.key, t.ran)] else []

/-- The statements that were committed for a key. -/
def done (db : Db Stmt) (key : Key) : List (List Stmt) :=
  (db.work.filter fun w => w.1 = key).map (·.2)

end Db

/-- The connection, and its session on the server. -/
structure Session (Stmt : Type) where
  db : Db Stmt := {}
  tx : Option (Open Stmt) := none
  connected : Bool := true
deriving DecidableEq, Repr

/-- A query that throws has been refused, or its transaction was aborted, or the
connection is lost, before or after the query was executed. -/
inductive Outcome
  | ok
  | refused
  | aborted
  | lost (executed : Bool)
deriving DecidableEq, Repr

namespace Session

def commit (s : Session Stmt) : Session Stmt :=
  match s.tx with
  | some t => { s with db := s.db.commit t, tx := none }
  | none => s

/-- An open transaction is committed by the way. -/
def begin (c : Call Stmt) (s : Session Stmt) : Session Stmt :=
  { s.commit with tx := some { call := c } }

/-- A statement of the call; outside of a transaction it is one by itself. -/
def write (c : Call Stmt) (f : Open Stmt → Open Stmt) (s : Session Stmt) : Session Stmt :=
  match s.tx with
  | some t => { s with tx := some (f t) }
  | none => { s with db := s.db.commit (f { call := c }) }

/-- `Connection::Query`: the session after it, and whether it returned. -/
def query (exec : Session Stmt → Session Stmt) (o : Outcome) (s : Session Stmt) :
    Session Stmt × Bool :=
  if s.connected then
    match o with
    | .ok => (exec s, true)
    | .refused => (s, false)
    | .aborted => ({ s with tx := none }, false)
    | .lost executed =>
        ({ (if executed then exec s else s) with tx := none, connected := false }, false)
  else (s, false)

end Session

/-- Where a call is, before which query, or how it has ended. -/
inductive Pc (Stmt : Type)
  | ready
  | selecting (c : Call Stmt)
  | inserting (c : Call Stmt)
  | running (c : Call Stmt) (rest : List Stmt)
  | committing (c : Call Stmt)
  | returned (c : Call Stmt)
  | raised (c : Call Stmt)
deriving DecidableEq, Repr

/-- No call is under way. -/
def Pc.idle : Pc Stmt → Bool
  | .ready | .returned _ | .raised _ => true
  | _ => false

/-- The call that is under way or has been the last one. -/
def Pc.call : Pc Stmt → Option (Call Stmt)
  | .ready => none
  | .selecting c | .inserting c | .running c _ | .committing c | .returned c | .raised c => some c

structure State (Stmt : Type) extends Session Stmt where
  pc : Pc Stmt := .ready
  calls : List (Call Stmt) := []
deriving DecidableEq, Repr

/-- `transaction` goes on after a query that returned, and throws after one that did not. -/
def State.next (s : State Stmt) (c : Call Stmt) (pc : Pc Stmt) (r : Session Stmt × Bool) :
    State Stmt :=
  { s with toSession := r.1, pc := if r.2 then pc else .raised c }

/-- A call with its `BEGIN`, the next query, an exception of the handler, and what the
owner of the connection does between calls. -/
inductive Event (Stmt : Type)
  | call (c : Call Stmt) (o : Outcome)
  | query (o : Outcome)
  | raise
  | close
  | connect
deriving DecidableEq, Repr

def sAlready (collate : Bytes → Bytes) (s : Session Stmt) (c : Call Stmt) : Bool :=
  s.db.log.any (Key.same collate c.key)

/-- What cannot happen changes nothing. -/
def step (collate : Bytes → Bytes) (s : State Stmt) : Event Stmt → State Stmt
  | .call c o =>
      if s.pc.idle then
        { s.next c (.selecting c) (s.toSession.query (·.begin c) o) with calls := s.calls ++ [c] }
      else s
  | .query o =>
      match s.pc with
      | .selecting c =>
          s.next c (if sAlready collate s.toSession c then .committing c else .inserting c)
            (s.toSession.query id o)
      | .inserting c =>
          s.next c (.running c c.stmts)
            (s.toSession.query (·.write c fun t => { t with row := true }) o)
      | .running c (x :: rest) =>
          s.next c (.running c rest)
            (s.toSession.query (·.write c fun t => { t with ran := t.ran ++ [x] }) o)
      | .running c [] => s.next c (.returned c) (s.toSession.query (·.commit) o)
      | .committing c => s.next c (.returned c) (s.toSession.query (·.commit) o)
      | _ => s
  | .raise =>
      match s.pc with
      | .running c _ => { s with pc := .raised c }
      | _ => s
  | .close => if s.pc.idle then { s with tx := none, connected := false } else s
  | .connect => if s.pc.idle && !s.connected then { s with connected := true } else s

/-! ## What a step leaves -/

section Frame
variable {collate : Bytes → Bytes} {key : Key}

theorem Db.mem_commit {db : Db Stmt} (h : key ∈ db.log) (t : Open Stmt) :
    key ∈ (db.commit t).log :=
  List.mem_append_left _ h

theorem Session.mem_commit {s : Session Stmt} (h : key ∈ s.db.log) : key ∈ s.commit.db.log := by
  unfold Session.commit
  split
  case h_1 t _ => exact Db.mem_commit h t
  case h_2 => exact h

theorem Session.mem_write {s : Session Stmt} {c : Call Stmt} {f : Open Stmt → Open Stmt}
    (h : key ∈ s.db.log) : key ∈ (s.write c f).db.log := by
  unfold Session.write
  split
  case h_1 => exact h
  case h_2 => exact Db.mem_commit h _

theorem Session.mem_query {s : Session Stmt} {exec : Session Stmt → Session Stmt} (o : Outcome)
    (h : key ∈ s.db.log) (hexec : key ∈ (exec s).db.log) : key ∈ (s.query exec o).1.db.log := by
  unfold Session.query
  split
  case isTrue =>
    cases o with
    | ok => exact hexec
    | refused => exact h
    | aborted => exact h
    | lost executed =>
        cases executed with
        | true => exact hexec
        | false => exact h
  case isFalse => exact h

/-- A row stays. -/
theorem step_log {s : State Stmt} (h : key ∈ s.db.log) (e : Event Stmt) :
    key ∈ (step collate s e).db.log := by
  cases e with
  | call c o =>
      simp only [step]
      split
      case isTrue => exact Session.mem_query o h (Session.mem_commit h)
      case isFalse => exact h
  | query o =>
      simp only [step]
      split
      case h_1 => exact Session.mem_query o h h
      case h_2 => exact Session.mem_query o h (Session.mem_write h)
      case h_3 => exact Session.mem_query o h (Session.mem_write h)
      case h_4 => exact Session.mem_query o h (Session.mem_commit h)
      case h_5 => exact Session.mem_query o h (Session.mem_commit h)
      case h_6 => exact h
  | raise =>
      simp only [step]
      split
      case h_1 => exact h
      case h_2 => exact h
  | close =>
      simp only [step]
      split
      case isTrue => exact h
      case isFalse => exact h
  | connect =>
      simp only [step]
      split
      case isTrue => exact h
      case isFalse => exact h

theorem next_call {s : State Stmt} {c : Call Stmt} {pc : Pc Stmt} (hpc : pc.call = some c)
    (r : Session Stmt × Bool) : (s.next c pc r).pc.call = some c := by
  simp only [State.next]
  split
  case isTrue => exact hpc
  case isFalse => rfl

/-- A query goes on with the call that is under way. -/
theorem query_call (s : State Stmt) (o : Outcome) :
    (step collate s (.query o)).pc.call = s.pc.call ∧
      (step collate s (.query o)).calls = s.calls := by
  simp only [step]
  split
  case h_1 c hpc =>
    rw [hpc]
    refine ⟨next_call ?_ _, rfl⟩
    split
    case isTrue => rfl
    case isFalse => rfl
  case h_2 c hpc =>
    rw [hpc]
    exact ⟨next_call rfl _, rfl⟩
  case h_3 c x rest hpc =>
    rw [hpc]
    exact ⟨next_call rfl _, rfl⟩
  case h_4 c hpc =>
    rw [hpc]
    exact ⟨next_call rfl _, rfl⟩
  case h_5 c hpc =>
    rw [hpc]
    exact ⟨next_call rfl _, rfl⟩
  case h_6 => exact ⟨rfl, rfl⟩

theorem raise_call (s : State Stmt) :
    (step collate s .raise).pc.call = s.pc.call ∧ (step collate s .raise).calls = s.calls := by
  simp only [step]
  split
  case h_1 c rest hpc =>
    rw [hpc]
    exact ⟨rfl, rfl⟩
  case h_2 => exact ⟨rfl, rfl⟩

end Frame

/-! ## All or nothing, and once -/

/-- A key has a row if and only if the statements of one call of it have been committed,
all of them together and nothing else. -/
structure Atomic (calls : List (Call Stmt)) (db : Db Stmt) : Prop where
  once : db.log.Nodup
  logged : ∀ key ∈ db.log, ∃ c ∈ calls, c.key = key ∧ db.done key = [c.stmts]
  unlogged : ∀ key, key ∉ db.log → db.done key = []

/-- What an open transaction may be. -/
structure Open.Sound (calls : List (Call Stmt)) (db : Db Stmt) (t : Open Stmt) : Prop where
  known : t.call ∈ calls
  clean : t.row = false → t.ran = []
  fresh : t.row = true → t.call.key ∉ db.log

/-- The handler has made all its statements, if it was run. -/
def Open.Complete (t : Open Stmt) : Prop := t.row = true → t.ran = t.call.stmts

section Commit
variable {calls : List (Call Stmt)} {db : Db Stmt} {t : Open Stmt}

theorem Db.done_commit (db : Db Stmt) (t : Open Stmt) (key : Key) :
    (db.commit t).done key = db.done key ++
      if t.call.key = key ∧ (t.row = true ∨ t.ran ≠ []) then [t.ran] else [] := by
  simp only [Db.commit, Db.done, List.filter_append, List.map_append]
  congr 1
  by_cases hrow : t.row = true ∨ t.ran ≠ []
  · by_cases hkey : t.call.key = key
    · simp [hrow, hkey]
    · simp [hrow, hkey]
  · simp [hrow]

theorem Atomic.commit (h : Atomic calls db) (ht : t.Sound calls db) (hc : t.Complete) :
    Atomic calls (db.commit t) := by
  cases hrow : t.row with
  | false =>
      have hsame : db.commit t = db := by
        simp [Db.commit, hrow, ht.clean hrow]
      rw [hsame]
      exact h
  | true =>
      have hlog : (db.commit t).log = db.log ++ [t.call.key] := by
        simp [Db.commit, hrow]
      have hdone : ∀ key, (db.commit t).done key =
          db.done key ++ if t.call.key = key then [t.call.stmts] else [] := by
        intro key
        simp [Db.done_commit, hrow, hc hrow]
      constructor
      case once =>
        have hnot := ht.fresh hrow
        rw [hlog, List.nodup_append]
        refine ⟨h.once, List.nodup_singleton _, ?_⟩
        rintro key hkey key' hkey' rfl
        exact hnot (List.mem_singleton.mp hkey' ▸ hkey)
      case logged =>
        intro key hkey
        rw [hlog] at hkey
        rw [hdone]
        rcases List.mem_append.mp hkey with hold | hnew
        · obtain ⟨c, hmem, rfl, heq⟩ := h.logged key hold
          have hne : t.call.key ≠ c.key := fun heq => ht.fresh hrow (heq ▸ hold)
          exact ⟨c, hmem, rfl, by simp [heq, hne]⟩
        · obtain rfl := List.mem_singleton.mp hnew
          exact ⟨t.call, ht.known, rfl, by simp [h.unlogged _ (ht.fresh hrow)]⟩
      case unlogged =>
        intro key hkey
        rw [hlog] at hkey
        simp only [List.mem_append, List.mem_singleton, not_or] at hkey
        rw [hdone, h.unlogged key hkey.1, if_neg (Ne.symm hkey.2)]
        rfl

end Commit

/-- What holds of the session between any two queries. -/
structure Session.Sound (calls : List (Call Stmt)) (s : Session Stmt) : Prop where
  atomic : Atomic calls s.db
  tx : ∀ t ∈ s.tx, t.Sound calls s.db

section Sessions
variable {calls : List (Call Stmt)} {s : Session Stmt} {c : Call Stmt}

theorem Session.Sound.mono (h : s.Sound calls) (c : Call Stmt) : s.Sound (calls ++ [c]) where
  atomic :=
    { h.atomic with
      logged := by
        intro key hkey
        obtain ⟨c', hmem, hrest⟩ := h.atomic.logged key hkey
        exact ⟨c', List.mem_append_left _ hmem, hrest⟩ }
  tx := by
    intro t ht
    exact { h.tx t ht with known := List.mem_append_left _ (h.tx t ht).known }

theorem Session.Sound.drop (h : s.Sound calls) (connected : Bool) :
    Session.Sound calls { s with tx := none, connected := connected } :=
  ⟨h.atomic, by simp⟩

/-- A commit of what is whole, or of nothing. -/
theorem Session.Sound.commit (h : s.Sound calls) (hc : ∀ t ∈ s.tx, t.Complete) :
    s.commit.Sound calls := by
  cases htx : s.tx with
  | none =>
      simp only [Session.commit, htx]
      exact h
  | some t =>
      simp only [Session.commit, htx]
      exact ⟨h.atomic.commit (h.tx t htx) (hc t htx), by simp⟩

theorem Session.Sound.begin (h : s.Sound calls) (hc : ∀ t ∈ s.tx, t.Complete)
    (hmem : c ∈ calls) : (s.begin c).Sound calls where
  atomic := (h.commit hc).atomic
  tx := by
    intro t ht
    cases ht
    exact ⟨hmem, fun _ => rfl, by simp⟩

theorem write_of_tx {t : Open Stmt} (h : s.tx = some t) (f : Open Stmt → Open Stmt) :
    s.write c f = { s with tx := some (f t) } := by
  simp only [Session.write, h]

theorem commit_of_tx {t : Open Stmt} (h : s.tx = some t) :
    s.commit = { s with db := s.db.commit t, tx := none } := by
  simp only [Session.commit, h]

theorem Session.Sound.write {t : Open Stmt} (h : s.Sound calls) (ht : t.Sound calls s.db) :
    Session.Sound calls { s with tx := some t } :=
  ⟨h.atomic, by simpa using ht⟩

theorem Session.Sound.query (h : s.Sound calls) {exec : Session Stmt → Session Stmt}
    (hexec : (exec s).Sound calls) (o : Outcome) : (s.query exec o).1.Sound calls := by
  unfold Session.query
  split
  case isTrue hconn =>
    cases o with
    | ok => exact hexec
    | refused => exact h
    | aborted => exact hconn ▸ h.drop true
    | lost executed =>
        cases executed with
        | true => exact hexec.drop false
        | false => exact h.drop false
  case isFalse => exact h

theorem query_returned {exec : Session Stmt → Session Stmt} {o : Outcome}
    (h : (s.query exec o).2 = true) : (s.query exec o).1 = exec s := by
  unfold Session.query at h ⊢
  split at h
  case isTrue hconn =>
    cases o with
    | ok => simp [hconn]
    | refused => cases h
    | aborted => cases h
    | lost executed => cases h
  case isFalse => cases h

end Sessions

section Runs
variable {collate : Bytes → Bytes} {s : State Stmt} {c : Call Stmt}

/-- What `transaction` knows of its open transaction. -/
def Knows (collate : Bytes → Bytes) (s : Session Stmt) : Pc Stmt → Prop
  | .selecting c => s.tx = some { call := c }
  | .inserting c => s.tx = some { call := c } ∧ c.key ∉ s.db.log
  | .running c rest => ∃ ran, s.tx = some ⟨c, true, ran⟩ ∧ ran ++ rest = c.stmts
  | .committing c => s.tx = some { call := c } ∧ sAlready collate s c = true
  | .returned c => sAlready collate s c = true
  | _ => True

structure Inv (collate : Bytes → Bytes) (s : State Stmt) : Prop where
  session : s.toSession.Sound s.calls
  knows : Knows collate s.toSession s.pc

theorem Inv.next (hs : Inv collate s) {exec : Session Stmt → Session Stmt} {pc : Pc Stmt}
    (hexec : (exec s.toSession).Sound s.calls) (hpc : Knows collate (exec s.toSession) pc)
    (o : Outcome) : Inv collate (s.next c pc (s.toSession.query exec o)) := by
  refine ⟨hs.session.query hexec o, ?_⟩
  simp only [State.next]
  split
  case isTrue hret =>
    rw [query_returned hret]
    exact hpc
  case isFalse => exact trivial

theorem sAlready_of_mem {s : Session Stmt} (h : c.key ∈ s.db.log) : sAlready collate s c = true :=
  List.any_eq_true.mpr ⟨c.key, h, c.key.same_self collate⟩

theorem not_mem_log {s : Session Stmt} (h : sAlready collate s c = false) : c.key ∉ s.db.log := by
  intro hmem
  rw [sAlready_of_mem hmem] at h
  cases h

/-- Every call begins with nothing half done: the open transaction, if there is one, has no
row yet, or all the statements of its handler. -/
def Whole (s : State Stmt) : Event Stmt → Prop
  | .call _ _ => ∀ t ∈ s.tx, t.row = true → t.ran = t.call.stmts
  | _ => True

instance decidableWhole [DecidableEq Stmt] (s : State Stmt) :
    (e : Event Stmt) → Decidable (Whole s e)
  | .call _ _ => inferInstanceAs (Decidable (∀ t ∈ s.tx, t.row = true → t.ran = t.call.stmts))
  | .query _ | .raise | .close | .connect => inferInstanceAs (Decidable True)

theorem Inv.query (hs : Inv collate s) (o : Outcome) : Inv collate (step collate s (.query o)) := by
  have hknows := hs.knows
  simp only [step]
  split
  case h_1 c hpc =>
    rw [hpc] at hknows
    refine hs.next hs.session ?_ o
    cases halready : sAlready collate s.toSession c with
    | true => exact ⟨hknows, halready⟩
    | false => exact ⟨hknows, not_mem_log halready⟩
  case h_2 c hpc =>
    rw [hpc] at hknows
    obtain ⟨htx, hfresh⟩ := hknows
    have hmem := (hs.session.tx _ htx).known
    refine hs.next ?_ ?_ o
    · rw [write_of_tx htx]
      exact hs.session.write ⟨hmem, by simp, fun _ => hfresh⟩
    · rw [write_of_tx htx]
      exact ⟨[], rfl, rfl⟩
  case h_3 c x rest hpc =>
    rw [hpc] at hknows
    obtain ⟨ran, htx, hran⟩ := hknows
    have hold := hs.session.tx _ htx
    refine hs.next ?_ ?_ o
    · rw [write_of_tx htx]
      exact hs.session.write ⟨hold.known, by simp, fun _ => hold.fresh rfl⟩
    · rw [write_of_tx htx]
      exact ⟨ran ++ [x], rfl, by simpa using hran⟩
  case h_4 c hpc =>
    rw [hpc] at hknows
    obtain ⟨ran, htx, hran⟩ := hknows
    have hcomplete : ∀ t ∈ s.tx, t.Complete := by
      intro t ht
      cases htx.symm.trans ht
      exact fun _ => by simpa using hran
    refine hs.next (hs.session.commit hcomplete) ?_ o
    rw [commit_of_tx htx]
    exact sAlready_of_mem (by simp [Db.commit])
  case h_5 c hpc =>
    rw [hpc] at hknows
    obtain ⟨htx, halready⟩ := hknows
    have hcomplete : ∀ t ∈ s.tx, t.Complete := by
      intro t ht
      cases htx.symm.trans ht
      exact fun hrow => absurd hrow (by simp)
    refine hs.next (hs.session.commit hcomplete) ?_ o
    rw [commit_of_tx htx]
    simpa [Knows, sAlready, Db.commit] using halready
  case h_6 => exact hs

/-- Between two calls only the rows matter. -/
theorem Inv.knows_idle (hs : Inv collate s) (hidle : s.pc.idle = true) {s' : Session Stmt}
    (hdb : s'.db = s.db) : Knows collate s' s.pc := by
  have hknows := hs.knows
  cases hpc : s.pc with
  | returned c =>
      rw [hpc] at hknows
      simpa only [Knows, sAlready, hdb] using hknows
  | ready => exact trivial
  | raised c => exact trivial
  | _ => simp [hpc, Pc.idle] at hidle

theorem Inv.step (hs : Inv collate s) (e : Event Stmt) (he : Whole s e) :
    Inv collate (step collate s e) := by
  cases e with
  | call c o =>
      simp only [MysqlOnce.step]
      split
      case isTrue =>
        have hcalls : Inv collate { s with calls := s.calls ++ [c] } :=
          ⟨hs.session.mono c, hs.knows⟩
        have hknows : Knows collate (s.toSession.begin c) (.selecting c) := rfl
        exact hcalls.next (hcalls.session.begin he (by simp)) hknows o
      case isFalse => exact hs
  | query o => exact hs.query o
  | raise =>
      simp only [MysqlOnce.step]
      split
      case h_1 => exact ⟨hs.session, trivial⟩
      case h_2 => exact hs
  | close =>
      simp only [MysqlOnce.step]
      split
      case isTrue hidle => exact ⟨hs.session.drop false, hs.knows_idle hidle rfl⟩
      case isFalse => exact hs
  | connect =>
      simp only [MysqlOnce.step]
      split
      case isTrue hidle =>
        have hpc := (Bool.and_eq_true_iff.mp hidle).1
        exact ⟨⟨hs.session.atomic, hs.session.tx⟩, hs.knows_idle hpc rfl⟩
      case isFalse => exact hs

theorem Inv.init : Inv collate ({} : State Stmt) where
  session := ⟨⟨List.nodup_nil, by simp, fun _ _ => rfl⟩, by simp⟩
  knows := trivial

/-- Every run in which no call begins on a connection with half of another one open. -/
theorem transaction_atomic (collate : Bytes → Bytes) (es : List (Event Stmt))
    (h : Meets (MysqlOnce.step collate) Whole {} es) :
    Atomic (run (MysqlOnce.step collate) {} es).calls (run (MysqlOnce.step collate) {} es).db :=
  (run_invariant (fun _ e hs he => hs.step e he) Inv.init h).session.atomic

/-- Two statements under one key. -/
def twoStmts : Call ℕ := { key := ⟨[1], [2], [3]⟩, stmts := [10, 20] }

/-- The second statement is refused; the connection is closed and the call repeated. -/
theorem transaction_atomic_closed :
    let es : List (Event ℕ) := [.call twoStmts .ok, .query .ok, .query .ok, .query .ok,
      .query .refused, .close, .connect, .call twoStmts .ok, .query .ok, .query .ok, .query .ok,
      .query .ok, .query .ok]
    let s := run (MysqlOnce.step id) {} es
    Meets (MysqlOnce.step id) Whole {} es ∧ Atomic s.calls s.db ∧
      s.db.work = [(twoStmts.key, [10, 20])] :=
  ⟨by decide, transaction_atomic id _ (by decide), by decide⟩

/-- The second statement is refused; the next call commits the first one, and finds its
row. -/
theorem transaction_half_committed :
    let es : List (Event ℕ) := [.call twoStmts .ok, .query .ok, .query .ok, .query .ok,
      .query .refused, .call twoStmts .ok, .query .ok, .query .ok]
    let s := run (MysqlOnce.step id) {} es
    s.pc = .returned twoStmts ∧ s.db.work = [(twoStmts.key, [10])] ∧ ¬ Atomic s.calls s.db := by
  refine ⟨by decide, by decide, ?_⟩
  intro h
  obtain ⟨c, hmem, -, hdone⟩ := h.logged twoStmts.key (by decide)
  exact absurd hdone ((by decide : ∀ c ∈ [twoStmts, twoStmts], [[10]] ≠ [c.stmts]) c hmem)

end Runs

end Stuff.MysqlOnce
