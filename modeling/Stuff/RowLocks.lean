import Stuff.EventRuns
import Mathlib.Data.List.Basic

/-!
# Transactions that take a row of a table

Each transaction reads one row that no other one holds, locks it, changes it and commits.
The lock is kept to the end of the transaction; a change is seen by others after the
commit. Statements that change a row on their own wait until it is free. Which row is
read, and what it is changed to, is given by the statements of the program, which also
read the clock. Rows are known by their place in the table.
-/
namespace Stuff.RowLocks

variable {Arg Row : Type}

/-- Where a transaction is, with the times of its statements. The row as it was changed
stays here until the commit. -/
inductive Pc (Row : Type)
  | begun
  | holds (i picked : ℕ)
  | changed (i picked time : ℕ) (row : Row)
  | ended

/-- The row that the transaction has locked. -/
def Pc.lock : Pc Row → Option ℕ
  | .holds i _ => some i
  | .changed i _ _ _ => some i
  | _ => none

/-- The row that the transaction is going to change. -/
def Pc.found : Pc Row → Option ℕ
  | .holds i _ => some i
  | _ => none

def Pc.isBegun : Pc Row → Bool
  | .begun => true
  | _ => false

structure Tx (Arg Row : Type) where
  arg : Arg
  pc : Pc Row := .begun

/-- A row that was handed out by a transaction that committed: the times at which it was
read, at which it was changed, and at which the commit was answered. -/
structure Grant (Arg : Type) where
  arg : Arg
  row : ℕ
  picked : ℕ
  time : ℕ
  returned : ℕ
deriving DecidableEq, Repr

structure Table (Arg Row : Type) where
  rows : List Row
  now : ℕ := 0
  txs : List (Tx Arg Row) := []
  grants : List (Grant Arg) := []

/-- The locking read, which skips the rows that are locked, and the change of the row,
which may find that the row is not to be had. -/
structure Statements (Arg Row : Type) where
  choose : Arg → ℕ → List Row → (ℕ → Bool) → Option ℕ
  change : Arg → ℕ → Row → Option Row
  skips : ∀ {a now rows locked i}, choose a now rows locked = some i →
    locked i = false ∧ i < rows.length

namespace Table

def locked (s : Table Arg Row) (i : ℕ) : Bool := s.txs.any fun t => t.pc.lock = some i

def setPc (s : Table Arg Row) (k : ℕ) (a : Arg) (pc : Pc Row) : Table Arg Row :=
  { s with txs := s.txs.set k { arg := a, pc := pc } }

end Table

/-- The reply to a commit may be lost; then nobody has the row. -/
inductive Event (Row Arg : Type)
  | tick (d : ℕ)
  | insert (row : Row)
  | start (a : Arg)
  | select (k : ℕ)
  | change (k : ℕ)
  | commit (k : ℕ) (replied : Bool)
  | rollback (k : ℕ)
  | statement (i : ℕ) (f : ℕ → Row → Row)

/-- What cannot happen changes nothing. -/
def step (S : Statements Arg Row) (s : Table Arg Row) : Event Row Arg → Table Arg Row
  | .tick d => { s with now := s.now + d }
  | .insert row => { s with rows := s.rows ++ [row] }
  | .start a => { s with txs := s.txs ++ [{ arg := a }] }
  | .select k =>
      match s.txs[k]? with
      | some ⟨a, .begun⟩ =>
          match S.choose a s.now s.rows s.locked with
          | some i => s.setPc k a (.holds i s.now)
          | none => s.setPc k a .ended
      | _ => s
  | .change k =>
      match s.txs[k]? with
      | some ⟨a, .holds i picked⟩ =>
          match s.rows[i]?.bind (S.change a s.now) with
          | some row => s.setPc k a (.changed i picked s.now row)
          | none => s.setPc k a .ended
      | _ => s
  | .commit k replied =>
      match s.txs[k]? with
      | some ⟨a, .changed i picked time row⟩ =>
          { s.setPc k a .ended with
            rows := s.rows.set i row
            grants := if replied then s.grants ++ [⟨a, i, picked, time, s.now⟩] else s.grants }
      | _ => s
  | .rollback k =>
      match s.txs[k]? with
      | some ⟨a, _⟩ => s.setPc k a .ended
      | none => s
  | .statement i f => if s.locked i then s else { s with rows := s.rows.modify i (f s.now) }

/-- All that an event can do. -/
inductive Effect (S : Statements Arg Row) (s : Table Arg Row) :
    Event Row Arg → Table Arg Row → Prop
  | none (e : Event Row Arg) : Effect S s e s
  | tick (d : ℕ) : Effect S s (.tick d) { s with now := s.now + d }
  | insert (row : Row) : Effect S s (.insert row) { s with rows := s.rows ++ [row] }
  | start (a : Arg) : Effect S s (.start a) { s with txs := s.txs ++ [{ arg := a }] }
  | ends {k : ℕ} {a : Arg} {pc : Pc Row} (h : s.txs[k]? = some ⟨a, pc⟩) (e : Event Row Arg) :
      Effect S s e (s.setPc k a .ended)
  | picks {k : ℕ} {a : Arg} {i : ℕ} (h : s.txs[k]? = some ⟨a, .begun⟩)
      (hi : S.choose a s.now s.rows s.locked = some i) :
      Effect S s (.select k) (s.setPc k a (.holds i s.now))
  | changes {k : ℕ} {a : Arg} {i picked : ℕ} {row row' : Row}
      (h : s.txs[k]? = some ⟨a, .holds i picked⟩) (hrow : s.rows[i]? = some row)
      (hchange : S.change a s.now row = some row') :
      Effect S s (.change k) (s.setPc k a (.changed i picked s.now row'))
  | commits {k : ℕ} {a : Arg} {i picked time : ℕ} {row : Row}
      (h : s.txs[k]? = some ⟨a, .changed i picked time row⟩) (replied : Bool) :
      Effect S s (.commit k replied)
        { s.setPc k a .ended with
          rows := s.rows.set i row
          grants := if replied then s.grants ++ [⟨a, i, picked, time, s.now⟩] else s.grants }
  | writes {i : ℕ} (h : s.locked i = false) (f : ℕ → Row → Row) :
      Effect S s (.statement i f) { s with rows := s.rows.modify i (f s.now) }

theorem step_effect (S : Statements Arg Row) (s : Table Arg Row) (e : Event Row Arg) :
    Effect S s e (step S s e) := by
  cases e with
  | tick d => exact .tick d
  | insert row => exact .insert row
  | start a => exact .start a
  | select k =>
      simp only [step]
      split
      next a h =>
        split
        next i hi => exact .picks h hi
        next => exact .ends h _
      next => exact .none _
  | change k =>
      simp only [step]
      split
      next a i picked h =>
        split
        next row' hrow =>
          obtain ⟨row, hget, hchange⟩ := Option.bind_eq_some_iff.mp hrow
          exact .changes h hget hchange
        next => exact .ends h _
      next => exact .none _
  | commit k replied =>
      simp only [step]
      split
      next a i picked time row h => exact .commits h replied
      next => exact .none _
  | rollback k =>
      simp only [step]
      split
      next a pc h => exact .ends h _
      next => exact .none _
  | statement i f =>
      simp only [step]
      split
      next => exact .none _
      next h => exact .writes (by simpa using h) f

/-! ## What an event does to a transaction, to a row and to the grants -/

section Cases
variable {S : Statements Arg Row} {s s' : Table Arg Row} {e : Event Row Arg}

theorem setPc_get {k k' : ℕ} {a : Arg} {pc : Pc Row} {t : Tx Arg Row}
    (ht : (s.setPc k a pc).txs[k']? = some t) :
    k' = k ∧ t = ⟨a, pc⟩ ∨ k' ≠ k ∧ s.txs[k']? = some t := by
  simp only [Table.setPc, List.getElem?_set] at ht
  split at ht
  case isTrue hk =>
    split at ht
    case isTrue => exact .inl ⟨hk.symm, (Option.some.inj ht).symm⟩
    case isFalse => cases ht
  case isFalse hk => exact .inr ⟨Ne.symm hk, ht⟩

/-- A transaction that holds something after the event: it held it before, or it has
just read or changed its row. -/
theorem Effect.tx_cases (h : Effect S s e s') {k : ℕ} {a : Arg} {pc : Pc Row}
    (ht : s'.txs[k]? = some ⟨a, pc⟩) (hlock : pc.lock ≠ Option.none) :
    s.txs[k]? = some ⟨a, pc⟩ ∨
    (∃ i, e = .select k ∧ s.txs[k]? = some ⟨a, .begun⟩ ∧
      S.choose a s.now s.rows s.locked = some i ∧ pc = .holds i s.now) ∨
    (∃ i picked row row', e = .change k ∧ s.txs[k]? = some ⟨a, .holds i picked⟩ ∧
      s.rows[i]? = some row ∧ S.change a s.now row = some row' ∧
      pc = .changed i picked s.now row') := by
  have hended : ∀ {k' a'}, (s.setPc k' a' .ended).txs[k]? = some ⟨a, pc⟩ →
      s.txs[k]? = some ⟨a, pc⟩ := by
    intro k' a' hget
    rcases setPc_get hget with ⟨-, heq⟩ | ⟨-, hold⟩
    · cases heq
      exact absurd rfl hlock
    · exact hold
  cases h with
  | none => exact .inl ht
  | tick d => exact .inl ht
  | insert row => exact .inl ht
  | start a' =>
      by_cases hk : k < s.txs.length
      · exact .inl ((List.getElem?_append_left hk).symm.trans ht)
      · rw [List.getElem?_append_right (Nat.le_of_not_lt hk)] at ht
        have hmem := List.mem_singleton.mp (List.mem_of_getElem? ht)
        cases hmem
        exact absurd rfl hlock
  | ends hk => exact .inl (hended ht)
  | picks hk hi =>
      rcases setPc_get ht with ⟨rfl, heq⟩ | ⟨-, hold⟩
      · cases heq
        exact .inr (.inl ⟨_, rfl, hk, hi, rfl⟩)
      · exact .inl hold
  | changes hk hrow hchange =>
      rcases setPc_get ht with ⟨rfl, heq⟩ | ⟨-, hold⟩
      · cases heq
        exact .inr (.inr ⟨_, _, _, _, rfl, hk, hrow, hchange, rfl⟩)
      · exact .inl hold
  | commits hk => exact .inl (hended ht)
  | writes => exact .inl ht

/-- A row after the event: as it was, new, changed by a statement while it was free, or
changed by the transaction that has committed. -/
theorem Effect.row_cases (h : Effect S s e s') {i : ℕ} {row : Row}
    (hrow : s'.rows[i]? = some row) :
    s.rows[i]? = some row ∨
    (e = .insert row ∧ i = s.rows.length) ∨
    (∃ f old, e = .statement i f ∧ s.locked i = false ∧ s.rows[i]? = some old ∧
      row = f s.now old) ∨
    (∃ k a picked time replied, e = .commit k replied ∧
      s.txs[k]? = some ⟨a, .changed i picked time row⟩) := by
  cases h with
  | none => exact .inl hrow
  | tick d => exact .inl hrow
  | insert row' =>
      by_cases hi : i < s.rows.length
      · exact .inl ((List.getElem?_append_left hi).symm.trans hrow)
      · rw [List.getElem?_append_right (Nat.le_of_not_lt hi)] at hrow
        obtain ⟨hlt, heq⟩ := List.getElem?_eq_some_iff.mp hrow
        rw [List.length_singleton] at hlt
        have hmem := List.mem_singleton.mp (List.mem_of_getElem? hrow)
        cases hmem
        exact .inr (.inl ⟨rfl, by omega⟩)
  | start => exact .inl hrow
  | ends => exact .inl hrow
  | picks => exact .inl hrow
  | changes => exact .inl hrow
  | @commits k a i' picked time row' hk replied =>
      simp only [List.getElem?_set] at hrow
      split at hrow
      case isTrue hi =>
        split at hrow
        case isTrue =>
          cases hrow
          exact .inr (.inr (.inr ⟨k, a, picked, time, replied, rfl, hi ▸ hk⟩))
        case isFalse => cases hrow
      case isFalse => exact .inl hrow
  | @writes i' hfree f =>
      simp only [List.getElem?_modify] at hrow
      obtain ⟨old, hold, heq⟩ := Option.map_eq_some_iff.mp hrow
      split at heq
      case isTrue hi =>
        subst hi
        exact .inr (.inr (.inl ⟨f, old, rfl, hfree, hold, heq.symm⟩))
      case isFalse =>
        rw [← heq]
        exact .inl hold

/-- No row gets lost. -/
theorem Effect.length_le (h : Effect S s e s') : s.rows.length ≤ s'.rows.length := by
  cases h with
  | insert => simp
  | _ => simp [Table.setPc]

theorem Effect.grants_cases (h : Effect S s e s') :
    s'.grants = s.grants ∨
    ∃ k a i picked time row, e = .commit k true ∧
      s.txs[k]? = some ⟨a, .changed i picked time row⟩ ∧
      s'.grants = s.grants ++ [⟨a, i, picked, time, s.now⟩] ∧ s'.rows = s.rows.set i row := by
  cases h with
  | @commits k a i picked time row hk replied =>
      cases replied with
      | false => exact .inl rfl
      | true => exact .inr ⟨k, a, i, picked, time, row, rfl, hk, rfl, rfl⟩
  | _ => exact .inl rfl

theorem Effect.rows_select {k : ℕ} (h : Effect S s (.select k) s') : s'.rows = s.rows := by
  cases h with
  | _ => rfl

theorem Effect.now_le (h : Effect S s e s') : s.now ≤ s'.now := by
  cases h with
  | tick d => exact Nat.le_add_right _ _
  | _ => exact Nat.le_refl _

end Cases

/-! ## Locks -/

/-- No row is locked twice, and a locked row is in the table. -/
structure Locks (s : Table Arg Row) : Prop where
  single : ∀ {k k' : ℕ} {t t' : Tx Arg Row} {i : ℕ}, s.txs[k]? = some t → s.txs[k']? = some t' →
    t.pc.lock = some i → t'.pc.lock = some i → k = k'
  inside : ∀ {k : ℕ} {t : Tx Arg Row} {i : ℕ}, s.txs[k]? = some t → t.pc.lock = some i →
    i < s.rows.length

theorem locks_nil {rows : List Row} {now : ℕ} :
    Locks ({ rows := rows, now := now } : Table Arg Row) where
  single := by simp
  inside := by simp

section Held
variable {S : Statements Arg Row} {s s' : Table Arg Row} {e : Event Row Arg}

theorem locked_of_get {k : ℕ} {t : Tx Arg Row} {i : ℕ} (ht : s.txs[k]? = some t)
    (hlock : t.pc.lock = some i) : s.locked i = true := by
  simp only [Table.locked, List.any_eq_true, decide_eq_true_eq]
  exact ⟨t, List.mem_of_getElem? ht, hlock⟩

theorem get_of_locked {i : ℕ} (h : s.locked i = true) :
    ∃ (k : ℕ) (t : Tx Arg Row), s.txs[k]? = some t ∧ t.pc.lock = some i := by
  simp only [Table.locked, List.any_eq_true, decide_eq_true_eq] at h
  obtain ⟨t, hmem, hlock⟩ := h
  obtain ⟨k, hk⟩ := List.getElem?_of_mem hmem
  exact ⟨k, t, hk, hlock⟩

/-- A lock of after the event is an old one, or is on the row that a locking read has
found. -/
theorem Effect.lock_cases (h : Effect S s e s') {k : ℕ} {t : Tx Arg Row} {i : ℕ}
    (ht : s'.txs[k]? = some t) (hlock : t.pc.lock = some i) :
    (∃ t', s.txs[k]? = some t' ∧ t'.pc.lock = some i) ∨
    (∃ a, e = .select k ∧ s.txs[k]? = some ⟨a, .begun⟩ ∧
      S.choose a s.now s.rows s.locked = some i) := by
  obtain ⟨a, pc⟩ := t
  have hsome : pc.lock ≠ Option.none := by
    rw [show pc.lock = some i from hlock]
    simp
  rcases h.tx_cases ht hsome with hold | ⟨j, rfl, hk, hj, rfl⟩ |
    ⟨j, picked, row, row', -, hold, -, -, rfl⟩
  · exact .inl ⟨_, hold, hlock⟩
  · cases hlock
    exact .inr ⟨a, rfl, hk, hj⟩
  · cases hlock
    exact .inl ⟨_, hold, rfl⟩

theorem Locks.effect (hl : Locks s) (h : Effect S s e s') : Locks s' where
  single := by
    intro k k' t t' i ht ht' hi hi'
    rcases h.lock_cases ht hi with ⟨u, hu, hui⟩ | ⟨a, rfl, -, hfound⟩
    · rcases h.lock_cases ht' hi' with ⟨u', hu', hui'⟩ | ⟨a', -, -, hfound⟩
      · exact hl.single hu hu' hui hui'
      · have hfree := (S.skips hfound).1
        rw [locked_of_get hu hui] at hfree
        cases hfree
    · rcases h.lock_cases ht' hi' with ⟨u', hu', hui'⟩ | ⟨a', heq, -, -⟩
      · have hfree := (S.skips hfound).1
        rw [locked_of_get hu' hui'] at hfree
        cases hfree
      · cases heq
        rfl
  inside := by
    intro k t i ht hi
    have hlt : i < s.rows.length := by
      rcases h.lock_cases ht hi with ⟨u, hu, hui⟩ | ⟨a, -, -, hfound⟩
      · exact hl.inside hu hui
      · exact (S.skips hfound).2
    exact Nat.lt_of_lt_of_le hlt h.length_le

/-- A row stays as it is while a transaction holds it. -/
theorem Locks.row_held (hl : Locks s) (h : Effect S s e s') {k : ℕ} {t t' : Tx Arg Row} {i : ℕ}
    (ht : s.txs[k]? = some t) (hi : t.pc.lock = some i) (ht' : s'.txs[k]? = some t')
    (hi' : t'.pc.lock = some i) : s'.rows[i]? = s.rows[i]? := by
  cases h with
  | insert row => exact List.getElem?_append_left (hl.inside ht hi)
  | @commits k₁ a j picked time row hk replied =>
      have hne : j ≠ i := by
        rintro rfl
        obtain rfl := hl.single hk ht rfl hi
        rcases setPc_get ht' with ⟨-, rfl⟩ | ⟨hk', -⟩
        · cases hi'
        · exact hk' rfl
      exact List.getElem?_set_ne hne
  | @writes j hfree f =>
      have hne : j ≠ i := by
        rintro rfl
        rw [locked_of_get ht hi] at hfree
        cases hfree
      simp [hne]
  | _ => rfl

end Held

/-! ## What a transaction knows of its row

The row has been found by the locking read, at the time `picked`. If every change of a row
meets the side condition `C`, then so has the change of each transaction, of a row that is
still as it was. -/

section Knows
variable {S : Statements Arg Row} {s s' : Table Arg Row} {e : Event Row Arg}
variable {P : Arg → ℕ → Row → Prop} {C : Arg → Row → Prop}

structure Knows (S : Statements Arg Row) (P : Arg → ℕ → Row → Prop) (C : Arg → Row → Prop)
    (s : Table Arg Row) : Prop where
  locks : Locks s
  inside : ∀ g ∈ s.grants, g.row < s.rows.length
  holds : ∀ {k : ℕ} {a : Arg} {i picked : ℕ}, s.txs[k]? = some ⟨a, .holds i picked⟩ →
    picked ≤ s.now ∧ ∃ row, s.rows[i]? = some row ∧ P a picked row
  changed : ∀ {k : ℕ} {a : Arg} {i picked time : ℕ} {row' : Row},
    s.txs[k]? = some ⟨a, .changed i picked time row'⟩ →
    picked ≤ time ∧ time ≤ s.now ∧
      ∃ row, s.rows[i]? = some row ∧ P a picked row ∧ C a row ∧ S.change a time row = some row'

/-- The side condition on the events: a change meets `C`. -/
def Admits (C : Arg → Row → Prop) (s : Table Arg Row) : Event Row Arg → Prop
  | .change k => ∀ t ∈ s.txs[k]?, ∀ i ∈ t.pc.found, ∀ row ∈ s.rows[i]?, C t.arg row
  | _ => True

instance decidableAdmits (C : Arg → Row → Prop) [∀ a row, Decidable (C a row)]
    (s : Table Arg Row) : (e : Event Row Arg) → Decidable (Admits C s e)
  | .change k => inferInstanceAs
      (Decidable (∀ t ∈ s.txs[k]?, ∀ i ∈ t.pc.found, ∀ row ∈ s.rows[i]?, C t.arg row))
  | .tick _ | .insert _ | .start _ | .select _ | .commit _ _ | .rollback _ | .statement _ _ =>
      inferInstanceAs (Decidable True)

theorem admits_of_forall (h : ∀ a row, C a row) (s : Table Arg Row) (e : Event Row Arg) :
    Admits C s e := by
  cases e with
  | change k => exact fun t _ i _ row _ => h t.arg row
  | _ => trivial

theorem Knows.init {rows : List Row} {now : ℕ} :
    Knows S P C ({ rows := rows, now := now } : Table Arg Row) where
  locks := locks_nil
  inside := by simp
  holds := by simp
  changed := by simp

theorem Knows.effect (hP : ∀ {a now rows locked i}, S.choose a now rows locked = some i →
      ∃ row, rows[i]? = some row ∧ P a now row)
    (hs : Knows S P C s) (h : Effect S s e s') (hC : Admits C s e) : Knows S P C s' where
  locks := hs.locks.effect h
  inside := by
    intro g hg
    have hlt : g.row < s.rows.length := by
      rcases h.grants_cases with hgrants | ⟨k, a, i, picked, time, row, -, hk, hgrants, -⟩
      · exact hs.inside g (hgrants ▸ hg)
      · rcases List.mem_append.mp (hgrants ▸ hg) with hg | hg
        · exact hs.inside g hg
        · obtain rfl := List.mem_singleton.mp hg
          exact hs.locks.inside hk rfl
    exact Nat.lt_of_lt_of_le hlt h.length_le
  holds := by
    intro k a i picked ht
    rcases h.tx_cases ht (by simp [Pc.lock]) with hold | ⟨j, rfl, -, hj, heq⟩ |
      ⟨_, _, _, _, _, _, _, _, heq⟩
    · obtain ⟨hle, row, hrow, hp⟩ := hs.holds hold
      rw [← hs.locks.row_held h hold rfl ht rfl] at hrow
      exact ⟨Nat.le_trans hle h.now_le, row, hrow, hp⟩
    · cases heq
      obtain ⟨row, hrow, hp⟩ := hP hj
      rw [← h.rows_select] at hrow
      exact ⟨h.now_le, row, hrow, hp⟩
    · cases heq
  changed := by
    intro k a i picked time row' ht
    rcases h.tx_cases ht (by simp [Pc.lock]) with hold | ⟨_, _, _, _, heq⟩ |
      ⟨j, _, _, _, rfl, hold, hrow, hchange, heq⟩
    · obtain ⟨hpt, htn, row, hrow, hrest⟩ := hs.changed hold
      rw [← hs.locks.row_held h hold rfl ht rfl] at hrow
      exact ⟨hpt, Nat.le_trans htn h.now_le, row, hrow, hrest⟩
    · cases heq
    · cases heq
      obtain ⟨hle, row₀, hrow₀, hp⟩ := hs.holds hold
      rw [hs.locks.row_held h hold rfl ht rfl]
      cases hrow.symm.trans hrow₀
      exact ⟨hle, h.now_le, _, hrow, hp, hC _ hold _ rfl _ hrow, hchange⟩

end Knows

end Stuff.RowLocks
