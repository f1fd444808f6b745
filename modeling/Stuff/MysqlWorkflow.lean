import Stuff.MysqlTaskQueue
import Stuff.SqlText

/-!
# `MySQL::Workflow`

Tasks of one strand are not to run at the same time. `get` reads the strands of the tasks
that are started, and takes a row of another strand; the strands are read from what has
been committed, and only the row that is taken is locked. Every statement of every manager
is one event.
-/
namespace Stuff.MysqlWorkflow

open EventRuns MachineWords RowLocks SqlText
open MysqlTaskQueue (Status Manager Call defaultResume wholeGet)

/-- The columns that the two queues share, and those of `workflow`. -/
structure Row extends MysqlTaskQueue.Row where
  space : Bytes
  strand : Option Bytes := none
  priority : ℕ := 0
deriving DecidableEq, Repr

structure Args where
  aSpace : Bytes
  aTaskPrefix : Bytes
  aWorker : Bytes
deriving DecidableEq, Repr

def slash : UInt8 := 0x2f

def percent : UInt8 := 0x25

/-- The text before the first slash, or all of it. -/
def sSpacePrefix (aSpace : Bytes) : Bytes := aSpace.takeWhile (· ≠ slash)

/-- `sWhere` -/
def sWhere (now : ℕ) (row : Row) : Bool := row.status = .new || defaultResume now row.toRow

/-- `WITH s AS (SELECT DISTINCT strand …)` -/
def started (weight : UInt8 → UInt8) (aSpace : Bytes) (rows : List Row) : List Bytes :=
  rows.filterMap fun row =>
    if row.status = .started && like weight row.space (sSpacePrefix aSpace ++ [slash, percent])
    then row.strand else none

/-- `strand NOT IN (SELECT * FROM s)`, which is not true of no strand, unless there is
nothing to compare with. -/
def notIn (weight : UInt8 → UInt8) (s : List Bytes) : Option Bytes → Bool
  | none => s.isEmpty
  | some strand => s.all fun x => sortKey weight x ≠ sortKey weight strand

/-- The `WHERE` of the `SELECT`. -/
def wanted (weight : UInt8 → UInt8) (a : Args) (now : ℕ) (rows : List Row) (row : Row) : Bool :=
  sWhere now row && notIn weight (started weight a.aSpace rows) row.strand &&
    like weight row.space (a.aSpace ++ [percent]) &&
    like weight row.task (a.aTaskPrefix ++ [slash, percent])

/-- `ORDER BY priority DESC, id ASC LIMIT 1` of some rows in the order of their ids. -/
def first (priority : ℕ → ℕ) : List ℕ → Option ℕ
  | [] => none
  | i :: ids =>
      match first priority ids with
      | some j => if priority i < priority j then some j else some i
      | none => some i

theorem first_mem {priority : ℕ → ℕ} {ids : List ℕ} {i : ℕ} (h : first priority ids = some i) :
    i ∈ ids := by
  induction ids with
  | nil => cases h
  | cons j ids ih =>
      simp only [first] at h
      split at h
      case h_1 k hk =>
        split at h
        case isTrue => exact List.mem_cons_of_mem j (ih (hk.trans h))
        case isFalse =>
          cases h
          exact List.mem_cons_self
      case h_2 =>
        cases h
        exact List.mem_cons_self

/-- `SELECT … FOR UPDATE SKIP LOCKED` -/
def select (weight : UInt8 → UInt8) (a : Args) (now : ℕ) (rows : List Row) (locked : ℕ → Bool) :
    Option ℕ :=
  first (fun i => (rows[i]?.map Row.priority).getD 0) <|
    (List.range rows.length).filter fun i => !locked i && rows[i]?.any (wanted weight a now rows)

theorem select_wanted {weight : UInt8 → UInt8} {a : Args} {now : ℕ} {rows : List Row}
    {locked : ℕ → Bool} {i : ℕ} (h : select weight a now rows locked = some i) :
    locked i = false ∧ ∃ row, rows[i]? = some row ∧ wanted weight a now rows row = true := by
  obtain ⟨-, hcond⟩ := List.mem_filter.mp (first_mem h)
  obtain ⟨hfree, hany⟩ := Bool.and_eq_true_iff.mp hcond
  obtain ⟨row, hrow, hw⟩ := (Option.any_eq_true _ _).mp hany
  exact ⟨by simpa using hfree, row, hrow, hw⟩

/-- `UPDATE … WHERE id = … AND sWhere`, and the rollback when `ROW_COUNT()` is not one. -/
def start (a : Args) (now : ℕ) (row : Row) : Option Row :=
  let row' := { row with toRow := MysqlTaskQueue.start a.aWorker now row.toRow }
  if sWhere now row && row' ≠ row then some row' else none

/-- The statements of `Manager::get`. -/
def get (weight : UInt8 → UInt8) : Statements Args Row where
  choose := select weight
  change := start
  skips := by
    intro a now rows locked i h
    obtain ⟨hfree, row, hrow, -⟩ := select_wanted h
    exact ⟨hfree, (List.getElem?_eq_some_iff.mp hrow).1⟩

/-- `Manager::update` -/
def update (aCookie : Bytes) (now : ℕ) (row : Row) : Row :=
  { row with toRow := MysqlTaskQueue.update aCookie now row.toRow }

/-- `Manager::done` -/
def done (aSuccess : Bool) (now : ℕ) (row : Row) : Row :=
  { row with toRow := MysqlTaskQueue.done aSuccess now row.toRow }

def manager (weight : UInt8 → UInt8) : Manager Args Row where
  get := get weight
  update := update
  done := done

abbrev Flows := Table Args Row

/-! ## Strands -/

/-- What the rows of one strand in one space have in common. -/
def Row.strandKey (weight : UInt8 → UInt8) (row : Row) : Option (Bytes × Bytes) :=
  row.strand.map fun strand => (sortKey weight strand, (sSpacePrefix row.space).map weight)

def SameStrand (weight : UInt8 → UInt8) (row row' : Row) : Prop :=
  row.strandKey weight ≠ none ∧ row.strandKey weight = row'.strandKey weight

instance (weight : UInt8 → UInt8) (row row' : Row) : Decidable (SameStrand weight row row') :=
  inferInstanceAs (Decidable (_ ∧ _))

theorem SameStrand.symm {weight : UInt8 → UInt8} {row row' : Row}
    (h : SameStrand weight row row') : SameStrand weight row' row :=
  ⟨h.2 ▸ h.1, h.2.symm⟩

/-- Two tasks that were handed out and are still started are not of one strand. -/
def Exclusive (weight : UInt8 → UInt8) (s : Flows) : Prop :=
  ∀ g ∈ s.grants, ∀ g' ∈ s.grants, g.row ≠ g'.row →
    ∀ row ∈ s.rows[g.row]?, ∀ row' ∈ s.rows[g'.row]?,
      row.status = .started → row'.status = .started → ¬ SameStrand weight row row'

instance (weight : UInt8 → UInt8) (s : Flows) : Decidable (Exclusive weight s) :=
  inferInstanceAs (Decidable (∀ g ∈ s.grants, ∀ g' ∈ s.grants, _))

/-- The strands that `get` reads are those of all spaces with the prefix of this row. -/
def Covered (weight : UInt8 → UInt8) (aSpace : Bytes) (row : Row) : Prop :=
  slash ∈ row.space ∧
    like weight (sSpacePrefix row.space ++ [slash]) (sSpacePrefix aSpace ++ [slash, percent]) = true

instance (weight : UInt8 → UInt8) (aSpace : Bytes) (row : Row) :
    Decidable (Covered weight aSpace row) := inferInstanceAs (Decidable (_ ∧ _))

/-- When a `SELECT` is about to lock a row with a strand, then the strands of its space
have been read, and no other transaction holds a row of that strand. -/
def Alone (weight : UInt8 → UInt8) (s : Flows) : Call Args Row → Prop
  | .select k => ∀ t ∈ s.txs[k]?, t.pc.isBegun = true →
      ∀ i ∈ select weight t.arg s.now s.rows s.locked, ∀ row ∈ s.rows[i]?, row.strand ≠ none →
        Covered weight t.arg.aSpace row ∧
        ∀ t' ∈ s.txs, ∀ j ∈ t'.pc.lock, ∀ row' ∈ s.rows[j]?, ¬ SameStrand weight row' row
  | _ => True

instance decidableAlone (weight : UInt8 → UInt8) (s : Flows) :
    (c : Call Args Row) → Decidable (Alone weight s c)
  | .select k => inferInstanceAs (Decidable (∀ t ∈ s.txs[k]?, t.pc.isBegun = true →
      ∀ i ∈ select weight t.arg s.now s.rows s.locked, ∀ row ∈ s.rows[i]?, row.strand ≠ none →
        Covered weight t.arg.aSpace row ∧
        ∀ t' ∈ s.txs, ∀ j ∈ t'.pc.lock, ∀ row' ∈ s.rows[j]?, ¬ SameStrand weight row' row))
  | .tick _ | .insert _ | .begin _ | .change _ | .commit _ _ | .rollback _ | .update _ _
  | .done _ _ => inferInstanceAs (Decidable True)

theorem space_eq {space : Bytes} (h : slash ∈ space) :
    ∃ rest, space = sSpacePrefix space ++ [slash] ++ rest := by
  induction space with
  | nil => cases h
  | cons c space ih =>
      by_cases hc : c = slash
      · exact ⟨space, by simp [sSpacePrefix, hc]⟩
      · obtain ⟨rest, hrest⟩ := ih ((List.mem_cons.mp h).resolve_left (Ne.symm hc))
        refine ⟨rest, ?_⟩
        have hspaces : sSpacePrefix (c :: space) = c :: sSpacePrefix space := by
          simp [sSpacePrefix, hc]
        rw [hspaces, List.cons_append, List.cons_append, ← hrest]

/-- What is started in the space is among the strands that are read. -/
theorem mem_started {weight : UInt8 → UInt8} {aSpace strand : Bytes} {rows : List Row}
    {row row' : Row} (hcov : Covered weight aSpace row) (hmem : row' ∈ rows)
    (hslash : slash ∈ row'.space) (hstarted : row'.status = .started)
    (hstrand : row'.strand = some strand)
    (hspaces : (sSpacePrefix row.space).map weight = (sSpacePrefix row'.space).map weight) :
    strand ∈ started weight aSpace rows := by
  obtain ⟨rest, hrest⟩ := space_eq hslash
  have hlike : like weight row'.space (sSpacePrefix aSpace ++ [slash, percent]) = true := by
    rw [hrest]
    exact like_append (by decide) (by simp [hspaces]) hcov.2 rest
  exact List.mem_filterMap.mpr ⟨row', hmem, by simp [hstarted, hlike, hstrand]⟩

theorem SameStrand.strands {weight : UInt8 → UInt8} {row row' : Row}
    (h : SameStrand weight row row') : ∃ x y, row.strand = some x ∧ row'.strand = some y ∧
      sortKey weight x = sortKey weight y ∧
      (sSpacePrefix row.space).map weight = (sSpacePrefix row'.space).map weight := by
  obtain ⟨hne, heq⟩ := h
  simp only [Row.strandKey] at hne heq
  cases hx : row.strand with
  | none => simp [hx] at hne
  | some x =>
      cases hy : row'.strand with
      | none => simp [hx, hy] at heq
      | some y =>
          simp only [hx, hy, Option.map_some, Option.some.injEq, Prod.mk.injEq] at heq
          exact ⟨x, y, rfl, rfl, heq.1, heq.2⟩

/-- A row that is found is not of the strand of one that is started. -/
theorem not_sameStrand_of_wanted {weight : UInt8 → UInt8} {a : Args} {now : ℕ} {rows : List Row}
    {row row' : Row} (hw : wanted weight a now rows row = true)
    (hcov : row.strand ≠ none → Covered weight a.aSpace row) (hmem : row' ∈ rows)
    (hslash : row'.strand ≠ none → slash ∈ row'.space) (hstarted : row'.status = .started) :
    ¬ SameStrand weight row' row := by
  intro hsame
  obtain ⟨x, y, hx, hy, hkey, hspaces⟩ := hsame.strands
  have hin :=
    mem_started (hcov (by simp [hy])) hmem (hslash (by simp [hx])) hstarted hx hspaces.symm
  simp only [wanted, Bool.and_eq_true, hy, notIn, List.all_eq_true, decide_eq_true_eq] at hw
  exact hw.1.1.2 x hin hkey

section Run
variable {weight : UInt8 → UInt8} {s : Flows} {c : Call Args Row}

/-- A row that was handed out and is started, or that a transaction holds. -/
def Taken (s : Flows) (i : ℕ) : Prop :=
  (∃ g ∈ s.grants, g.row = i ∧ ∃ row, s.rows[i]? = some row ∧ row.status = .started) ∨
    s.locked i = true

/-- The statement locks the row. -/
def Finds (weight : UInt8 → UInt8) (s : Flows) (c : Call Args Row) (i : ℕ) : Prop :=
  ∃ k a, c = .select k ∧ s.txs[k]? = some ⟨a, .begun⟩ ∧
    select weight a s.now s.rows s.locked = some i

structure Inv (weight : UInt8 → UInt8) (s : Flows) : Prop where
  knows : Knows (get weight) (fun _ _ _ => True) (fun _ _ => True) s
  slashed : ∀ {i : ℕ} {row : Row}, Taken s i → s.rows[i]? = some row → row.strand ≠ none →
    slash ∈ row.space
  apart : ∀ {i j : ℕ} {row row' : Row}, i ≠ j → Taken s i → Taken s j → s.rows[i]? = some row →
    s.rows[j]? = some row' → ¬ SameStrand weight row row'

/-- No statement changes the strand or the space of a row. -/
theorem Inv.columns (hs : Inv weight s) {i : ℕ} {row row' : Row} (hrow : s.rows[i]? = some row)
    (hrow' : ((manager weight).apply s c).rows[i]? = some row') :
    row'.strand = row.strand ∧ row'.space = row.space := by
  have h := step_effect (get weight) s ((manager weight).event c)
  rcases h.row_cases hrow' with hsame | ⟨-, heq⟩ | ⟨f, old, hf, -, hold, rfl⟩ |
    ⟨k, a, picked, time, replied, -, ht⟩
  · cases hrow.symm.trans hsame
    exact ⟨rfl, rfl⟩
  · have := (List.getElem?_eq_some_iff.mp hrow).1
    omega
  · cases hrow.symm.trans hold
    rcases Manager.statement hf with ⟨aCookie, rfl⟩ | ⟨aSuccess, rfl⟩
    · exact ⟨rfl, rfl⟩
    · exact ⟨rfl, rfl⟩
  · obtain ⟨-, -, old, hold, -, -, hchange⟩ := hs.knows.changed ht
    cases hrow.symm.trans hold
    simp only [get, start, Option.ite_none_right_eq_some, Option.some.injEq] at hchange
    rw [← hchange.2]
    exact ⟨rfl, rfl⟩

theorem Inv.row_of_taken (hs : Inv weight s) {i : ℕ} (ht : Taken s i) :
    ∃ row, s.rows[i]? = some row := by
  rcases ht with ⟨g, -, -, row, hrow, -⟩ | hlocked
  · exact ⟨row, hrow⟩
  · obtain ⟨k, t, hk, hlock⟩ := get_of_locked hlocked
    exact ⟨_, List.getElem?_eq_getElem (hs.knows.locks.inside hk hlock)⟩

theorem started_of_update {aCookie : Bytes} {now : ℕ} {row : Row}
    (h : (update aCookie now row).status = .started) : row.status = .started := by
  simp only [update, MysqlTaskQueue.update] at h
  split at h
  case isTrue hs => exact hs
  case isFalse => exact h

theorem started_of_done {aSuccess : Bool} {now : ℕ} {row : Row}
    (h : (done aSuccess now row).status = .started) : row.status = .started := by
  simp only [done, MysqlTaskQueue.done] at h
  split at h
  case isTrue =>
    rw [MysqlTaskQueue.status_store] at h
    cases aSuccess with
    | true => cases h
    | false => cases h
  case isFalse => exact h

theorem Inv.taken_cases (hs : Inv weight s) {i : ℕ} (ht : Taken ((manager weight).apply s c) i) :
    Taken s i ∨ Finds weight s c i := by
  have h := step_effect (get weight) s ((manager weight).event c)
  rcases ht with ⟨g, hg, rfl, row', hrow', hstarted⟩ | hlocked
  · refine .inl ?_
    have hold : g ∈ s.grants → Taken s g.row := by
      intro hg
      rcases h.row_cases hrow' with hsame | ⟨-, heq⟩ | ⟨f, old, hf, -, hold, rfl⟩ |
        ⟨k, a, picked, time, replied, -, hk⟩
      · exact .inl ⟨g, hg, rfl, row', hsame, hstarted⟩
      · have := hs.knows.inside g hg
        omega
      · refine .inl ⟨g, hg, rfl, old, hold, ?_⟩
        rcases Manager.statement hf with ⟨aCookie, rfl⟩ | ⟨aSuccess, rfl⟩
        · exact started_of_update hstarted
        · exact started_of_done hstarted
      · exact .inr (locked_of_get hk rfl)
    rcases h.grants_cases with hgrants | ⟨k, a, i, picked, time, row, -, hk, hgrants, -⟩
    · exact hold (hgrants ▸ hg)
    · rcases List.mem_append.mp (hgrants ▸ hg) with hg | hg
      · exact hold hg
      · obtain rfl := List.mem_singleton.mp hg
        exact .inr (locked_of_get hk rfl)
  · obtain ⟨k, t, hk, hlock⟩ := get_of_locked hlocked
    rcases h.lock_cases hk hlock with ⟨t', hk', hlock'⟩ | ⟨a, he, hbegun, hfound⟩
    · exact .inl (.inr (locked_of_get hk' hlock'))
    · refine .inr ⟨k, a, ?_, hbegun, hfound⟩
      cases c with
      | select k' =>
          cases he
          rfl
      | _ => cases he

/-- The row that a `SELECT` finds, if it is alone in its strand. -/
theorem Inv.finds (hs : Inv weight s) (hc : Alone weight s c) {i : ℕ} (hi : Finds weight s c i) :
    ∃ row, s.rows[i]? = some row ∧ (row.strand ≠ none → slash ∈ row.space) ∧
      ∀ {j : ℕ} {row' : Row}, Taken s j → s.rows[j]? = some row' →
        ¬ SameStrand weight row' row := by
  obtain ⟨k, a, rfl, hk, hfound⟩ := hi
  obtain ⟨-, row, hrow, hw⟩ := select_wanted hfound
  have halone := hc _ hk rfl i hfound row hrow
  refine ⟨row, hrow, fun hstrand => (halone hstrand).1.1, ?_⟩
  intro j row' htaken hrow' hsame
  have hstrand : row.strand ≠ none := by
    obtain ⟨x, y, -, hy, -⟩ := hsame.strands
    simp [hy]
  rcases htaken with ⟨g, hg, rfl, row'', hrow'', hstarted⟩ | hlocked
  · cases hrow'.symm.trans hrow''
    have hslash : row'.strand ≠ none → slash ∈ row'.space :=
      hs.slashed (.inl ⟨g, hg, rfl, row', hrow', hstarted⟩) hrow'
    exact not_sameStrand_of_wanted hw (fun h => (halone h).1) (List.mem_of_getElem? hrow') hslash
      hstarted hsame
  · obtain ⟨k', t', hk', hlock⟩ := get_of_locked hlocked
    exact (halone hstrand).2 t' (List.mem_of_getElem? hk') j hlock row' hrow' hsame

theorem strandKey_congr {row row' : Row} (h : row'.strand = row.strand ∧ row'.space = row.space) :
    row'.strandKey weight = row.strandKey weight := by
  simp only [Row.strandKey, h.1, h.2]

theorem Inv.step (hs : Inv weight s) (hc : Alone weight s c) :
    Inv weight ((manager weight).apply s c) := by
  have h := step_effect (get weight) s ((manager weight).event c)
  -- A row that is taken now was there before, with the same columns.
  have hrow : ∀ {i row'}, Taken ((manager weight).apply s c) i →
      ((manager weight).apply s c).rows[i]? = some row' →
      ∃ row, s.rows[i]? = some row ∧ row'.strand = row.strand ∧ row'.space = row.space := by
    intro i row' ht hrow'
    rcases hs.taken_cases ht with hold | hnew
    · obtain ⟨row, hrow⟩ := hs.row_of_taken hold
      exact ⟨row, hrow, hs.columns hrow hrow'⟩
    · obtain ⟨row, hrow, -⟩ := hs.finds hc hnew
      exact ⟨row, hrow, hs.columns hrow hrow'⟩
  constructor
  case knows =>
    refine hs.knows.effect ?_ h (admits_of_forall (fun _ _ => trivial) s _)
    intro a now rows locked i hi
    obtain ⟨-, row, hrow, -⟩ := select_wanted hi
    exact ⟨row, hrow, trivial⟩
  case slashed =>
    intro i row' ht hrow' hstrand
    obtain ⟨row, hrow, hcols⟩ := hrow ht hrow'
    rw [hcols.1] at hstrand
    rw [hcols.2]
    rcases hs.taken_cases ht with hold | hnew
    · exact hs.slashed hold hrow hstrand
    · obtain ⟨row₀, hrow₀, hslash, -⟩ := hs.finds hc hnew
      cases hrow.symm.trans hrow₀
      exact hslash hstrand
  case apart =>
    intro i j row₁' row₂' hne hti htj hrow₁' hrow₂' hsame
    obtain ⟨row₁, hrow₁, hcols₁⟩ := hrow hti hrow₁'
    obtain ⟨row₂, hrow₂, hcols₂⟩ := hrow htj hrow₂'
    have hold : SameStrand weight row₁ row₂ := by
      rw [SameStrand, ← strandKey_congr hcols₁, ← strandKey_congr hcols₂]
      exact hsame
    rcases hs.taken_cases hti with hi | hi
    · rcases hs.taken_cases htj with hj | hj
      · exact hs.apart hne hi hj hrow₁ hrow₂ hold
      · obtain ⟨row, hrow, -, hnot⟩ := hs.finds hc hj
        cases hrow₂.symm.trans hrow
        exact hnot hi hrow₁ hold
    · rcases hs.taken_cases htj with hj | hj
      · obtain ⟨row, hrow, -, hnot⟩ := hs.finds hc hi
        cases hrow₁.symm.trans hrow
        exact hnot hj hrow₂ hold.symm
      · obtain ⟨k, a, rfl, hk, hfound⟩ := hi
        obtain ⟨k', a', heq, hk', hfound'⟩ := hj
        cases heq
        cases hk.symm.trans hk'
        exact hne (Option.some.inj (hfound.symm.trans hfound'))

/-- Every run in which each `SELECT` reads the strands of the space of its row, and finds
no other transaction at work on the strand. -/
theorem strands_exclusive (weight : UInt8 → UInt8) (rows : List Row) (now : ℕ)
    (cs : List (Call Args Row))
    (h : Meets (manager weight).apply (Alone weight) { rows := rows, now := now } cs) :
    Exclusive weight (run (manager weight).apply { rows := rows, now := now } cs) := by
  have hinit : Inv weight { rows := rows, now := now } := by
    have hnot : ∀ i, ¬ Taken ({ rows := rows, now := now } : Flows) i := by
      simp [Taken, Table.locked]
    exact ⟨.init, fun ht => absurd ht (hnot _), fun _ ht => absurd ht (hnot _)⟩
  have hinv := run_invariant (fun s c hs hc => Inv.step hs hc) hinit h
  intro g hg g' hg' hne row hrow row' hrow' hstarted hstarted'
  exact hinv.apart hne (.inl ⟨g, hg, rfl, row, hrow, hstarted⟩)
    (.inl ⟨g', hg', rfl, row', hrow', hstarted'⟩) hrow hrow'

/-- Two tasks of the strand `s` in the space `b/a`: `f/2`, and `f/4` which goes first. -/
def twoFlows : List Row :=
  [{ task := [0x66, 0x2f, 0x32], updated := 0, space := [0x62, 0x2f, 0x61], strand := some [0x73],
     priority := 2 },
   { task := [0x66, 0x2f, 0x34], updated := 0, space := [0x62, 0x2f, 0x61], strand := some [0x73],
     priority := 4 }]

/-- `get("b/a", "f", "w")` -/
def flowArgs : Args := { aSpace := [0x62, 0x2f, 0x61], aTaskPrefix := [0x66], aWorker := [0x77] }

/-- One call after another: the second finds nothing, the third one is after `done`. -/
theorem strands_exclusive_twoFlows :
    let cs := wholeGet 0 flowArgs ++ wholeGet 1 flowArgs ++ .done 1 true :: wholeGet 2 flowArgs
    Meets (manager id).apply (Alone id) { rows := twoFlows } cs ∧
    Exclusive id (run (manager id).apply { rows := twoFlows } cs) ∧
    (run (manager id).apply { rows := twoFlows } cs).grants.map (·.row) = [1, 0] :=
  ⟨by decide, strands_exclusive _ _ _ _ (by decide), by decide⟩

/-- Two calls read the strands before either has committed: both tasks are handed out. -/
theorem strands_exclusive_race :
    let cs : List (Call Args Row) := [.begin flowArgs, .begin flowArgs, .select 0, .select 1,
      .change 0, .change 1, .commit 0 true, .commit 1 true]
    let s := run (manager id).apply { rows := twoFlows } cs
    s.grants.map (·.row) = [1, 0] ∧ s.rows.map (·.status) = [.started, .started] ∧
      ¬ Exclusive id s := by
  decide

end Run

end Stuff.MysqlWorkflow
