import Stuff.MysqlWorkflow

/-!
# What `Workflow::get` finds

Nobody else is at work on the table. A row is to be had if it is ready, and no other row of its
strand is started. The query asks for more: a row without a strand is not found while any strand is
busy, a row that is started makes its own strand busy, and the update of a row that is resumed by
its own worker changes nothing.
-/
namespace Stuff.MysqlWorkflow
open EventRuns MachineWords RowLocks SqlText

/-- A call of `get` whose statements come `d₁`, `d₂` and `d₃` seconds after one another. -/
def getCalls (s : Flows) (a : Args) (d₁ d₂ d₃ : ℕ) : List (MysqlTaskQueue.Call Args Row) :=
  [.begin a, .tick d₁, .select s.txs.length, .tick d₂, .change s.txs.length, .tick d₃,
    .commit s.txs.length true]

/-- The row that it returns. -/
def returned (weight : UInt8 → UInt8) (s : Flows) (a : Args) (d₁ d₂ d₃ : ℕ) : Option ℕ :=
  ((run (manager weight).apply s (getCalls s a d₁ d₂ d₃)).grants.drop s.grants.length).head?.map
    Grant.row

/-- No other transaction is active. -/
def Idle (s : Flows) : Prop := ∀ t ∈ s.txs, t.pc = .ended

def InSpacePrefix (weight : UInt8 → UInt8) (aSpace : Bytes) (row : Row) : Prop :=
  like weight row.space (sSpacePrefix aSpace ++ [slash, percent]) = true

/-- Row `j` of the strand is started in the space prefix. -/
def Busy (weight : UInt8 → UInt8) (aSpace : Bytes) (rows : List Row) (strand : Bytes)
    (j : ℕ) : Prop :=
  ∃ row, rows[j]? = some row ∧ row.status = .started ∧ InSpacePrefix weight aSpace row ∧
    ∃ x, row.strand = some x ∧ sortKey weight x = sortKey weight strand

/-- Row `i` is ready, its space and its task match the prefixes, and it has no strand or one of
which no other row is started in the space prefix. -/
structure Eligible (weight : UInt8 → UInt8) (a : Args) (now : ℕ) (rows : List Row) (i : ℕ)
    (row : Row) : Prop where
  get : rows[i]? = some row
  ready : sWhere now row = true
  space : like weight row.space (a.aSpace ++ [percent]) = true
  task : like weight row.task (a.aTaskPrefix ++ [slash, percent]) = true
  free : ∀ strand, row.strand = some strand → ∀ j, j ≠ i → ¬ Busy weight a.aSpace rows strand j

theorem inSpacePrefix_iff {weight : UInt8 → UInt8} {aSpace : Bytes} (h : Plain aSpace)
    (row : Row) : InSpacePrefix weight aSpace row ↔
      (sSpacePrefix aSpace ++ [slash]).map weight <+: row.space.map weight := by
  have hplain : Plain (sSpacePrefix aSpace ++ [slash]) := by
    intro c hc
    rcases List.mem_append.mp hc with hc | hc
    · exact h c ((List.takeWhile_prefix _).subset hc)
    · rw [List.mem_singleton.mp hc]
      decide
  have hlike := @like_percent_iff weight _ hplain row.space
  rwa [List.append_assoc] at hlike

/-- With plain names, the space begins with the one, and the task with the other and a slash. -/
theorem matches_iff {weight : UInt8 → UInt8} {a : Args} (hspace : Plain a.aSpace)
    (htask : Plain a.aTaskPrefix) (row : Row) :
    (like weight row.space (a.aSpace ++ [percent]) = true ∧
        like weight row.task (a.aTaskPrefix ++ [slash, percent]) = true) ↔
      a.aSpace.map weight <+: row.space.map weight ∧
        (a.aTaskPrefix ++ [slash]).map weight <+: row.task.map weight := by
  have hplain : Plain (a.aTaskPrefix ++ [slash]) := by
    intro c hc
    rcases List.mem_append.mp hc with hc | hc
    · exact htask c hc
    · rw [List.mem_singleton.mp hc]
      decide
  have hlike := @like_percent_iff weight _ hplain row.task
  rw [List.append_assoc] at hlike
  exact and_congr (like_percent_iff hspace row.space) hlike

/-- A higher priority, or the same and a lower id. -/
def Ahead (i : ℕ) (row : Row) (j : ℕ) (row' : Row) : Prop :=
  row'.priority < row.priority ∨ row'.priority = row.priority ∧ i < j

structure Best (weight : UInt8 → UInt8) (a : Args) (now : ℕ) (rows : List Row) (i : ℕ)
    (row : Row) : Prop where
  eligible : Eligible weight a now rows i row
  ahead : ∀ {j row'}, Eligible weight a now rows j row' → j ≠ i → Ahead i row j row'

structure FindsWork (weight : UInt8 → UInt8) (a : Args) (now : ℕ) (rows : List Row)
    (sTask : Option ℕ) : Prop where
  found : (∃ i, sTask = some i) ↔ ∃ i row, Eligible weight a now rows i row
  best : ∀ i, sTask = some i → ∃ row, Best weight a now rows i row

/-- The best row, if there is one: without a strand, no row with a strand is started in the space
prefix; with a strand, it is not started there itself; and it was not started by this worker. -/
structure Startable (weight : UInt8 → UInt8) (a : Args) (rows : List Row) (row : Row) :
    Prop where
  loose : row.strand = none → ∀ row' ∈ rows, row'.status = .started →
    InSpacePrefix weight a.aSpace row' → row'.strand = none
  strand : row.strand ≠ none → row.status = .started → ¬ InSpacePrefix weight a.aSpace row
  worker : row.status = .started → row.worker ≠ a.aWorker

/-! ## One row -/

section Row
variable {weight : UInt8 → UInt8} {a : Args} {now : ℕ} {rows : List Row}

theorem mem_started_iff {aSpace x : Bytes} : x ∈ started weight aSpace rows ↔
    ∃ row ∈ rows,
      row.status = .started ∧ InSpacePrefix weight aSpace row ∧ row.strand = some x := by
  rw [started, List.mem_filterMap]
  refine exists_congr fun row => and_congr_right fun _ => ?_
  rw [Option.ite_none_right_eq_some, Bool.and_eq_true, decide_eq_true_eq, and_assoc]
  rfl

theorem notIn_none_iff {aSpace : Bytes} : notIn weight (started weight aSpace rows) none = true ↔
    ∀ row ∈ rows, row.status = .started → InSpacePrefix weight aSpace row → row.strand = none := by
  rw [notIn, List.isEmpty_iff, List.eq_nil_iff_forall_not_mem]
  constructor
  · intro h row hrow hstarted hin
    cases hstrand : row.strand with
    | none => rfl
    | some x => exact absurd (mem_started_iff.mpr ⟨row, hrow, hstarted, hin, hstrand⟩) (h x)
  · intro h x hx
    obtain ⟨row, hrow, hstarted, hin, hstrand⟩ := mem_started_iff.mp hx
    rw [h row hrow hstarted hin] at hstrand
    cases hstrand

theorem notIn_some_iff {aSpace strand : Bytes} :
    notIn weight (started weight aSpace rows) (some strand) = true ↔
      ∀ j, ¬ Busy weight aSpace rows strand j := by
  simp only [notIn, List.all_eq_true, decide_eq_true_eq]
  constructor
  · rintro h j ⟨row, hrow, hstarted, hin, x, hx, hkey⟩
    exact h x (mem_started_iff.mpr ⟨row, List.mem_of_getElem? hrow, hstarted, hin, hx⟩) hkey
  · intro h x hx hkey
    obtain ⟨row, hrow, hstarted, hin, hstrand⟩ := mem_started_iff.mp hx
    obtain ⟨j, hj⟩ := List.mem_iff_getElem?.mp hrow
    exact h j ⟨row, hj, hstarted, hin, x, hstrand, hkey⟩

/-- A row that is started makes its own strand busy. -/
theorem busy_self_iff {aSpace strand : Bytes} {i : ℕ} {row : Row} (hi : rows[i]? = some row)
    (hstrand : row.strand = some strand) :
    Busy weight aSpace rows strand i ↔ row.status = .started ∧ InSpacePrefix weight aSpace row := by
  constructor
  · rintro ⟨row', hi', hstarted, hin, -⟩
    cases hi.symm.trans hi'
    exact ⟨hstarted, hin⟩
  · rintro ⟨hstarted, hin⟩
    exact ⟨row, hi, hstarted, hin, strand, hstrand, rfl⟩

/-- What the query asks of a row beyond what it has to. -/
theorem wanted_iff {i : ℕ} {row : Row} (hi : rows[i]? = some row) :
    wanted weight a now rows row = true ↔ Eligible weight a now rows i row ∧
      (row.strand = none → ∀ row' ∈ rows, row'.status = .started →
        InSpacePrefix weight a.aSpace row' → row'.strand = none) ∧
      (row.strand ≠ none → row.status = .started → ¬ InSpacePrefix weight a.aSpace row) := by
  simp only [wanted, Bool.and_eq_true]
  cases hstrand : row.strand with
  | none =>
      rw [notIn_none_iff]
      constructor
      · rintro ⟨⟨⟨hready, hnone⟩, hspace⟩, htask⟩
        refine ⟨⟨hi, hready, hspace, htask, ?_⟩, fun _ => hnone, fun h => absurd rfl h⟩
        intro strand hsome
        rw [hstrand] at hsome
        cases hsome
      · rintro ⟨h, hnone, -⟩
        exact ⟨⟨⟨h.ready, hnone rfl⟩, h.space⟩, h.task⟩
  | some strand =>
      rw [notIn_some_iff]
      have hself := @busy_self_iff weight rows a.aSpace strand i row hi hstrand
      constructor
      · rintro ⟨⟨⟨hready, hfree⟩, hspace⟩, htask⟩
        refine ⟨⟨hi, hready, hspace, htask, ?_⟩, fun h => absurd h (Option.some_ne_none strand), ?_⟩
        · intro strand' hsome j _
          cases hstrand.symm.trans hsome
          exact hfree j
        · intro _ hstarted hin
          exact hfree i (hself.mpr ⟨hstarted, hin⟩)
      · rintro ⟨h, -, hown⟩
        refine ⟨⟨⟨h.ready, fun j hbusy => ?_⟩, h.space⟩, h.task⟩
        by_cases hj : j = i
        · subst hj
          obtain ⟨hstarted, hin⟩ := hself.mp hbusy
          exact hown (Option.some_ne_none strand) hstarted hin
        · exact h.free strand hstrand j hj hbusy

theorem start_eq_iff (now : ℕ) {aWorker : Bytes} {row : MysqlTaskQueue.Row} :
    MysqlTaskQueue.start aWorker now row = row ↔ row.status = .started ∧ row.worker = aWorker := by
  obtain ⟨task, worker, cookie, status, updated⟩ := row
  rw [MysqlTaskQueue.start, MysqlTaskQueue.Row.store]
  split_ifs with hsame
  · simp only [MysqlTaskQueue.Row.mk.injEq, true_and, and_true] at hsame
    exact iff_of_true rfl ⟨hsame.2.symm, hsame.1.symm⟩
  · simp only [MysqlTaskQueue.Row.mk.injEq, true_and, and_true] at hsame ⊢
    refine iff_of_false (fun h => hsame ⟨h.1, h.2.1⟩) fun h => hsame ⟨h.2.symm, h.1.symm⟩

/-- `ROW_COUNT()` is one unless the row was started by this worker. -/
theorem start_isSome_iff {row : Row} (hready : sWhere now row = true) :
    (start a now row).isSome ↔ (row.status = .started → row.worker ≠ a.aWorker) := by
  have hrow : ({ row with toRow := MysqlTaskQueue.start a.aWorker now row.toRow } : Row) = row ↔
      MysqlTaskQueue.start a.aWorker now row.toRow = row.toRow := by
    constructor
    · exact congrArg Row.toRow
    · intro h
      rw [h]
  rw [← not_and, ← start_eq_iff now, ← hrow, start]
  simp only [hready, Bool.true_and, decide_not, Bool.not_eq_true', decide_eq_false_iff_not]
  split_ifs with hsame
  · exact iff_of_false (by simp) (not_not.mpr hsame)
  · exact iff_of_true rfl hsame

end Row

/-! ## The first of the rows -/

theorem first_eq_none {priority : ℕ → ℕ} {ids : List ℕ} (h : first priority ids = none) :
    ids = [] := by
  cases ids with
  | nil => rfl
  | cons i ids =>
      rw [first] at h
      split at h
      · split at h <;> cases h
      · cases h

theorem first_ahead {priority : ℕ → ℕ} {ids : List ℕ} (hids : ids.Pairwise (· < ·)) {i : ℕ}
    (h : first priority ids = some i) :
    ∀ j ∈ ids, j ≠ i → priority j < priority i ∨ priority j = priority i ∧ i < j := by
  induction ids generalizing i with
  | nil => cases h
  | cons k ids ih =>
      rw [List.pairwise_cons] at hids
      rw [first] at h
      intro j hj hne
      split at h
      · rename_i i' hi'
        have hahead := ih hids.2 hi'
        split_ifs at h with hlt
        · cases h
          rcases List.mem_cons.mp hj with rfl | hj
          · exact .inl hlt
          · exact hahead j hj hne
        · cases h
          have hj := (List.mem_cons.mp hj).resolve_left hne
          have hk := hids.1 j hj
          have hle : priority j ≤ priority i' := by
            by_cases heq : j = i'
            · rw [heq]
            · have hj' := hahead j hj heq
              omega
          omega
      · rename_i hnone
        cases h
        rw [first_eq_none hnone, List.mem_singleton] at hj
        exact absurd hj hne

section Select
variable {weight : UInt8 → UInt8} {a : Args} {now : ℕ} {rows : List Row}

/-- The rows that the query is for, when none is locked. -/
theorem mem_found {i : ℕ} : i ∈ ((List.range rows.length).filter fun i =>
      !false && rows[i]?.any (wanted weight a now rows)) ↔
    ∃ row, rows[i]? = some row ∧ wanted weight a now rows row = true := by
  rw [List.mem_filter, List.mem_range, Bool.not_false, Bool.true_and, Option.any_eq_true]
  refine and_iff_right_of_imp ?_
  rintro ⟨row, hrow, -⟩
  exact (List.getElem?_eq_some_iff.mp hrow).1

theorem select_eq_none (h : select weight a now rows (fun _ => false) = none) {i : ℕ} {row : Row}
    (hi : rows[i]? = some row) : wanted weight a now rows row = false := by
  by_contra hwanted
  have hmem := mem_found.mpr ⟨row, hi, Bool.eq_true_of_not_eq_false hwanted⟩
  rw [first_eq_none h] at hmem
  cases hmem

theorem select_ahead {i j : ℕ} {row row' : Row}
    (h : select weight a now rows (fun _ => false) = some i) (hi : rows[i]? = some row)
    (hj : rows[j]? = some row') (hwanted : wanted weight a now rows row' = true) (hne : j ≠ i) :
    Ahead i row j row' := by
  have hids : ((List.range rows.length).filter fun i =>
      !false && rows[i]?.any (wanted weight a now rows)).Pairwise (· < ·) :=
    List.pairwise_lt_range.filter _
  have hahead := first_ahead hids h j (mem_found.mpr ⟨row', hj, hwanted⟩) hne
  simp only [hi, hj, Option.map_some, Option.getD_some] at hahead
  exact hahead

theorem Ahead.asymm {i j : ℕ} {row row' : Row} (h : Ahead i row j row') :
    ¬ Ahead j row' i row := by
  rintro (hlt | ⟨heq, hlt⟩)
  · rcases h with h | h <;> omega
  · rcases h with h | h <;> omega

theorem Best.unique {i j : ℕ} {row row' : Row} (h : Best weight a now rows i row)
    (h' : Best weight a now rows j row') : i = j := by
  by_contra hne
  exact (h.ahead h'.eligible (Ne.symm hne)).asymm (h'.ahead h.eligible hne)

/-- One of the rows that are to be had is the best. -/
theorem exists_best {i : ℕ} {row : Row} (h : Eligible weight a now rows i row) :
    ∃ i row, Best weight a now rows i row := by
  classical
  let ids := (List.range rows.length).filter fun i => ∃ row, Eligible weight a now rows i row
  have hmem : ∀ {i row}, Eligible weight a now rows i row → i ∈ ids := by
    intro i row h
    refine List.mem_filter.mpr ⟨?_, decide_eq_true ⟨row, h⟩⟩
    exact List.mem_range.mpr (List.getElem?_eq_some_iff.mp h.get).1
  have hids : ids.Pairwise (· < ·) := List.pairwise_lt_range.filter _
  cases hfirst : first (fun i => (rows[i]?.map Row.priority).getD 0) ids with
  | none =>
      have hi := hmem h
      rw [first_eq_none hfirst] at hi
      cases hi
  | some i =>
      obtain ⟨row, hrow⟩ := of_decide_eq_true (List.mem_filter.mp (first_mem hfirst)).2
      refine ⟨i, row, hrow, fun {j row'} hj hne => ?_⟩
      have hahead := first_ahead hids hfirst j (hmem hj) hne
      simp only [hrow.get, hj.get, Option.map_some, Option.getD_some] at hahead
      exact hahead

/-- The query finds the best row when it is for it. -/
theorem Best.select {i : ℕ} {row : Row} (h : Best weight a now rows i row)
    (hwanted : wanted weight a now rows row = true) :
    MysqlWorkflow.select weight a now rows (fun _ => false) = some i := by
  cases hselect : MysqlWorkflow.select weight a now rows (fun _ => false) with
  | none =>
      rw [select_eq_none hselect h.eligible.get] at hwanted
      cases hwanted
  | some j =>
      obtain ⟨-, row', hj, hwanted'⟩ := select_wanted hselect
      by_contra hne
      have hne' : j ≠ i := fun heq => hne (congrArg some heq)
      have heligible := ((wanted_iff hj).mp hwanted').1
      exact (select_ahead hselect hj h.eligible.get hwanted (Ne.symm hne')).asymm
        (h.ahead heligible hne')

end Select

/-! ## One call -/

section Call
variable {weight : UInt8 → UInt8} {s : Flows} {a : Args}

theorem get_last (txs : List (Tx Args Row)) (t : Tx Args Row) :
    (txs ++ [t])[txs.length]? = some t := List.getElem?_concat_length

/-- With its own transaction begun, no row is locked. -/
theorem locked_begun (h : Idle s) (now : ℕ) : Table.locked
    ({ s with txs := s.txs ++ [{ arg := a }], now := now } : Flows) = fun _ => false := by
  funext i
  rw [Table.locked, List.any_eq_false]
  intro t ht
  rcases List.mem_append.mp ht with ht | ht
  · rw [h t ht]
    simp [Pc.lock]
  · rw [List.mem_singleton.mp ht]
    simp [Pc.lock]

/-- The call returns the row that the query finds, if the update changes it. -/
theorem returned_eq (h : Idle s) (d₁ d₂ d₃ : ℕ) :
    returned weight s a d₁ d₂ d₃ =
      (select weight a (s.now + d₁) s.rows fun _ => false).filter fun i =>
        (s.rows[i]?.bind (start a (s.now + d₁ + d₂))).isSome := by
  have hlocked := locked_begun (a := a) h (s.now + d₁)
  simp only [returned, getCalls, run_cons, run_nil, MysqlTaskQueue.Manager.apply,
    MysqlTaskQueue.Manager.event, RowLocks.step, get_last, manager, MysqlWorkflow.get, hlocked]
  cases hselect : select weight a (s.now + d₁) s.rows fun _ => false with
  | none => simp [Table.setPc, Option.filter]
  | some i =>
      cases hchange : s.rows[i]?.bind (start a (s.now + d₁ + d₂)) with
      | none => simp [Table.setPc, hchange, Option.filter]
      | some row => simp [Table.setPc, hchange, Option.filter]

theorem sWhere_later {now : ℕ} {row : Row} (h : sWhere now row = true) (d : ℕ) :
    sWhere (now + d) row = true := by
  simp only [sWhere, MysqlTaskQueue.defaultResume, Bool.or_eq_true, Bool.and_eq_true,
    decide_eq_true_eq] at h ⊢
  exact h.imp_right fun hold => ⟨hold.1, hold.2.trans_le (Nat.le_add_right now d)⟩

theorem returned_some (h : Idle s) {d₁ d₂ d₃ i : ℕ}
    (hi : returned weight s a d₁ d₂ d₃ = some i) :
    select weight a (s.now + d₁) s.rows (fun _ => false) = some i ∧
      ∃ row, s.rows[i]? = some row ∧ wanted weight a (s.now + d₁) s.rows row = true ∧
        (row.status = .started → row.worker ≠ a.aWorker) := by
  rw [returned_eq h, Option.filter_eq_some_iff] at hi
  obtain ⟨-, row, hrow, hwanted⟩ := select_wanted hi.1
  refine ⟨hi.1, row, hrow, hwanted, ?_⟩
  have hready := ((wanted_iff hrow).mp hwanted).1.ready
  rw [hrow, Option.bind_some, start_isSome_iff (sWhere_later hready d₂)] at hi
  exact hi.2

/-- The best row is returned when nothing stands in its way. -/
theorem Best.returned (h : Idle s) {d₁ i : ℕ} {row : Row}
    (hbest : Best weight a (s.now + d₁) s.rows i row) (hstart : Startable weight a s.rows row)
    (d₂ d₃ : ℕ) : returned weight s a d₁ d₂ d₃ = some i := by
  have hi := hbest.eligible.get
  have hwanted := (wanted_iff hi).mpr ⟨hbest.eligible, hstart.loose, hstart.strand⟩
  rw [returned_eq h, hbest.select hwanted, Option.filter_some, hi, Option.bind_some, if_pos]
  exact (start_isSome_iff (sWhere_later hbest.eligible.ready d₂)).mpr hstart.worker

end Call

/-- `get` finds the best row that is to be had, and nothing if there is none, if and only if the
query is for that row and the update changes it. -/
theorem get_finds_iff (weight : UInt8 → UInt8) (s : Flows) (a : Args) (d₁ d₂ d₃ : ℕ)
    (h : Idle s) :
    FindsWork weight a (s.now + d₁) s.rows (returned weight s a d₁ d₂ d₃) ↔
      ∀ i row, Best weight a (s.now + d₁) s.rows i row → Startable weight a s.rows row := by
  constructor
  · intro hfinds i row hbest
    obtain ⟨j, hj⟩ := hfinds.found.mpr ⟨i, row, hbest.eligible⟩
    obtain ⟨row', hbest'⟩ := hfinds.best j hj
    obtain ⟨-, row'', hget, hwanted, hworker⟩ := returned_some h hj
    obtain rfl := hbest.unique hbest'
    cases hbest.eligible.get.symm.trans hget
    have hextra := ((wanted_iff hget).mp hwanted).2
    exact ⟨hextra.1, hextra.2, hworker⟩
  · intro hstart
    have hbest : ∀ {i row}, Eligible weight a (s.now + d₁) s.rows i row → ∃ i row,
        Best weight a (s.now + d₁) s.rows i row ∧ returned weight s a d₁ d₂ d₃ = some i := by
      intro i row heligible
      obtain ⟨i, row, hbest⟩ := exists_best heligible
      exact ⟨i, row, hbest, hbest.returned h (hstart i row hbest) d₂ d₃⟩
    have heligible : ∀ {i}, returned weight s a d₁ d₂ d₃ = some i →
        ∃ row, Eligible weight a (s.now + d₁) s.rows i row := by
      intro i hi
      obtain ⟨-, row, hrow, hwanted, -⟩ := returned_some h hi
      exact ⟨row, ((wanted_iff hrow).mp hwanted).1⟩
    refine ⟨⟨?_, ?_⟩, ?_⟩
    · rintro ⟨i, hi⟩
      exact ⟨i, heligible hi⟩
    · rintro ⟨i, row, hrow⟩
      obtain ⟨j, -, -, hj⟩ := hbest hrow
      exact ⟨j, hj⟩
    · intro i hi
      obtain ⟨row, hrow⟩ := heligible hi
      obtain ⟨j, row', hj, hreturned⟩ := hbest hrow
      cases hi.symm.trans hreturned
      exact ⟨row', hj⟩

/-- Of the two tasks the one that goes first is returned. -/
theorem get_finds_two :
    FindsWork id flowArgs 0 twoFlows (returned id { rows := twoFlows } flowArgs 0 0 0) ∧
      returned id { rows := twoFlows } flowArgs 0 0 0 = some 1 := by
  refine ⟨(get_finds_iff id { rows := twoFlows } flowArgs 0 0 0 (List.forall_mem_nil _)).mpr ?_,
    by decide⟩
  intro i row hbest
  have hrows : ∀ row ∈ twoFlows, row.strand ≠ none ∧ row.status ≠ .started := by decide
  obtain ⟨hstrand, hstatus⟩ := hrows row (List.mem_of_getElem? hbest.eligible.get)
  exact ⟨fun hnone => absurd hnone hstrand, fun _ hstarted => absurd hstarted hstatus,
    fun hstarted => absurd hstarted hstatus⟩

/-- A task without a strand is new, and one with a strand is started. -/
def looseFlow : List Row :=
  [{ task := [0x66, 0x2f, 0x31], updated := 0, space := [0x62, 0x2f, 0x61] },
   { task := [0x66, 0x2f, 0x32], updated := 5000, space := [0x62, 0x2f, 0x61],
     strand := some [0x73], status := .started }]

/-- One with a strand was started long ago, by another worker. -/
def oldFlow : List Row :=
  [{ task := [0x66, 0x2f, 0x31], updated := 0, space := [0x62, 0x2f, 0x61],
     strand := some [0x73], status := .started, worker := [0x76] }]

/-- One without a strand was started long ago, by the same worker. -/
def ownFlow : List Row :=
  [{ task := [0x66, 0x2f, 0x31], updated := 0, space := [0x62, 0x2f, 0x61],
     status := .started, worker := [0x77] }]

/-- The first row is to be had, and `get` returns nothing. -/
def Misses (rows : List Row) : Prop :=
  (∃ row, Eligible id flowArgs 5000 rows 0 row) ∧
    returned id { rows := rows, now := 5000 } flowArgs 0 0 0 = none ∧
    ¬ FindsWork id flowArgs 5000 rows (returned id { rows := rows, now := 5000 } flowArgs 0 0 0)

theorem get_misses : Misses looseFlow ∧ Misses oldFlow ∧ Misses ownFlow := by
  have hmisses : ∀ {rows : List Row}, (∃ row, Eligible id flowArgs 5000 rows 0 row) →
      returned id { rows := rows, now := 5000 } flowArgs 0 0 0 = none → Misses rows := by
    intro rows hrow hnone
    refine ⟨hrow, hnone, fun hfinds => ?_⟩
    obtain ⟨row, hrow⟩ := hrow
    obtain ⟨i, hi⟩ := hfinds.found.mpr ⟨0, row, hrow⟩
    cases hnone.symm.trans hi
  have hloose : ∃ row, Eligible id flowArgs 5000 looseFlow 0 row :=
    ⟨_, rfl, by decide, by decide, by decide, fun strand h => by cases h⟩
  have hold : ∃ row, Eligible id flowArgs 5000 oldFlow 0 row := by
    refine ⟨_, rfl, by decide, by decide, by decide, ?_⟩
    rintro strand - j hj ⟨row, hrow, -⟩
    obtain ⟨j, rfl⟩ := Nat.exists_eq_succ_of_ne_zero hj
    cases hrow
  have hown : ∃ row, Eligible id flowArgs 5000 ownFlow 0 row :=
    ⟨_, rfl, by decide, by decide, by decide, fun strand h => by cases h⟩
  exact ⟨hmisses hloose (by decide), hmisses hold (by decide), hmisses hown (by decide)⟩

end Stuff.MysqlWorkflow
