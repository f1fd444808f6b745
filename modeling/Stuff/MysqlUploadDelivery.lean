import Stuff.MysqlUpload

/-!
# What is uploaded

A file that has been removed was uploaded by a call of `Once` that returned. Each call
begins on a connection of its own, so what is committed is whole; if two files never
share a row of the log, the row that a call has found is the one of its own file.
-/
namespace Stuff.MysqlUpload

open EventRuns File MachineWords MysqlOnce
open DiskQueue (Ino Push Sound)

variable {q : DiskQueue.Config} {collate : Bytes → Bytes}

/-! ## What the queue does while a file is handled -/

section Queue
variable {s s' : DiskQueue.State} {a : DiskQueue.Action}

/-- The name and the writer of a push, which stay. -/
def origin (x : Push) : Bytes × Callback := (x.aName, x.aWriter)

theorem map_set_origin {l : List Push} {i : ℕ} {x y : Push} (hx : l[i]? = some x)
    (hy : origin y = origin x) : (l.set i y).map origin = l.map origin := by
  rw [List.map_set, hy]
  apply List.ext_getElem?
  intro j
  rw [List.getElem?_set]
  split
  case isTrue hj =>
    subst hj
    split
    case isTrue => simp [hx]
    case isFalse hlt => simp_all
  case isFalse => rfl

/-- What an action of the queue leaves alone. -/
theorem own_frame (ha : ownAction s a = true) (hact : DiskQueue.act q s a = some s') :
    s'.returned = s.returned ∧ s'.pushes.map origin = s.pushes.map origin ∧
      ∀ pass x rest, s.pc = .handling pass x rest → s'.pc = s.pc := by
  cases a with
  | push | handler => simp [ownAction] at ha
  | call i r =>
      obtain ⟨x, c, k, d', hx, -, -, rfl⟩ := DiskQueue.act_call hact
      exact ⟨rfl, map_set_origin hx rfl, fun _ _ _ _ => rfl⟩
  | stop =>
      cases hact
      exact ⟨rfl, rfl, fun _ _ _ _ => rfl⟩
  | remove r =>
      cases r with
      | none =>
          obtain ⟨_, _, _, hpc, rfl⟩ := DiskQueue.act_remove_none hact
          exact ⟨rfl, rfl, fun _ _ _ h => by rw [hpc] at h; cases h⟩
      | some n =>
          obtain ⟨_, _, _, hpc, rfl⟩ := DiskQueue.act_remove_some hact
          exact ⟨rfl, rfl, fun _ _ _ h => by rw [hpc] at h; cases h⟩
  | openDir | readDir | listFails | listed | next =>
      -- the worker is not in the handler
      simp only [DiskQueue.act] at hact
      have hpc : ∀ pass x rest, s.pc ≠ .handling pass x rest := by
        intro pass x rest h
        simp [h] at hact
      repeat' split at hact
      all_goals first
        | cases hact
          exact ⟨rfl, rfl, fun pass x rest h => absurd h (hpc pass x rest)⟩
        | cases hact

theorem moved_old {sName sTmpName : Path} {aWriter : Callback} {i : ℕ} {d d' : DiskQueue.Disk}
    {phase phase' : DiskQueue.Phase}
    (hm : DiskQueue.Moved sName sTmpName aWriter i d d' phase phase')
    (htmp : phase = .writing → d.find sTmpName = some (.made i)) {path : Path} {regular : Bool}
    (h : d'.find path = some (.old regular)) : d.find path = some (.old regular) := by
  cases hm with
  | stays _ hfind _ => exact hfind ▸ h
  | checks hfind _ => exact hfind ▸ h
  | opens _ hfind =>
      rw [hfind] at h
      split at h
      case isTrue => cases h
      case isFalse => exact h
  | renames _ ino hino hfind =>
      rw [htmp rfl] at hino
      cases hino
      rw [hfind] at h
      split at h
      case isTrue => cases h
      case isFalse =>
        split at h
        case isTrue => cases h
        case isFalse => exact h
  | removes _ _ hfind =>
      rw [hfind] at h
      split at h
      case isTrue => cases h
      case isFalse => exact h

/-- No action makes a file that nobody has pushed. -/
theorem own_old (hs : Sound q s) (ha : ownAction s a = true)
    (hact : DiskQueue.act q s a = some s') {path : Path} {regular : Bool}
    (h : s'.disk.find path = some (.old regular)) : s.disk.find path = some (.old regular) := by
  cases a with
  | push | handler => simp [ownAction] at ha
  | call i r =>
      obtain ⟨x, c, k, d', hx, hcode, hans, rfl⟩ := DiskQueue.act_call hact
      obtain ⟨phase, hpush⟩ := hs.pushes i x hx
      have hwp := hpush.code
      rw [hcode] at hwp
      exact moved_old (DiskQueue.answer_spec hwp.1 hans).2.2 hpush.placed.tmp h
  | remove r =>
      cases r with
      | none =>
          obtain ⟨_, _, _, _, rfl⟩ := DiskQueue.act_remove_none hact
          exact h
      | some n =>
          obtain ⟨_, _, _, _, rfl⟩ := DiskQueue.act_remove_some hact
          rw [DiskQueue.Disk.find_unlink] at h
          split at h
          case isTrue => cases h
          case isFalse => exact h
  | stop =>
      cases hact
      exact h
  | openDir | readDir | listFails | listed | next =>
      simp only [DiskQueue.act] at hact
      repeat' split at hact
      all_goals first
        | cases hact
          exact h
        | cases hact

end Queue

/-! ## What has been applied -/

/-- The statements of one push that were committed, transaction by transaction. -/
def applied (db : Db (ℕ × Bytes)) (i : ℕ) : List (List Bytes) :=
  (db.work.map fun w => (w.2.filter (·.1 = i)).map (·.2)).filter (· ≠ [])

/-- A file that is removed had been handed to a call that returned, and then all its
statements were committed once, in their order and in one transaction. -/
structure ExactlyOnce (q : DiskQueue.Config) (collate : Bytes → Bytes) (s : State) : Prop where
  removed : ∀ e path i, s.queue.disk.find path = some (.made i) →
    q.consumer.takes path (.made i) = true →
    (step q collate s e).queue.disk.find path = some (.made i) ∨
      (path, .made i) ∈ s.queue.returned
  applied : ∀ path i aName aData, (path, .made i) ∈ s.queue.returned →
    s.pushed[i]? = some (aName, aData) →
    applied s.once.db i = [aData.map (·.text)].filter (· ≠ [])

/-- The row of the log for a push. -/
def fileKey (q : DiskQueue.Config) (aName : Bytes) : Option Key := key (q.producer.name aName)

/-- A call for the file of a push. -/
def CallOf (q : DiskQueue.Config) (pushed : List (Bytes × List Statement)) (i : ℕ)
    (c : Call (ℕ × Bytes)) : Prop :=
  ∃ aName aData, pushed[i]? = some (aName, aData) ∧ fileKey q aName = some c.key ∧
    c.stmts = aData.map fun x => (i, x.text)

/-- No two files share a row. -/
def Apart (q : DiskQueue.Config) (collate : Bytes → Bytes)
    (pushed : List (Bytes × List Statement)) : Prop :=
  ∀ (i j : ℕ) (p p' : Bytes × List Statement) (k k' : Key), pushed[i]? = some p →
    pushed[j]? = some p' → fileKey q p.1 = some k → fileKey q p'.1 = some k' →
    k.same collate k' = true → i = j

section Work
variable {calls : List (Call (ℕ × Bytes))} {db : Db (ℕ × Bytes)}
  {pushed : List (Bytes × List Statement)}

theorem work_of_atomic (h : Atomic calls db) {w : Key × List (ℕ × Bytes)} (hw : w ∈ db.work) :
    ∃ c ∈ calls, c.key = w.1 ∧ w.2 = c.stmts := by
  have hdone : w.2 ∈ db.done w.1 :=
    List.mem_map.mpr ⟨w, List.mem_filter.mpr ⟨hw, by simp⟩, rfl⟩
  by_cases hlog : w.1 ∈ db.log
  · obtain ⟨c, hc, hkey, heq⟩ := h.logged w.1 hlog
    rw [heq] at hdone
    exact ⟨c, hc, hkey, List.mem_singleton.mp hdone⟩
  · rw [h.unlogged w.1 hlog] at hdone
    cases hdone

/-- Only the transactions of the key count, if all others are of other pushes. -/
theorem applied_eq {i : ℕ} {k : Key}
    (h : ∀ w ∈ db.work, w.1 ≠ k → w.2.filter (·.1 = i) = []) :
    applied db i = ((db.done k).map fun b => (b.filter (·.1 = i)).map (·.2)).filter (· ≠ []) := by
  simp only [applied, Db.done]
  generalize db.work = work at h
  induction work with
  | nil => rfl
  | cons w work ih =>
      have hrest := ih fun w' hw' => h w' (List.mem_cons_of_mem w hw')
      by_cases hk : w.1 = k
      · simp only [List.map_cons, List.filter_cons, hk, decide_true, if_true, hrest]
      · have hnil := h w List.mem_cons_self hk
        simp only [List.map_cons, List.filter_cons, hk, hnil, decide_false, List.map_nil, hrest]
        simp

theorem filter_tagged (aData : List Statement) (i j : ℕ) :
    (aData.map fun x => (j, x.text)).filter (·.1 = i) =
      if j = i then aData.map fun x => (j, x.text) else [] := by
  by_cases hij : j = i
  · simp [hij]
  · simp [hij]

/-- What is committed for a file whose row is in the log. -/
theorem applied_of_logged (h : Atomic calls db) (hcalls : ∀ c ∈ calls, ∃ i, CallOf q pushed i c)
    (hapart : Apart q collate pushed) {i : ℕ} {aName : Bytes} {aData : List Statement} {k : Key}
    (hi : pushed[i]? = some (aName, aData)) (hk : fileKey q aName = some k) (hlog : k ∈ db.log) :
    applied db i = [aData.map (·.text)].filter (· ≠ []) := by
  have hsame : ∀ {j c}, CallOf q pushed j c → c.key = k → j = i := by
    rintro j c ⟨aName', aData', hj, hkey, -⟩ rfl
    exact hapart j i _ _ _ _ hj hi hkey hk (Key.same_self collate _)
  rw [applied_eq (k := k)]
  · obtain ⟨c, hc, hkey, hdone⟩ := h.logged k hlog
    obtain ⟨j, hcall⟩ := hcalls c hc
    obtain rfl := hsame hcall hkey
    obtain ⟨aName', aData', hj, -, hstmts⟩ := hcall
    cases hi.symm.trans hj
    rw [hdone, hstmts, List.map_singleton, filter_tagged, if_pos rfl, List.map_map]
    rfl
  · intro w hw hne
    obtain ⟨c, hc, hkey, hstmts⟩ := work_of_atomic h hw
    obtain ⟨j, aName', aData', hj, hkey', hstmts'⟩ := hcalls c hc
    have hij : j ≠ i := by
      rintro rfl
      cases hi.symm.trans hj
      exact hne (hkey.symm.trans (Option.some.inj (hkey'.symm.trans hk)))
    rw [hstmts, hstmts', filter_tagged, if_neg hij]

end Work

/-! ## The invariant -/

/-- A push whose file can be told apart: its name does not end the literal, it has a row
of its own, and no statement has a zero. -/
def Told (q : DiskQueue.Config) (collate : Bytes → Bytes) (s : State) : Event → Prop
  | .push aName _ aData => quote ∉ getFilename (q.producer.name aName) ∧
      (∀ x ∈ aData, 0 ∉ x.text) ∧
      ∀ p ∈ s.pushed, ∀ k ∈ fileKey q aName, ∀ k' ∈ fileKey q p.1, k.same collate k' = false
  | _ => True

instance decidableTold (q : DiskQueue.Config) (collate : Bytes → Bytes) (s : State) :
    (e : Event) → Decidable (Told q collate s e)
  | .push aName _ aData => inferInstanceAs (Decidable (
      quote ∉ getFilename (q.producer.name aName) ∧ (∀ x ∈ aData, 0 ∉ x.text) ∧
      ∀ p ∈ s.pushed, ∀ k ∈ fileKey q aName, ∀ k' ∈ fileKey q p.1, k.same collate k' = false))
  | .queue _ | .connect _ | .begin _ _ | .query _ | .raise | .finish | .crash =>
      inferInstanceAs (Decidable True)

structure Inv (q : DiskQueue.Config) (collate : Bytes → Bytes) (s : State) : Prop where
  queue : Sound q s.queue
  once : MysqlOnce.Inv collate s.once
  pushes : s.queue.pushes.map origin = s.pushed.map fun p => (p.1, writer p.2)
  plain : ∀ p ∈ s.pushed, ∀ x ∈ p.2, 0 ∉ x.text
  made : ∀ {path : Path} {regular : Bool}, s.queue.disk.find path = some (.old regular) →
    q.consumer.takes path (.old regular) = false
  apart : Apart q collate s.pushed
  calls : ∀ c ∈ s.once.calls, ∃ i, CallOf q s.pushed i c
  fresh : s.once.pc.call = none → s.once.tx = none
  active : ∀ c ∈ s.once.pc.call, ∃ pass x rest, s.queue.pc = .handling pass x rest ∧
    key x = some c.key
  returned : ∀ {path : Path} {i : ℕ}, (path, .made i) ∈ s.queue.returned →
    ∃ p k, s.pushed[i]? = some p ∧ fileKey q p.1 = some k ∧ k ∈ s.once.db.log

section Steps
variable {s : State}

theorem Inv.start {entries : List (Path × Bool)}
    (h : ∀ e ∈ entries, ¬ q.consumer.ext <:+ e.1) :
    Inv q collate { queue := DiskQueue.State.start entries } where
  queue := Sound.start q entries
  once := ⟨⟨⟨List.nodup_nil, by simp, fun _ _ => rfl⟩, by simp⟩, trivial⟩
  pushes := rfl
  plain := by simp
  made := by
    intro path regular hfind
    simp only [DiskQueue.Disk.find, Option.map_eq_some_iff] at hfind
    obtain ⟨e, he, -⟩ := hfind
    have hmem := List.mem_of_find?_eq_some he
    have hpath : e.1 = path := by simpa using List.find?_some he
    simp only [DiskQueue.State.start, List.mem_map] at hmem
    obtain ⟨e', he', rfl⟩ := hmem
    have hnot : q.consumer.ext.isSuffixOf e'.1 = false :=
      Bool.eq_false_iff.mpr (mt List.isSuffixOf_iff_suffix.mp (h e' he'))
    simp [DiskQueue.Params.takes, ← hpath, hnot]
  apart := by
    intro i j p p' k k' hp
    cases hp
  calls := by simp
  fresh := fun _ => rfl
  active := by simp [Pc.call]
  returned := by simp [DiskQueue.State.start]

/-- The file that is handled is one that was pushed, and it is whole. -/
theorem Inv.file (hconsumer : DiskQueue.NotTmp q.consumer.ext) (hs : Inv q collate s)
    {pass : DiskQueue.Pass} {x : Path} {rest : List Path}
    (hpc : s.queue.pc = .handling pass x rest) :
    ∃ i aName aData, s.queue.disk.find x = some (.made i) ∧ x = q.producer.name aName ∧
      s.pushed[i]? = some (aName, aData) ∧
      (s.queue.disk.files i).data = (writer aData).bytes := by
  have hsound := hs.queue.pc
  rw [hpc] at hsound
  obtain ⟨ino, hfind, htakes⟩ := hsound.1.visible x List.mem_cons_self
  cases ino with
  | old regular =>
      rw [hs.made hfind] at htakes
      cases htakes
  | made i =>
      have hi := hs.queue.made x i hfind
      obtain ⟨phase, hpush⟩ := hs.queue.pushes i _ (List.getElem?_eq_getElem hi)
      rcases hpush.placed.here x hfind with ⟨-, hx⟩ | ⟨hqueued, hx⟩
      · exact absurd hx (DiskQueue.ne_sTmpName_of_takes hconsumer htakes _)
      · have hwhole := hpush.placed.whole hqueued
        have horigin : (s.pushed.map fun p => (p.1, writer p.2))[i]? =
            some (origin s.queue.pushes[i]) := by
          rw [← hs.pushes, List.getElem?_map, List.getElem?_eq_getElem hi]
          rfl
        rw [List.getElem?_map, Option.map_eq_some_iff] at horigin
        obtain ⟨⟨aName, aData⟩, hp, heq⟩ := horigin
        obtain ⟨hname, hwriter⟩ := Prod.mk.inj heq
        refine ⟨i, aName, aData, hfind, hx.trans (congrArg q.producer.name hname.symm), hp, ?_⟩
        rw [hwhole.data (hwriter ▸ writer_propagates aData), ← hwriter]

/-- The connection is closed, and the worker is elsewhere. -/
theorem Inv.closes (hs : Inv q collate s) {queue : DiskQueue.State} (hqueue : Sound q queue)
    (hpushes : queue.pushes = s.queue.pushes) (hdisk : queue.disk = s.queue.disk)
    (hreturned : ∀ {path : Path} {i : ℕ}, (path, .made i) ∈ queue.returned →
      ∃ p k, s.pushed[i]? = some p ∧ fileKey q p.1 = some k ∧ k ∈ s.once.db.log) :
    Inv q collate { s with queue := queue, once := closed s.once } where
  queue := hqueue
  once := ⟨hs.once.session.drop false, trivial⟩
  pushes := hpushes ▸ hs.pushes
  plain := hs.plain
  made := hdisk ▸ hs.made
  apart := hs.apart
  calls := hs.calls
  fresh := fun _ => rfl
  active := fun c hc => by cases hc
  returned := hreturned

variable (hproducer : DiskQueue.NotTmp q.producer.ext)
  (hconsumer : DiskQueue.NotTmp q.consumer.ext)

include hproducer hconsumer in
theorem Inv.leave_false (hs : Inv q collate s) : Inv q collate (s.leave q false) := by
  simp only [State.leave, DiskQueue.step]
  cases hact : DiskQueue.act q s.queue (.handler false) with
  | none => exact hs.closes hs.queue rfl rfl hs.returned
  | some queue =>
      have hqueue := hs.queue.of_act hproducer hconsumer rfl hact
      simp only [DiskQueue.act] at hact
      split at hact
      next =>
        cases hact
        exact hs.closes hqueue rfl rfl hs.returned
      next => cases hact

/-- The call has returned, so it has found a row, and that is the one of its own file. -/
theorem Inv.logged (hconsumer : DiskQueue.NotTmp q.consumer.ext) (hs : Inv q collate s)
    {c : Call (ℕ × Bytes)} (hret : s.once.pc = .returned c) :
    ∃ pass x rest i p, s.queue.pc = .handling pass x rest ∧
      s.queue.disk.find x = some (.made i) ∧ s.pushed[i]? = some p ∧
      fileKey q p.1 = some c.key ∧ c.key ∈ s.once.db.log := by
  obtain ⟨pass, x, rest, hpc, hkey⟩ := hs.active c (by rw [hret]; rfl)
  obtain ⟨i, aName, aData, hfind, rfl, hp, -⟩ := hs.file hconsumer hpc
  have halready := hs.once.knows
  rw [hret] at halready
  obtain ⟨k, hk, hsame⟩ := List.any_eq_true.mp halready
  obtain ⟨c', hc', rfl, -⟩ := hs.once.session.atomic.logged k hk
  obtain ⟨j, aName', aData', hp', hkey', -⟩ := hs.calls c' hc'
  obtain rfl := hs.apart i j _ _ _ _ hp hp' hkey hkey' hsame
  cases hp.symm.trans hp'
  refine ⟨pass, _, rest, i, _, hpc, hfind, hp, hkey, ?_⟩
  have hsameKey : c'.key = c.key := Option.some.inj (hkey'.symm.trans hkey)
  exact hsameKey ▸ hk

include hproducer hconsumer in
theorem Inv.leave_true (hs : Inv q collate s) {c : Call (ℕ × Bytes)}
    (hret : s.once.pc = .returned c) : Inv q collate (s.leave q true) := by
  obtain ⟨pass, x, rest, i, p, hpc, hfind, hp, hkey, hlog⟩ := hs.logged hconsumer hret
  simp only [State.leave, DiskQueue.step]
  have hact : DiskQueue.act q s.queue (.handler true) = some { s.queue with
      pc := .removing pass x rest
      m_Size := s.queue.m_Size - 1
      returned := s.queue.returned ++ [(x, .made i)] } := by
    simp [DiskQueue.act, hpc, hfind]
  rw [hact]
  have hqueue := hs.queue.of_act hproducer hconsumer rfl hact
  refine hs.closes hqueue rfl rfl ?_
  intro path j hmem
  rcases List.mem_append.mp hmem with hold | hnew
  · exact hs.returned hold
  · cases List.mem_singleton.mp hnew
    exact ⟨p, c.key, hp, hkey, hlog⟩

theorem CallOf.append {pushed : List (Bytes × List Statement)} {i : ℕ} {c : Call (ℕ × Bytes)}
    (h : CallOf q pushed i c) (p : Bytes × List Statement) : CallOf q (pushed ++ [p]) i c := by
  obtain ⟨aName, aData, hi, hrest⟩ := h
  have hlt := (List.getElem?_eq_some_iff.mp hi).1
  exact ⟨aName, aData, (List.getElem?_append_left hlt).trans hi, hrest⟩

theorem Apart.append {pushed : List (Bytes × List Statement)} (h : Apart q collate pushed)
    {p : Bytes × List Statement} (hp : ∀ p' ∈ pushed, ∀ k ∈ fileKey q p.1, ∀ k' ∈ fileKey q p'.1,
      k.same collate k' = false) : Apart q collate (pushed ++ [p]) := by
  have hget : ∀ {i : ℕ} {p' : Bytes × List Statement}, (pushed ++ [p])[i]? = some p' →
      pushed[i]? = some p' ∨ i = pushed.length ∧ p' = p := by
    intro i p' hi
    by_cases hlt : i < pushed.length
    · exact .inl ((List.getElem?_append_left hlt).symm.trans hi)
    · rw [List.getElem?_append_right (Nat.le_of_not_lt hlt)] at hi
      have hlen := (List.getElem?_eq_some_iff.mp hi).1
      rw [List.length_singleton] at hlen
      exact .inr ⟨by omega, List.mem_singleton.mp (List.mem_of_getElem? hi)⟩
  intro i j p₁ p₂ k k' hi hj hk hk' hsame
  rcases hget hi with hold | ⟨rfl, rfl⟩
  · rcases hget hj with hold' | ⟨rfl, rfl⟩
    · exact h i j p₁ p₂ k k' hold hold' hk hk' hsame
    · have hne := hp p₁ (List.mem_of_getElem? hold) k' hk' k hk
      rw [Key.same_symm hsame] at hne
      cases hne
  · rcases hget hj with hold' | ⟨rfl, -⟩
    · have hne := hp p₂ (List.mem_of_getElem? hold') k hk k' hk'
      rw [hsame] at hne
      cases hne
    · rfl

include hproducer hconsumer in
theorem Inv.push (hs : Inv q collate s) {aName : Bytes} {draws : Fin 8 → Fin 62}
    {aData : List Statement} (he : Told q collate s (.push aName draws aData)) :
    Inv q collate (step q collate s (.push aName draws aData)) := by
  obtain ⟨-, hplain, hrows⟩ := he
  simp only [step]
  split
  case h_1 queue hact =>
    have hqueue := hs.queue.of_act hproducer hconsumer rfl hact
    simp only [DiskQueue.act, Option.ite_none_right_eq_some] at hact
    cases hact.2
    constructor
    case queue => exact hqueue
    case once => exact hs.once
    case pushes =>
      rw [List.map_append, List.map_append, hs.pushes]
      rfl
    case plain =>
      intro p hp
      rcases List.mem_append.mp hp with hold | hnew
      · exact hs.plain p hold
      · cases List.mem_singleton.mp hnew
        exact hplain
    case made => exact hs.made
    case apart => exact hs.apart.append hrows
    case calls =>
      intro c hc
      obtain ⟨i, hcall⟩ := hs.calls c hc
      exact ⟨i, hcall.append _⟩
    case fresh => exact hs.fresh
    case active => exact hs.active
    case returned =>
      intro path i hmem
      obtain ⟨p, k, hp, hrest⟩ := hs.returned hmem
      have hlt := (List.getElem?_eq_some_iff.mp hp).1
      exact ⟨p, k, (List.getElem?_append_left hlt).trans hp, hrest⟩
  case h_2 => exact hs

include hproducer hconsumer in
theorem Inv.own (hs : Inv q collate s) (a : DiskQueue.Action) :
    Inv q collate (step q collate s (.queue a)) := by
  simp only [step]
  split
  case isTrue ha =>
    simp only [DiskQueue.step]
    cases hact : DiskQueue.act q s.queue a with
    | none => exact hs
    | some queue =>
        have hspared : DiskQueue.spared s.queue a = true := by
          cases a with
          | push | handler => rfl
          | _ => exact ha
        obtain ⟨hreturned, hpushes, hpc⟩ := own_frame ha hact
        constructor
        case queue => exact hs.queue.of_act hproducer hconsumer hspared hact
        case once => exact hs.once
        case pushes => exact hpushes.trans hs.pushes
        case plain => exact hs.plain
        case made =>
          intro path regular hfind
          exact hs.made (own_old hs.queue ha hact hfind)
        case apart => exact hs.apart
        case calls => exact hs.calls
        case fresh => exact hs.fresh
        case active =>
          intro c hc
          obtain ⟨pass, x, rest, hold, hkey⟩ := hs.active c hc
          exact ⟨pass, x, rest, (hpc pass x rest hold).trans hold, hkey⟩
        case returned =>
          intro path i hmem
          exact hs.returned (hreturned ▸ hmem)
  case isFalse => exact hs

/-- A step of `Once` in the call that is under way. -/
theorem Inv.call (hs : Inv q collate s) {e : MysqlOnce.Event (ℕ × Bytes)}
    (he : Whole s.once e) (hcall : (MysqlOnce.step collate s.once e).pc.call = s.once.pc.call ∧
      (MysqlOnce.step collate s.once e).calls = s.once.calls)
    (htx : s.once.pc.call = none → MysqlOnce.step collate s.once e = s.once) :
    Inv q collate { s with once := MysqlOnce.step collate s.once e } where
  queue := hs.queue
  once := hs.once.step e he
  pushes := hs.pushes
  plain := hs.plain
  made := hs.made
  apart := hs.apart
  calls := hcall.2 ▸ hs.calls
  fresh := by
    intro hnone
    rw [hcall.1] at hnone
    rw [htx hnone]
    exact hs.fresh hnone
  active := hcall.1 ▸ hs.active
  returned := by
    intro path i hmem
    obtain ⟨p, k, hp, hkey, hlog⟩ := hs.returned hmem
    exact ⟨p, k, hp, hkey, step_log hlog e⟩

theorem query_ready {s : MysqlOnce.State (ℕ × Bytes)} (h : s.pc.call = none) (o : Outcome) :
    MysqlOnce.step collate s (.query o) = s := by
  cases hpc : s.pc with
  | ready => simp [MysqlOnce.step, hpc]
  | _ => simp [hpc, Pc.call] at h

theorem raise_ready {s : MysqlOnce.State (ℕ × Bytes)} (h : s.pc.call = none) :
    MysqlOnce.step collate s .raise = s := by
  cases hpc : s.pc with
  | ready => simp [MysqlOnce.step, hpc]
  | _ => simp [hpc, Pc.call] at h

theorem current_eq {x : Path} {ino : Ino} (h : s.current = some (x, ino)) :
    ∃ pass rest, s.queue.pc = .handling pass x rest ∧ s.queue.disk.find x = some ino := by
  unfold State.current at h
  split at h
  case h_1 pass y rest hpc =>
    obtain ⟨ino', hfind, heq⟩ := Option.map_eq_some_iff.mp h
    cases heq
    exact ⟨pass, rest, hpc, hfind⟩
  case h_2 => cases h

theorem cString_eq {text : Bytes} (h : 0 ∉ text) : cString text = text := by
  induction text with
  | nil => rfl
  | cons c text ih =>
      simp only [List.mem_cons, not_or] at h
      rw [cString, List.takeWhile_cons_of_pos (by simpa using Ne.symm h.1)]
      exact congrArg (c :: ·) (ih h.2)

/-- `BEGIN`, on a connection that has just been made. -/
theorem Inv.begins (hconsumer : DiskQueue.NotTmp q.consumer.ext) (hs : Inv q collate s)
    {chunks : List Bytes} {i : ℕ} {x : Path} {k : Key} (hready : s.once.pc = .ready)
    (hcurrent : s.current = some (x, .made i))
    (hchunks : chunks.flatten = (s.queue.disk.files i).data) (hkey : key x = some k)
    (o : Outcome) :
    let c : Call (ℕ × Bytes) := ⟨k, (byString chunks).map fun l => (i, cString l)⟩
    Inv q collate { s with once := MysqlOnce.step collate s.once (.call c o) } := by
  obtain ⟨pass, rest, hpc, hfind⟩ := current_eq hcurrent
  obtain ⟨j, aName, aData, hfind', rfl, hp, hdata⟩ := hs.file hconsumer hpc
  cases hfind.symm.trans hfind'
  have hstmts : (byString chunks).map (fun l => (i, cString l)) =
      aData.map fun y => (i, y.text) := by
    rw [byString_writer (hchunks.trans hdata), List.map_map]
    apply List.map_congr_left
    intro y hy
    simp only [Function.comp, cString_eq (hs.plain _ (List.mem_of_getElem? hp) y hy)]
  simp only [hstmts]
  have htx : s.once.tx = none := hs.fresh (by rw [hready]; rfl)
  have hidle : s.once.pc.idle = true := by rw [hready]; rfl
  have hwhole : ∀ c, Whole s.once (.call c o) := by
    intro c t ht
    rw [htx] at ht
    cases ht
  constructor
  case queue => exact hs.queue
  case once => exact hs.once.step _ (hwhole _)
  case pushes => exact hs.pushes
  case plain => exact hs.plain
  case made => exact hs.made
  case apart => exact hs.apart
  case calls =>
    intro c hc
    simp only [MysqlOnce.step, hidle, if_true] at hc
    rcases List.mem_append.mp hc with hold | hnew
    · exact hs.calls c hold
    · cases List.mem_singleton.mp hnew
      exact ⟨i, aName, aData, hp, hkey, rfl⟩
  case fresh =>
    intro hnone
    simp only [MysqlOnce.step, hidle, if_true] at hnone
    rw [next_call rfl] at hnone
    cases hnone
  case active =>
    intro c hc
    simp only [MysqlOnce.step, hidle, if_true] at hc
    rw [next_call rfl] at hc
    cases hc
    exact ⟨pass, _, rest, hpc, hkey⟩
  case returned =>
    intro path i' hmem
    obtain ⟨p, k', hp', hkey', hlog⟩ := hs.returned hmem
    exact ⟨p, k', hp', hkey', step_log hlog _⟩

include hproducer hconsumer in
theorem Inv.step (hs : Inv q collate s) (e : Event) (he : Told q collate s e) :
    Inv q collate (step q collate s e) := by
  cases e with
  | push aName draws aData => exact hs.push hproducer hconsumer he
  | queue a => exact hs.own hproducer hconsumer a
  | connect ok =>
      simp only [MysqlUpload.step]
      split
      case h_1 hready =>
        cases ok with
        | true =>
            simp only [if_true]
            constructor
            case queue => exact hs.queue
            case once => exact ⟨hs.once.session.drop true, by rw [hready]; exact trivial⟩
            case pushes => exact hs.pushes
            case plain => exact hs.plain
            case made => exact hs.made
            case apart => exact hs.apart
            case calls => exact hs.calls
            case fresh => exact fun _ => rfl
            case active => exact hs.active
            case returned => exact hs.returned
        | false => exact hs.leave_false hproducer hconsumer
      case h_2 => exact hs
  | begin chunks o =>
      simp only [MysqlUpload.step]
      split
      case h_1 x i hcurrent hready =>
        split
        case isTrue hconn =>
          split
          case h_1 k hkey => exact hs.begins hconsumer hready hcurrent hconn.2 hkey o
          case h_2 => exact hs.leave_false hproducer hconsumer
        case isFalse => exact hs
      case h_2 => exact hs
  | query o => exact hs.call trivial (query_call s.once o) fun h => query_ready h o
  | raise => exact hs.call trivial (raise_call s.once) fun h => raise_ready h
  | finish =>
      simp only [MysqlUpload.step]
      split
      case h_1 c hret => exact hs.leave_true hproducer hconsumer hret
      case h_2 => exact hs.leave_false hproducer hconsumer
      case h_3 => exact hs
  | crash =>
      have hidle : DiskQueue.PcSound q s.queue.disk s.queue.returned .idle := trivial
      exact hs.closes (hs.queue.worker hidle hs.queue.ordered hs.queue.allDone) rfl rfl hs.returned

theorem disk_leave (s : State) (returns : Bool) :
    (s.leave q returns).queue.disk = s.queue.disk := by
  simp only [State.leave, DiskQueue.step]
  cases returns <;>
  · simp only [DiskQueue.act]
    split
    next => rfl
    next => rfl

include hconsumer in
/-- Only the consumer removes a file of the queue, after the handler has returned. -/
theorem Inv.removed (hs : Inv q collate s) (e : Event) {path : Path} {i : ℕ}
    (hfind : s.queue.disk.find path = some (.made i))
    (htakes : q.consumer.takes path (.made i) = true) :
    (MysqlUpload.step q collate s e).queue.disk.find path = some (.made i) ∨
      (path, .made i) ∈ s.queue.returned := by
  have hleave : ∀ returns, (s.leave q returns).queue.disk.find path = some (.made i) := by
    intro returns
    rw [disk_leave]
    exact hfind
  cases e with
  | push aName draws aData =>
      simp only [MysqlUpload.step]
      split
      case h_1 queue hact =>
        simp only [DiskQueue.act, Option.ite_none_right_eq_some] at hact
        cases hact.2
        exact .inl hfind
      case h_2 => exact .inl hfind
  | queue a =>
      simp only [MysqlUpload.step]
      split
      case isTrue => exact hs.queue.removed hconsumer a hfind htakes
      case isFalse => exact .inl hfind
  | connect ok =>
      simp only [MysqlUpload.step]
      split
      case h_1 =>
        cases ok with
        | true => exact .inl hfind
        | false => exact .inl (hleave false)
      case h_2 => exact .inl hfind
  | begin chunks o =>
      simp only [MysqlUpload.step]
      split
      case h_1 =>
        split
        case isTrue =>
          split
          case h_1 => exact .inl hfind
          case h_2 => exact .inl (hleave false)
        case isFalse => exact .inl hfind
      case h_2 => exact .inl hfind
  | query o => exact .inl hfind
  | raise => exact .inl hfind
  | finish =>
      simp only [MysqlUpload.step]
      split
      case h_1 => exact .inl (hleave true)
      case h_2 => exact .inl (hleave false)
      case h_3 => exact .inl hfind
  | crash => exact .inl hfind

include hconsumer in
theorem Inv.exactlyOnce (hs : Inv q collate s) : ExactlyOnce q collate s where
  removed e _ _ hfind htakes := hs.removed hconsumer e hfind htakes
  applied path i aName aData hmem hp := by
    obtain ⟨p, k, hp', hkey, hlog⟩ := hs.returned hmem
    cases hp.symm.trans hp'
    exact applied_of_logged hs.once.session.atomic hs.calls hs.apart hp hkey hlog

end Steps

theorem notTmp_ext : DiskQueue.NotTmp ext := by
  rintro path ⟨front, h⟩
  have hlast := congrArg List.getLast? h
  simp [DiskQueue.dotTmp, ext] at hlast

theorem notTmp_dotExt : DiskQueue.NotTmp (dot :: ext) := fun path h =>
  notTmp_ext path ((List.suffix_cons dot ext).trans h)

/-- Every run from a directory without files of the queue, whose pushes can all be told
apart. -/
theorem upload_exactlyOnce (aBase : Bytes) (collate : Bytes → Bytes)
    (entries : List (Path × Bool)) (hentries : ∀ e ∈ entries, ¬ dot :: ext <:+ e.1)
    (es : List Event)
    (h : Meets (step (queueConfig aBase) collate) (Told (queueConfig aBase) collate)
      { queue := DiskQueue.State.start entries } es) :
    ExactlyOnce (queueConfig aBase) collate
      (run (step (queueConfig aBase) collate) { queue := DiskQueue.State.start entries } es) := by
  have hstep : ∀ s e, Inv (queueConfig aBase) collate s → Told (queueConfig aBase) collate s e →
      Inv (queueConfig aBase) collate (step (queueConfig aBase) collate s e) :=
    fun s e hs he => hs.step notTmp_ext notTmp_dotExt e he
  exact (run_invariant hstep (Inv.start hentries) h).exactlyOnce notTmp_dotExt

/-- The statement `s` or another one of one letter. -/
def letter (c : UInt8) (h : c ≠ newline) : Statement := ⟨[c], by simp, by simpa using Ne.symm h⟩

/-- The queue `/q`. -/
def uploadQueue : DiskQueue.Config := queueConfig [0x2f, 0x71]

/-- The `i`-th push, of one statement, is not disturbed. -/
def wholePush (i : ℕ) (aName : Bytes) (x : Statement) : List Event :=
  .push aName (fun _ => ⟨0, Nat.succ_pos 61⟩) [x] ::
    [some 0, some i, some 2, some 0, some 0, some 0].map fun r => .queue (.call i r)

/-- The consumer lists the files and begins with the first one. -/
def beginPass (aNames : List Bytes) : List Event :=
  .queue .openDir ::
    (aNames.map fun aName => .queue (.readDir (uploadQueue.producer.name aName))) ++
    [.queue .listed, .queue .next]

/-- The commit is done but its reply is lost, and the next pass finds the row. -/
def retriedUpload : List Event :=
  wholePush 0 [0x61] (letter 0x73 (by decide)) ++ beginPass [[0x61]] ++
    [.connect true, .begin [[0x73], [0x0a]] .ok, .query .ok, .query .ok, .query .ok,
      .query (.lost true), .finish] ++ beginPass [[0x61]] ++
    [.connect true, .begin [[0x73, 0x0a]] .ok, .query .ok, .query .ok, .finish,
      .queue (.remove (some 1))]

theorem upload_exactlyOnce_retried :
    Meets (step uploadQueue id) (Told uploadQueue id) { queue := DiskQueue.State.start [] }
      retriedUpload ∧
    ExactlyOnce uploadQueue id
      (run (step uploadQueue id) { queue := DiskQueue.State.start [] } retriedUpload) ∧
    applied (run (step uploadQueue id) { queue := DiskQueue.State.start [] }
      retriedUpload).once.db 0 = [[[0x73]]] ∧
    (run (step uploadQueue id) { queue := DiskQueue.State.start [] }
      retriedUpload).queue.disk.dir = [] := by
  have h : Meets (step uploadQueue id) (Told uploadQueue id)
      { queue := DiskQueue.State.start [] } retriedUpload := by
    decide
  exact ⟨h, upload_exactlyOnce [0x2f, 0x71] id [] (by simp) retriedUpload h, by decide, by decide⟩

/-- Two files, whose names differ by a backslash. -/
def twoNames : List Event :=
  wholePush 0 [0x61, 0x5c, 0x63] (letter 0x73 (by decide)) ++
    wholePush 1 [0x61, 0x63] (letter 0x74 (by decide)) ++
    beginPass [[0x61, 0x5c, 0x63], [0x61, 0x63]] ++
    [.connect true, .begin [[0x73, 0x0a]] .ok, .query .ok, .query .ok, .query .ok, .query .ok,
      .finish, .queue (.remove (some 1)), .queue .next,
      .connect true, .begin [[0x74, 0x0a]] .ok, .query .ok, .query .ok, .finish,
      .queue (.remove (some 1))]

/-- The second file is removed, and nothing of it has been committed. -/
theorem upload_loses_file :
    let s := run (step uploadQueue id) { queue := DiskQueue.State.start [] } twoNames
    s.pushed.map (·.1) = [[0x61, 0x5c, 0x63], [0x61, 0x63]] ∧ s.queue.disk.dir = [] ∧
      applied s.once.db 0 = [[[0x73]]] ∧ applied s.once.db 1 = [] ∧
      ¬ ExactlyOnce uploadQueue id s := by
  refine ⟨by decide, by decide, by decide, by decide, ?_⟩
  intro h
  have hlost := h.applied (uploadQueue.producer.name [0x61, 0x63]) 1 [0x61, 0x63]
    [letter 0x74 (by decide)] (by decide) (by decide)
  exact absurd hlost (by decide)

end Stuff.MysqlUpload
