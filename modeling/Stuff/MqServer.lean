import Mathlib.Algebra.Order.BigOperators.Group.List
import Stuff.EventRuns
import Stuff.Holders
import Stuff.MachineWords

/-!
# `MQ::Server`

A client sends a block until it is answered with 200. A server keeps the last hashes
of each client in etcd: a block whose hash is there is answered at once, any other
one is recorded by a transaction that compares the whole list, and is put into the
queue when the answer of etcd has come. Several servers run `process_i` for several
clients, and each message to and from etcd takes its time or gets lost.
-/
namespace Stuff.Mq

open EventRuns Holders MachineWords

structure Params where
  queue_limit : ℕ := 10
  etcd_limit : ℕ := 10
  max_size : ℕ := 1024 * 1024
deriving DecidableEq, Repr

/-- A client and a hash stand for one body. -/
structure Block where
  client : Bytes
  hash : Bytes
deriving DecidableEq, Repr

/-- The value of a client's key; the texts that `parseState` and `formatState` make of it
are left out. -/
abbrev Value := List Bytes

/-- `atomicPut` if there was no value, else `atomicUpdate`. -/
structure Txn where
  sOld : Option Value
  sState : Value
deriving DecidableEq, Repr

/-- Where an attempt is: before `get`, waiting for the transaction, before `insert`, or
answered with a status. -/
inductive Pc where
  | started
  | waiting
  | accepted
  | answered (status : ℕ)
deriving DecidableEq, Repr

/-- One request, with its transaction on the way to etcd or the answer on the way back.
Both may outlive the attempt. -/
structure Attempt where
  block : Block
  pc : Pc
  txn : Option Txn := none
  succeeded : Option Bool := none
deriving DecidableEq, Repr

structure State where
  etcd : Bytes → Option Value := fun _ => none
  /-- All hashes that were ever recorded for a client. -/
  recorded : Bytes → List Bytes := fun _ => []
  attempts : List Attempt := []
  m_Queue : List (Block × Bytes) := []

/-- The checks of `process` before it calls `process_i`. -/
def refuse (p : Params) (m_Active : Bool) (queueSize targetSize : ℕ) (b : Block) : Option ℕ :=
  if !m_Active then some 503
  else if queueSize > p.queue_limit then some 429
  else if targetSize > p.max_size then some 413
  else if b.client = [] ∨ b.hash = [] then some 400
  else none

/-- The loop that removes the oldest hashes. -/
def trim (limit : ℕ) : Value → Value
  | [] => []
  | x :: xs => if (x :: xs).length > limit then trim limit xs else x :: xs

/-- `process_i` up to the transaction, with what `get` has returned. -/
def Attempt.decide (p : Params) (a : Attempt) (sOld : Option Value) : Attempt :=
  let sState := sOld.getD []
  if sState.contains a.block.hash then { a with pc := .answered 200 }
  else { a with
    pc := .waiting
    txn := some ⟨sOld, trim p.etcd_limit (sState ++ [a.block.hash])⟩ }

inductive Action where
  | request (b : Block) (m_Active : Bool) (queueSize targetSize : ℕ)
  | get (i : ℕ)
  | getFails (i : ℕ)
  | apply (i : ℕ)
  | answer (i : ℕ)
  | giveUp (i : ℕ)
  | insert (i : ℕ)
deriving DecidableEq, Repr

def State.setAttempt (s : State) (i : ℕ) (a : Attempt) : State :=
  { s with attempts := s.attempts.set i a }

/-- The value and the record of one client after a transaction went through. -/
def State.record (s : State) (b : Block) (sState : Value) : State :=
  { s with
    etcd := fun c => if c = b.client then some sState else s.etcd c
    recorded := fun c => if c = b.client then s.recorded c ++ [b.hash] else s.recorded c }

/-- What an action of attempt `i` does. What cannot happen changes nothing. -/
def actOn (p : Params) (body : Block → Bytes) (s : State) (i : ℕ) (a : Attempt) :
    Action → State
  | .get _ =>
      if a.pc = .started then s.setAttempt i (a.decide p (s.etcd a.block.client)) else s
  | .getFails _ =>
      if a.pc = .started then s.setAttempt i { a with pc := .answered 502 } else s
  | .apply _ =>
      match a.txn with
      | some t =>
          if s.etcd a.block.client = t.sOld then
            (s.record a.block t.sState).setAttempt i { a with txn := none, succeeded := some true }
          else s.setAttempt i { a with txn := none, succeeded := some false }
      | none => s
  | .answer _ =>
      match a.pc, a.succeeded with
      | .waiting, some true => s.setAttempt i { a with pc := .accepted, succeeded := none }
      | .waiting, some false => s.setAttempt i { a with pc := .answered 502, succeeded := none }
      | _, _ => s
  | .giveUp _ =>
      if a.pc = .waiting then s.setAttempt i { a with pc := .answered 502 } else s
  | .insert _ =>
      if a.pc = .accepted then
        { s.setAttempt i { a with pc := .answered 200 } with
          m_Queue := s.m_Queue ++ [(a.block, body a.block)] }
      else s
  | .request _ _ _ _ => s

def Action.attempt : Action → ℕ
  | .request _ _ _ _ => 0
  | .get i => i
  | .getFails i => i
  | .apply i => i
  | .answer i => i
  | .giveUp i => i
  | .insert i => i

def step (p : Params) (body : Block → Bytes) (s : State) : Action → State
  | .request b m_Active queueSize targetSize =>
      let pc := match refuse p m_Active queueSize targetSize b with
        | some status => .answered status
        | none => .started
      { s with attempts := s.attempts ++ [{ block := b, pc := pc }] }
  | e =>
      match s.attempts[e.attempt]? with
      | some a => actOn p body s e.attempt a e
      | none => s

/-! ## What is recorded -/

/-- The last `limit` elements. -/
def lastOf (limit : ℕ) (l : Value) : Value := l.drop (l.length - limit)

theorem trim_eq_lastOf (limit : ℕ) (l : Value) : trim limit l = lastOf limit l := by
  induction l with
  | nil => simp [trim, lastOf]
  | cons x xs ih =>
      unfold trim
      split
      next hlong =>
        have hlen : (x :: xs).length - limit = (xs.length - limit) + 1 := by
          simp only [List.length_cons] at hlong ⊢
          omega
        rw [ih, lastOf, lastOf, hlen, List.drop_succ_cons]
      next hshort =>
        rw [lastOf, Nat.sub_eq_zero_of_le (by omega), List.drop_zero]

/-- Only the last hashes have to be kept to know the last ones after the next. -/
theorem lastOf_append (limit : ℕ) (l : Value) (x : Bytes) :
    lastOf limit (lastOf limit l ++ [x]) = lastOf limit (l ++ [x]) := by
  unfold lastOf
  by_cases hlong : l.length ≤ limit
  · rw [Nat.sub_eq_zero_of_le hlong, List.drop_zero]
  · have hcut : (l.drop (l.length - limit) ++ [x]).length - limit = 1 := by
      simp only [List.length_append, List.length_drop, List.length_singleton]
      omega
    have hlen : (l ++ [x]).length - limit = l.length - limit + 1 := by
      simp only [List.length_append, List.length_singleton]
      omega
    have hdrop : l.drop (l.length - limit) ++ [x] = (l ++ [x]).drop (l.length - limit) := by
      rw [List.drop_append_of_le_length (Nat.sub_le _ _)]
    rw [hcut, hlen, hdrop, List.drop_drop]

/-- An attempt that will put the block into the queue: its transaction went through, and
it has learnt of it or will. -/
def holding (b : Block) (a : Attempt) : ℕ :=
  if a.block = b ∧ (a.pc = .accepted ∨ a.pc = .waiting ∧ a.succeeded = some true) then 1 else 0

/-- What holds of an attempt on its own. -/
structure AttemptSound (p : Params) (a : Attempt) : Prop where
  txn : ∀ t, a.txn = some t → a.succeeded = none ∧ a.block.hash ∉ t.sOld.getD [] ∧
    t.sState = trim p.etcd_limit (t.sOld.getD [] ++ [a.block.hash])
  started : a.pc = .started → a.txn = none ∧ a.succeeded = none

/-- A block is recorded at most once, and each record is a place in the queue or an
attempt that will fill one. -/
structure Sound (p : Params) (body : Block → Bytes) (b : Block) (s : State) : Prop where
  value : ∀ c, s.etcd c =
    if s.recorded c = [] then none else some (lastOf p.etcd_limit (s.recorded c))
  attempts : ∀ a ∈ s.attempts, AttemptSound p a
  balance : (s.recorded b.client).count b.hash =
    (s.m_Queue.map Prod.fst).count b + (s.attempts.map (holding b)).sum
  once : (s.recorded b.client).count b.hash ≤ 1
  answered : ∀ a ∈ s.attempts, a.block = b → a.pc = .answered 200 → b.hash ∈ s.recorded b.client
  bodies : ∀ x ∈ s.m_Queue, x.2 = body x.1

/-- When etcd takes a transaction of the block, its hash has not been dropped from the
last ones. -/
def inWindow (p : Params) (b : Block) (s : State) : Action → Bool
  | .apply i => s.attempts[i]?.all fun a => a.block != b ||
      !(s.recorded b.client).contains b.hash ||
      (lastOf p.etcd_limit (s.recorded b.client)).contains b.hash
  | _ => true

/-- No transaction of the block goes through without the attempt learning of it: none
does after the attempt gave up, and no attempt gives up after its own did. -/
def replyArrives (b : Block) (s : State) : Action → Bool
  | .apply i => s.attempts[i]?.all fun a => a.block != b || a.pc == .waiting ||
      a.txn.all fun t => s.etcd a.block.client != t.sOld
  | .giveUp i => s.attempts[i]?.all fun a => a.block != b || a.succeeded != some true
  | _ => true

section
variable {p : Params} {body : Block → Bytes} {b : Block} {s : State} {i : ℕ} {a a' : Attempt}

theorem Sound.value_getD (h : Sound p body b s) (c : Bytes) :
    (s.etcd c).getD [] = lastOf p.etcd_limit (s.recorded c) := by
  rw [h.value]
  split
  next hempty => simp [hempty, lastOf]
  next => rfl

theorem Sound.mem_recorded (h : Sound p body b s) {c hash : Bytes}
    (hmem : hash ∈ (s.etcd c).getD []) : hash ∈ s.recorded c := by
  rw [h.value_getD] at hmem
  exact List.mem_of_mem_drop hmem

/-- An attempt goes on and neither takes nor loses a place in the queue. -/
theorem Sound.set (h : Sound p body b s) (ha : s.attempts[i]? = some a)
    (hblock : a'.block = a.block) (hsound : AttemptSound p a')
    (hholding : holding b a' = holding b a)
    (hanswered : a.block = b → a'.pc = .answered 200 → b.hash ∈ s.recorded b.client) :
    Sound p body b (s.setAttempt i a') := by
  have hsum := sum_map_set ha (holding b) a'
  refine ⟨h.value, fun x hx => ?_, ?_, h.once, fun x hx => ?_, h.bodies⟩
  · rcases List.mem_or_eq_of_mem_set hx with hold | rfl
    · exact h.attempts x hold
    · exact hsound
  · have hbalance := h.balance
    simp only [State.setAttempt]
    omega
  · rcases List.mem_or_eq_of_mem_set hx with hold | rfl
    · exact h.answered x hold
    · rw [hblock]
      exact hanswered

theorem holding_of_ne (h : a.block ≠ b) : holding b a = 0 := if_neg fun hb => h hb.1

theorem Sound.get (h : Sound p body b s) (ha : s.attempts[i]? = some a)
    (hstarted : a.pc = .started) :
    Sound p body b (s.setAttempt i (a.decide p (s.etcd a.block.client))) := by
  obtain ⟨htxn, hsucceeded⟩ := (h.attempts a (List.mem_of_getElem? ha)).started hstarted
  have hfree : holding b a = 0 := by simp [holding, hstarted]
  simp only [Attempt.decide]
  split
  next hmem =>
    refine h.set ha rfl ⟨fun t ht => absurd (htxn.symm.trans ht) nofun, nofun⟩ ?_ ?_
    · rw [hfree]
      simp [holding]
    · rintro rfl _
      exact h.mem_recorded (List.contains_iff_mem.mp hmem)
  next hnew =>
    refine h.set ha rfl ⟨fun t ht => ?_, nofun⟩ ?_ nofun
    · cases ht
      exact ⟨hsucceeded, fun hmem => hnew (List.contains_iff_mem.mpr hmem), rfl⟩
    · rw [hfree]
      simp [holding, hsucceeded]

/-- The compared value had no such hash, so the block was not recorded before. -/
theorem Sound.count_eq_zero (h : Sound p body b s) {t : Txn}
    (hnew : b.hash ∉ t.sOld.getD []) (hvalue : s.etcd b.client = t.sOld)
    (hwindow : b.hash ∈ s.recorded b.client →
      b.hash ∈ lastOf p.etcd_limit (s.recorded b.client)) :
    (s.recorded b.client).count b.hash = 0 := by
  rw [List.count_eq_zero]
  intro hmem
  rw [← hvalue, h.value_getD] at hnew
  exact hnew (hwindow hmem)

theorem count_record (s : State) (b c : Block) (sState : Value) :
    ((s.record c sState).recorded b.client).count b.hash =
      (s.recorded b.client).count b.hash + if c = b then 1 else 0 := by
  simp only [State.record]
  by_cases hclient : b.client = c.client
  · have hiff : c.hash = b.hash ↔ c = b := by
      constructor
      · intro hhash
        cases b
        cases c
        simp_all
      · exact fun hcb => congrArg Block.hash hcb
    rw [if_pos hclient, List.count_append, List.count_singleton]
    by_cases hcb : c = b
    · simp [hcb]
    · have hne : ¬c.hash = b.hash := fun hhash => hcb (hiff.mp hhash)
      simp [hcb, hne]
  · have hcb : c ≠ b := fun hcb => hclient (congrArg Block.client hcb.symm)
    rw [if_neg hclient, if_neg hcb, Nat.add_zero]

theorem Sound.record (h : Sound p body b s) (ha : s.attempts[i]? = some a) {t : Txn}
    (ht : a.txn = some t) (hvalue : s.etcd a.block.client = t.sOld)
    (hwindow : a.block = b → b.hash ∈ s.recorded b.client →
      b.hash ∈ lastOf p.etcd_limit (s.recorded b.client))
    (hwaiting : a.block = b → a.pc = .waiting) :
    Sound p body b ((s.record a.block t.sState).setAttempt i
      { a with txn := none, succeeded := some true }) := by
  have hattempt := h.attempts a (List.mem_of_getElem? ha)
  obtain ⟨hsucceeded, hnew, hstate⟩ := hattempt.txn t ht
  have hsum := sum_map_set ha (holding b) { a with txn := none, succeeded := some true }
  have hcount := count_record s b a.block t.sState
  refine ⟨fun c => ?_, fun x hx => ?_, ?_, ?_, fun x hx hblock hpc => ?_, h.bodies⟩
  · simp only [State.setAttempt, State.record]
    by_cases hc : c = a.block.client
    · subst hc
      simp only [if_true, List.append_eq_nil_iff, List.cons_ne_self, and_false, if_false,
        Option.some.injEq]
      rw [hstate, ← hvalue, h.value_getD, trim_eq_lastOf, lastOf_append]
    · simp only [if_neg hc]
      exact h.value c
  · rcases List.mem_or_eq_of_mem_set hx with hold | rfl
    · exact h.attempts x hold
    · exact ⟨nofun, fun hpc => absurd (ht.symm.trans (hattempt.started hpc).1) nofun⟩
  · have hbalance := h.balance
    have hplace : holding b { a with txn := none, succeeded := some true } =
        holding b a + if a.block = b then 1 else 0 := by
      by_cases hb : a.block = b
      · simp [holding, hb, hwaiting hb, hsucceeded]
      · rw [holding_of_ne (a := { a with txn := none, succeeded := some true }) hb,
          holding_of_ne hb, if_neg hb]
    simp only [State.setAttempt]
    rw [hcount]
    have hqueue : (s.record a.block t.sState).m_Queue = s.m_Queue := rfl
    have hattempts : (s.record a.block t.sState).attempts = s.attempts := rfl
    rw [hqueue, hattempts]
    omega
  · simp only [State.setAttempt]
    rw [hcount]
    have honce := h.once
    by_cases hb : a.block = b
    · have hzero := h.count_eq_zero (hb ▸ hnew) (hb ▸ hvalue) (hwindow hb)
      rw [hzero, if_pos hb]
    · rwa [if_neg hb]
  · -- the record only grows
    have hmem : b.hash ∈ s.recorded b.client := by
      rcases List.mem_or_eq_of_mem_set hx with hold | rfl
      · exact h.answered x hold hblock hpc
      · exact h.answered a (List.mem_of_getElem? ha) hblock hpc
    have hpos := List.count_pos_iff.mpr hmem
    simp only [State.setAttempt]
    rw [← List.count_pos_iff, hcount]
    omega

theorem Sound.apply (h : Sound p body b s) (ha : s.attempts[i]? = some a)
    (hwindow : inWindow p b s (.apply i) = true) (harrives : replyArrives b s (.apply i) = true) :
    Sound p body b (actOn p body s i a (.apply i)) := by
  have hattempt := h.attempts a (List.mem_of_getElem? ha)
  simp only [actOn]
  split
  next t ht =>
    simp only [inWindow, ha, Option.all_some, Bool.or_eq_true, bne_iff_ne, Bool.not_eq_true',
      List.contains_eq_mem, decide_eq_true_eq, decide_eq_false_iff_not] at hwindow
    simp only [replyArrives, ha, ht, Option.all_some, Bool.or_eq_true, bne_iff_ne,
      beq_iff_eq] at harrives
    split
    next hvalue =>
      apply h.record ha ht hvalue
      · intro hb hmem
        rcases hwindow with (hne | hnot) | hlast
        · exact absurd hb hne
        · exact absurd hmem hnot
        · exact hlast
      · intro hb
        rcases harrives with (hne | hpc) | hfails
        · exact absurd hb hne
        · exact hpc
        · exact absurd hvalue hfails
    next =>
      obtain ⟨hsucceeded, -⟩ := hattempt.txn t ht
      refine h.set ha rfl ⟨nofun, fun hpc => ?_⟩ ?_ fun hb hpc =>
        h.answered a (List.mem_of_getElem? ha) hb hpc
      · exact absurd (ht.symm.trans (hattempt.started hpc).1) nofun
      · simp [holding, hsucceeded]
  next => exact h

theorem Sound.answer (h : Sound p body b s) (ha : s.attempts[i]? = some a) :
    Sound p body b (actOn p body s i a (.answer i)) := by
  have hattempt := h.attempts a (List.mem_of_getElem? ha)
  have htxn : ∀ r, a.succeeded = some r → ∀ t, a.txn = some t → False := by
    intro r hr t ht
    rw [(hattempt.txn t ht).1] at hr
    cases hr
  simp only [actOn]
  split
  next hpc hsucceeded =>
    refine h.set ha rfl ⟨fun t ht => (htxn _ hsucceeded t ht).elim, nofun⟩ ?_ nofun
    simp [holding, hpc, hsucceeded]
  next hpc hsucceeded =>
    refine h.set ha rfl ⟨fun t ht => (htxn _ hsucceeded t ht).elim, nofun⟩ ?_ ?_
    · simp [holding, hpc, hsucceeded]
    · exact fun _ hanswered => by simp at hanswered
  next => exact h

theorem Sound.giveUp (h : Sound p body b s) (ha : s.attempts[i]? = some a)
    (harrives : replyArrives b s (.giveUp i) = true) :
    Sound p body b (actOn p body s i a (.giveUp i)) := by
  have hattempt := h.attempts a (List.mem_of_getElem? ha)
  simp only [replyArrives, ha, Option.all_some, Bool.or_eq_true, bne_iff_ne] at harrives
  simp only [actOn]
  split
  next hpc =>
    refine h.set ha rfl ⟨hattempt.txn, nofun⟩ ?_ fun _ hanswered => by simp at hanswered
    rcases harrives with hne | hlost
    · rw [holding_of_ne hne, holding_of_ne (a := { a with pc := .answered 502 }) hne]
    · simp [holding, hpc, hlost]
  next => exact h

theorem Sound.insert (h : Sound p body b s) (ha : s.attempts[i]? = some a) :
    Sound p body b (actOn p body s i a (.insert i)) := by
  have hattempt := h.attempts a (List.mem_of_getElem? ha)
  simp only [actOn]
  split
  next hpc =>
    have hsum := sum_map_set ha (holding b) { a with pc := .answered 200 }
    have hbalance := h.balance
    have hplace : holding b a = if a.block = b then 1 else 0 := by simp [holding, hpc]
    have hdone : holding b { a with pc := .answered 200 } = 0 := by simp [holding]
    refine ⟨h.value, fun x hx => ?_, ?_, h.once, fun x hx hblock hanswered => ?_, fun x hx => ?_⟩
    · rcases List.mem_or_eq_of_mem_set hx with hold | rfl
      · exact h.attempts x hold
      · exact ⟨hattempt.txn, nofun⟩
    · simp only [State.setAttempt, List.map_append, List.map_cons, List.map_nil,
        List.count_append, List.count_singleton, beq_iff_eq]
      omega
    · rcases List.mem_or_eq_of_mem_set hx with hold | rfl
      · exact h.answered x hold hblock hanswered
      · -- the place it has in the queue goes with a record
        have hpos : 0 < (s.recorded b.client).count b.hash := by
          have hle := List.le_sum_of_mem
            (List.mem_map_of_mem (f := holding b) (List.mem_of_getElem? ha))
          rw [hplace, if_pos hblock] at hle
          omega
        exact List.count_pos_iff.mp hpos
    · rcases List.mem_append.mp hx with hold | hlast
      · exact h.bodies x hold
      · cases List.mem_singleton.mp hlast
        rfl
  next => exact h

theorem Sound.request (h : Sound p body b s) (c : Block) {pc : Pc} (hpc : pc ≠ .answered 200)
    (hopen : pc = .started ∨ ∃ status, pc = .answered status) :
    Sound p body b { s with attempts := s.attempts ++ [{ block := c, pc := pc }] } := by
  refine ⟨h.value, fun x hx => ?_, ?_, h.once, fun x hx hblock hanswered => ?_, h.bodies⟩
  · rcases List.mem_append.mp hx with hold | hlast
    · exact h.attempts x hold
    · cases List.mem_singleton.mp hlast
      exact ⟨nofun, fun _ => ⟨rfl, rfl⟩⟩
  · have hfree : holding b { block := c, pc := pc } = 0 := by
      rcases hopen with rfl | ⟨status, rfl⟩ <;> simp [holding]
    rw [List.map_append, List.sum_append, List.map_singleton, List.sum_singleton, hfree,
      Nat.add_zero]
    exact h.balance
  · rcases List.mem_append.mp hx with hold | hlast
    · exact h.answered x hold hblock hanswered
    · cases List.mem_singleton.mp hlast
      exact absurd hanswered hpc

theorem Sound.step (h : Sound p body b s) (e : Action) (hwindow : inWindow p b s e = true)
    (harrives : replyArrives b s e = true) : Sound p body b (Mq.step p body s e) := by
  cases e with
  | request c m_Active queueSize targetSize =>
      simp only [Mq.step, refuse]
      split_ifs <;> exact h.request c (by simp) (by simp)
  | get i =>
      simp only [Mq.step, Action.attempt]
      split
      next a ha =>
        simp only [actOn]
        split
        next hpc => exact h.get ha hpc
        next => exact h
      next => exact h
  | getFails i =>
      simp only [Mq.step, Action.attempt]
      split
      next a ha =>
        simp only [actOn]
        split
        next hpc =>
          have hattempt := h.attempts a (List.mem_of_getElem? ha)
          refine h.set ha rfl ⟨hattempt.txn, nofun⟩ ?_ fun _ hanswered => by simp at hanswered
          simp [holding, hpc]
        next => exact h
      next => exact h
  | apply i =>
      simp only [Mq.step, Action.attempt]
      split
      next a ha => exact h.apply ha hwindow harrives
      next => exact h
  | answer i =>
      simp only [Mq.step, Action.attempt]
      split
      next a ha => exact h.answer ha
      next => exact h
  | giveUp i =>
      simp only [Mq.step, Action.attempt]
      split
      next a ha => exact h.giveUp ha harrives
      next => exact h
  | insert i =>
      simp only [Mq.step, Action.attempt]
      split
      next a ha => exact h.insert ha
      next => exact h

theorem Sound.start (p : Params) (body : Block → Bytes) (b : Block) : Sound p body b {} :=
  ⟨fun _ => rfl, nofun, rfl, Nat.zero_le _, nofun, nofun⟩

end

/-! ## Acceptance -/

def Attempt.isOver (a : Attempt) : Bool :=
  match a.pc with
  | .answered _ => true
  | _ => false

/-- The block is in the queue at most once. If an attempt was answered with 200, it is
there with its body, or another attempt is about to insert it. -/
structure AcceptedOnce (body : Block → Bytes) (b : Block) (s : State) : Prop where
  atMostOnce : (s.m_Queue.filter fun x => x.1 = b).length ≤ 1
  exactlyOnce : (∃ a ∈ s.attempts, a.block = b ∧ a.pc = .answered 200) →
    (s.m_Queue.filter fun x => x.1 = b) = [(b, body b)] ∨
      (s.m_Queue.filter fun x => x.1 = b) = [] ∧
        ∃ a ∈ s.attempts, a.block = b ∧ a.isOver = false

theorem Sound.acceptedOnce {p : Params} {body : Block → Bytes} {b : Block} {s : State}
    (h : Sound p body b s) : AcceptedOnce body b s := by
  have hlength : (s.m_Queue.filter fun x => x.1 = b).length =
      (s.m_Queue.map Prod.fst).count b := by
    rw [← List.countP_eq_length_filter, List.count, List.countP_map]
    congr
  have hbalance := h.balance
  have honce := h.once
  refine ⟨by omega, fun hanswered => ?_⟩
  obtain ⟨a, ha, hblock, hpc⟩ := hanswered
  have hpos := List.count_pos_iff.mpr (h.answered a ha hblock hpc)
  by_cases hqueue : (s.m_Queue.map Prod.fst).count b = 0
  · right
    refine ⟨List.length_eq_zero_iff.mp (hlength.trans hqueue), ?_⟩
    -- the record belongs to an attempt that has not inserted yet
    by_contra hnone
    have hzero : (s.attempts.map (holding b)).sum = 0 := by
      refine List.sum_eq_zero fun n hn => ?_
      obtain ⟨a', ha', rfl⟩ := List.mem_map.mp hn
      refine if_neg fun hplace => hnone ⟨a', ha', hplace.1, ?_⟩
      rcases hplace.2 with hpc' | ⟨hpc', -⟩ <;> rw [Attempt.isOver, hpc']
    omega
  · left
    obtain ⟨x, hx⟩ := List.length_eq_one_iff.mp (hlength.trans (by omega : _ = 1))
    have hmem : x ∈ s.m_Queue.filter fun x => x.1 = b := by rw [hx]; exact List.mem_singleton_self x
    obtain ⟨hqueued, hkey⟩ := List.mem_filter.mp hmem
    have hbody := h.bodies x hqueued
    rw [hx]
    obtain ⟨key, data⟩ := x
    simp only [decide_eq_true_eq] at hkey hbody
    rw [hbody, hkey]

/-- A block is accepted exactly once while its hash is among the last ones, if no
transaction of it goes through whose answer the server does not get. -/
theorem mq_accepts_once (p : Params) (body : Block → Bytes) (b : Block) (es : List Action)
    (hes : Meets (step p body)
      (fun s e => inWindow p b s e = true ∧ replyArrives b s e = true) {} es) :
    AcceptedOnce body b (run (step p body) {} es) :=
  (run_invariant (fun _ e hs hok => hs.step e hok.1 hok.2) (Sound.start p body b) hes).acceptedOnce

/-- Block `h` of client `c`. -/
def sample : Block := ⟨[0x63], [0x68]⟩

/-- Two attempts at a time: the transaction of the second one fails, and it is sent again. -/
def racingRun : List Action :=
  [.request sample true 0 20, .request sample true 0 20, .get 0, .get 1, .apply 0, .apply 1,
    .answer 1, .request sample true 0 20, .get 2, .answer 0, .insert 0]

theorem mq_accepts_once_racing :
    Meets (step {} Block.hash)
        (fun s e => inWindow {} sample s e = true ∧ replyArrives sample s e = true) {} racingRun ∧
      (run (step {} Block.hash) {} racingRun).attempts.map Attempt.pc =
        [.answered 200, .answered 502, .answered 200] ∧
      AcceptedOnce Block.hash sample (run (step {} Block.hash) {} racingRun) := by
  have hes : Meets (step {} Block.hash)
      (fun s e => inWindow {} sample s e = true ∧ replyArrives sample s e = true) {} racingRun := by
    decide
  exact ⟨hes, by decide, mq_accepts_once {} Block.hash sample racingRun hes⟩

/-- The transaction is applied, but the server times out. The client sends the block
again, and the next server finds its hash. -/
def lostRun : List Action :=
  [.request sample true 0 20, .get 0, .apply 0, .giveUp 0, .request sample true 0 20, .get 1]

/-- The block is answered with 200 and never inserted. -/
theorem mq_loses_block :
    Meets (step {} Block.hash) (fun s e => inWindow {} sample s e = true) {} lostRun ∧
      (run (step {} Block.hash) {} lostRun).attempts.map Attempt.pc =
        [.answered 502, .answered 200] ∧
      (run (step {} Block.hash) {} lostRun).m_Queue = [] ∧
      ¬AcceptedOnce Block.hash sample (run (step {} Block.hash) {} lostRun) := by
  have hattempts : (run (step {} Block.hash) {} lostRun).attempts =
      [{ block := sample, pc := .answered 502, succeeded := some true },
        { block := sample, pc := .answered 200 }] := by
    decide
  have hqueue : (run (step {} Block.hash) {} lostRun).m_Queue = [] := by decide
  refine ⟨by decide, by decide, hqueue, fun h => ?_⟩
  have hanswered := h.exactlyOnce
  rw [hattempts, hqueue] at hanswered
  revert hanswered
  decide

end Stuff.Mq
