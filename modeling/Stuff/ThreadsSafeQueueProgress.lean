import Stuff.ThreadsSafeQueue

/-!
# Threads without a linger time

By default the threads end at once when the queue is stopped. Before the stop no
item is lost; a thread that has an item, or finds one, brings the work forward with
its next steps, and a thread without one goes round between `exiting` and `wait`.
-/
namespace Stuff.ThreadsSafeQueue
open EventRuns Holders

variable {T : Type}

theorem Moves.hand_subperm {container : Container T} {check : T → Bool}
    {s s' : SafeQueueThread T} {l : Loop} (h : Moves container check s l s') :
    (pending Pc.hand s').Subperm (pending Pc.hand s) := by
  classical
  rw [List.subperm_iff_count]
  intro y
  have hle := h.pending_le (f := Pc.hand) 0 y (fun _ => rfl) (fun _ _ _ => rfl) rfl
    (by intro hand; simp) (by intro hand; simp)
  omega

/-- One thread exchanges what it has. -/
theorem pending_setPc {s : SafeQueueThread T} {i : ℕ} {pc : Pc T} (hi : s.workers[i]? = some pc)
    (f : Pc T → List (Item T)) (pc' : Pc T) :
    (pending f (s.setPc i pc') ++ f pc).Perm (pending f s ++ f pc') := by
  unfold pending
  rw [List.append_assoc, List.append_assoc]
  exact (held_set_perm hi f pc').append_left s.queue.list

/-- One thread goes on and keeps what it has. -/
theorem pending_setPc_same {s : SafeQueueThread T} {i : ℕ} {pc : Pc T}
    (hi : s.workers[i]? = some pc) (f : Pc T → List (Item T)) (pc' : Pc T)
    (hsame : f pc' = f pc) : (pending f (s.setPc i pc')).Perm (pending f s) := by
  have hperm := pending_setPc hi f pc'
  rw [hsame] at hperm
  exact (List.perm_append_right_iff _).mp hperm

/-- The item of one thread and the others. -/
theorem hand_setPc {s : SafeQueueThread T} {i : ℕ} {pc : Pc T} {x : Item T}
    (hi : s.workers[i]? = some pc) (hx : pc.hand = [x]) :
    ∃ l, (pending Pc.hand s).Perm (x :: l) ∧
      ∀ pc' : Pc T, (pending Pc.hand (s.setPc i pc')).Perm (pc'.hand ++ l) := by
  have hlt := (List.getElem?_eq_some_iff.mp hi).1
  refine ⟨pending Pc.hand (s.setPc i .waiting), ?_, ?_⟩
  · have hperm := pending_setPc hi Pc.hand .waiting
    rw [hx, show (Pc.waiting : Pc T).hand = [] from rfl, List.append_nil] at hperm
    exact hperm.symm.trans List.perm_append_comm
  · intro pc'
    have hwaiting : (s.setPc i .waiting).workers[i]? = some .waiting := List.getElem?_set_self hlt
    have hperm := pending_setPc hwaiting Pc.hand pc'
    rw [show (Pc.waiting : Pc T).hand = [] from rfl, List.append_nil] at hperm
    have hset : (s.setPc i .waiting).setPc i pc' = s.setPc i pc' := by
      simp only [SafeQueueThread.setPc, List.set_set]
    rw [hset] at hperm
    exact hperm.trans List.perm_append_comm

theorem pending_insert (s : SafeQueueThread T) (aItem : T) (f : Pc T → List (Item T)) :
    (pending f (s.insert aItem)).Perm (⟨s.queue.counter, aItem⟩ :: pending f s) := by
  unfold pending SafeQueueThread.insert SafeQueue.insert
  rw [List.append_assoc]
  exact List.perm_middle

/-- No deadline is ever set, so nobody looks at the counters. -/
structure Quiet (s : SafeQueueThread T) : Prop where
  linger : s.params.linger ≤ 0
  deadline : s.deadline = false
  reading : ∀ hand done count, .reading hand done count ∉ s.workers
  exited : .exited ∈ s.workers → s.queue.stop = true

namespace Quiet
variable {s : SafeQueueThread T}

theorem start {params : Params} (hlinger : params.linger ≤ 0) (n : ℕ) :
    Quiet ({ params := params, workers := List.replicate n (.testing none) } :
      SafeQueueThread T) := by
  constructor
  · exact hlinger
  · rfl
  · intro hand done count hmem
    cases List.eq_of_mem_replicate hmem
  · intro hmem
    cases List.eq_of_mem_replicate hmem

/-- A thread goes on. -/
theorem setPc (h : Quiet s) (i : ℕ) {pc : Pc T}
    (hreading : ∀ hand done count, pc ≠ .reading hand done count)
    (hexited : pc = .exited → s.queue.stop = true) : Quiet (s.setPc i pc) := by
  constructor
  · exact h.linger
  · exact h.deadline
  · intro hand done count hmem
    rcases List.mem_or_eq_of_mem_set hmem with hold | hnew
    · exact h.reading hand done count hold
    · exact hreading hand done count hnew.symm
  · intro hmem
    rcases List.mem_or_eq_of_mem_set hmem with hold | hnew
    · exact h.exited hold
    · exact hexited hnew.symm

theorem insert (h : Quiet s) (aItem : T) : Quiet (s.insert aItem) :=
  ⟨h.linger, h.deadline, h.reading, h.exited⟩

theorem returns (h : Quiet s) (i : ℕ) : Quiet (s.returns i) := by
  unfold SafeQueueThread.returns
  split
  · exact h.setPc i (by simp) (by simp)
  · exact h

theorem throws (h : Quiet s) (i : ℕ) (aItem : T) : Quiet (s.throws i aItem) := by
  unfold SafeQueueThread.throws
  split
  · split_ifs
    · exact h.setPc i (by simp) (by simp)
    · exact h.setPc i (by simp) (by simp)
  · exact h

theorem not_reading (h : Quiet s) {i : ℕ} {hand : Option (Item T)} {done count : Option ℕ} :
    s.workers[i]? ≠ some (.reading hand done count) :=
  fun hi => h.reading hand done count (List.mem_of_getElem? hi)

theorem moves (h : Quiet s) {container : Container T} {check : T → Bool}
    {s' : SafeQueueThread T} {l : Loop} (hmoves : Moves container check s l s') : Quiet s' := by
  cases hmoves with
  | stay => exact h
  | stop =>
      constructor
      · exact h.linger
      · simp [h.deadline, h.linger]
      · exact h.reading
      · exact fun _ => rfl
  | look i hand hi hstop hdeadline =>
      rw [h.deadline] at hdeadline
      cases hdeadline
  | readDone i hand count hi => exact absurd hi h.not_reading
  | readCount i hand done hi => exact absurd hi h.not_reading
  | goOn i hand hi =>
      have hset : Quiet (s.setPc i (.going hand)) :=
        h.setPc i (by cases hand <;> simp [Pc.going]) (by cases hand <;> simp [Pc.going])
      exact ⟨hset.linger, hset.deadline, hset.reading, hset.exited⟩
  | goOnLate i hand done count hi => exact absurd hi h.not_reading
  | giveUp i hand hi hstop =>
      exact h.setPc i (by cases hand <;> simp [Pc.leaving]) (fun _ => hstop)
  | giveUpLate i hand done count expired hi => exact absurd hi h.not_reading
  | take i x rest hi =>
      have hset : Quiet (s.setPc i (.testing (some x))) := h.setPc i (by simp) (by simp)
      exact ⟨hset.linger, hset.deadline, hset.reading, hset.exited⟩
  | miss i hi => exact h.setPc i (by simp) (by simp)
  | finish i x hi =>
      have hset : Quiet (s.setPc i (.testing none)) := h.setPc i (by simp) (by simp)
      exact ⟨hset.linger, hset.deadline, hset.reading, hset.exited⟩

/-- Before the stop the threads give nothing up. -/
theorem moves_todo (h : Quiet s) (hstop : s.queue.stop = false) {container : Container T}
    {check : T → Bool} {s' : SafeQueueThread T} {l : Loop}
    (hmoves : Moves container check s l s') : (pending Pc.todo s').Perm (pending Pc.todo s) := by
  classical
  rw [List.perm_iff_count]
  intro y
  rw [count_pending, count_pending]
  cases hmoves with
  | stay => rfl
  | stop => rfl
  | look i hand hi hstop' => exact absurd (hstop.symm.trans hstop') (by simp)
  | readDone i hand count hi => exact absurd hi h.not_reading
  | readCount i hand done hi => exact absurd hi h.not_reading
  | goOn i hand hi =>
      have hset := count_held_set hi Pc.todo (.going hand) y
      rw [show (Pc.going hand).todo = hand.toList by cases hand <;> rfl,
        show (Pc.testing hand).todo = hand.toList from rfl] at hset
      simp only [SafeQueueThread.proceed, SafeQueueThread.setPc]
      omega
  | goOnLate i hand done count hi => exact absurd hi h.not_reading
  | giveUp i hand hi hstop' => exact absurd (hstop.symm.trans hstop') (by simp)
  | giveUpLate i hand done count expired hi => exact absurd hi h.not_reading
  | take i x rest hi hpop =>
      have hset := count_held_set hi Pc.todo (.testing (some x)) y
      have hlist := (container.perm hpop).count_eq y
      simp only [Pc.todo, Option.toList_some, List.count_nil, List.count_cons] at hset hlist
      simp only [SafeQueueThread.setPc]
      omega
  | miss i hi =>
      have hset := count_held_set hi Pc.todo (.testing none) y
      simp only [Pc.todo, Option.toList_none] at hset
      simp only [SafeQueueThread.setPc]
      omega
  | finish i x hi =>
      have hset := count_held_set hi Pc.todo (.testing none) y
      simp only [Pc.todo, Option.toList_none] at hset
      simp only [SafeQueueThread.setPc]
      omega

end Quiet

/-! ## The work that is left -/

/-- An item weighs `w` until the handler is called, and less with every step after. -/
def Pc.cost (w : ℕ) : Pc T → ℕ
  | .testing hand => if hand.isSome then w else 1
  | .reading hand _ _ => if hand.isSome then w else 1
  | .waiting => 1
  | .calling _ => w - 1
  | .handled _ => 2
  | .exited => 0

def load (w : ℕ) (s : SafeQueueThread T) : ℕ :=
  w * s.queue.list.length + (s.workers.map (Pc.cost w)).sum

theorem load_setPc {s : SafeQueueThread T} {i : ℕ} {pc : Pc T} (hi : s.workers[i]? = some pc)
    (w : ℕ) (pc' : Pc T) : load w (s.setPc i pc') + pc.cost w = load w s + pc'.cost w := by
  have hsum := sum_map_set hi (Pc.cost w) pc'
  simp only [load, SafeQueueThread.setPc]
  omega

@[simp] theorem load_insert (w : ℕ) (s : SafeQueueThread T) (aItem : T) :
    load w (s.insert aItem) = load w s + w := by
  simp only [load, SafeQueueThread.insert, SafeQueue.insert, List.length_append,
    List.length_singleton, Nat.mul_add, Nat.mul_one]
  omega

/-- Going round without an item. -/
inductive Pc.Idle : Pc T → Prop
  | testing : Pc.Idle (.testing none)
  | waiting : Pc.Idle .waiting

theorem Pc.Idle.ne_exited {pc : Pc T} (h : pc.Idle) : pc ≠ .exited := by
  cases h <;> simp

theorem Pc.Idle.todo {pc : Pc T} (h : pc.Idle) : pc.todo = [] := by
  cases h <;> rfl

theorem Pc.Idle.cost {pc : Pc T} (h : pc.Idle) (w : ℕ) : pc.cost w = 1 := by
  cases h <;> rfl

/-- The step that a thread takes next, unless the handler is running or it has ended. -/
def nextLoop (i : ℕ) : Pc T → Option Loop
  | .testing _ => some (.test i)
  | .reading _ none _ => some (.readDone i)
  | .reading _ (some _) none => some (.readCount i)
  | .reading _ (some _) (some _) => some (.decide i false)
  | .waiting => some (.wait i)
  | .calling _ => none
  | .handled _ => some (.finish i)
  | .exited => none

theorem load_proceed {s : SafeQueueThread T} {i : ℕ} {pc : Pc T} (hi : s.workers[i]? = some pc)
    (w : ℕ) (hand : Option (Item T)) :
    load w (s.proceed i hand) + pc.cost w = load w s + (Pc.going hand).cost w :=
  load_setPc hi w (.going hand)

theorem load_leave {s : SafeQueueThread T} {i : ℕ} {pc : Pc T} (hi : s.workers[i]? = some pc)
    (w : ℕ) (hand : Option (Item T)) :
    load w (s.leave i hand) + pc.cost w = load w s + (Pc.leaving hand).cost w :=
  load_setPc hi w (.leaving hand)

theorem proceed_none (s : SafeQueueThread T) (i : ℕ) :
    s.proceed i none = s.setPc i .waiting := by
  simp [SafeQueueThread.proceed, Pc.going, SafeQueueThread.setPc]

/-- Without a deadline `exiting` is the stop of the queue. -/
theorem Quiet.test_eq {s : SafeQueueThread T} (h : Quiet s) {i : ℕ} {hand : Option (Item T)}
    (hi : s.workers[i]? = some (.testing hand)) (container : Container T) (check : T → Bool) :
    loopStep container check s (.test i) =
      if s.queue.stop then s.leave i hand else s.proceed i hand := by
  simp [loopStep, hi, h.deadline]

/-- Taking an item is a piece of work, and missing one is none. -/
theorem wait_load {s : SafeQueueThread T} {i : ℕ} (hi : s.workers[i]? = some .waiting)
    (container : Container T) (check : T → Bool) (w : ℕ) :
    (s.queue.wait container check).isSome ∧
        load w (loopStep container check s (.wait i)) < load w s ∨
      s.queue.wait container check = none ∧
        loopStep container check s (.wait i) = s.setPc i (.testing none) := by
  simp only [loopStep, hi]
  cases hwait : s.queue.wait container check with
  | none => exact Or.inr ⟨rfl, rfl⟩
  | some found =>
      refine Or.inl ⟨rfl, ?_⟩
      unfold SafeQueue.wait at hwait
      cases hpop : container.pop s.queue.list with
      | none =>
          rw [hpop] at hwait
          cases hwait
      | some popped =>
          rw [hpop] at hwait
          dsimp only at hwait
          split_ifs at hwait
          cases hwait
          have hsum := sum_map_set hi (Pc.cost w) (.testing (some popped.1))
          have hlength := (container.perm hpop).length_eq
          rw [List.length_cons] at hlength
          rw [show (Pc.waiting : Pc T).cost w = 1 from rfl,
            show (Pc.testing (some popped.1)).cost w = w from rfl] at hsum
          simp only [load, SafeQueueThread.setPc, hlength, Nat.mul_add]
          omega

theorem nextLoop_eq_none {i : ℕ} {pc : Pc T} (h : nextLoop i pc = none) :
    (∃ x, pc = .calling x) ∨ pc = .exited := by
  cases pc with
  | reading hand done count => cases done <;> cases count <;> cases h
  | calling x => exact Or.inl ⟨x, rfl⟩
  | exited => exact Or.inr rfl
  | _ => cases h

theorem nextLoop_ne_stop {i : ℕ} {pc : Pc T} {l : Loop} (h : nextLoop i pc = some l) :
    l ≠ .stop := by
  unfold nextLoop at h
  split at h <;> cases h <;> simp

/-- The threads stay, and only a stop stops the queue. -/
theorem Moves.frame {container : Container T} {check : T → Bool} {s s' : SafeQueueThread T}
    {l : Loop} (h : Moves container check s l s') (hl : l ≠ .stop) :
    s'.workers.length = s.workers.length ∧ s'.queue.stop = s.queue.stop := by
  cases h with
  | stay => exact ⟨rfl, rfl⟩
  | stop => exact absurd rfl hl
  | _ => exact ⟨List.length_set, rfl⟩

/-- A thread without an item goes round; every other step does some of the work. -/
theorem Quiet.next_load {s : SafeQueueThread T} (h : Quiet s) {i : ℕ} {pc : Pc T} {l : Loop}
    (hi : s.workers[i]? = some pc) (hl : nextLoop i pc = some l) (container : Container T)
    (check : T → Bool) {w : ℕ} (hw : 3 ≤ w) :
    load w (loopStep container check s l) < load w s ∨
      pc.Idle ∧ ∃ pc' : Pc T, pc'.Idle ∧ loopStep container check s l = s.setPc i pc' := by
  cases pc with
  | testing hand =>
      cases hl
      rw [h.test_eq hi container check]
      have hleave := load_leave hi w hand
      have hproceed := load_proceed hi w hand
      cases hand with
      | none =>
          split_ifs with hstop
          · simp [Pc.cost, Pc.leaving] at hleave
            exact Or.inl (by omega)
          · exact Or.inr ⟨.testing, .waiting, .waiting, proceed_none s i⟩
      | some x =>
          simp [Pc.cost, Pc.leaving, Pc.going] at hleave hproceed
          left
          split_ifs
          · omega
          · omega
  | reading hand done count => exact absurd hi h.not_reading
  | waiting =>
      cases hl
      rcases wait_load hi container check w with hsome | hnone
      · exact Or.inl hsome.2
      · exact Or.inr ⟨.waiting, .testing none, .testing, hnone.2⟩
  | calling x => cases hl
  | handled x =>
      cases hl
      have hless := load_setPc hi w (.testing none)
      simp [Pc.cost] at hless
      left
      simp only [loopStep, hi]
      change load w (s.setPc i (.testing none)) < load w s
      omega
  | exited => cases hl

/-! ## How far a thread is from its next piece of work -/

/-- Whether `wait` would take an item. -/
def SafeQueueThread.ready (container : Container T) (check : T → Bool)
    (s : SafeQueueThread T) : Bool :=
  (s.queue.wait container check).isSome

/-- The number of steps before one that does some of the work, if it is known. -/
def Pc.away (stop ready : Bool) : Pc T → Option ℕ
  | .testing none => if stop then some 0 else if ready then some 1 else none
  | .waiting => if ready then some 0 else if stop then some 1 else none
  | .exited => none
  | _ => some 0

/-- Only an idle thread that finds nothing has no work before it. -/
theorem Pc.away_cases {pc : Pc T} (hexited : pc ≠ .exited) (stop ready : Bool) :
    pc.Idle ∧ stop = false ∧ ready = false ∨ ∃ r, pc.away stop ready = some r := by
  cases pc with
  | testing hand =>
      cases hand with
      | none => cases stop <;> cases ready <;> simp [Pc.away, Pc.Idle.testing]
      | some x => exact Or.inr ⟨0, rfl⟩
  | waiting => cases stop <;> cases ready <;> simp [Pc.away, Pc.Idle.waiting]
  | exited => exact absurd rfl hexited
  | _ => exact Or.inr ⟨0, rfl⟩

/-- A thread that goes round comes closer to its work. -/
theorem Quiet.next_away {s : SafeQueueThread T} (h : Quiet s) {i r : ℕ} {pc : Pc T} {l : Loop}
    (hi : s.workers[i]? = some pc) (hl : nextLoop i pc = some l) {container : Container T}
    {check : T → Bool} (haway : pc.away s.queue.stop (s.ready container check) = some r)
    {w : ℕ} (hw : 3 ≤ w) :
    load w (loopStep container check s l) < load w s ∨
      pc.Idle ∧ ∃ pc' : Pc T, pc'.Idle ∧ loopStep container check s l = s.setPc i pc' ∧
        ∃ r' < r, pc'.away s.queue.stop (s.ready container check) = some r' := by
  rcases h.next_load hi hl container check hw with hless | ⟨hidle, -⟩
  · exact Or.inl hless
  · cases hidle with
    | testing =>
        cases hl
        rw [h.test_eq hi container check]
        cases hstop : s.queue.stop with
        | true =>
            have hleave := load_leave hi w none
            simp [Pc.cost, Pc.leaving] at hleave
            exact Or.inl (by rw [if_pos rfl]; omega)
        | false =>
            rw [hstop] at haway
            simp only [Pc.away, Bool.false_eq_true, if_false] at haway
            split_ifs at haway with hready
            cases haway
            refine Or.inr ⟨.testing, .waiting, .waiting, proceed_none s i, 0, Nat.one_pos, ?_⟩
            simp [Pc.away, hready]
    | waiting =>
        cases hl
        rcases wait_load hi container check w with hsome | hnone
        · exact Or.inl hsome.2
        · have hready : s.ready container check = false := by
            rw [SafeQueueThread.ready, hnone.1]
            rfl
          rw [hready] at haway ⊢
          simp only [Pc.away, Bool.false_eq_true, if_false] at haway
          split_ifs at haway with hstop
          cases haway
          refine Or.inr ⟨.waiting, .testing none, .testing, hnone.2, 0, Nat.one_pos, ?_⟩
          simp [Pc.away, hstop]

end Stuff.ThreadsSafeQueue
