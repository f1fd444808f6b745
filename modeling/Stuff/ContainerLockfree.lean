import Stuff.EventRuns
import Mathlib.Data.List.Nodup
import Mathlib.Data.UInt
import Mathlib.Logic.Function.Basic

/-!
# A queue for one writer and one reader

`Container::SPSC_Queue` has its elements in a ring of slots. What goes through the queue below is
their numbers: the writer fills the slot behind the last one it has pushed, and the reader looks at
the slot that it has popped. The queue below holds two numbers less than there are slots, so that
neither of the two is ever in it. The two threads may be stopped between any two of their steps.
-/
namespace Stuff.ContainerLockfree
open EventRuns

/-- Where the writer is. -/
inductive Writer
  | idle
  /-- In `push`, before the number is in the queue below. -/
  | pushing
  /-- In `push`, after that. -/
  | advancing
deriving DecidableEq, Repr

/-- `current` and `popped` are what the functions of this name have returned: the one until the
writer pushes it, the other until the next one. The program does not have `pushed` and `received`,
the values so far. -/
structure SpscQueue (T : Type*) where
  m_Data : UInt32 → T
  m_Queue : List UInt32 := []
  m_Max : UInt32
  m_Back : UInt32 := 0
  writer : Writer := .idle
  current : Option UInt32 := none
  popped : Option UInt32 := none
  pushed : List T := []
  received : List T := []

section
variable {T : Type*}

/-- The constructor. -/
def start (aSize : UInt32) (m_Data : UInt32 → T) : SpscQueue T := { m_Data, m_Max := aSize }

inductive Event (T : Type*)
  | current
  /-- Through the pointer that `current` has returned. -/
  | write (t : T)
  | push
  /-- One call of the queue below, which has no effect when this is full. -/
  | enqueue
  | advance
  | pop
deriving DecidableEq, Repr

namespace SpscQueue

def enqueue (s : SpscQueue T) : SpscQueue T :=
  if s.m_Queue.length < (s.m_Max - 2).toNat then
    { s with
      m_Queue := s.m_Queue ++ [s.m_Back]
      writer := .advancing
      current := none
      pushed := s.pushed ++ [s.m_Data s.m_Back] }
  else s

def pop (s : SpscQueue T) : SpscQueue T :=
  match s.m_Queue with
  | [] => s
  | sFront :: m_Queue =>
      { s with
        m_Queue := m_Queue
        popped := some sFront
        received := s.received ++ [s.m_Data sFront] }

/-- What is not next for a thread has no effect. -/
def step (s : SpscQueue T) : Event T → SpscQueue T
  | .current => if s.writer = .idle then { s with current := some s.m_Back } else s
  | .write t =>
      match s.writer, s.current with
      | .idle, some slot => { s with m_Data := Function.update s.m_Data slot t }
      | _, _ => s
  | .push => if s.writer = .idle then { s with writer := .pushing } else s
  | .enqueue => if s.writer = .pushing then s.enqueue else s
  | .advance =>
      if s.writer = .advancing then
        { s with m_Back := (s.m_Back + 1) % s.m_Max, writer := .idle }
      else s
  | .pop => s.pop

/-- The slot of the writer is not with the reader and not on its way, and the values come in
order. -/
structure Safe (s : SpscQueue T) : Prop where
  bound : ∀ slot ∈ s.current, slot < s.m_Max
  queued : ∀ slot ∈ s.current, slot ∉ s.m_Queue
  popped : ∀ slot ∈ s.current, s.popped ≠ some slot
  values : s.received ++ s.m_Queue.map s.m_Data = s.pushed
  last : ∀ slot ∈ s.popped, s.received.getLast? = some (s.m_Data slot)

/-! ## Slots -/

/-- The slot of the element `k`, counted over all times. -/
def slot (m_Max : UInt32) (k : ℕ) : UInt32 := UInt32.ofNat (k % m_Max.toNat)

theorem toNat_slot {m_Max : UInt32} (k : ℕ) (hmax : 0 < m_Max.toNat) :
    (slot m_Max k).toNat = k % m_Max.toNat := by
  have hlt := Nat.mod_lt k hmax
  have hword := m_Max.toNat_lt
  rw [slot, UInt32.toNat_ofNat']
  omega

theorem slot_succ {m_Max : UInt32} (k : ℕ) (hmax : 0 < m_Max.toNat) :
    (slot m_Max k + 1) % m_Max = slot m_Max (k + 1) := by
  have hlt := Nat.mod_lt k hmax
  have hword := m_Max.toNat_lt
  have hadd : (slot m_Max k + 1).toNat = k % m_Max.toNat + 1 := by
    rw [UInt32.toNat_add, toNat_slot k hmax, UInt32.toNat_one]
    omega
  rw [← UInt32.toNat_inj, UInt32.toNat_mod, hadd, toNat_slot (k + 1) hmax, Nat.mod_add_mod]

/-- Less than a whole ring apart. -/
theorem slot_ne {m_Max : UInt32} {j k : ℕ} (hlt : j < k) (hring : k < j + m_Max.toNat) :
    slot m_Max j ≠ slot m_Max k := by
  intro heq
  have hmax : 0 < m_Max.toNat := by omega
  have hmod : j % m_Max.toNat = k % m_Max.toNat := by
    rw [← toNat_slot j hmax, ← toNat_slot k hmax, heq]
  have hdvd := (Nat.modEq_iff_dvd' hlt.le).mp hmod
  have hle := Nat.le_of_dvd (by omega) hdvd
  omega

/-! ## The invariant -/

/-- The elements have their slots one after the other: the last one that was popped, those in the
queue below and the one of the writer. -/
structure Inv (s : SpscQueue T) : Prop where
  room : s.m_Queue.length + 2 ≤ s.m_Max.toNat
  two : 2 < s.m_Max.toNat
  queue : s.m_Queue = (List.range' s.received.length s.m_Queue.length).map (slot s.m_Max)
  length : s.pushed.length = s.received.length + s.m_Queue.length
  back : s.writer ≠ .advancing → s.m_Back = slot s.m_Max s.pushed.length
  behind : s.writer = .advancing → ∃ k, s.pushed.length = k + 1 ∧ s.m_Back = slot s.m_Max k
  current : ∀ slot ∈ s.current, s.writer ≠ .advancing ∧ slot = s.m_Back
  popped : ∀ sFront ∈ s.popped, ∃ k, s.received.length = k + 1 ∧ sFront = slot s.m_Max k
  values : s.received ++ s.m_Queue.map s.m_Data = s.pushed
  last : ∀ slot ∈ s.popped, s.received.getLast? = some (s.m_Data slot)

variable {s : SpscQueue T}

theorem Inv.start {aSize : UInt32} (hsize : 3 ≤ aSize) (m_Data : UInt32 → T) :
    (ContainerLockfree.start aSize m_Data).Inv where
  room := by
    have hthree := UInt32.le_iff_toNat_le.mp hsize
    change 0 + 2 ≤ aSize.toNat
    change 3 ≤ aSize.toNat at hthree
    omega
  two := UInt32.le_iff_toNat_le.mp hsize
  queue := rfl
  length := rfl
  back := by
    intro _
    change (0 : UInt32) = UInt32.ofNat (0 % aSize.toNat)
    rw [Nat.zero_mod]
    rfl
  behind := fun h => nomatch h
  current := fun _ h => nomatch h
  popped := fun _ h => nomatch h
  values := rfl
  last := fun _ h => nomatch h

theorem Inv.slot_notMem (h : s.Inv) : slot s.m_Max s.pushed.length ∉ s.m_Queue := by
  rw [h.queue, List.mem_map]
  rintro ⟨k, hk, heq⟩
  have hroom := h.room
  have hlength := h.length
  rw [List.mem_range'_1] at hk
  exact slot_ne (by omega) (by omega) heq

theorem Inv.popped_ne (h : s.Inv) : s.popped ≠ some (slot s.m_Max s.pushed.length) := by
  intro heq
  obtain ⟨k, hk, hslot⟩ := h.popped _ heq
  have hroom := h.room
  have hlength := h.length
  exact slot_ne (by omega) (by omega) hslot.symm

theorem Inv.safe (h : s.Inv) : s.Safe where
  bound := by
    intro sBack hcurrent
    obtain ⟨hwriter, rfl⟩ := h.current sBack hcurrent
    have htwo := h.two
    rw [UInt32.lt_iff_toNat_lt, h.back hwriter, toNat_slot _ (by omega)]
    exact Nat.mod_lt _ (by omega)
  queued := by
    intro sBack hcurrent
    obtain ⟨hwriter, rfl⟩ := h.current sBack hcurrent
    rw [h.back hwriter]
    exact h.slot_notMem
  popped := by
    intro sBack hcurrent
    obtain ⟨hwriter, rfl⟩ := h.current sBack hcurrent
    rw [h.back hwriter]
    exact h.popped_ne
  values := h.values
  last := h.last

/-! ## Steps -/

theorem Inv.setCurrent (h : s.Inv) (hwriter : s.writer = .idle) :
    ({ s with current := some s.m_Back } : SpscQueue T).Inv :=
  { h with
    current := by
      intro slot hslot
      rw [Option.mem_def, Option.some.injEq] at hslot
      exact ⟨by rw [hwriter]; decide, hslot.symm⟩ }

/-- The value of another slot. -/
theorem Inv.write (h : s.Inv) {sBack : UInt32} (hcurrent : s.current = some sBack) (t : T) :
    ({ s with m_Data := Function.update s.m_Data sBack t } : SpscQueue T).Inv :=
  { h with
    values := by
      have hqueued := h.safe.queued sBack hcurrent
      dsimp only
      rw [← h.values]
      congr 1
      refine List.map_congr_left fun x hx => Function.update_of_ne ?_ _ _
      rintro rfl
      exact hqueued hx
    last := by
      intro sFront hpopped
      dsimp only at hpopped ⊢
      rw [h.last sFront hpopped, Function.update_of_ne]
      rintro rfl
      exact h.safe.popped sFront hcurrent hpopped }

theorem Inv.setPushing (h : s.Inv) (hwriter : s.writer = .idle) :
    ({ s with writer := .pushing } : SpscQueue T).Inv :=
  { h with
    back := fun _ => h.back (by rw [hwriter]; decide)
    behind := fun hpushing => nomatch hpushing
    current := fun slot hslot => ⟨nofun, (h.current slot hslot).2⟩ }

theorem Inv.enqueue (h : s.Inv) (hwriter : s.writer = .pushing) : s.enqueue.Inv := by
  have hback := h.back (by rw [hwriter]; decide)
  have htwo := h.two
  have hlength := h.length
  have hcapacity : (s.m_Max - 2).toNat = s.m_Max.toNat - 2 :=
    UInt32.toNat_sub_of_le _ _ (UInt32.le_iff_toNat_le.mpr htwo.le)
  unfold SpscQueue.enqueue
  split
  case isFalse => exact h
  case isTrue hroom =>
    constructor
    case room => simp only [List.length_append, List.length_singleton]; omega
    case two => exact htwo
    case queue =>
      simp only [List.length_append, List.length_singleton, List.range'_concat, List.map_append,
        List.map_singleton, one_mul, ← hlength, ← hback]
      rw [← h.queue]
    case length => simp only [List.length_append, List.length_singleton]; omega
    case back => exact fun hadvancing => absurd rfl hadvancing
    case behind => exact fun _ => ⟨s.pushed.length, by simp, hback⟩
    case current => exact fun _ hslot => nomatch hslot
    case popped => exact h.popped
    case values =>
      simp only [List.map_append, List.map_singleton]
      rw [← List.append_assoc, h.values]
    case last => exact h.last

theorem Inv.advance (h : s.Inv) (hwriter : s.writer = .advancing) :
    ({ s with m_Back := (s.m_Back + 1) % s.m_Max, writer := .idle } : SpscQueue T).Inv :=
  { h with
    back := by
      intro _
      obtain ⟨k, hk, hback⟩ := h.behind hwriter
      have htwo := h.two
      dsimp only
      rw [hback, hk, slot_succ k (by omega)]
    behind := fun hidle => nomatch hidle
    current := fun slot hslot => absurd hwriter (h.current slot hslot).1 }

theorem Inv.pop (h : s.Inv) : s.pop.Inv := by
  unfold SpscQueue.pop
  split
  case h_1 => exact h
  case h_2 sFront m_Queue hqueue =>
    have hroom := h.room
    have hslots := h.queue
    have hlength := h.length
    have hvalues := h.values
    rw [hqueue, List.length_cons] at hroom hlength
    rw [hqueue, List.length_cons, List.range'_succ, List.map_cons, List.cons.injEq] at hslots
    rw [hqueue, List.map_cons] at hvalues
    constructor
    case room => exact le_trans (by dsimp only; omega) hroom
    case two => exact h.two
    case queue => simpa using hslots.2
    case length => simp only [List.length_append, List.length_singleton]; omega
    case back => exact h.back
    case behind => exact h.behind
    case current => exact h.current
    case popped =>
      intro slot hslot
      rw [Option.mem_def, Option.some.injEq] at hslot
      exact ⟨s.received.length, by simp, hslot.symm.trans hslots.1⟩
    case values =>
      dsimp only
      rw [List.append_assoc]
      exact hvalues
    case last =>
      intro slot hslot
      rw [Option.mem_def, Option.some.injEq] at hslot
      rw [← hslot, List.getLast?_append_of_ne_nil _ (List.cons_ne_nil _ _)]
      rfl

theorem Inv.step (h : s.Inv) (e : Event T) : (s.step e).Inv := by
  cases e with
  | current =>
      simp only [SpscQueue.step]
      split
      case isTrue hwriter => exact h.setCurrent hwriter
      case isFalse => exact h
  | write t =>
      simp only [SpscQueue.step]
      split
      case h_1 slot _ hcurrent => exact h.write hcurrent t
      case h_2 => exact h
  | push =>
      simp only [SpscQueue.step]
      split
      case isTrue hwriter => exact h.setPushing hwriter
      case isFalse => exact h
  | enqueue =>
      simp only [SpscQueue.step]
      split
      case isTrue hwriter => exact h.enqueue hwriter
      case isFalse => exact h
  | advance =>
      simp only [SpscQueue.step]
      split
      case isTrue hwriter => exact h.advance hwriter
      case isFalse => exact h
  | pop => exact h.pop

/-- Whatever the two threads do. -/
theorem spsc_safe {aSize : UInt32} (hsize : 3 ≤ aSize) (m_Data : UInt32 → T)
    (es : List (Event T)) : (run step (ContainerLockfree.start aSize m_Data) es).Safe := by
  have hinv := run_invariant (I := Inv) (fun s e hs _ => Inv.step hs e) (Inv.start hsize m_Data)
    (meets_true step _ es)
  exact hinv.safe

/-- A queue of the smallest size, in which the reader is a step behind. -/
theorem spsc_safe_three :
    (run step (ContainerLockfree.start 3 fun _ => 0)
      [.current, .write 7, .push, .enqueue, .pop, .advance, .current, .write 8]).Safe :=
  spsc_safe (by decide) _ _

end SpscQueue

end

end Stuff.ContainerLockfree
