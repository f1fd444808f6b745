import Stuff.EventRuns
import Mathlib.Data.Nat.Bitwise
import Mathlib.Data.UInt
import Mathlib.Order.Interval.Set.Defs

/-!
# A buffer to allocate from

`Allocator::ArenaBase` takes one region after another out of a buffer, each from an address that is
a multiple of four. Whether the next one fits is asked of its end, and when an address and a length
run around the address space, the end seems to be in front of that of the buffer.
-/
namespace Stuff.AllocatorArena
open EventRuns

inductive Exception
  | badAlloc
deriving DecidableEq, Repr

/-- The address behind the last byte of an object is one as well. -/
structure Buffer where
  SIZE : UInt32
  start : UInt64
  room : start.toNat + SIZE.toNat < 2 ^ 64

structure Region where
  data : UInt64
  n : UInt64
deriving DecidableEq, Repr

def Region.bytes (r : Region) : Set ℕ := Set.Ico r.data.toNat (r.data.toNat + r.n.toNat)

/-- The program does not have `regions`, what was allocated since the last `clear`. -/
structure ArenaBase where
  buffer : Buffer
  current : UInt64 := 0
  regions : List Region := []

def start (buffer : Buffer) : ArenaBase := { buffer }

def align (aPtr aSize : UInt64) : UInt64 := (aPtr + aSize - 1) &&& ~~~(aSize - 1)

namespace Buffer

/-- The address behind the buffer. -/
def stop (b : Buffer) : ℕ := b.start.toNat + b.SIZE.toNat

end Buffer

inductive Event
  | allocate (n : UInt64)
  | clear
deriving DecidableEq, Repr

namespace ArenaBase

/-- Where the next region starts. -/
def data (s : ArenaBase) : UInt64 := align (s.buffer.start + s.current) 4

def allocate (s : ArenaBase) (n : UInt64) : Except Exception UInt64 × ArenaBase :=
  if s.data + n ≤ s.buffer.start + s.buffer.SIZE.toUInt64 then
    (.ok s.data,
      { s with
        current := s.data + n - s.buffer.start
        regions := s.regions ++ [⟨s.data, n⟩] })
  else (.error .badAlloc, s)

def used (s : ArenaBase) : UInt64 := s.current

def clear (s : ArenaBase) : ArenaBase := { s with current := 0, regions := [] }

def step (s : ArenaBase) : Event → ArenaBase
  | .allocate n => (s.allocate n).2
  | .clear => s.clear

/-- The first multiple of four that is not in front of what is free. -/
def aligned (s : ArenaBase) : ℕ := (s.buffer.start.toNat + s.current.toNat + 3) / 4 * 4

def Fits (s : ArenaBase) (n : UInt64) : Prop := s.aligned + n.toNat ≤ s.buffer.stop

/-- What `allocate` does for its caller. -/
structure Allocates (s : ArenaBase) (n : UInt64) : Prop where
  four : ∀ {data}, (s.allocate n).1 = .ok data → 4 ∣ data.toNat
  inside : ∀ {data}, (s.allocate n).1 = .ok data →
    s.buffer.start ≤ data ∧ data.toNat + n.toNat ≤ s.buffer.stop
  disjoint : ∀ {data}, (s.allocate n).1 = .ok data →
    ∀ r ∈ s.regions, ∀ b ∈ r.bytes, b ∉ (Region.mk data n).bytes
  unfit : ¬ s.Fits n →
    (s.allocate n).1 = .error .badAlloc ∧ (s.allocate n).2.used = s.used

def Keeps (s : ArenaBase) : Event → Prop
  | .allocate n => s.Allocates n
  | .clear => True

/-- The end of the region is in front of that of the address space, or behind the address that is
that of the end of the buffer one time around. -/
def Unwrapped (s : ArenaBase) : Event → Prop
  | .allocate n => s.aligned + n.toNat < 2 ^ 64 ∨ 2 ^ 64 + s.buffer.stop < s.aligned + n.toNat
  | .clear => True

/-- All regions are in front of what is free. -/
structure Inv (s : ArenaBase) : Prop where
  bound : s.current.toNat ≤ s.buffer.SIZE.toNat
  regions : ∀ r ∈ s.regions, r.data.toNat + r.n.toNat ≤ s.buffer.start.toNat + s.current.toNat

end ArenaBase

/-! ## Addresses -/

theorem and_not_three (k : ℕ) (h : k < 2 ^ 64) : k &&& (2 ^ 64 - 4) = k / 4 * 4 := by
  have hhigh : (k &&& (2 ^ 64 - 4)) / 2 ^ 2 = k / 2 ^ 2 := by
    rw [Nat.and_div_two_pow]
    have hmask : (2 ^ 64 - 4) / 2 ^ 2 = 2 ^ 62 - 1 := by decide
    rw [hmask, Nat.and_two_pow_sub_one_eq_mod]
    omega
  have hlow : (k &&& (2 ^ 64 - 4)) % 2 ^ 2 = 0 := by
    rw [Nat.and_mod_two_pow]
    exact Nat.and_zero _
  omega

theorem toNat_align (aPtr : UInt64) :
    (align aPtr 4).toNat = (aPtr.toNat + 3) % 2 ^ 64 / 4 * 4 := by
  have hmask : (~~~(4 - 1 : UInt64)).toNat = 2 ^ 64 - 4 := by decide
  have hadd : (aPtr + 4 - 1).toNat = (aPtr.toNat + 3) % 2 ^ 64 := by
    have hfour : (4 : UInt64).toNat = 4 := rfl
    have hone : (1 : UInt64).toNat = 1 := rfl
    rw [UInt64.toNat_sub, UInt64.toNat_add, hfour, hone]
    omega
  rw [align, UInt64.toNat_and, hmask, hadd, and_not_three _ (Nat.mod_lt _ (by decide))]

theorem Buffer.toNat_stop (b : Buffer) : (b.start + b.SIZE.toUInt64).toNat = b.stop := by
  rw [UInt64.toNat_add, UInt32.toNat_toUInt64, Nat.mod_eq_of_lt b.room, Buffer.stop]

namespace ArenaBase
variable {s : ArenaBase} {n : UInt64}

/-- Aligning the last addresses leads to the first one. -/
theorem Inv.toNat_data (h : s.Inv) : s.data.toNat = s.aligned % 2 ^ 64 := by
  have hroom := s.buffer.room
  have hbound := h.bound
  rw [data, toNat_align, UInt64.toNat_add, aligned]
  omega

theorem Inv.aligned_le (h : s.Inv) : s.aligned ≤ 2 ^ 64 := by
  have hroom := s.buffer.room
  have hbound := h.bound
  rw [aligned]
  omega

theorem Inv.end_le_iff (h : s.Inv) :
    s.data + n ≤ s.buffer.start + s.buffer.SIZE.toUInt64 ↔
      (s.aligned + n.toNat) % 2 ^ 64 ≤ s.buffer.stop := by
  rw [UInt64.le_iff_toNat_le, UInt64.toNat_add, h.toNat_data, Buffer.toNat_stop, Nat.mod_add_mod]

theorem Inv.allocate_ok (h : s.Inv) (hend : (s.aligned + n.toNat) % 2 ^ 64 ≤ s.buffer.stop) :
    s.allocate n =
      (.ok s.data,
        { s with
          current := s.data + n - s.buffer.start
          regions := s.regions ++ [⟨s.data, n⟩] }) :=
  if_pos (h.end_le_iff.mpr hend)

theorem Inv.allocate_error (h : s.Inv)
    (hend : s.buffer.stop < (s.aligned + n.toNat) % 2 ^ 64) :
    s.allocate n = (.error .badAlloc, s) :=
  if_neg fun hle => absurd (h.end_le_iff.mp hle) (Nat.not_le.mpr hend)

theorem stop_lt (s : ArenaBase) : s.buffer.stop < 2 ^ 64 := s.buffer.room

theorem Fits.end_le (h : s.Fits n) : (s.aligned + n.toNat) % 2 ^ 64 ≤ s.buffer.stop := by
  have hstop := s.stop_lt
  unfold Fits at h
  omega

theorem Inv.toNat_data_of_fits (h : s.Inv) (hfits : s.Fits n) : s.data.toNat = s.aligned := by
  have hstop := s.stop_lt
  unfold Fits at hfits
  rw [h.toNat_data, Nat.mod_eq_of_lt (by omega)]

theorem Inv.allocates_of_fits (h : s.Inv) (hfits : s.Fits n) : s.Allocates n := by
  have hdata := h.toNat_data_of_fits hfits
  have heq : ∀ {data}, (s.allocate n).1 = .ok data → s.data = data := by
    intro data hok
    rw [h.allocate_ok hfits.end_le] at hok
    exact Except.ok.inj hok
  constructor
  case four =>
    intro data hok
    rw [← heq hok, hdata]
    exact Nat.dvd_mul_left 4 _
  case inside =>
    intro data hok
    rw [← heq hok, UInt64.le_iff_toNat_le, hdata]
    refine ⟨?_, hfits⟩
    rw [aligned]
    omega
  case disjoint =>
    intro data hok r hr b hb hb'
    have hregion := h.regions r hr
    rw [Region.bytes, Set.mem_Ico] at hb hb'
    dsimp only at hb'
    rw [← heq hok, hdata, aligned] at hb'
    omega
  case unfit => exact fun hunfit => absurd hfits hunfit

theorem Allocates.of_error (h : s.allocate n = (.error .badAlloc, s)) : s.Allocates n := by
  have hne : ∀ {data}, (s.allocate n).1 ≠ .ok data := by
    intro data hok
    rw [h] at hok
    cases hok
  constructor
  case four => exact fun hok => absurd hok hne
  case inside => exact fun hok => absurd hok hne
  case disjoint => exact fun hok => absurd hok hne
  case unfit =>
    rw [h]
    exact fun _ => ⟨rfl, rfl⟩

theorem Inv.allocates_iff (h : s.Inv) : s.Allocates n ↔ s.Unwrapped (.allocate n) := by
  have hstop := s.stop_lt
  have haligned := h.aligned_le
  have hn := n.toNat_lt
  simp only [Unwrapped]
  by_cases hfits : s.Fits n
  · refine iff_of_true (h.allocates_of_fits hfits) (.inl ?_)
    unfold Fits at hfits
    omega
  · have hunfit := hfits
    unfold Fits at hunfit
    constructor
    · intro hallocates
      by_contra hwrapped
      have hok := h.allocate_ok (n := n) (by omega)
      have herror := (hallocates.unfit hfits).1
      rw [hok] at herror
      cases herror
    · exact fun hunwrapped => .of_error (h.allocate_error (by omega))

theorem Inv.keeps_iff (h : s.Inv) (e : Event) : s.Keeps e ↔ s.Unwrapped e := by
  cases e with
  | allocate n => exact h.allocates_iff
  | clear => exact Iff.rfl

theorem Inv.allocate_of_fits (h : s.Inv) (hfits : s.Fits n) : (s.allocate n).2.Inv := by
  have hdata := h.toNat_data_of_fits hfits
  have hstop := s.stop_lt
  rw [h.allocate_ok hfits.end_le]
  have hlow : s.buffer.start.toNat + s.current.toNat ≤ s.aligned := by
    rw [aligned]
    omega
  unfold Fits Buffer.stop at hfits
  unfold Buffer.stop at hstop
  have hend : (s.data + n).toNat = s.aligned + n.toNat := by
    rw [UInt64.toNat_add, hdata, Nat.mod_eq_of_lt (by omega)]
  have hcurrent : (s.data + n - s.buffer.start).toNat =
      s.aligned + n.toNat - s.buffer.start.toNat := by
    rw [UInt64.toNat_sub_of_le _ _ (UInt64.le_iff_toNat_le.mpr (by omega)), hend]
  constructor
  case bound =>
    dsimp only
    omega
  case regions =>
    intro r hr
    dsimp only at hr ⊢
    rcases List.mem_append.mp hr with hold | hnew
    · have hregion := h.regions r hold
      omega
    · rw [List.mem_singleton.mp hnew]
      dsimp only
      omega

theorem allocate_of_error (h : (s.allocate n).1 = .error .badAlloc) :
    s.allocate n = (.error .badAlloc, s) := by
  unfold allocate at h ⊢
  split
  case isTrue hle =>
    rw [if_pos hle] at h
    cases h
  case isFalse => rfl

theorem Inv.step (h : s.Inv) {e : Event} (hkeeps : s.Keeps e) : (s.step e).Inv := by
  cases e with
  | clear => exact ⟨Nat.zero_le _, fun _ hr => nomatch hr⟩
  | allocate n =>
      change (s.allocate n).2.Inv
      by_cases hfits : s.Fits n
      · exact h.allocate_of_fits hfits
      · rw [allocate_of_error (hkeeps.unfit hfits).1]
        exact h

theorem Inv.start (buffer : Buffer) : (AllocatorArena.start buffer).Inv :=
  ⟨Nat.zero_le _, fun _ hr => nomatch hr⟩

/-- In every run it is the regions around the address space that are given out by mistake. -/
theorem arena_keeps_iff (buffer : Buffer) (es : List Event) :
    Meets step Keeps (AllocatorArena.start buffer) es ↔
      Meets step Unwrapped (AllocatorArena.start buffer) es := by
  have hall := meets_true step (AllocatorArena.start buffer) es
  refine meets_iff (I := Inv) ?_ ?_ (Inv.start buffer) hall
  · exact fun s e hs _ => hs.keeps_iff e
  · exact fun s e hs _ hkeeps => hs.step hkeeps

theorem page_room : (0x1000 : UInt64).toNat + (4096 : UInt32).toNat < 2 ^ 64 := by decide

/-- An arena as `Arena` has it. -/
def page : Buffer := ⟨4096, 0x1000, page_room⟩

/-- A region with almost the length of the address space. -/
theorem arena_wraps :
    ((AllocatorArena.start page).allocate 0xfffffffffffffff8).1.toOption = some 0x1000 ∧
      ¬ Meets step Keeps (AllocatorArena.start page) [.allocate 0xfffffffffffffff8] := by
  refine ⟨by decide, fun h => ?_⟩
  have hok : ((AllocatorArena.start page).allocate 0xfffffffffffffff8).1 = .ok 0x1000 := rfl
  exact absurd (h.1.inside hok).2 (by decide)

end ArenaBase

end Stuff.AllocatorArena
