import Stuff.EventRuns
import Stuff.MachineWords
import Mathlib.Data.Nat.Bitwise

/-!
# The rotating bloom filter

A `Set` is a vector of bytes used as bits. A `Filter` fills two sets together,
answers from the active one, and after `mRotate + 1` puts clears the active set
and turns to the other.
-/
namespace Stuff.BloomFilter
open EventRuns MachineWords

/-! ## Bits of a byte vector -/

structure Set where
  size : UInt32
  data : List UInt8

namespace Set

/-- The constructor asserts that the number of bits is a multiple of 8. -/
def make (aBits : UInt32) : Set :=
  { size := aBits, data := List.replicate (aBits.toNat / 8) 0 }

/-- The index of the byte and the mask in it. -/
def prepare (aBit : UInt32) : ℕ × UInt8 := ((aBit / 8).toNat, 1 <<< (aBit % 8).toUInt8)

def set (s : Set) (aKey : UInt32) : Set :=
  { s with data := s.data.modify (prepare aKey).1 (· ||| (prepare aKey).2) }

def get (s : Set) (aKey : UInt32) : Bool :=
  (s.data.getD (prepare aKey).1 0) &&& (prepare aKey).2 == (prepare aKey).2

def insert (s : Set) (aSet : List UInt32) : Set := aSet.foldl (fun s x => s.set (x % s.size)) s

def test (s : Set) (aSet : List UInt32) : Bool := aSet.all fun x => s.get (x % s.size)

def clear (s : Set) : Set := { s with data := s.data.map fun _ => 0 }

end Set

theorem mask_toNat (aBit : UInt32) : (Set.prepare aBit).2.toNat = 2 ^ (aBit.toNat % 8) := by
  have hlt : aBit.toNat % 8 < 8 := Nat.mod_lt _ (by decide)
  have hshift : (aBit % 8).toUInt8.toNat % 8 = aBit.toNat % 8 := by
    rw [UInt32.toNat_toUInt8, UInt32.toNat_mod]
    change aBit.toNat % 8 % 256 % 8 = _
    omega
  unfold Set.prepare
  dsimp only
  rw [UInt8.toNat_shiftLeft, hshift, UInt8.toNat_one, Nat.one_shiftLeft]
  exact Nat.mod_eq_of_lt (Nat.pow_lt_pow_right (by decide) hlt)

namespace Set

/-- A bit by its number. -/
def bit (s : Set) (i : ℕ) : Bool := (s.data.getD (i / 8) 0).toNat.testBit (i % 8)

theorem get_eq_bit (s : Set) (aKey : UInt32) : s.get aKey = s.bit aKey.toNat := by
  have hindex : (prepare aKey).1 = aKey.toNat / 8 := UInt32.toNat_div _ _
  unfold get bit
  rw [Bool.eq_iff_iff, beq_iff_eq, ← UInt8.toNat_inj, UInt8.toNat_and, mask_toNat,
    Nat.and_two_pow, hindex]
  have hmask := Nat.two_pow_pos (aKey.toNat % 8)
  cases (s.data.getD (aKey.toNat / 8) 0).toNat.testBit (aKey.toNat % 8) with
  | false => simpa using hmask.ne
  | true => simp

theorem bit_set (s : Set) {aKey : UInt32} (hin : aKey.toNat / 8 < s.data.length) (i : ℕ) :
    (s.set aKey).bit i = (s.bit i || decide (aKey.toNat = i)) := by
  have hindex : (prepare aKey).1 = aKey.toNat / 8 := UInt32.toNat_div _ _
  unfold set bit
  simp only [List.getD_eq_getElem?_getD, List.getElem?_modify, hindex]
  rcases eq_or_ne (aKey.toNat / 8) (i / 8) with heq | hne
  · rw [heq] at hin
    have hbit : (aKey.toNat % 8 = i % 8) ↔ aKey.toNat = i := by omega
    simp only [List.getElem?_eq_getElem hin, if_pos heq, Option.map_eq_map, Option.map_some,
      Option.getD_some, UInt8.toNat_or, mask_toNat, Nat.testBit_or, Nat.testBit_two_pow, hbit]
  · have hother : aKey.toNat ≠ i := fun h => hne (congrArg (· / 8) h)
    simp [hne, hother]

/-- A set of a number of bits that the constructor admits. -/
structure Sized (aBits : UInt32) (s : Set) : Prop where
  size : s.size = aBits
  pos : 0 < aBits.toNat
  bytes : aBits.toNat = 8 * s.data.length

variable {aBits : UInt32} {s : Set}

theorem sized_make (hpos : 0 < aBits) (hbytes : 8 ∣ aBits.toNat) : Sized aBits (make aBits) := by
  constructor
  · rfl
  · exact UInt32.lt_iff_toNat_lt.mp hpos
  · simp only [make, List.length_replicate]
    exact (Nat.mul_div_cancel' hbytes).symm

theorem Sized.set (h : Sized aBits s) (aKey : UInt32) : Sized aBits (s.set aKey) := by
  constructor
  · exact h.size
  · exact h.pos
  · simp only [Set.set, List.length_modify]
    exact h.bytes

theorem Sized.insert (h : Sized aBits s) (aSet : List UInt32) : Sized aBits (s.insert aSet) := by
  unfold Set.insert
  induction aSet generalizing s with
  | nil => exact h
  | cons x aSet ih => exact ih (h.set (x % s.size))

theorem Sized.clear (h : Sized aBits s) : Sized aBits s.clear := by
  constructor
  · exact h.size
  · exact h.pos
  · simp only [Set.clear, List.length_map]
    exact h.bytes

theorem Sized.get_set (h : Sized aBits s) (x b : UInt32) :
    (s.set (x % s.size)).get b = true ↔ x % aBits = b ∨ s.get b = true := by
  have hpos := h.pos
  have hbytes := h.bytes
  have hlt := Nat.mod_lt x.toNat hpos
  have hin : (x % aBits).toNat / 8 < s.data.length := by
    rw [UInt32.toNat_mod]
    omega
  rw [h.size, get_eq_bit, get_eq_bit, bit_set s hin, Bool.or_eq_true, decide_eq_true_eq,
    UInt32.toNat_inj]
  exact Or.comm

theorem Sized.get_insert (h : Sized aBits s) (aSet : List UInt32) (b : UInt32) :
    (s.insert aSet).get b = true ↔ (∃ x ∈ aSet, x % aBits = b) ∨ s.get b = true := by
  unfold Set.insert
  induction aSet generalizing s with
  | nil => simp
  | cons x aSet ih =>
      rw [List.foldl_cons, ih (h.set _), h.get_set, List.exists_mem_cons_iff]
      rw [or_assoc, or_left_comm]

theorem get_clear (s : Set) (b : UInt32) : s.clear.get b = false := by
  rw [get_eq_bit]
  unfold bit clear
  rw [List.getD_eq_getElem?_getD, List.getElem?_map]
  cases s.data[b.toNat / 8]? with
  | none => exact Nat.zero_testBit _
  | some x => exact Nat.zero_testBit _

/-- The set holds the bits of these keys and no others. -/
def Stores (aBits : UInt32) (s : Set) (puts : List (List UInt32)) : Prop :=
  ∀ b, s.get b = true ↔ ∃ aKey ∈ puts, ∃ x ∈ aKey, x % aBits = b

theorem stores_clear (s : Set) : Stores aBits s.clear [] := by
  intro b
  rw [get_clear]
  simp

theorem stores_make : Stores aBits (make aBits) [] := by
  have hclear : (make aBits).clear = make aBits := by simp [clear, make]
  rw [← hclear]
  exact stores_clear _

theorem Sized.stores_insert (h : Sized aBits s) {puts : List (List UInt32)}
    (hstores : Stores aBits s puts) (aSet : List UInt32) :
    Stores aBits (s.insert aSet) (aSet :: puts) := by
  intro b
  rw [h.get_insert, hstores b, List.exists_mem_cons_iff]

theorem Sized.test (h : Sized aBits s) {puts : List (List UInt32)} (hstores : Stores aBits s puts)
    {aSet : List UInt32} (hmem : aSet ∈ puts) : s.test aSet = true := by
  unfold Set.test
  rw [List.all_eq_true]
  intro x hx
  rw [h.size]
  exact (hstores _).mpr ⟨aSet, hmem, x, hx, rfl⟩

end Set

/-! ## Two sets in turn -/

structure Filter where
  set1 : Set
  set2 : Set
  actual1 : Bool := true
  counter : UInt32 := 0
  mRotate : UInt32

namespace Filter

def make (aBits aRotate : UInt32) : Filter :=
  { set1 := Set.make aBits, set2 := Set.make aBits, mRotate := aRotate }

/-- The set that answers. -/
def actual (f : Filter) : Set := if f.actual1 then f.set1 else f.set2

def rotate (f : Filter) : Filter :=
  { f with
    set1 := if f.actual1 then f.set1.clear else f.set1
    set2 := if f.actual1 then f.set2 else f.set2.clear
    actual1 := !f.actual1
    counter := 0 }

/-- The key goes to both sets and is counted. -/
def filled (f : Filter) (aKey : List UInt32) : Filter :=
  { f with
    set1 := f.set1.insert aKey
    set2 := f.set2.insert aKey
    counter := f.counter + 1 }

def put (f : Filter) (aKey : List UInt32) : Filter :=
  if (f.filled aKey).counter > f.mRotate then (f.filled aKey).rotate else f.filled aKey

def check (f : Filter) (aKey : List UInt32) : Bool := f.actual.test aKey

/-- The set that is filled but does not answer yet. -/
def spare (f : Filter) : Set := if f.actual1 then f.set2 else f.set1

end Filter

/-- After the puts of `history`, newest first: the spare set has the puts since the
last rotation, and the active one those of the whole phase before as well. -/
structure Window (aBits : UInt32) (f : Filter) (history : List (List UInt32)) : Prop where
  sized : f.actual.Sized aBits ∧ f.spare.Sized aBits
  counter : f.counter.toNat ≤ f.mRotate.toNat ∧ f.counter.toNat ≤ history.length
  spare : Set.Stores aBits f.spare (history.take f.counter.toNat)
  actual : ∃ k ≤ history.length, Set.Stores aBits f.actual (history.take k) ∧
    (k = history.length ∧ k = f.counter.toNat ∨ k = f.mRotate.toNat + 1 + f.counter.toNat)

namespace Filter

theorem filled_actual (f : Filter) (aKey : List UInt32) :
    (f.filled aKey).actual = f.actual.insert aKey := by
  unfold actual filled
  cases f.actual1 <;> rfl

theorem filled_spare (f : Filter) (aKey : List UInt32) :
    (f.filled aKey).spare = f.spare.insert aKey := by
  unfold spare filled
  cases f.actual1 <;> rfl

theorem rotate_actual (f : Filter) : f.rotate.actual = f.spare := by
  unfold actual rotate spare
  cases f.actual1 <;> rfl

theorem rotate_spare (f : Filter) : f.rotate.spare = f.actual.clear := by
  unfold actual rotate spare
  cases f.actual1 <;> rfl

theorem put_mRotate (f : Filter) (aKey : List UInt32) : (f.put aKey).mRotate = f.mRotate := by
  unfold put
  split_ifs <;> rfl

end Filter

namespace Window
variable {aBits : UInt32} {f : Filter} {history : List (List UInt32)}

theorem make (hpos : 0 < aBits) (hbytes : 8 ∣ aBits.toNat) (aRotate : UInt32) :
    Window aBits (Filter.make aBits aRotate) [] := by
  have hsized := Set.sized_make hpos hbytes
  constructor
  · exact ⟨hsized, hsized⟩
  · exact ⟨Nat.zero_le _, Nat.zero_le _⟩
  · exact Set.stores_make
  · exact ⟨0, Nat.le_refl 0, Set.stores_make, Or.inl ⟨rfl, rfl⟩⟩

theorem put (h : Window aBits f history) (hrotate : f.mRotate.toNat < 2 ^ 32 - 1)
    (aKey : List UInt32) : Window aBits (f.put aKey) (aKey :: history) := by
  obtain ⟨⟨hactive, hidle⟩, ⟨hcounter, hshort⟩, hspare, k, hk, hactual, hphase⟩ := h
  have hone : (1 : UInt32).toNat = 1 := rfl
  have hcount : (f.counter + 1).toNat = f.counter.toNat + 1 :=
    toNat_add_of_lt (by rw [hone]; omega)
  have hactual' := hactive.stores_insert hactual aKey
  have hspare' := hidle.stores_insert hspare aKey
  rw [← List.take_succ_cons] at hactual' hspare'
  unfold Filter.put
  split_ifs with hfull
  · have hlast : f.counter.toNat = f.mRotate.toNat := by
      have hlt : f.mRotate.toNat < (f.counter + 1).toNat := UInt32.lt_iff_toNat_lt.mp hfull
      omega
    constructor
    · rw [Filter.rotate_actual, Filter.rotate_spare, Filter.filled_actual, Filter.filled_spare]
      exact ⟨hidle.insert aKey, (hactive.insert aKey).clear⟩
    · exact ⟨Nat.zero_le _, Nat.zero_le _⟩
    · rw [Filter.rotate_spare]
      exact Set.stores_clear _
    · rw [Filter.rotate_actual, Filter.filled_spare]
      refine ⟨f.counter.toNat + 1, ?_, hspare', Or.inr ?_⟩
      · rw [List.length_cons]
        omega
      · rw [hlast]
        rfl
  · have hroom : f.counter.toNat + 1 ≤ f.mRotate.toNat := by
      have hle : ¬ f.mRotate.toNat < (f.counter + 1).toNat :=
        fun hlt => hfull (UInt32.lt_iff_toNat_lt.mpr hlt)
      omega
    have hfilled : (f.filled aKey).counter.toNat = f.counter.toNat + 1 := hcount
    constructor
    · rw [Filter.filled_actual, Filter.filled_spare]
      exact ⟨hactive.insert aKey, hidle.insert aKey⟩
    · rw [hfilled, List.length_cons]
      exact ⟨hroom, Nat.add_le_add_right hshort 1⟩
    · rw [hfilled, Filter.filled_spare]
      exact hspare'
    · rw [hfilled, Filter.filled_actual, List.length_cons]
      refine ⟨k + 1, Nat.add_le_add_right hk 1, hactual', ?_⟩
      change _ ∨ k + 1 = f.mRotate.toNat + 1 + (f.counter.toNat + 1)
      omega

theorem run (h : Window aBits f history) (hrotate : f.mRotate.toNat < 2 ^ 32 - 1)
    (puts : List (List UInt32)) :
    Window aBits (EventRuns.run Filter.put f puts) (puts.reverse ++ history) := by
  induction puts generalizing f history with
  | nil => exact h
  | cons aKey puts ih =>
      rw [run_cons, List.reverse_cons, List.append_assoc]
      exact ih (h.put hrotate aKey) (by rw [Filter.put_mRotate]; exact hrotate)

end Window

theorem run_mRotate (f : Filter) (puts : List (List UInt32)) :
    (run Filter.put f puts).mRotate = f.mRotate := by
  induction puts generalizing f with
  | nil => rfl
  | cons aKey puts ih => rw [run_cons, ih, Filter.put_mRotate]

/-- The active set has exactly the bits of the last `k` puts, for a `k` of at least
one phase and less than two; so every key of the last phase passes the check. -/
theorem filter_window (aBits aRotate : UInt32) (hpos : 0 < aBits) (hbytes : 8 ∣ aBits.toNat)
    (hrotate : aRotate.toNat < 2 ^ 32 - 1) (puts : List (List UInt32)) :
    (∃ k ≤ puts.length, min puts.length (aRotate.toNat + 1) ≤ k ∧ k ≤ 2 * aRotate.toNat + 1 ∧
      ∀ b, (run Filter.put (Filter.make aBits aRotate) puts).actual.get b = true ↔
        ∃ aKey ∈ puts.reverse.take k, ∃ x ∈ aKey, x % aBits = b) ∧
    ∀ aKey ∈ puts.reverse.take (aRotate.toNat + 1),
      (run Filter.put (Filter.make aBits aRotate) puts).check aKey = true := by
  set f := run Filter.put (Filter.make aBits aRotate) puts
  have hwindow := (Window.make hpos hbytes aRotate).run hrotate puts
  have hm : f.mRotate = aRotate := run_mRotate _ puts
  rw [List.append_nil] at hwindow
  obtain ⟨⟨hactive, -⟩, ⟨hcounter, -⟩, -, k, hk, hactual, hphase⟩ := hwindow
  change f.counter.toNat ≤ f.mRotate.toNat at hcounter
  change k = _ ∧ k = f.counter.toNat ∨ k = f.mRotate.toNat + 1 + f.counter.toNat at hphase
  rw [List.length_reverse] at hk hphase
  rw [hm] at hcounter hphase
  have hlower : min puts.length (aRotate.toNat + 1) ≤ k := by omega
  refine ⟨⟨k, hk, hlower, by omega, hactual⟩, ?_⟩
  intro aKey hmem
  apply hactive.test hactual
  rw [List.take_eq_take_min, List.length_reverse, Nat.min_comm] at hmem
  exact List.take_subset_take_left _ hlower hmem

/-- Eight bits and phases of two puts: after three of them the first key's bits
are still in the active set. -/
theorem filter_window_three :
    let f := run Filter.put (Filter.make 8 1) [[1, 2], [3], [12]]
    (0 < (8 : UInt32) ∧ 8 ∣ (8 : UInt32).toNat ∧ (1 : UInt32).toNat < 2 ^ 32 - 1) ∧
    ((∃ k ≤ 3, min 3 ((1 : UInt32).toNat + 1) ≤ k ∧ k ≤ 2 * (1 : UInt32).toNat + 1 ∧
      ∀ b, f.actual.get b = true ↔
        ∃ aKey ∈ ([[1, 2], [3], [12]] : List (List UInt32)).reverse.take k,
          ∃ x ∈ aKey, x % 8 = b) ∧
    ∀ aKey ∈ ([[1, 2], [3], [12]] : List (List UInt32)).reverse.take ((1 : UInt32).toNat + 1),
      f.check aKey = true) ∧
    f.check [1, 2] = true ∧ f.check [7] = false := by
  intro f
  exact ⟨⟨by decide, by decide, by decide⟩,
    filter_window 8 1 (by decide) (by decide) (by decide) [[1, 2], [3], [12]],
    by decide, by decide⟩

end Stuff.BloomFilter
