import Mathlib.Data.UInt
import Mathlib.Tactic.Ring

/-!
# Unsigned 32-bit counters and byte order

Counters are `UInt32`, so every addition and subtraction wraps as in the
source. The lemmas here give the exact result when no wrap happens. Byte order
is arithmetic on the four byte digits, which keeps round trips in `omega`.
-/
namespace Stuff.MachineWords

/-- The contents of a `std::string`. -/
abbrev Bytes := List UInt8

/-- The bytes of an ASCII text. -/
def ascii (text : String) : Bytes := text.toList.map fun c => UInt8.ofNat c.toNat

theorem toNat_sub_ofNat {b : UInt32} {n : ℕ} (h : n ≤ b.toNat) :
    (b - UInt32.ofNat n).toNat = b.toNat - n := by
  have hb := b.toNat_lt
  rw [UInt32.toNat_sub, UInt32.toNat_ofNat']
  omega

theorem toNat_add_of_lt {a b : UInt32} (h : a.toNat + b.toNat < 2 ^ 32) :
    (a + b).toNat = a.toNat + b.toNat := by
  rw [UInt32.toNat_add]
  omega

theorem toNat_add_le (a b : UInt32) : (a + b).toNat ≤ a.toNat + b.toNat := by
  rw [UInt32.toNat_add]
  exact Nat.mod_le _ _

theorem toNat_shift6 (a : UInt32) : (a <<< 6).toNat = a.toNat % 2 ^ 26 * 64 := by
  rw [UInt32.toNat_shiftLeft, Nat.shiftLeft_eq]
  change a.toNat * 2 ^ 6 % 2 ^ 32 = _
  omega

/-- Six bits are put behind the others. -/
theorem toNat_shift6_or (a : UInt32) {b : UInt32} (hb : b.toNat < 64) :
    (a <<< 6 ||| b).toNat = a.toNat % 2 ^ 26 * 64 + b.toNat := by
  have hshift : (a <<< 6).toNat = (a.toNat % 2 ^ 26) <<< 6 := by
    rw [toNat_shift6, Nat.shiftLeft_eq]
  rw [UInt32.toNat_or, hshift, ← Nat.shiftLeft_add_eq_or_of_lt (show b.toNat < 2 ^ 6 from hb),
    Nat.shiftLeft_eq]

/-- The difference of two values of type `size_t`. -/
def sizeSub (a b : ℕ) : ℕ := (a + (2 ^ 64 - b)) % 2 ^ 64

theorem sizeSub_of_le {a b : ℕ} (h : b ≤ a) (ha : a < 2 ^ 64) : sizeSub a b = a - b := by
  unfold sizeSub
  omega

/-- A word from its four bytes, least significant first: the value that a
little-endian host sees at these addresses. -/
def word (a b c d : UInt8) : ℕ :=
  a.toNat + b.toNat * 2 ^ 8 + c.toNat * 2 ^ 16 + d.toNat * 2 ^ 24

/-- Byte `i` of a value, counted from the least significant one. -/
def digit (x i : ℕ) : UInt8 := UInt8.ofNat (x / 2 ^ (8 * i))

@[simp] theorem toNat_digit (x i : ℕ) : (digit x i).toNat = x / 2 ^ (8 * i) % 256 := by
  simp [digit]

/-- `htobe32` and `be32toh` on a little-endian host: both reverse the bytes. -/
def byteSwap (x : ℕ) : ℕ := word (digit x 3) (digit x 2) (digit x 1) (digit x 0)

theorem word_lt (a b c d : UInt8) : word a b c d < 2 ^ 32 := by
  have ha := a.toNat_lt
  have hb := b.toNat_lt
  have hc := c.toNat_lt
  have hd := d.toNat_lt
  unfold word
  omega

@[simp] theorem word_digits {x : ℕ} (hx : x < 2 ^ 32) :
    word (digit x 0) (digit x 1) (digit x 2) (digit x 3) = x := by
  simp only [word, toNat_digit]
  omega

@[simp] theorem digit_word_zero (a b c d : UInt8) : digit (word a b c d) 0 = a := by
  have ha := a.toNat_lt
  rw [← UInt8.toNat_inj, toNat_digit, word]
  omega

@[simp] theorem digit_word_one (a b c d : UInt8) : digit (word a b c d) 1 = b := by
  have ha := a.toNat_lt
  have hb := b.toNat_lt
  rw [← UInt8.toNat_inj, toNat_digit, word]
  omega

@[simp] theorem digit_word_two (a b c d : UInt8) : digit (word a b c d) 2 = c := by
  have ha := a.toNat_lt
  have hb := b.toNat_lt
  have hc := c.toNat_lt
  rw [← UInt8.toNat_inj, toNat_digit, word]
  omega

@[simp] theorem digit_word_three (a b c d : UInt8) : digit (word a b c d) 3 = d := by
  have ha := a.toNat_lt
  have hb := b.toNat_lt
  have hc := c.toNat_lt
  have hd := d.toNat_lt
  rw [← UInt8.toNat_inj, toNat_digit, word]
  omega

theorem byteSwap_lt (x : ℕ) : byteSwap x < 2 ^ 32 := word_lt _ _ _ _

theorem byteSwap_byteSwap {x : ℕ} (hx : x < 2 ^ 32) : byteSwap (byteSwap x) = x := by
  simp only [byteSwap, digit_word_zero, digit_word_one, digit_word_two, digit_word_three,
    word_digits hx]

/-- A 24-bit value leaves the lowest byte of its swapped word clear. -/
theorem byteSwap_mod {x : ℕ} (hx : x < 2 ^ 24) : byteSwap x % 2 ^ 8 = 0 := by
  have h₃ : digit x 3 = 0 := by
    rw [digit, Nat.div_eq_of_lt (by simpa using hx)]
    rfl
  rw [byteSwap, h₃, word, UInt8.toNat_zero]
  omega

end Stuff.MachineWords
