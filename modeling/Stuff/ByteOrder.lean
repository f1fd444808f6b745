import Stuff.MachineWords

/-!
# Big and little ends

The bytes of a number, the most significant one first, and back. The memory image of
a number on a little-endian host has them in the other order.
-/
namespace Stuff.ByteOrder
open MachineWords

def bigEndian : ℕ → ℕ → Bytes
  | 0, _ => []
  | n + 1, x => bigEndian n (x / 256) ++ [UInt8.ofNat x]

def ofBigEndian (bs : Bytes) : ℕ := bs.foldl (fun x b => x * 256 + b.toNat) 0

def littleEndian (n x : ℕ) : Bytes := (bigEndian n x).reverse

def ofLittleEndian (bs : Bytes) : ℕ := ofBigEndian bs.reverse

@[simp] theorem length_bigEndian (n x : ℕ) : (bigEndian n x).length = n := by
  induction n generalizing x with
  | zero => rfl
  | succ n ih => simp [bigEndian, ih]

@[simp] theorem length_littleEndian (n x : ℕ) : (littleEndian n x).length = n := by
  simp [littleEndian]

theorem ofBigEndian_concat (bs : Bytes) (b : UInt8) :
    ofBigEndian (bs ++ [b]) = ofBigEndian bs * 256 + b.toNat := by
  simp [ofBigEndian]

theorem ofBigEndian_bigEndian {n x : ℕ} (hx : x < 256 ^ n) : ofBigEndian (bigEndian n x) = x := by
  induction n generalizing x with
  | zero =>
      have hzero : x = 0 := by simpa using hx
      rw [hzero]
      rfl
  | succ n ih =>
      have hdiv : x / 256 < 256 ^ n := by
        rw [Nat.div_lt_iff_lt_mul (by decide), ← pow_succ]
        exact hx
      rw [bigEndian, ofBigEndian_concat, ih hdiv]
      simp only [UInt8.toNat_ofNat']
      omega

theorem ofBigEndian_lt (bs : Bytes) : ofBigEndian bs < 256 ^ bs.length := by
  induction bs using List.reverseRecOn with
  | nil => exact Nat.one_pos
  | append_singleton bs b ih =>
      have hb := b.toNat_lt
      rw [ofBigEndian_concat, List.length_append, List.length_singleton, pow_succ]
      omega

theorem bigEndian_ofBigEndian (bs : Bytes) : bigEndian bs.length (ofBigEndian bs) = bs := by
  induction bs using List.reverseRecOn with
  | nil => rfl
  | append_singleton bs b ih =>
      have hb := b.toNat_lt
      have hdiv : (ofBigEndian bs * 256 + b.toNat) / 256 = ofBigEndian bs := by omega
      have hbyte : UInt8.ofNat (ofBigEndian bs * 256 + b.toNat) = b := by
        rw [← UInt8.toNat_inj, UInt8.toNat_ofNat']
        omega
      rw [ofBigEndian_concat, List.length_append, List.length_singleton, bigEndian, hdiv, ih,
        hbyte]

theorem ofLittleEndian_littleEndian {n x : ℕ} (hx : x < 256 ^ n) :
    ofLittleEndian (littleEndian n x) = x := by
  rw [ofLittleEndian, littleEndian, List.reverse_reverse, ofBigEndian_bigEndian hx]

end Stuff.ByteOrder
