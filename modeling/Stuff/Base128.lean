import Stuff.MachineWords

/-!
# Numbers as groups of seven bits

The lowest group comes first, and every byte but the last has its high bit set. A number
has many such forms; the shortest one has no zero group at the end.
-/
namespace Stuff.Base128
open MachineWords

/-- The bytes are a form of the number. -/
inductive Form : Bytes → ℕ → Prop
  | last {b : UInt8} : b.toNat < 128 → Form [b] b.toNat
  | more {b : UInt8} {bs : Bytes} {n : ℕ} :
      128 ≤ b.toNat → Form bs n → Form (b :: bs) (b.toNat % 128 + 128 * n)

/-- The shortest form. -/
def shortest (n : ℕ) : Bytes :=
  if n < 128 then [UInt8.ofNat n] else UInt8.ofNat (n % 128 + 128) :: shortest (n / 128)

theorem Form.ne_nil {bs : Bytes} {n : ℕ} (h : Form bs n) : bs ≠ [] := by
  cases h <;> exact List.cons_ne_nil _ _

theorem Form.lt {bs : Bytes} {n : ℕ} (h : Form bs n) : n < 128 ^ bs.length := by
  induction h with
  | last hb => simpa using hb
  | more hb _ ih =>
      rw [List.length_cons, Nat.pow_succ]
      omega

theorem Form.length_pos {bs : Bytes} {n : ℕ} (h : Form bs n) : 0 < bs.length :=
  List.length_pos_of_ne_nil h.ne_nil

theorem shortest_of_lt {n : ℕ} (hn : n < 128) : shortest n = [UInt8.ofNat n] := by
  rw [shortest, if_pos hn]

theorem shortest_of_le {n : ℕ} (hn : 128 ≤ n) :
    shortest n = UInt8.ofNat (n % 128 + 128) :: shortest (n / 128) := by
  rw [shortest, if_neg (by omega)]

theorem form_shortest (n : ℕ) : Form (shortest n) n := by
  induction n using shortest.induct with
  | case1 n hn =>
      have hbyte : (UInt8.ofNat n).toNat = n := by
        rw [UInt8.toNat_ofNat']
        omega
      have hform := Form.last (b := UInt8.ofNat n) (by omega)
      rw [hbyte] at hform
      rwa [shortest_of_lt hn]
  | case2 n hn ih =>
      have hbyte : (UInt8.ofNat (n % 128 + 128)).toNat = n % 128 + 128 := by
        rw [UInt8.toNat_ofNat']
        omega
      have hsum : n = (n % 128 + 128) % 128 + 128 * (n / 128) := by omega
      have hform := Form.more (b := UInt8.ofNat (n % 128 + 128)) (by omega) ih
      rw [hbyte, ← hsum] at hform
      rwa [shortest_of_le (by omega)]

/-- No form of a number is shorter than the shortest form of a smaller one. -/
theorem Form.shortest_le {bs : Bytes} {m n : ℕ} (h : Form bs m) (hle : n ≤ m) :
    (shortest n).length ≤ bs.length := by
  induction h generalizing n with
  | last hb =>
      rw [shortest_of_lt (by omega)]
      rfl
  | @more b bs m hb hform ih =>
      by_cases hn : n < 128
      · rw [shortest_of_lt hn]
        exact hform.length_pos.trans_le (Nat.le_succ _)
      · rw [shortest_of_le (by omega), List.length_cons, List.length_cons]
        exact Nat.succ_le_succ (ih (by omega))

theorem length_shortest_congr {m n : ℕ} (h : m / 128 = n / 128) :
    (shortest m).length = (shortest n).length := by
  by_cases hm : m < 128
  · rw [shortest_of_lt hm, shortest_of_lt (by omega)]
    rfl
  · rw [shortest_of_le (by omega), shortest_of_le (n := n) (by omega), List.length_cons,
      List.length_cons, h]

theorem length_shortest_le {k n : ℕ} (hk : 0 < k) (hn : n < 128 ^ k) :
    (shortest n).length ≤ k := by
  induction k generalizing n with
  | zero => exact absurd hk (lt_irrefl 0)
  | succ k ih =>
      by_cases hsmall : n < 128
      · rw [shortest_of_lt hsmall]
        exact hk
      · have hpos : 0 < k := by
          rcases Nat.eq_zero_or_pos k with rfl | hpos
          · exact absurd hn hsmall
          · exact hpos
        rw [shortest_of_le (by omega), List.length_cons]
        rw [Nat.pow_succ] at hn
        exact Nat.succ_le_succ (ih hpos (by omega))

/-! ## The bits of a byte -/

theorem toNat_and_7f (b : UInt8) : (b &&& 0x7f).toNat = b.toNat % 128 :=
  Nat.and_two_pow_sub_one_eq_mod _ 7

theorem and_80_eq_zero (b : UInt8) : b &&& 0x80 = 0 ↔ b.toNat < 128 := by
  have hall : ∀ n < 256, UInt8.ofNat n &&& 0x80 = 0 ↔ n < 128 := by decide +kernel
  have hb := hall b.toNat b.toNat_lt
  rwa [UInt8.ofNat_toNat] at hb

theorem or_80 {n : ℕ} (hn : n < 128) : UInt8.ofNat n ||| 0x80 = UInt8.ofNat (n + 128) := by
  have hall : ∀ n < 128, UInt8.ofNat n ||| 0x80 = UInt8.ofNat (n + 128) := by decide +kernel
  exact hall n hn

/-- A group and the ones above it, shifted into a word. -/
theorem ofNat_groups (w n s : ℕ) {x : ℕ} (hx : x < 128) :
    BitVec.ofNat w x <<< s ||| BitVec.ofNat w n <<< (s + 7) =
      BitVec.ofNat w (x + 128 * n) <<< s := by
  have hsum : x + 128 * n = x ||| n <<< 7 := by
    rw [Nat.or_comm, ← Nat.shiftLeft_add_eq_or_of_lt (i := 7) hx, Nat.shiftLeft_eq]
    omega
  have hshift : BitVec.ofNat w (n <<< 7) = BitVec.ofNat w n <<< 7 := by
    apply BitVec.eq_of_toNat_eq
    rw [BitVec.toNat_ofNat, BitVec.toNat_shiftLeft, BitVec.toNat_ofNat, Nat.shiftLeft_eq,
      Nat.shiftLeft_eq, Nat.mod_mul_mod]
  rw [hsum, BitVec.ofNat_or, BitVec.shiftLeft_or_distrib, hshift, ← BitVec.shiftLeft_add,
    Nat.add_comm 7]

end Stuff.Base128
