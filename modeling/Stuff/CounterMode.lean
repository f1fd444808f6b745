import Stuff.ByteOrder

/-!
# Counter mode

A block function makes a stream of bytes from the numbers that a counter of one block takes, one
after another, and a text is joined with the stream byte by byte. The counter runs around.
-/
namespace Stuff.CounterMode
open MachineWords ByteOrder

/-- The text with the stream from place `n` on. -/
def xorFrom (stream : ℕ → UInt8) : ℕ → Bytes → Bytes
  | _, [] => []
  | n, b :: bs => (b ^^^ stream n) :: xorFrom stream (n + 1) bs

/-- The block of `size` bytes with the number `counter + i`. -/
def counterBlock (size counter i : ℕ) : Bytes := bigEndian size ((counter + i) % 256 ^ size)

/-- The stream of a counter. -/
def keystream (E : Bytes → Bytes) (size counter n : ℕ) : UInt8 :=
  (E (counterBlock size counter (n / size))).getD (n % size) 0

section Stream
variable {stream stream' : ℕ → UInt8}

@[simp] theorem length_xorFrom (n : ℕ) (bs : Bytes) : (xorFrom stream n bs).length = bs.length := by
  induction bs generalizing n with
  | nil => rfl
  | cons b bs ih => rw [xorFrom, List.length_cons, List.length_cons, ih]

theorem xorFrom_append (n : ℕ) (as bs : Bytes) :
    xorFrom stream n (as ++ bs) = xorFrom stream n as ++ xorFrom stream (n + as.length) bs := by
  induction as generalizing n with
  | nil => rfl
  | cons a as ih =>
      have hplace : n + (a :: as).length = n + 1 + as.length := by
        rw [List.length_cons]
        omega
      rw [List.cons_append, xorFrom, ih, xorFrom, List.cons_append, hplace]

/-- Joining twice with the same stream is no change. -/
theorem xorFrom_xorFrom (n : ℕ) (bs : Bytes) :
    xorFrom stream n (xorFrom stream n bs) = bs := by
  induction bs generalizing n with
  | nil => rfl
  | cons b bs ih => rw [xorFrom, xorFrom, ih, UInt8.xor_assoc, UInt8.xor_self, UInt8.xor_zero]

theorem xorFrom_congr {n m : ℕ} (h : ∀ i, stream (n + i) = stream' (m + i)) (bs : Bytes) :
    xorFrom stream n bs = xorFrom stream' m bs := by
  induction bs generalizing n m with
  | nil => rfl
  | cons b bs ih =>
      have hrest : ∀ i, stream (n + 1 + i) = stream' (m + 1 + i) := by
        intro i
        have hnext := h (1 + i)
        rwa [← Nat.add_assoc, ← Nat.add_assoc] at hnext
      have hhead : stream n = stream' m := h 0
      rw [xorFrom, xorFrom, ih hrest, hhead]

/-- A piece of the joined text is the joined piece. -/
theorem take_drop_xorFrom (as bs cs : Bytes) :
    ((xorFrom stream 0 (as ++ bs ++ cs)).drop as.length).take bs.length =
      xorFrom stream as.length bs := by
  have hdrop : (xorFrom stream 0 as).length = as.length := length_xorFrom 0 as
  have htake : (xorFrom stream as.length bs).length = bs.length := length_xorFrom as.length bs
  rw [List.append_assoc, xorFrom_append, ← hdrop, List.drop_left, hdrop, Nat.zero_add,
    xorFrom_append, ← htake, List.take_left]

end Stream

theorem counterBlock_add (size counter k i : ℕ) :
    counterBlock size ((counter + k) % 256 ^ size) i = counterBlock size counter (k + i) := by
  rw [counterBlock, counterBlock, Nat.mod_add_mod, Nat.add_assoc]

/-- A counter that has been moved on by `k` blocks gives the stream from there on. -/
theorem keystream_add (E : Bytes → Bytes) {size : ℕ} (hsize : 0 < size) (counter k i : ℕ) :
    keystream E size ((counter + k) % 256 ^ size) i = keystream E size counter (k * size + i) := by
  have hdiv : (k * size + i) / size = k + i / size := by
    rw [Nat.add_comm, Nat.add_mul_div_right _ _ hsize, Nat.add_comm]
  have hmod : (k * size + i) % size = i % size := Nat.mul_add_mod' k size i
  rw [keystream, keystream, counterBlock_add, hdiv, hmod]

end Stuff.CounterMode
