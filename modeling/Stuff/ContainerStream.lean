import Stuff.MachineWords

/-!
# Reading from a buffer in memory

`Container::imemstream`: a read position in a fixed buffer. Each access first
checks that the requested bytes remain; the check adds two `size_t` values.
-/
namespace Stuff.ContainerStream
open MachineWords

structure Imemstream where
  data : Bytes
  offset : ℕ := 0

namespace Imemstream

def endOfBuffer : String := "Premature end of buffer"

/-- Whether `ensure(aSize)` returns instead of throwing. -/
def ensure (s : Imemstream) (n : ℕ) : Prop := (n + s.offset) % 2 ^ 64 ≤ s.data.length

instance (s : Imemstream) (n : ℕ) : Decidable (s.ensure n) := inferInstanceAs (Decidable (_ ≤ _))

/-- `substring`, and `read` with the copied bytes as its value. -/
def substring (s : Imemstream) (n : ℕ) : Except String (Bytes × Imemstream) :=
  if s.ensure n then
    .ok ((s.data.drop s.offset).take n, { s with offset := (s.offset + n) % 2 ^ 64 })
  else .error endOfBuffer

def skip (s : Imemstream) (n : ℕ) : Except String Imemstream :=
  (s.substring n).map Prod.snd

def rest (s : Imemstream) : Except String (Bytes × Imemstream) :=
  s.substring (s.data.length - s.offset)

def unget (s : Imemstream) : Except String Imemstream :=
  if s.offset = 0 then .error endOfBuffer else .ok { s with offset := s.offset - 1 }

def eof (s : Imemstream) : Bool := s.data.length ≤ s.offset

/-- `substr_at`. The second check is the one of `std::string_view::substr`. -/
def substrAt (s : Imemstream) (aOffset aSize : ℕ) : Except String Bytes :=
  if s.data.length < (aSize + aOffset) % 2 ^ 64 then .error endOfBuffer
  else if s.data.length < aOffset then .error "basic_string_view::substr"
  else .ok ((s.data.drop aOffset).take aSize)

theorem substrAt_of_le {s : Imemstream} {aOffset aSize : ℕ}
    (h : aOffset + aSize ≤ s.data.length) (hsize : s.data.length < 2 ^ 64) :
    s.substrAt aOffset aSize = .ok ((s.data.drop aOffset).take aSize) := by
  rw [substrAt, if_neg (by omega), if_neg (by omega)]

theorem substring_of_le {s : Imemstream} {n : ℕ} (h : s.offset + n ≤ s.data.length)
    (hsize : s.data.length < 2 ^ 64) :
    s.substring n = .ok ((s.data.drop s.offset).take n, { s with offset := s.offset + n }) := by
  have hmod : (n + s.offset) % 2 ^ 64 = n + s.offset := Nat.mod_eq_of_lt (by omega)
  have hmod' : (s.offset + n) % 2 ^ 64 = s.offset + n := Nat.mod_eq_of_lt (by omega)
  have hensure : s.ensure n := by
    unfold ensure
    omega
  rw [substring, if_pos hensure, hmod']

theorem substring_of_lt {s : Imemstream} {n : ℕ} (h : s.data.length < s.offset + n)
    (hsize : s.offset + n < 2 ^ 64) : s.substring n = .error endOfBuffer := by
  have hensure : ¬ s.ensure n := by
    unfold ensure
    omega
  rw [substring, if_neg hensure]

theorem skip_of_le {s : Imemstream} {n : ℕ} (h : s.offset + n ≤ s.data.length)
    (hsize : s.data.length < 2 ^ 64) : s.skip n = .ok { s with offset := s.offset + n } := by
  rw [skip, substring_of_le h hsize]
  rfl

theorem skip_of_lt {s : Imemstream} {n : ℕ} (h : s.data.length < s.offset + n)
    (hsize : s.offset + n < 2 ^ 64) : s.skip n = .error endOfBuffer := by
  rw [skip, substring_of_lt h hsize]
  rfl

theorem rest_of_le {s : Imemstream} (h : s.offset ≤ s.data.length)
    (hsize : s.data.length < 2 ^ 64) :
    s.rest = .ok (s.data.drop s.offset, { s with offset := s.data.length }) := by
  have hsum : s.offset + (s.data.length - s.offset) = s.data.length := by omega
  rw [rest, substring_of_le (by omega) hsize, hsum]
  congr 2
  exact List.take_of_length_le (by simp)

end Imemstream
end Stuff.ContainerStream
