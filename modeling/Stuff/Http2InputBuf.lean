import Stuff.Http2Frames

/-!
# The input buffer

A buffer of fixed size with a window of unread bytes in it. The socket writes
behind the window, `append` takes bytes off its front, and `vacuum` moves it to
the start of the buffer. `contents` is what the window holds.
-/
namespace Stuff.Http2InputBuf
open MachineWords Http2Frames

/-- `n` bytes of a memory, from address `a` on. -/
def slice (data : ℕ → UInt8) (a n : ℕ) : Bytes := (List.range n).map fun i => data (a + i)

@[simp] theorem slice_length (data : ℕ → UInt8) (a n : ℕ) : (slice data a n).length = n := by
  simp [slice]

@[simp] theorem slice_zero (data : ℕ → UInt8) (a : ℕ) : slice data a 0 = [] := rfl

theorem slice_add (data : ℕ → UInt8) (a m n : ℕ) :
    slice data a (m + n) = slice data a m ++ slice data (a + m) n := by
  simp [slice, List.range_add, Nat.add_assoc, Function.comp_def]

theorem slice_congr {data data' : ℕ → UInt8} {a a' n : ℕ}
    (h : ∀ i < n, data (a + i) = data' (a' + i)) : slice data a n = slice data' a' n := by
  apply List.map_congr_left
  intro i hi
  exact h i (List.mem_range.mp hi)

def vacuumSize : ℕ := 16384

/-- The memory has `maxStreamExclusive` bytes; that no address beyond is used
follows from the bounds on the two positions. -/
structure InputBuf where
  data : ℕ → UInt8 := fun _ => 0
  readAt : ℕ := 0
  writeAt : ℕ := 0

namespace InputBuf

def writeAvail (b : InputBuf) : ℕ := sizeSub maxStreamExclusive b.writeAt

def readAvail (b : InputBuf) : ℕ := sizeSub b.writeAt b.readAt

def vacuum (b : InputBuf) : InputBuf :=
  let sAvail := b.readAvail
  { data := fun i => if i < sAvail then b.data (b.readAt + i) else b.data i
    readAt := 0
    writeAt := sAvail }

/-- `buffer` up to the view it returns, which is the `writeAvail` bytes from
`writeAt` on. -/
def buffer (b : InputBuf) : InputBuf :=
  if b.writeAvail < vacuumSize ∨ b.readAvail = 0 then b.vacuum else b

/-- The socket fills the start of the view that `buffer` returned. -/
def fill (b : InputBuf) (bytes : Bytes) : InputBuf :=
  { b with data := fun i =>
      if b.writeAt ≤ i ∧ i < b.writeAt + bytes.length then bytes.getD (i - b.writeAt) 0
      else b.data i }

def push (b : InputBuf) (aSize : ℕ) : InputBuf := { b with writeAt := b.writeAt + aSize }

/-- The string with the bytes appended, and whether it got all it wanted. -/
def append (b : InputBuf) (aStr : Bytes) (aSize : ℕ) : InputBuf × Bytes × Bool :=
  let sSize := min aSize b.readAvail
  ({ b with readAt := b.readAt + sSize }, aStr ++ slice b.data b.readAt sSize, aSize = sSize)

structure Bounds (b : InputBuf) : Prop where
  read : b.readAt ≤ b.writeAt
  write : b.writeAt ≤ maxStreamExclusive

/-- The unread bytes. -/
def contents (b : InputBuf) : Bytes := slice b.data b.readAt (b.writeAt - b.readAt)

variable {b : InputBuf}

theorem Bounds.writeAvail (h : Bounds b) : b.writeAvail = maxStreamExclusive - b.writeAt :=
  sizeSub_of_le h.write (by decide)

theorem Bounds.readAvail (h : Bounds b) : b.readAvail = b.writeAt - b.readAt := by
  have hwrite := h.write
  exact sizeSub_of_le h.read (by simp only [maxStreamExclusive] at hwrite; omega)

theorem vacuum_spec (h : Bounds b) :
    Bounds b.vacuum ∧ b.vacuum.contents = b.contents ∧
      b.vacuum.readAt = 0 ∧ b.vacuum.writeAt = b.writeAt - b.readAt := by
  have havail := h.readAvail
  have hwrite := h.write
  refine ⟨⟨Nat.zero_le _, ?_⟩, ?_, rfl, havail⟩
  · simp only [vacuum, havail]
    omega
  · simp only [contents, vacuum, havail, Nat.sub_zero]
    apply slice_congr
    intro i hi
    simp [hi]

/-- A call with nothing unread offers the whole memory. -/
theorem buffer_spec (h : Bounds b) (hempty : b.readAt = b.writeAt) :
    Bounds b.buffer ∧ b.buffer.contents = [] ∧ b.buffer.readAt = 0 ∧ b.buffer.writeAt = 0 := by
  have havail : b.readAvail = 0 := by rw [h.readAvail, hempty, Nat.sub_self]
  obtain ⟨hbounds, hcontents, hread, hwrite⟩ := vacuum_spec h
  rw [buffer, if_pos (.inr havail)]
  refine ⟨hbounds, ?_, hread, by rw [hwrite, hempty, Nat.sub_self]⟩
  rw [hcontents, contents, hempty, Nat.sub_self, slice_zero]

theorem slice_fill (b : InputBuf) (bytes : Bytes) :
    slice (b.fill bytes).data b.writeAt bytes.length = bytes := by
  apply List.ext_getElem
  · simp
  · intro i hi hi'
    simp [slice, fill, hi']

/-- What the socket wrote is read behind what was unread before. -/
theorem push_spec (h : Bounds b) {bytes : Bytes} (hlen : bytes.length ≤ b.writeAvail) :
    Bounds ((b.fill bytes).push bytes.length) ∧
      ((b.fill bytes).push bytes.length).contents = b.contents ++ bytes := by
  obtain ⟨hread, hwrite⟩ := h
  rw [Bounds.writeAvail ⟨hread, hwrite⟩] at hlen
  constructor
  · constructor <;> simp only [fill, push] <;> omega
  · have hsplit : b.writeAt + bytes.length - b.readAt = (b.writeAt - b.readAt) + bytes.length := by
      omega
    have hend : b.readAt + (b.writeAt - b.readAt) = b.writeAt := by omega
    change slice (b.fill bytes).data b.readAt (b.writeAt + bytes.length - b.readAt) = _
    rw [hsplit, slice_add, hend, slice_fill, contents]
    congr 1
    apply slice_congr
    intro i hi
    have hlt : ¬ b.writeAt ≤ b.readAt + i := by omega
    simp [fill, hlt]

/-- Bytes move from the front of the window to the end of the string. -/
theorem append_spec (h : Bounds b) (aStr : Bytes) (aSize : ℕ) :
    Bounds (b.append aStr aSize).1 ∧
    (b.append aStr aSize).2.1 ++ (b.append aStr aSize).1.contents = aStr ++ b.contents ∧
    ((b.append aStr aSize).2.2 = true → (b.append aStr aSize).2.1.length = aStr.length + aSize) ∧
    ((b.append aStr aSize).2.2 = false →
      (b.append aStr aSize).1.readAt = (b.append aStr aSize).1.writeAt ∧
      (b.append aStr aSize).2.1.length < aStr.length + aSize) := by
  have havail := h.readAvail
  obtain ⟨hread, hwrite⟩ := h
  have hle : min aSize b.readAvail ≤ b.writeAt - b.readAt := by omega
  have hsplit : b.writeAt - b.readAt =
      min aSize b.readAvail + (b.writeAt - (b.readAt + min aSize b.readAvail)) := by omega
  refine ⟨?_, ?_, ?_, ?_⟩
  · constructor <;> simp only [append] <;> omega
  · simp only [append, contents, List.append_assoc, List.append_cancel_left_eq]
    conv_rhs => rw [hsplit, slice_add]
  · intro hdone
    simp only [append, decide_eq_true_eq] at hdone
    simp only [append, List.length_append, slice_length]
    omega
  · intro hmore
    simp only [append, decide_eq_false_iff_not] at hmore
    simp only [append, List.length_append, slice_length]
    omega

end InputBuf
end Stuff.Http2InputBuf
