import Stuff.MachineWords
import Mathlib.Tactic.IntervalCases

/-!
# HTTP/2 frames

The constants, the frame header and its memory image. A header is kept in host
order; `toNet` and `toHost` change the byte order of its two integer fields as
the source does before a header is copied out of, or into, a buffer. A `Frame`
is one element of the send queues: a header in front of its payload.
-/
namespace Stuff.Http2Frames
open MachineWords

/-- Any received byte is a value of the 8-bit enumeration, so the codes
without a name are values too. -/
inductive FrameType
  | data
  | headers
  | priority
  | rst
  | settings
  | pushPromise
  | ping
  | goaway
  | windowUpdate
  | continuation
  | reserved (code : UInt8) (h : 9 < code)
deriving DecidableEq, Repr

def FrameType.toByte : FrameType → UInt8
  | data => 0
  | headers => 1
  | priority => 2
  | rst => 3
  | settings => 4
  | pushPromise => 5
  | ping => 6
  | goaway => 7
  | windowUpdate => 8
  | continuation => 9
  | reserved code _ => code

def FrameType.ofByte (b : UInt8) : FrameType :=
  if h : 9 < b then .reserved b h else
    match b.toNat with
    | 0 => .data
    | 1 => .headers
    | 2 => .priority
    | 3 => .rst
    | 4 => .settings
    | 5 => .pushPromise
    | 6 => .ping
    | 7 => .goaway
    | 8 => .windowUpdate
    | _ => .continuation

@[simp] theorem FrameType.ofByte_toByte (t : FrameType) : ofByte t.toByte = t := by
  cases t with
  | reserved code h => simp [toByte, ofByte, h]
  | _ => rfl

def concurrentStreams : ℕ := 100
def minFrameSize : ℕ := 4096
def maxStreamExclusive : ℕ := 131072
def defaultMaxFrameSize : ℕ := 16384

/-- Every flow-control window, of a stream or of the connection, starts here. -/
def defaultWindowSize : UInt32 := 65535

@[simp] theorem defaultWindowSize_toNat : defaultWindowSize.toNat = 65535 := rfl

namespace Flags

def ackSettings : UInt8 := 0x1
def endStream : UInt8 := 0x1
def endHeaders : UInt8 := 0x4
def padded : UInt8 := 0x8
def priority : UInt8 := 0x20

end Flags

structure Header where
  size : BitVec 24 := 0
  type : FrameType := .data
  flags : UInt8 := 0
  stream : UInt32 := 0
deriving DecidableEq, Repr

namespace Header

def has (h : Header) (flag : UInt8) : Bool := h.flags &&& flag != 0

def toHost (h : Header) : Header :=
  { h with
    size := BitVec.ofNat 24 (byteSwap (h.size.toNat * 2 ^ 8 % 2 ^ 32))
    stream := UInt32.ofNat (byteSwap h.stream.toNat) }

def toNet (h : Header) : Header :=
  { h with
    size := BitVec.ofNat 24 (byteSwap h.size.toNat / 2 ^ 8)
    stream := UInt32.ofNat (byteSwap h.stream.toNat) }

/-- The packed structure in memory on a little-endian host. -/
def image (h : Header) : Bytes :=
  [digit h.size.toNat 0, digit h.size.toNat 1, digit h.size.toNat 2, h.type.toByte, h.flags,
    digit h.stream.toNat 0, digit h.stream.toNat 1, digit h.stream.toNat 2,
    digit h.stream.toNat 3]

/-- `sizeof(Header)`. -/
def sizeOf : ℕ := 9

@[simp] theorem image_length (h : Header) : h.image.length = sizeOf := rfl

/-- `reinterpret_cast` of a buffer to a header, defined on buffers of its size. -/
def ofImage : Bytes → Option Header
  | [a, b, c, t, f, s₀, s₁, s₂, s₃] =>
      some ⟨BitVec.ofNat 24 (word a b c 0), .ofByte t, f, UInt32.ofNat (word s₀ s₁ s₂ s₃)⟩
  | _ => none

@[simp] theorem ofImage_image (h : Header) : ofImage h.image = some h := by
  have hs := h.size.isLt
  have ht := h.stream.toNat_lt
  have h₂₄ : word (digit h.size.toNat 0) (digit h.size.toNat 1) (digit h.size.toNat 2) 0 =
      h.size.toNat := by
    simp only [word, toNat_digit, UInt8.toNat_zero]
    omega
  simp only [image, ofImage, h₂₄, word_digits ht, FrameType.ofByte_toByte,
    BitVec.ofNat_toNat, UInt32.ofNat_toNat, BitVec.setWidth_eq]

/-- The size passes through the upper three bytes of a swapped 32-bit word. -/
theorem swapped_size (n : BitVec 24) :
    BitVec.ofNat 24 (byteSwap ((BitVec.ofNat 24 (byteSwap n.toNat / 2 ^ 8)).toNat * 2 ^ 8 %
      2 ^ 32)) = n := by
  have hn := n.isLt
  have hlow := byteSwap_mod hn
  have hlt := byteSwap_lt n.toNat
  have heq : byteSwap n.toNat / 2 ^ 8 % 2 ^ 24 * 2 ^ 8 % 2 ^ 32 = byteSwap n.toNat := by omega
  apply BitVec.eq_of_toNat_eq
  rw [BitVec.toNat_ofNat, BitVec.toNat_ofNat, heq, byteSwap_byteSwap (by omega),
    Nat.mod_eq_of_lt hn]

theorem swapped_stream (s : UInt32) :
    UInt32.ofNat (byteSwap (UInt32.ofNat (byteSwap s.toNat)).toNat) = s := by
  rw [UInt32.toNat_ofNat', Nat.mod_eq_of_lt (byteSwap_lt _), byteSwap_byteSwap s.toNat_lt,
    UInt32.ofNat_toNat]

/-- The two byte-order changes are inverse to each other on every header. -/
@[simp] theorem toHost_toNet (h : Header) : h.toNet.toHost = h := by
  cases h with
  | mk size type flags stream =>
      unfold toNet toHost
      congr 1
      · exact swapped_size size
      · exact swapped_stream stream

end Header

/-- One element of a send queue. The source keeps the header already in
network order; the model keeps the two parts apart, `bytes` joins them. -/
structure Frame where
  header : Header
  payload : Bytes
deriving DecidableEq, Repr

namespace Frame

def bytes (f : Frame) : Bytes := f.header.toNet.image ++ f.payload

def stream (f : Frame) : UInt32 := f.header.stream

/-- A frame as it is assembled everywhere: the size field is the payload's
size, cut to the 24 bits of the field. -/
def make (type : FrameType) (flags : UInt8) (stream : UInt32) (payload : Bytes) : Frame :=
  ⟨⟨BitVec.ofNat 24 payload.length, type, flags, stream⟩, payload⟩

@[simp] theorem make_type (t : FrameType) (f : UInt8) (s : UInt32) (p : Bytes) :
    (make t f s p).header.type = t := rfl

@[simp] theorem make_flags (t : FrameType) (f : UInt8) (s : UInt32) (p : Bytes) :
    (make t f s p).header.flags = f := rfl

@[simp] theorem make_stream (t : FrameType) (f : UInt8) (s : UInt32) (p : Bytes) :
    (make t f s p).stream = s := rfl

@[simp] theorem make_header_stream (t : FrameType) (f : UInt8) (s : UInt32) (p : Bytes) :
    (make t f s p).header.stream = s := rfl

@[simp] theorem make_payload (t : FrameType) (f : UInt8) (s : UInt32) (p : Bytes) :
    (make t f s p).payload = p := rfl

end Frame

/-- The increment a WINDOW_UPDATE frame carries. -/
def increment (f : Frame) : ℕ :=
  match f.payload with
  | [a, b, c, d] => byteSwap (word a b c d)
  | _ => 0

/-- The client's connection preface, `"PRI * HTTP/2.0\r\n\r\nSM\r\n\r\n"`. -/
def preface : Bytes :=
  [0x50, 0x52, 0x49, 0x20, 0x2a, 0x20, 0x48, 0x54, 0x54, 0x50, 0x2f, 0x32, 0x2e, 0x30,
    0x0d, 0x0a, 0x0d, 0x0a, 0x53, 0x4d, 0x0d, 0x0a, 0x0d, 0x0a]

end Stuff.Http2Frames
