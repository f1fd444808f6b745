import Stuff.Http2Parser

/-!
# The reserved bit

A stream id and the increment of a window have 31 bits in a field of 32. The first bit is reserved;
whoever sends it leaves it clear, and whoever receives it should not look at it.
-/
namespace Stuff.Http2ReservedBit
open MachineWords Http2Frames Http2Hpack Http2Parser Main

variable {N : Nghttp2} {M : Type}

/-- The fields of a frame header, each with its most significant byte first. -/
def wire (h : Header) : Bytes :=
  [digit h.size.toNat 2, digit h.size.toNat 1, digit h.size.toNat 0, h.type.toByte, h.flags,
    digit h.stream.toNat 3, digit h.stream.toNat 2, digit h.stream.toNat 1,
    digit h.stream.toNat 0]

/-- The value of four such bytes, without the first bit. -/
def low31 (a b c d : UInt8) : ℕ :=
  a.toNat % 2 ^ 7 * 2 ^ 24 + b.toNat * 2 ^ 16 + c.toNat * 2 ^ 8 + d.toNat

theorem byteSwap_word (a b c d : UInt8) : byteSwap (word a b c d) = word d c b a := by
  simp only [byteSwap, digit_word_zero, digit_word_one, digit_word_two, digit_word_three]

/-- The bytes of a swapped word. -/
theorem digit_byteSwap (x : ℕ) :
    digit (byteSwap x) 0 = digit x 3 ∧ digit (byteSwap x) 1 = digit x 2 ∧
      digit (byteSwap x) 2 = digit x 1 ∧ digit (byteSwap x) 3 = digit x 0 := by
  simp only [byteSwap, digit_word_zero, digit_word_one, digit_word_two, digit_word_three, and_self]

/-- The three bytes of the bit-field are those behind the lowest one. -/
theorem digit_shifted (x : ℕ) :
    digit (x / 2 ^ 8 % 2 ^ 24) 0 = digit x 1 ∧ digit (x / 2 ^ 8 % 2 ^ 24) 1 = digit x 2 ∧
      digit (x / 2 ^ 8 % 2 ^ 24) 2 = digit x 3 := by
  refine ⟨?_, ?_, ?_⟩
  · rw [← UInt8.toNat_inj, toNat_digit, toNat_digit]
    omega
  · rw [← UInt8.toNat_inj, toNat_digit, toNat_digit]
    omega
  · rw [← UInt8.toNat_inj, toNat_digit, toNat_digit]
    omega

theorem image_toNet (h : Header) : h.toNet.image = wire h := by
  obtain ⟨-, h₁, h₂, h₃⟩ := digit_byteSwap h.size.toNat
  obtain ⟨g₀, g₁, g₂, g₃⟩ := digit_byteSwap h.stream.toNat
  obtain ⟨k₀, k₁, k₂⟩ := digit_shifted (byteSwap h.size.toNat)
  have hsize : (BitVec.ofNat 24 (byteSwap h.size.toNat / 2 ^ 8)).toNat =
      byteSwap h.size.toNat / 2 ^ 8 % 2 ^ 24 := BitVec.toNat_ofNat _ _
  have hstream : (UInt32.ofNat (byteSwap h.stream.toNat)).toNat = byteSwap h.stream.toNat := by
    rw [UInt32.toNat_ofNat', Nat.mod_eq_of_lt (byteSwap_lt _)]
  unfold Header.image Header.toNet wire
  dsimp only
  rw [hsize, hstream, k₀, k₁, k₂, h₁, h₂, h₃, g₀, g₁, g₂, g₃]

/-- The first bit of the field of four bytes decides. -/
theorem word_eq_low31_iff (a b c d : UInt8) : word d c b a = low31 a b c d ↔ a < 0x80 := by
  have ha := a.toNat_lt
  have hlt : a < 0x80 ↔ a.toNat < 128 := UInt8.lt_iff_toNat_lt
  rw [hlt, word, low31]
  constructor
  · intro h
    by_contra hge
    omega
  · intro h
    omega

/-- The stream of a header that is received. -/
theorem recvHeader_stream (m : Main N M) (s₀ s₁ s₂ t f a b c d : UInt8) :
    (m.recvHeader [s₀, s₁, s₂, t, f, a, b, c, d]).main.header.stream.toNat = word d c b a := by
  have hword : (UInt32.ofNat (word a b c d)).toNat = word a b c d := by
    rw [UInt32.toNat_ofNat', Nat.mod_eq_of_lt (word_lt a b c d)]
  have hstream : (m.recvHeader [s₀, s₁, s₂, t, f, a, b, c, d]).main.header.stream =
      UInt32.ofNat (byteSwap (UInt32.ofNat (word a b c d)).toNat) := rfl
  rw [hstream, hword, byteSwap_word, UInt32.toNat_ofNat', Nat.mod_eq_of_lt (word_lt d c b a)]

/-- The mask has more bits than the increment. -/
theorem processWindowUpdate_calls (m : Main N M) {a b c d : UInt8} (hbody : m.body = [a, b, c, d]) :
    m.processWindowUpdate.calls =
      [.windowUpdate m.header.stream (UInt32.ofNat (word d c b a))] := by
  have hmask : word d c b a &&& 0x7FFFFFFFFFFFFFFF = word d c b a := by
    have hlt := word_lt d c b a
    change word d c b a &&& (2 ^ 63 - 1) = word d c b a
    rw [Nat.and_two_pow_sub_one_eq_mod]
    omega
  rw [processWindowUpdate, hbody]
  dsimp only
  rw [byteSwap_word, hmask]

theorem windowUpdate_iff (m : Main N M) {a b c d : UInt8} (hbody : m.body = [a, b, c, d]) :
    m.processWindowUpdate.calls =
        [.windowUpdate m.header.stream (UInt32.ofNat (low31 a b c d))] ↔ a < 0x80 := by
  have hlow : low31 a b c d < 2 ^ 32 := by
    have hb := b.toNat_lt
    have hc := c.toNat_lt
    have hd := d.toNat_lt
    unfold low31
    omega
  rw [processWindowUpdate_calls m hbody, ← word_eq_low31_iff]
  simp only [List.cons.injEq, and_true, ApiCall.windowUpdate.injEq, true_and]
  constructor
  · intro heq
    have hnat := congrArg UInt32.toNat heq
    rwa [UInt32.toNat_ofNat', UInt32.toNat_ofNat', Nat.mod_eq_of_lt (word_lt d c b a),
      Nat.mod_eq_of_lt hlow] at hnat
  · exact fun heq => congrArg UInt32.ofNat heq

/-- A header survives its way to the network and back, and its bytes there are its fields; what is
received is read without the reserved bit just when this is clear. -/
theorem reserved_bit_iff (m : Main N M) :
    (∀ h : Header, h.toNet.toHost = h ∧ h.toNet.image = wire h) ∧
      (∀ s₀ s₁ s₂ t f a b c d : UInt8,
        (m.recvHeader [s₀, s₁, s₂, t, f, a, b, c, d]).main.header.stream.toNat = low31 a b c d ↔
          a < 0x80) ∧
      ∀ a b c d : UInt8,
        { m with body := [a, b, c, d] }.processWindowUpdate.calls =
            [.windowUpdate m.header.stream (UInt32.ofNat (low31 a b c d))] ↔ a < 0x80 := by
  refine ⟨fun h => ⟨h.toHost_toNet, image_toNet h⟩, ?_, ?_⟩
  · intro s₀ s₁ s₂ t f a b c d
    rw [recvHeader_stream, word_eq_low31_iff]
  · intro a b c d
    exact windowUpdate_iff { m with body := [a, b, c, d] } rfl

/-- The stream 1 and the increment 1 with the reserved bit set. -/
theorem reserved_bit_kept :
    ((start .server : Main staticNghttp2 Unit).recvHeader
        [0, 0, 4, 8, 0, 0x80, 0, 0, 1]).main.header.stream = 0x80000001 ∧
      ({ (start .server : Main staticNghttp2 Unit) with
        body := [0x80, 0, 0, 1] }).processWindowUpdate.calls = [.windowUpdate 0 0x80000001] ∧
      UInt32.ofNat (low31 0x80 0 0 1) ≠ 0x80000001 :=
  ⟨rfl, rfl, by decide⟩

end Stuff.Http2ReservedBit
