import Stuff.ProtobufReader

/-!
# Integers of the wire in `readVarInt<T>`

On the wire a negative number is extended to 64 bits, and so takes ten bytes in every type. The
loop goes on for 64 bits, and shifts in the type.
-/
namespace Stuff.Protobuf
open MachineWords Base128

/-- The types of the generator that are read as a `VARIANT`. -/
inductive VarType
  | int32
  | uint32
  | int64
  | uint64
deriving DecidableEq, Repr

def VarType.width : VarType → ℕ
  | .int32 | .uint32 => 32
  | .int64 | .uint64 => 64

/-- The 64 bits that stand for a number on the wire. -/
def VarType.extend : (t : VarType) → BitVec t.width → BitVec 64
  | .int32, v => v.signExtend 64
  | .uint32, v => v.setWidth 64
  | .int64, v => v
  | .uint64, v => v

/-- A number that the protocol allows is read as what it is, to its last byte. Whatever else is
read is a form of a number, reduced to the width, and no shift goes over the width. -/
structure Decodes (t : VarType) (buffer : Bytes) : Prop where
  standard : ∀ bs rest v, buffer = bs ++ rest → bs.length ≤ 10 → Form bs (t.extend v).toNat →
    readVarInt t.width buffer = .ok (v, rest)
  modulo : ∀ v rest, readVarInt t.width buffer = .ok (v, rest) →
    ∃ bs n, buffer = bs ++ rest ∧ Form bs n ∧ v = BitVec.ofNat t.width n
  defined : readVarInt t.width buffer ≠ .error .undefined

/-- Five groups of seven bits go over 32 bits. -/
def VarType.Ends (t : VarType) (buffer : Bytes) : Prop :=
  t.width = 64 ∨ buffer.length ≤ 5 ∨ ∃ b ∈ buffer.take 5, b.toNat < 0x80

instance (t : VarType) (buffer : Bytes) : Decidable (t.Ends buffer) :=
  inferInstanceAs (Decidable (_ ∨ _ ∨ _))

theorem VarType.width_cases (t : VarType) : t.width = 32 ∨ t.width = 64 := by
  cases t <;> decide

theorem setWidth_signExtend (v : BitVec 32) : (v.signExtend 64).setWidth 32 = v := by
  apply BitVec.eq_of_getLsbD_eq
  intro i hi
  rw [BitVec.getLsbD_setWidth, BitVec.getLsbD_signExtend, if_pos hi]
  simp [hi, show i < 64 by omega]

/-- The low bits of an extended number are the number. -/
theorem VarType.ofNat_extend (t : VarType) (v : BitVec t.width) :
    BitVec.ofNat t.width (t.extend v).toNat = v := by
  rw [BitVec.ofNat_toNat]
  cases t with
  | int32 => exact setWidth_signExtend v
  | uint32 => exact BitVec.setWidth_setWidth_of_le v (show 32 ≤ 64 by decide)
  | int64 => exact BitVec.setWidth_eq v
  | uint64 => exact BitVec.setWidth_eq v

/-! ## Where the loop ends -/

/-- The first byte without the high bit is the last one of a form. -/
theorem length_le_of_low {bs rest : Bytes} {n k : ℕ} (h : Form bs n)
    (hlow : ∃ b ∈ (bs ++ rest).take k, b.toNat < 0x80) : bs.length ≤ k := by
  induction h generalizing k with
  | last hb =>
      obtain ⟨b, hmem, -⟩ := hlow
      cases k with
      | zero => cases hmem
      | succ k => exact Nat.succ_le_succ (Nat.zero_le k)
  | @more b bs n hb hform ih =>
      obtain ⟨c, hmem, hc⟩ := hlow
      cases k with
      | zero => cases hmem
      | succ k =>
          rw [List.cons_append, List.take_succ_cons, List.mem_cons] at hmem
          rcases hmem with rfl | hmem
          · omega
          · exact Nat.succ_le_succ (ih ⟨c, hmem, hc⟩)

/-- A loop that ends in its first `k` turns, with room for them, has a meaning. -/
theorem varLoop_defined {α : Type} {width k : ℕ} (join : α → UInt8 → ℕ → α) (sValue : α)
    {sShift : ℕ} {buffer : Bytes} (hroom : sShift + 7 * k < width + 7)
    (hends : buffer.length ≤ k ∨ ∃ b ∈ buffer.take k, b.toNat < 0x80) :
    varLoop width join sValue sShift buffer ≠ .error .undefined := by
  induction buffer generalizing k sValue sShift with
  | nil =>
      rw [varLoop]
      split_ifs <;> exact fun h => by cases h
  | cons b buffer ih =>
      have hk : k ≠ 0 := by
        rintro rfl
        rcases hends with hlen | ⟨c, hmem, -⟩
        · cases hlen
        · cases hmem
      obtain ⟨k, rfl⟩ := Nat.exists_eq_succ_of_ne_zero hk
      rw [varLoop]
      split_ifs with hlate hwide hb
      · exact fun h => by cases h
      · omega
      · rw [UInt8.le_iff_toNat_le] at hb
        apply ih (k := k) _ (by omega)
        rcases hends with hlen | ⟨c, hmem, hc⟩
        · exact .inl (Nat.le_of_succ_le_succ hlen)
        · rw [List.take_succ_cons, List.mem_cons] at hmem
          rcases hmem with rfl | hmem
          · exact absurd hc (not_lt.mpr hb)
          · exact .inr ⟨c, hmem, hc⟩
      · exact fun h => by cases h

/-- In 64 bits there is room for every turn. -/
theorem varLoop_defined_wide {α : Type} {width : ℕ} (hwidth : 64 ≤ width)
    (join : α → UInt8 → ℕ → α) (sValue : α) (sShift : ℕ) (buffer : Bytes) :
    varLoop width join sValue sShift buffer ≠ .error .undefined := by
  induction buffer generalizing sValue sShift with
  | nil =>
      rw [varLoop]
      split_ifs <;> exact fun h => by cases h
  | cons b buffer ih =>
      rw [varLoop]
      split_ifs with hlate hwide hb
      · exact fun h => by cases h
      · omega
      · exact ih _ _
      · exact fun h => by cases h

/-- As long as there is room, the loop goes over bytes with the high bit. -/
theorem varLoop_high {α : Type} (width : ℕ) (join : α → UInt8 → ℕ → α) (sValue : α)
    (sShift : ℕ) {bs : Bytes} (hhigh : ∀ b ∈ bs, 0x80 ≤ b.toNat)
    (hroom : sShift + 7 * bs.length < width + 7) (hwidth : width ≤ 64) (rest : Bytes) :
    ∃ v, varLoop width join sValue sShift (bs ++ rest) =
      varLoop width join v (sShift + 7 * bs.length) rest := by
  induction bs generalizing sValue sShift with
  | nil => exact ⟨sValue, rfl⟩
  | cons b bs ih =>
      rw [List.forall_mem_cons] at hhigh
      rw [List.length_cons] at hroom
      have hb : 0x80 ≤ b := by
        rw [UInt8.le_iff_toNat_le]
        exact hhigh.1
      obtain ⟨v, hv⟩ := ih (join sValue b sShift) (sShift + 7) hhigh.2 (by omega)
      refine ⟨v, ?_⟩
      rw [List.cons_append, varLoop, if_neg (by omega), if_neg (by omega), if_pos hb, hv,
        List.length_cons, Nat.mul_succ, Nat.add_assoc, Nat.add_comm 7]

/-- The sixth byte is shifted by 35 bits. -/
theorem readVarInt_undefined {buffer : Bytes} (hlen : 5 < buffer.length)
    (hhigh : ∀ b ∈ buffer.take 5, 0x80 ≤ b.toNat) :
    readVarInt 32 buffer = .error .undefined := by
  have htake : (buffer.take 5).length = 5 := by
    rw [List.length_take]
    omega
  obtain ⟨v, hv⟩ := varLoop_high 32 (joinGroup 32) 0 0 hhigh (by omega) (by decide)
    (buffer.drop 5)
  rw [List.take_append_drop, htake] at hv
  rw [readVarInt, hv]
  cases hdrop : buffer.drop 5 with
  | nil =>
      rw [List.drop_eq_nil_iff] at hdrop
      omega
  | cons b rest => rfl

theorem VarType.Ends.defined {t : VarType} {buffer : Bytes} (h : t.Ends buffer) :
    readVarInt t.width buffer ≠ .error .undefined := by
  rcases h with hwide | hends
  · exact varLoop_defined_wide hwide.ge _ _ _ _
  · apply varLoop_defined (k := 5) _ _ _ hends
    rcases t.width_cases with hw | hw <;> omega

/-- A number that the protocol allows has no more groups than there is room for. -/
theorem VarType.Ends.room {t : VarType} {bs rest : Bytes} {n : ℕ} (h : t.Ends (bs ++ rest))
    (hform : Form bs n) (hlen : bs.length ≤ 10) : 7 * (bs.length - 1) < t.width := by
  rcases t.width_cases with hw | hw
  · have hfive : bs.length ≤ 5 := by
      rcases h with hwide | hshort | hlow
      · omega
      · rw [List.length_append] at hshort
        omega
      · exact length_le_of_low hform hlow
    omega
  · omega

/-- The numbers of a type are read right, from every buffer, if and only if the type has 64 bits,
or the buffer at most five bytes, or one of the first five ends a number. -/
theorem readVarInt_decodes_iff (t : VarType) (buffer : Bytes) :
    Decodes t buffer ↔ t.Ends buffer := by
  have hw : t.width ≤ 64 := by
    rcases t.width_cases with hw | hw <;> omega
  constructor
  · intro hdecodes
    by_contra hends
    simp only [VarType.Ends, not_or, not_exists, not_and, not_lt, not_le] at hends
    obtain ⟨hwide, hlen, hhigh⟩ := hends
    refine hdecodes.defined ?_
    rw [t.width_cases.resolve_right hwide]
    exact readVarInt_undefined hlen hhigh
  · intro hends
    refine ⟨?_, fun v rest => readVarInt_sound hw, hends.defined⟩
    rintro bs rest v rfl hlen hform
    rw [readVarInt_form hw hform (hends.room hform hlen), t.ofNat_extend]

/-- -1 takes ten bytes. As an `int32` it is not read, in 64 bits it is. -/
theorem negative_int32_undefined :
    Form (List.replicate 9 0xff ++ [0x01]) (VarType.int32.extend (-1)).toNat ∧
      readVarInt 32 (List.replicate 9 0xff ++ [0x01]) = .error .undefined ∧
      ¬ Decodes .int32 (List.replicate 9 0xff ++ [0x01]) := by
  have hread : readVarInt 32 (List.replicate 9 0xff ++ [0x01]) = .error .undefined := rfl
  refine ⟨?_, hread, fun h => h.defined hread⟩
  have hone : Form [0x01] 1 := .last (by decide)
  have hmore : ∀ {bs : Bytes} {n : ℕ}, Form bs n → Form (0xff :: bs) (127 + 128 * n) :=
    fun h => .more (b := 0xff) (by decide) h
  exact hmore (hmore (hmore (hmore (hmore (hmore (hmore (hmore (hmore hone))))))))

end Stuff.Protobuf
