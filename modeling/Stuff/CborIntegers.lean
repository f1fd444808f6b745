import Stuff.CborTags

/-!
# Integers that do not fit

The head of an integer may be wider than the type that is read. `get_uint<T>` returns the value in
the type, and for the major type 1 the difference from `-1` is taken there.
-/
namespace Stuff.Cbor
open MachineWords ByteOrder ByteSources ContainerStream

/-- The number that an object of the type holds. -/
def Scalar.number : (s : Scalar) → BitVec s.width.bits → ℤ
  | .unsigned _, v => v.toNat
  | .signed _, v => v.toInt

/-- The range of the type. -/
def Scalar.Fits : Scalar → ℤ → Prop
  | .unsigned w, i => 0 ≤ i ∧ i < 2 ^ w.bits
  | .signed w, i => -2 ^ (w.bits - 1) ≤ i ∧ i < 2 ^ (w.bits - 1)

/-- An unsigned type refuses the major type 1. -/
def Scalar.Refuses : Scalar → ℤ → Prop
  | .unsigned _, i => i < 0
  | .signed _, _ => False

/-- The items of an integer. -/
inductive IsInteger : ℤ → Bytes → Prop
  | uint {n : ℕ} {bs : Bytes} : Head cborUint n bs → IsInteger n bs
  | nint {n : ℕ} {bs : Bytes} : Head cborNint n bs → IsInteger (-1 - n) bs

/-- From every source that has the item next, `read` stores the number or throws. -/
def Unchanged (s : Scalar) (i : ℤ) (bs : Bytes) : Prop :=
  ∀ {σ : Type} (I : Istream σ) (R : Feed → σ → Prop) (max : ℕ) (rest : Bytes) (f : Feed) (st : σ),
    Simulates I True max R → 8 ≤ max → R f st → f.rest = bs ++ rest →
      (∃ v st', readScalar I s st = .ok (v, st') ∧ s.number v = i) ∨
        ∃ e, readScalar I s st = .error e

/-! ## What is stored -/

theorem Scalar.number_ofInt_iff (s : Scalar) (i : ℤ) :
    s.number (BitVec.ofInt s.width.bits i) = i ↔ s.Fits i := by
  cases s with
  | unsigned w =>
      simp only [Scalar.number, Scalar.Fits, Scalar.width, BitVec.toNat_ofInt]
      cases w <;> simp [Width.bits, Width.bytes] <;> omega
  | signed w =>
      simp only [Scalar.number, Scalar.Fits, Scalar.width, BitVec.toInt_ofInt]
      cases w <;> simp [Width.bits, Width.bytes, Int.bmod_eq_iff]

theorem ofInt_neg_one_sub (w n : ℕ) : BitVec.ofInt w (-1 - n) = -1 - BitVec.ofNat w n := by
  have hneg : (-1 - n : ℤ) = Int.negSucc n := by omega
  rw [hneg, BitVec.ofInt_negSucc_eq_not_ofNat, ← BitVec.allOnes_sub_eq_not]
  exact congrArg (· - BitVec.ofNat w n) BitVec.neg_one_eq_allOnes.symm

theorem reads_integer {s : Scalar} {i : ℤ} {bs : Bytes} (h : IsInteger i bs)
    (hs : ¬ s.Refuses i) : Reads (readScalar feed s) bs (BitVec.ofInt _ i) := by
  apply reads_isScalar
  cases h with
  | @uint n bs hhead =>
      rw [BitVec.ofInt_natCast]
      cases s with
      | unsigned w => exact ⟨n, hhead, rfl⟩
      | signed w => exact ⟨n, .inl ⟨hhead, rfl⟩⟩
  | @nint n bs hhead =>
      cases s with
      | unsigned w =>
          simp only [Scalar.Refuses] at hs
          omega
      | signed w => exact ⟨n, .inr ⟨hhead, ofInt_neg_one_sub _ n⟩⟩

/-- The head of a negative integer is enough for the exception. -/
theorem refuses_integer {s : Scalar} {i : ℤ} {bs : Bytes} (h : IsInteger i bs)
    (hs : s.Refuses i) (rest : Bytes) (last : Option UInt8) :
    ∃ e, readScalar feed s { rest := bs ++ rest, last := last } = .error e := by
  cases s with
  | signed w => exact absurd hs not_false
  | unsigned w =>
      cases h with
      | @uint n bs hhead =>
          simp only [Scalar.Refuses] at hs
          omega
      | @nint n bs hhead =>
          obtain ⟨minor, tail, rfl, hminor, -⟩ := hhead.split
          have htype := getType_head (isHead_headByte (show cborNint < 6 by decide) hminor)
            (tail ++ rest) last
          refine ⟨unexpectedMajor cborNint, ?_⟩
          have hensure : ensureType feed cborUint
              { rest := headByte cborNint minor :: (tail ++ rest), last := last } =
                .error (unexpectedMajor cborNint) := by
            rw [ensureType, bind_of_ok htype, if_pos (show cborNint ≠ cborUint by decide)]
            rfl
          exact bind_of_error (bind_of_error hensure _) _

/-! ## Which integers are safe -/

/-- The feed is a source. -/
theorem feed_simulates (full : Prop) (max : ℕ) : Simulates feed full max Eq where
  read n f s h _ hn := by
    subst h
    exact ⟨_, if_pos hn, rfl⟩
  short _ n f s h _ hshort := by
    subst h
    exact ⟨_, if_neg (by omega)⟩
  unget f s b h hb := by
    subst h
    exact ⟨_, by simp only [feed, hb], rfl⟩
  left f s h := by
    subst h
    rfl

/-- The feed decides for every source. -/
theorem unchanged_of_feed {s : Scalar} {i : ℤ} {bs : Bytes}
    (h : ∀ rest last, (∃ v f, readScalar feed s { rest := bs ++ rest, last := last } =
      .ok (v, f) ∧ s.number v = i) ∨
        ∃ e, readScalar feed s { rest := bs ++ rest, last := last } = .error e) :
    Unchanged s i bs := by
  intro σ I R max rest f st hsim hmax hR hrest
  have hsame := same_readScalar hsim (fun _ => hmax) s f st hR trivial
  obtain ⟨frest, last⟩ := f
  obtain rfl : frest = bs ++ rest := hrest
  rcases h rest last with ⟨v, f, hok, hnumber⟩ | ⟨e, herror⟩
  · rw [hok] at hsame
    obtain ⟨-, st', hst', -⟩ := hsame
    exact .inl ⟨v, st', hst', hnumber⟩
  · rw [herror] at hsame
    exact .inr (hsame trivial)

theorem stored_of_unchanged {s : Scalar} {i : ℤ} {bs : Bytes} (h : Unchanged s i bs) :
    (∃ v f, readScalar feed s { rest := bs, last := none } = .ok (v, f) ∧ s.number v = i) ∨
      ∃ e, readScalar feed s { rest := bs, last := none } = .error e :=
  h feed Eq 8 [] { rest := bs, last := none } _ (feed_simulates True 8) (le_refl 8) rfl
    (List.append_nil bs).symm

/-- `read<T>` stores the number or throws, from every source, if and only if the number fits the
type, or is negative and the type is unsigned. -/
theorem readScalar_unchanged_iff (s : Scalar) (i : ℤ) (bs : Bytes) (h : IsInteger i bs) :
    Unchanged s i bs ↔ s.Fits i ∨ s.Refuses i := by
  constructor
  · intro hunchanged
    by_cases hs : s.Refuses i
    · exact .inr hs
    refine .inl ((s.number_ofInt_iff i).mp ?_)
    obtain ⟨last, hread⟩ := reads_integer h hs [] none
    rw [List.append_nil] at hread
    rcases stored_of_unchanged hunchanged with ⟨v, f, hok, hnumber⟩ | ⟨e, herror⟩
    · cases hread.symm.trans hok
      exact hnumber
    · cases hread.symm.trans herror
  · rintro (hfits | hrefuses)
    · by_cases hs : s.Refuses i
      · exact unchanged_of_feed fun rest last => .inr (refuses_integer h hs rest last)
      · apply unchanged_of_feed
        intro rest last
        obtain ⟨last', hread⟩ := reads_integer h hs rest last
        exact .inl ⟨_, _, hread, (s.number_ofInt_iff i).mpr hfits⟩
    · exact unchanged_of_feed fun rest last => .inr (refuses_integer h hrefuses rest last)

/-- 200 in one byte, as an unsigned and as a signed one. -/
theorem readScalar_unchanged_byte :
    Unchanged (.unsigned .w8) 200 (headByte cborUint cbor8 :: bigEndian 1 200) ∧
      ¬ Unchanged (.signed .w8) 200 (headByte cborUint cbor8 :: bigEndian 1 200) := by
  have hitem : IsInteger 200 (headByte cborUint cbor8 :: bigEndian 1 200) :=
    .uint (n := 200) (.w8 (by decide))
  refine ⟨(readScalar_unchanged_iff _ _ _ hitem).mpr (.inl ?_), fun h => ?_⟩
  · simp [Scalar.Fits, Width.bits, Width.bytes]
  · rcases (readScalar_unchanged_iff _ _ _ hitem).mp h with hfits | hrefuses
    · simp [Scalar.Fits, Width.bits, Width.bytes] at hfits
    · exact hrefuses

/-- -129 in a head with one byte is 127 in a byte, and 256 in a head with two bytes is nothing. -/
theorem integers_changed :
    ¬ Unchanged (.signed .w8) (-129) [0x38, 0x80] ∧
      ¬ Unchanged (.unsigned .w8) 256 [0x19, 0x01, 0x00] := by
  constructor
  · intro h
    have hread : readScalar feed (.signed .w8) { rest := [0x38, 0x80], last := none } =
      .ok (127, { rest := [], last := some 0x80 }) := by rfl
    rcases stored_of_unchanged h with ⟨v, f, hok, hnumber⟩ | ⟨e, herror⟩
    · cases hread.symm.trans hok
      exact absurd hnumber (by decide)
    · cases hread.symm.trans herror
  · intro h
    have hread : readScalar feed (.unsigned .w8) { rest := [0x19, 0x01, 0x00], last := none } =
      .ok (0, { rest := [], last := some 0x00 }) := by rfl
    rcases stored_of_unchanged h with ⟨v, f, hok, hnumber⟩ | ⟨e, herror⟩
    · cases hread.symm.trans hok
      exact absurd hnumber (by decide)
    · cases hread.symm.trans herror

end Stuff.Cbor
