import Stuff.Base128

/-!
# ULEB128

`Format::uleb128` writes groups of seven bits as long as the value is not zero, so it
writes nothing for zero. `Parser::uleb128` shifts each group as an `int`: the result is
sign-extended when it is added to the value, and a shift by 32 or more is undefined.
-/
namespace Stuff.ULeb128
open MachineWords Base128

namespace Format

def uleb128 (aValue : UInt64) : Bytes :=
  if h : aValue = 0 then []
  else
    let sByte := (aValue &&& 0x7F).toUInt8
    let aValue' := aValue >>> 7
    (if aValue' ≠ 0 then sByte ||| 0x80 else sByte) :: uleb128 aValue'
termination_by aValue.toNat
decreasing_by
  have hne : aValue.toNat ≠ 0 := fun hzero => h (UInt64.toNat_inj.mp hzero)
  rw [UInt64.toNat_shiftRight]
  change aValue.toNat >>> 7 < aValue.toNat
  rw [Nat.shiftRight_eq_div_pow]
  omega

end Format

/-- A `std::istream`: the bytes to come, and whether a read has failed. -/
structure Istream where
  rest : Bytes
  failed : Bool := false
deriving DecidableEq, Repr

/-- `read` of one byte: when it fails, the byte keeps the value it had. -/
def Istream.read (s : Istream) (sByte : UInt8) : UInt8 × Istream :=
  if s.failed then (sByte, s)
  else
    match s.rest with
    | [] => (sByte, { s with failed := true })
    | b :: rest => (b, { s with rest := rest })

namespace Parser

/-- An `int` is added to an `uint64_t`. -/
def extend (x : UInt32) : UInt64 := x.toInt32.toInt64.toUInt64

/-- The loop; no result where the shift is undefined. -/
def loop (aStream : Istream) (sValue : UInt64) (sShift : ℕ) (sByte : UInt8) :
    Option (UInt64 × Istream) :=
  let r := aStream.read sByte
  if 32 ≤ sShift then none
  else
    let sValue' := sValue + extend ((r.1 &&& 0x7f).toUInt32 <<< UInt32.ofNat sShift)
    if r.1 &&& 0x80 = 0 then some (sValue', r.2) else loop r.2 sValue' (sShift + 7) r.1
termination_by 39 - sShift

def uleb128 (aStream : Istream) : Option (UInt64 × Istream) := loop aStream 0 0 0

end Parser

/-- Reading a number of values. -/
def readAll : ℕ → Istream → Option (List UInt64 × Istream)
  | 0, s => some ([], s)
  | n + 1, s => do
      let (v, s) ← Parser.uleb128 s
      let (vs, s) ← readAll n s
      return (v :: vs, s)

/-! ## The bytes of a value -/

theorem toNat_shift7 (v : UInt64) : (v >>> 7).toNat = v.toNat / 128 := by
  rw [UInt64.toNat_shiftRight]
  exact Nat.shiftRight_eq_div_pow _ 7

theorem low_byte (v : UInt64) : (v &&& 0x7F).toUInt8 = UInt8.ofNat (v.toNat % 128) := by
  have hmask : v.toNat &&& (0x7F : UInt64).toNat = v.toNat % 128 :=
    Nat.and_two_pow_sub_one_eq_mod _ 7
  rw [← UInt8.toNat_inj, UInt64.toNat_toUInt8, UInt64.toNat_and, hmask, UInt8.toNat_ofNat']

theorem uleb128_zero : Format.uleb128 0 = [] := by
  rw [Format.uleb128, dif_pos rfl]

theorem uleb128_of_ne {v : UInt64} (h : v ≠ 0) : Format.uleb128 v = shortest v.toNat := by
  induction v using Format.uleb128.induct with
  | case1 => exact absurd rfl h
  | case2 v _ v' ih =>
      have hv' : v'.toNat = v.toNat / 128 := toNat_shift7 v
      rw [Format.uleb128, dif_neg h]
      change (if v' ≠ 0 then (v &&& 0x7F).toUInt8 ||| 0x80 else (v &&& 0x7F).toUInt8) ::
        Format.uleb128 v' = _
      by_cases hzero : v' = 0
      · have hlt : v.toNat < 128 := by
          rw [hzero, UInt64.toNat_zero] at hv'
          omega
        rw [hzero, if_neg (not_not.mpr rfl), uleb128_zero, low_byte, Nat.mod_eq_of_lt hlt,
          shortest_of_lt hlt]
      · have hle : 128 ≤ v.toNat := by
          by_contra hlt
          apply hzero
          rw [← UInt64.toNat_inj, hv', UInt64.toNat_zero]
          omega
        rw [if_pos hzero, low_byte, or_80 (Nat.mod_lt _ (by decide)), ih hzero, hv',
          shortest_of_le hle]

/-! ## Reading one value -/

theorem toNat_extend (x : UInt32) : (Parser.extend x).toNat =
    if x.toNat < 2 ^ 31 then x.toNat else x.toNat + (2 ^ 64 - 2 ^ 32) := by
  have hx := x.toNat_lt
  have hbits : (Parser.extend x).toNat = (BitVec.signExtend 64 x.toBitVec).toNat := by
    rw [← UInt32.toBitVec_toInt32, ← Int32.toBitVec_toInt64]
    rfl
  have hmsb : x.toBitVec.msb = decide (2 ^ 31 ≤ x.toNat) := BitVec.msb_eq_decide _
  rw [hbits, BitVec.toNat_signExtend, BitVec.toNat_setWidth, hmsb, UInt32.toNat_toBitVec]
  by_cases hlt : x.toNat < 2 ^ 31
  · rw [if_pos hlt, if_neg (by simpa using hlt)]
    omega
  · rw [if_neg hlt, if_pos (by simpa using hlt)]
    omega

/-- What a group adds to the value, before it is cut to 64 bits. -/
def added (group shift : ℕ) : ℕ :=
  if group * 2 ^ shift % 2 ^ 32 < 2 ^ 31 then group * 2 ^ shift % 2 ^ 32
  else group * 2 ^ shift % 2 ^ 32 + (2 ^ 64 - 2 ^ 32)

theorem toNat_extend_shift {b : UInt8} {shift : ℕ} (hshift : shift < 32) :
    (Parser.extend ((b &&& 0x7f).toUInt32 <<< UInt32.ofNat shift)).toNat =
      added (b.toNat % 128) shift := by
  have hmod : (UInt32.ofNat shift).toNat % 32 = shift := by
    rw [UInt32.toNat_ofNat']
    omega
  rw [toNat_extend, UInt32.toNat_shiftLeft, hmod, UInt8.toNat_toUInt32, toNat_and_7f,
    Nat.shiftLeft_eq]
  rfl

theorem loop_undefined {s : Istream} {value : UInt64} {shift : ℕ} {b : UInt8} (h : 32 ≤ shift) :
    Parser.loop s value shift b = none := by
  rw [Parser.loop, if_pos h]

/-- The last group of a value. -/
theorem loop_last {n shift : ℕ} (hn : n < 128) (hshift : shift < 32) (rest : Bytes)
    (value : UInt64) (b : UInt8) :
    Parser.loop { rest := shortest n ++ rest } value shift b =
      some (value + UInt64.ofNat (added n shift), { rest := rest }) := by
  have hbyte : (UInt8.ofNat n).toNat = n := by
    rw [UInt8.toNat_ofNat']
    omega
  have hadded := toNat_extend_shift (b := UInt8.ofNat n) hshift
  rw [hbyte, Nat.mod_eq_of_lt hn] at hadded
  rw [shortest_of_lt hn, Parser.loop, if_neg (by omega)]
  simp only [Istream.read, List.singleton_append, Bool.false_eq_true, if_false]
  rw [if_pos ((and_80_eq_zero _).mpr (by omega)), ← hadded, UInt64.ofNat_toNat]

/-- A group with more behind it. -/
theorem loop_more {n shift : ℕ} (hn : 128 ≤ n) (hshift : shift < 32) (rest : Bytes)
    (value : UInt64) (b : UInt8) :
    ∃ b', Parser.loop { rest := shortest n ++ rest } value shift b =
      Parser.loop { rest := shortest (n / 128) ++ rest }
        (value + UInt64.ofNat (added (n % 128) shift)) (shift + 7) b' := by
  have hbyte : (UInt8.ofNat (n % 128 + 128)).toNat = n % 128 + 128 := by
    rw [UInt8.toNat_ofNat']
    omega
  have hadded := toNat_extend_shift (b := UInt8.ofNat (n % 128 + 128)) hshift
  rw [hbyte, Nat.add_mod_right, Nat.mod_mod] at hadded
  refine ⟨UInt8.ofNat (n % 128 + 128), ?_⟩
  rw [shortest_of_le hn, Parser.loop, if_neg (by omega)]
  simp only [Istream.read, List.cons_append, Bool.false_eq_true, if_false]
  rw [if_neg (by rw [and_80_eq_zero]; omega), ← hadded, UInt64.ofNat_toNat]

theorem added_of_lt {group shift : ℕ} (h : group * 2 ^ shift < 2 ^ 31) :
    added group shift = group * 2 ^ shift := by
  rw [added, Nat.mod_eq_of_lt (by omega), if_pos h]

/-- Below `2 ^ 31` no group reaches the sign bit. -/
theorem loop_small (n : ℕ) (hpos : 0 < n) {shift : ℕ} (h : n * 2 ^ shift < 2 ^ 31) (rest : Bytes)
    (value : UInt64) (b : UInt8) :
    Parser.loop { rest := shortest n ++ rest } value shift b =
      some (value + UInt64.ofNat (n * 2 ^ shift), { rest := rest }) := by
  have hshift : shift < 32 := by
    by_contra hle
    have hpow : 2 ^ 32 ≤ 2 ^ shift := Nat.pow_le_pow_right (by decide) (by omega)
    have hmul : 2 ^ shift ≤ n * 2 ^ shift := Nat.le_mul_of_pos_left _ hpos
    omega
  induction n using shortest.induct generalizing shift value b with
  | case1 n hn => rw [loop_last hn hshift, added_of_lt h]
  | case2 n hn ih =>
      have hsplit : n * 2 ^ shift = n % 128 * 2 ^ shift + n / 128 * 2 ^ (shift + 7) := by
        have hdiv := Nat.div_add_mod n 128
        calc n * 2 ^ shift = (128 * (n / 128) + n % 128) * 2 ^ shift := by rw [hdiv]
          _ = n % 128 * 2 ^ shift + n / 128 * 2 ^ (shift + 7) := by ring
      have hhigh : 2 ^ (shift + 7) ≤ n / 128 * 2 ^ (shift + 7) :=
        Nat.le_mul_of_pos_left _ (by omega)
      have hnext : shift + 7 < 32 := by
        by_contra hle
        have hpow : 2 ^ 32 ≤ 2 ^ (shift + 7) := Nat.pow_le_pow_right (by decide) (by omega)
        omega
      obtain ⟨b', hloop⟩ := loop_more (n := n) (by omega) hshift rest value b
      rw [hloop, added_of_lt (by omega), ih (by omega) (by omega) _ _ hnext, add_assoc,
        ← UInt64.ofNat_add, ← hsplit]

/-- From `2 ^ 31` on the fifth group is lost or sign-extended, or the shift is undefined. -/
theorem loop_large {n : ℕ} (h : 2 ^ 31 ≤ n) (hn : n < 2 ^ 64) (rest : Bytes) (b : UInt8)
    {v : UInt64} {s : Istream}
    (hv : Parser.loop { rest := shortest n ++ rest } 0 0 b = some (v, s)) : v.toNat ≠ n := by
  obtain ⟨b₁, h₁⟩ := loop_more (n := n) (by omega) (by decide : 0 < 32) rest 0 b
  obtain ⟨b₂, h₂⟩ := loop_more (n := n / 128) (by omega) (by decide : 7 < 32) rest
    (0 + UInt64.ofNat (added (n % 128) 0)) b₁
  obtain ⟨b₃, h₃⟩ := loop_more (n := n / 128 / 128) (by omega) (by decide : 14 < 32) rest
    (0 + UInt64.ofNat (added (n % 128) 0) + UInt64.ofNat (added (n / 128 % 128) 7)) b₂
  obtain ⟨b₄, h₄⟩ := loop_more (n := n / 128 / 128 / 128) (by omega) (by decide : 21 < 32) rest
    (0 + UInt64.ofNat (added (n % 128) 0) + UInt64.ofNat (added (n / 128 % 128) 7) +
      UInt64.ofNat (added (n / 128 / 128 % 128) 14)) b₃
  rw [h₁, h₂, h₃, h₄] at hv
  by_cases hlast : n / 128 / 128 / 128 / 128 < 128
  · rw [loop_last hlast (by decide)] at hv
    cases hv
    -- the four groups before the last one do not come near its place
    obtain ⟨low, hlow⟩ : ∃ low, n % 128 * 2 ^ 0 + n / 128 % 128 * 2 ^ 7 +
        n / 128 / 128 % 128 * 2 ^ 14 + n / 128 / 128 / 128 % 128 * 2 ^ 21 = low := ⟨_, rfl⟩
    have hsplit : n = n / 128 / 128 / 128 / 128 * 2 ^ 28 + low := by omega
    have hbound : low < 2 ^ 28 := by omega
    rw [added_of_lt (by omega), added_of_lt (by omega), added_of_lt (by omega),
      added_of_lt (by omega), zero_add, ← UInt64.ofNat_add, ← UInt64.ofNat_add,
      ← UInt64.ofNat_add, ← UInt64.ofNat_add, hlow, UInt64.toNat_ofNat', added]
    generalize n / 128 / 128 / 128 / 128 = group at hlast hsplit ⊢
    clear hlow
    split_ifs <;> omega
  · obtain ⟨b₅, h₅⟩ := loop_more (n := n / 128 / 128 / 128 / 128) (by omega)
      (by decide : 28 < 32) rest _ b₄
    rw [h₅, loop_undefined (by decide)] at hv
    cases hv

/-- Reading a value stops where it ends, with a result that does not depend on what follows. -/
theorem loop_result (n shift : ℕ) (value : UInt64) :
    ∃ r : Option UInt64, ∀ rest b, Parser.loop { rest := shortest n ++ rest } value shift b =
      r.map fun v => (v, { rest := rest }) := by
  by_cases hshift : shift < 32
  · induction n using shortest.induct generalizing shift value with
    | case1 n hn => exact ⟨some _, fun rest b => loop_last hn hshift rest value b⟩
    | case2 n hn ih =>
        by_cases hnext : shift + 7 < 32
        · obtain ⟨r, hr⟩ := ih (shift + 7) (value + UInt64.ofNat (added (n % 128) shift)) hnext
          refine ⟨r, fun rest b => ?_⟩
          obtain ⟨b', hloop⟩ := loop_more (n := n) (by omega) hshift rest value b
          rw [hloop, hr]
        · refine ⟨none, fun rest b => ?_⟩
          obtain ⟨b', hloop⟩ := loop_more (n := n) (by omega) hshift rest value b
          rw [hloop, loop_undefined (by omega)]
          rfl
  · exact ⟨none, fun rest b => loop_undefined (by omega)⟩

/-! ## Reading a list -/

/-- Past the end every value is zero. -/
theorem uleb128_end (failed : Bool) :
    Parser.uleb128 { rest := [], failed := failed } = some (0, { rest := [], failed := true }) := by
  have hzero : 0 + Parser.extend ((0 &&& 0x7f : UInt8).toUInt32 <<< UInt32.ofNat 0) = 0 := by
    decide
  rw [Parser.uleb128, Parser.loop, if_neg (by decide)]
  cases failed with
  | false =>
      simp only [Istream.read, Bool.false_eq_true, if_false, hzero]
      rfl
  | true =>
      simp only [Istream.read, if_true, hzero]
      rfl

theorem readAll_end (k : ℕ) (failed : Bool) :
    readAll k { rest := [], failed := failed } =
      some (List.replicate k 0, { rest := [], failed := failed || decide (0 < k) }) := by
  induction k generalizing failed with
  | zero => simp [readAll]
  | succ k ih => simp [readAll, uleb128_end, ih, List.replicate_succ]

/-- The stream that `vs` are written to. -/
def written (vs : List UInt64) : Istream := { rest := vs.flatMap Format.uleb128 }

theorem readAll_small {ws : List UInt64} (h : ∀ w ∈ ws, w ≠ 0 ∧ w.toNat < 2 ^ 31) (k : ℕ) :
    readAll (ws.length + k) (written ws) =
      some (ws ++ List.replicate k 0, { rest := [], failed := decide (0 < k) }) := by
  induction ws with
  | nil => simpa [written] using readAll_end k false
  | cons w ws ih =>
      have hrest := ih fun v hv => h v (List.mem_cons_of_mem w hv)
      obtain ⟨hne, hlt⟩ := h w List.mem_cons_self
      have hpos : 0 < w.toNat := by
        rw [Nat.pos_iff_ne_zero]
        intro hzero
        exact hne (UInt64.toNat_inj.mp hzero)
      have hread : Parser.uleb128 (written (w :: ws)) = some (w, written ws) := by
        have hloop := loop_small w.toNat hpos (show w.toNat * 2 ^ 0 < 2 ^ 31 by omega)
          (ws.flatMap Format.uleb128) 0 0
        rw [Nat.pow_zero, Nat.mul_one, UInt64.ofNat_toNat, zero_add] at hloop
        rw [Parser.uleb128, written, List.flatMap_cons, uleb128_of_ne hne, hloop]
        rfl
      rw [List.length_cons, Nat.add_right_comm, readAll, hread]
      simp [hrest]

/-- As many values as bytes were written for are read from these bytes, and the ones behind
them are zero. -/
theorem readAll_nonzero {ws : List UInt64} (h : ∀ w ∈ ws, w ≠ 0) {k : ℕ} {xs : List UInt64}
    {s : Istream} (hread : readAll (ws.length + k) (written ws) = some (xs, s)) :
    ∃ ys, xs = ys ++ List.replicate k 0 ∧
      List.Forall₂ (fun w y => y = w → w.toNat < 2 ^ 31) ws ys ∧
      s = { rest := [], failed := decide (0 < k) } := by
  induction ws generalizing xs s with
  | nil =>
      have hend := readAll_end k false
      rw [List.length_nil, Nat.zero_add] at hread
      rw [Bool.false_or] at hend
      cases hend.symm.trans hread
      exact ⟨[], rfl, .nil, rfl⟩
  | cons w ws ih =>
      have hloop : Parser.uleb128 (written (w :: ws)) =
          Parser.loop { rest := shortest w.toNat ++ ws.flatMap Format.uleb128 } 0 0 0 := by
        rw [Parser.uleb128, written, List.flatMap_cons, uleb128_of_ne (h w List.mem_cons_self)]
      obtain ⟨r, hr⟩ := loop_result w.toNat 0 0
      cases r with
      | none =>
          rw [List.length_cons, Nat.add_right_comm, readAll, hloop, hr] at hread
          cases hread
      | some y =>
          have hy := hr (ws.flatMap Format.uleb128) 0
          rw [List.length_cons, Nat.add_right_comm, readAll, hloop, hy] at hread
          cases hrest : readAll (ws.length + k) (written ws) with
          | none =>
              simp only [written] at hrest
              simp [hrest] at hread
          | some r =>
              obtain ⟨xs', s'⟩ := r
              obtain ⟨ys, rfl, hys, rfl⟩ := ih (fun v hv => h v (List.mem_cons_of_mem w hv)) hrest
              simp only [written] at hrest
              simp only [Option.map_some, Option.bind_eq_bind, Option.bind_some, hrest,
                Option.pure_def, Option.some.injEq, Prod.mk.injEq] at hread
              obtain ⟨rfl, rfl⟩ := hread
              refine ⟨y :: ys, rfl, .cons ?_ hys, rfl⟩
              rintro rfl
              by_contra hle
              exact loop_large (not_lt.mp hle) y.toNat_lt _ 0 hy rfl

/-- Nothing is written for zero. -/
theorem written_filter (vs : List UInt64) : written vs = written (vs.filter (· ≠ 0)) := by
  induction vs with
  | nil => rfl
  | cons v vs ih =>
      simp only [written, Istream.mk.injEq, and_true] at ih ⊢
      by_cases hv : v = 0
      · rw [List.flatMap_cons, hv, uleb128_zero, List.nil_append, ih]
        simp
      · rw [List.flatMap_cons, ih]
        simp [hv]

theorem length_zeros (vs : List UInt64) :
    (vs.filter (· ≠ 0)).length + (vs.length - (vs.filter (· ≠ 0)).length) = vs.length := by
  have hle := List.length_filter_le (· ≠ 0) vs
  omega

/-- The same list, and no byte left. -/
def RoundTrips (vs : List UInt64) : Prop :=
  ∃ s, readAll vs.length (written vs) = some (vs, s) ∧ s.rest = []

/-- Small values, with zeros at the end only. -/
def ZerosLast (vs : List UInt64) : Prop :=
  ∃ ws k, vs = ws ++ List.replicate k 0 ∧ ∀ w ∈ ws, w ≠ 0 ∧ w.toNat < 2 ^ 31

theorem ZerosLast.readAll {vs : List UInt64} (h : ZerosLast vs) :
    ∃ ws k, vs = ws ++ List.replicate k 0 ∧ (∀ w ∈ ws, w ≠ 0 ∧ w.toNat < 2 ^ 31) ∧
      readAll vs.length (written vs) = some (vs, { rest := [], failed := decide (0 < k) }) := by
  obtain ⟨ws, k, rfl, hws⟩ := h
  refine ⟨ws, k, rfl, hws, ?_⟩
  have hfilter : (ws ++ List.replicate k (0 : UInt64)).filter (· ≠ 0) = ws := by
    rw [List.filter_append, List.filter_eq_self.mpr fun w hw => by simpa using (hws w hw).1]
    simp
  rw [written_filter, hfilter, List.length_append, List.length_replicate]
  exact readAll_small hws k

theorem zerosLast_of_readAll {vs : List UInt64} {s : Istream}
    (h : readAll vs.length (written vs) = some (vs, s)) : ZerosLast vs := by
  rw [written_filter, ← length_zeros vs] at h
  obtain ⟨ys, heq, hys, -⟩ := readAll_nonzero (by simp) h
  generalize vs.length - (vs.filter (· ≠ 0)).length = k at heq
  have hfilter : vs.filter (· ≠ 0) = ys.filter (· ≠ 0) := by
    conv_lhs => rw [heq]
    simp
  have hself : ys.filter (· ≠ 0) = ys := by
    apply List.filter_sublist.eq_of_length
    rw [← hfilter, hys.length_eq]
  rw [hfilter, hself] at hys
  refine ⟨ys, k, heq, ?_⟩
  intro w hw
  have hmem : w ∈ ys.filter (· ≠ 0) := by rwa [hself]
  exact ⟨by simpa using (List.mem_filter.mp hmem).2, List.forall₂_same.mp hys w hw rfl⟩

/-- The values come back exactly when each is below `2 ^ 31` and no zero stands before
another value. The stream is then still good when there is no zero at all: a zero at the end
is what a read behind the end leaves. -/
theorem roundTrips_iff (vs : List UInt64) :
    (RoundTrips vs ↔ ZerosLast vs) ∧
      (readAll vs.length (written vs) = some (vs, { rest := [] }) ↔
        ∀ v ∈ vs, v ≠ 0 ∧ v.toNat < 2 ^ 31) := by
  refine ⟨⟨?_, ?_⟩, ?_, ?_⟩
  · rintro ⟨s, hread, -⟩
    exact zerosLast_of_readAll hread
  · intro h
    obtain ⟨ws, k, -, -, hread⟩ := h.readAll
    exact ⟨_, hread, rfl⟩
  · intro hread
    obtain ⟨ws, k, heq, hws, hread'⟩ := (zerosLast_of_readAll hread).readAll
    have hgood : decide (0 < k) = false := by
      rw [hread] at hread'
      injection hread' with hpair
      injection hpair with _ hs
      injection hs with _ hfailed
      exact hfailed.symm
    obtain rfl : k = 0 := by simpa using hgood
    rw [heq, List.replicate_zero, List.append_nil]
    exact hws
  · intro h
    have hread := readAll_small h 0
    rwa [List.replicate_zero, List.append_nil] at hread

/-- Nothing stands for the zero, so the value behind it is read in its place. -/
theorem zero_then_five : ¬ ∀ vs, RoundTrips vs := by
  intro h
  obtain ⟨s, hread, -⟩ := h [0, 5]
  have hfive : Parser.uleb128 (written [0, 5]) = some (5, { rest := [] }) := by
    have hloop := loop_small 5 (by decide) (by decide : 5 * 2 ^ 0 < 2 ^ 31) [] 0 0
    rw [List.append_nil] at hloop
    rw [Parser.uleb128, written, List.flatMap_cons, uleb128_zero, List.flatMap_singleton,
      List.nil_append, uleb128_of_ne (by decide)]
    exact hloop
  simp [readAll, hfive, uleb128_end] at hread

end Stuff.ULeb128
