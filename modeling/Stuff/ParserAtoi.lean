import Stuff.MachineWords
import Mathlib.Data.Int.ModEq
import Mathlib.Data.List.TakeWhile
import Mathlib.Data.Nat.Digits.Defs

/-!
# Numbers from text

`Parser::Atoi` adds digit after digit to a value of its type. A value of a small type is
computed as an `int` and converted back; an overflow of a signed type has no defined result,
and this is so even if the difference with `'0'` would be in range again.
-/
namespace Stuff.ParserAtoi
open MachineWords

/-! ## Integer types -/

inductive Width
  | w8
  | w16
  | w32
  | w64
deriving DecidableEq, Repr

def Width.bits : Width → ℕ
  | .w8 => 8
  | .w16 => 16
  | .w32 => 32
  | .w64 => 64

structure IntType where
  signed : Bool
  width : Width
deriving DecidableEq, Repr

inductive Fault
  /-- The exception `NotNumber`. -/
  | notNumber
  /-- A signed overflow. -/
  | overflow
deriving DecidableEq, Repr

namespace IntType

def modulus (T : IntType) : ℕ := 2 ^ T.width.bits

def min (T : IntType) : ℤ := if T.signed then -(T.modulus / 2) else 0

def max (T : IntType) : ℤ := if T.signed then T.modulus / 2 - 1 else T.modulus - 1

def InRange (T : IntType) (n : ℤ) : Prop := T.min ≤ n ∧ n ≤ T.max

instance (T : IntType) (n : ℤ) : Decidable (T.InRange n) := inferInstanceAs (Decidable (_ ∧ _))

/-- The conversion of a value to the type. -/
def convert (T : IntType) (n : ℤ) : ℤ := if T.signed then n.bmod T.modulus else n % T.modulus

/-- The type in which values of the type are computed. -/
def promoted (T : IntType) : IntType :=
  match T.width with
  | .w8 | .w16 => { signed := true, width := .w32 }
  | .w32 | .w64 => T

/-- The result of an operation of this type. -/
def evaluate (T : IntType) (n : ℤ) : Except Fault ℤ :=
  if T.signed then if T.InRange n then .ok n else .error .overflow
  else .ok (n % T.modulus)

/-- The type is signed, and it is not computed in a larger one. -/
def Checked (T : IntType) : Prop := T.signed ∧ T.promoted = T

instance (T : IntType) : Decidable T.Checked := inferInstanceAs (Decidable (_ ∧ _))

variable {T : IntType} {m n : ℤ}

theorem min_nonpos (T : IntType) : T.min ≤ 0 := by
  unfold min
  split
  · omega
  · exact le_rfl

theorem evaluate_of_inRange (hT : T.signed = true) (hn : T.InRange n) : T.evaluate n = .ok n := by
  rw [evaluate, if_pos hT, if_pos hn]

theorem evaluate_of_not_inRange (hT : T.signed = true) (hn : ¬ T.InRange n) :
    T.evaluate n = .error .overflow := by
  rw [evaluate, if_pos hT, if_neg hn]

theorem evaluate_unsigned (hT : T.signed = false) (n : ℤ) :
    T.evaluate n = .ok (n % T.modulus) := by
  rw [evaluate, if_neg (by rw [hT]; exact Bool.false_ne_true)]

theorem convert_of_inRange (hn : T.InRange n) : T.convert n = n := by
  obtain ⟨hmin, hmax⟩ := hn
  obtain ⟨signed, width⟩ := T
  cases signed with
  | true =>
      have hmodulus : (modulus ⟨true, width⟩ : ℤ) % 2 = 0 := by cases width <;> rfl
      simp only [min, max, if_true] at hmin hmax
      rw [convert, if_pos rfl]
      exact Int.bmod_eq_of_le_mul_two (by omega) (by omega)
  | false =>
      simp only [min, max, Bool.false_eq_true, if_false] at hmin hmax
      rw [convert, if_neg Bool.false_ne_true, Int.emod_eq_of_lt hmin (by omega)]

theorem convert_congr (h : m ≡ n [ZMOD T.modulus]) : T.convert m = T.convert n := by
  rw [convert, convert, Int.bmod_def, Int.bmod_def, h]

theorem convert_modEq (T : IntType) (n : ℤ) : T.convert n ≡ n [ZMOD T.modulus] := by
  unfold convert Int.ModEq
  split
  · exact Int.bmod_emod
  · exact Int.emod_emod _ _

theorem inRange_convert (T : IntType) (n : ℤ) : T.InRange (T.convert n) := by
  obtain ⟨signed, width⟩ := T
  have hpos : 0 < modulus ⟨signed, width⟩ := Nat.two_pow_pos _
  cases signed with
  | true =>
      have hle := Int.le_bmod (x := n) hpos
      have hlt := Int.bmod_lt (x := n) hpos
      rw [convert, if_pos rfl, InRange, min, max, if_pos rfl, if_pos rfl]
      have hmodulus : (modulus ⟨true, width⟩ : ℤ) % 2 = 0 := by cases width <;> rfl
      omega
  | false =>
      have hnonneg := Int.emod_nonneg n (show (modulus ⟨false, width⟩ : ℤ) ≠ 0 by omega)
      have hlt := Int.emod_lt_of_pos n (show (0 : ℤ) < modulus ⟨false, width⟩ by omega)
      rw [convert, if_neg Bool.false_ne_true, InRange, min, max, if_neg Bool.false_ne_true,
        if_neg Bool.false_ne_true]
      omega

/-- A small type is computed as an `int`, which has room for ten of its values. -/
theorem small_of_ne (hT : T.promoted ≠ T) (hn : T.InRange n) :
    T.promoted = { signed := true, width := .w32 } ∧ -2 ^ 16 ≤ n ∧ n ≤ 2 ^ 16 := by
  obtain ⟨hmin, hmax⟩ := hn
  obtain ⟨signed, width⟩ := T
  cases width with
  | w8 => cases signed <;> simp [min, max, modulus, Width.bits] at hmin hmax <;>
      exact ⟨rfl, by omega, by omega⟩
  | w16 => cases signed <;> simp [min, max, modulus, Width.bits] at hmin hmax <;>
      exact ⟨rfl, by omega, by omega⟩
  | w32 => exact absurd rfl hT
  | w64 => exact absurd rfl hT

theorem inRange_int (hmin : -2 ^ 31 ≤ n) (hmax : n < 2 ^ 31) :
    InRange { signed := true, width := .w32 } n := by
  constructor
  · exact hmin
  · exact Int.le_sub_one_of_lt hmax

theorem le_max_of_checked (hT : T.Checked) : 2 ^ 31 - 1 ≤ T.max := by
  obtain ⟨signed, width⟩ := T
  obtain ⟨hsigned, hpromoted⟩ := hT
  cases (hsigned : signed = true)
  cases width with
  | w8 => cases congrArg IntType.width hpromoted
  | w16 => cases congrArg IntType.width hpromoted
  | w32 => decide
  | w64 => decide

/-- An operation on values of a type that is not checked is right modulo the size of the type. -/
theorem evaluate_of_not_checked (hT : ¬ T.Checked)
    (hn : T.promoted ≠ T → -2 ^ 31 ≤ n ∧ n < 2 ^ 31) :
    ∃ m, T.promoted.evaluate n = .ok m ∧ m ≡ n [ZMOD T.modulus] ∧ (T.promoted ≠ T → m = n) := by
  by_cases hsame : T.promoted = T
  · have hunsigned : T.signed = false := by
      by_contra hsigned
      exact hT ⟨Bool.eq_true_of_not_eq_false hsigned, hsame⟩
    rw [hsame, evaluate_unsigned hunsigned]
    exact ⟨_, rfl, Int.mod_modEq _ _, fun hne => absurd rfl hne⟩
  · obtain ⟨hint, -⟩ := small_of_ne hsame (inRange_convert T 0)
    obtain ⟨hmin, hmax⟩ := hn hsame
    rw [hint, evaluate_of_inRange rfl (inRange_int hmin hmax)]
    exact ⟨n, rfl, .rfl, fun _ => rfl⟩

end IntType

/-! ## The loop -/

def minus : UInt8 := 0x2d
def zero : UInt8 := 0x30
def nine : UInt8 := 0x39

structure Accumulated where
  sResult : ℤ
  sNegative : Bool
deriving DecidableEq, Repr

variable (T : IntType)

/-- `sResult * 10 + x - '0'`. -/
def accumulate (sResult : ℤ) (x : UInt8) : Except Fault ℤ := do
  let product ← T.promoted.evaluate (sResult * 10)
  let sum ← T.promoted.evaluate (product + x.toNat)
  let difference ← T.promoted.evaluate (sum - zero.toNat)
  return T.convert difference

/-- A `char` behind `0x7f` is negative. -/
def step (s : Accumulated) (x : UInt8) : Except Fault Accumulated :=
  if x = minus then .ok { s with sNegative := true }
  else if nine < x ∨ x < zero then .error .notNumber
  else do
    let sResult ← accumulate T s.sResult x
    return { s with sResult }

def atoi (aString : Bytes) : Except Fault ℤ := do
  let s ← aString.foldlM (step T) { sResult := 0, sNegative := false }
  if s.sNegative then
    let negated ← T.promoted.evaluate (-s.sResult)
    return T.convert negated
  else return s.sResult

/-! ## One digit -/

def IsDigit (x : UInt8) : Prop := zero ≤ x ∧ x ≤ nine

instance (x : UInt8) : Decidable (IsDigit x) := inferInstanceAs (Decidable (_ ∧ _))

/-- The number that a digit stands for. -/
def digitValue (x : UInt8) : ℕ := x.toNat - zero.toNat

variable {T}

theorem IsDigit.toNat {x : UInt8} (hx : IsDigit x) :
    x.toNat = 48 + digitValue x ∧ digitValue x < 10 := by
  obtain ⟨hzero, hnine⟩ := hx
  have hzero : 48 ≤ x.toNat := hzero
  have hnine : x.toNat ≤ 57 := hnine
  have hvalue : digitValue x = x.toNat - 48 := rfl
  omega

theorem accumulate_of_checked (hT : T.Checked) {v : ℕ} {x : UInt8} (hx : IsDigit x) :
    accumulate T v x =
      if (v * 10 + digitValue x + 48 : ℕ) ≤ T.max then .ok (v * 10 + digitValue x : ℕ)
      else .error .overflow := by
  obtain ⟨hsum, hlt⟩ := hx.toNat
  have hmin := T.min_nonpos
  have hzero : zero.toNat = 48 := rfl
  have hrange : ∀ n : ℕ, (n : ℤ) ≤ T.max → T.InRange n := fun n h => ⟨by omega, h⟩
  have hdifference : (v * 10 + x.toNat - zero.toNat : ℤ) = (v * 10 + digitValue x : ℕ) := by
    omega
  have hlast : (v * 10 + x.toNat : ℤ) = (v * 10 + digitValue x + 48 : ℕ) := by omega
  by_cases hmax : (v * 10 + digitValue x + 48 : ℕ) ≤ T.max
  · have hproduct : T.InRange (v * 10) := hrange (v * 10 : ℕ) (by omega)
    have hsum : T.InRange (v * 10 + x.toNat) := hlast ▸ hrange _ hmax
    have hresult : T.InRange (v * 10 + digitValue x : ℕ) := hrange _ (by omega)
    rw [if_pos hmax]
    simp only [accumulate, hT.2, IntType.evaluate_of_inRange hT.1 hproduct,
      IntType.evaluate_of_inRange hT.1 hsum, hdifference,
      IntType.evaluate_of_inRange hT.1 hresult, IntType.convert_of_inRange hresult,
      bind, Except.bind, pure, Except.pure]
  · have hsum : ¬ T.InRange (v * 10 + x.toNat) := fun h => hmax (hlast ▸ h.2)
    rw [if_neg hmax]
    by_cases hproduct : T.InRange (v * 10)
    · simp only [accumulate, hT.2, IntType.evaluate_of_inRange hT.1 hproduct,
        IntType.evaluate_of_not_inRange hT.1 hsum, bind, Except.bind]
    · simp only [accumulate, hT.2, IntType.evaluate_of_not_inRange hT.1 hproduct,
        bind, Except.bind]

theorem accumulate_of_not_checked (hT : ¬ T.Checked) {n : ℤ} (hn : T.InRange n) {x : UInt8}
    (hx : IsDigit x) : accumulate T n x = .ok (T.convert (n * 10 + digitValue x)) := by
  obtain ⟨hsum, hlt⟩ := hx.toNat
  have hzero : zero.toNat = 48 := rfl
  have hsmall : T.promoted ≠ T → -2 ^ 16 ≤ n ∧ n ≤ 2 ^ 16 :=
    fun hne => (IntType.small_of_ne hne hn).2
  obtain ⟨a, ha, hmodA, heqA⟩ := IntType.evaluate_of_not_checked hT (n := n * 10) fun hne => by
    have hbound := hsmall hne
    omega
  obtain ⟨b, hb, hmodB, heqB⟩ :=
    IntType.evaluate_of_not_checked hT (n := a + x.toNat) fun hne => by
      have hbound := hsmall hne
      rw [heqA hne]
      omega
  obtain ⟨c, hc, hmodC, -⟩ :=
    IntType.evaluate_of_not_checked hT (n := b - zero.toNat) fun hne => by
      have hbound := hsmall hne
      rw [heqB hne, heqA hne]
      omega
  have hmod : c ≡ n * 10 + digitValue x [ZMOD T.modulus] := calc
    c ≡ b - zero.toNat [ZMOD T.modulus] := hmodC
    _ ≡ a + x.toNat - zero.toNat [ZMOD T.modulus] := hmodB.sub_right _
    _ ≡ n * 10 + x.toNat - zero.toNat [ZMOD T.modulus] := (hmodA.add_right _).sub_right _
    _ = n * 10 + digitValue x := by omega
  simp only [accumulate, ha, hb, hc, IntType.convert_congr hmod, bind, Except.bind, pure,
    Except.pure]

/-! ## The characters in front of a foreign one -/

/-- The loop goes on. -/
def IsPart (x : UInt8) : Prop := IsDigit x ∨ x = minus

instance (x : UInt8) : Decidable (IsPart x) := inferInstanceAs (Decidable (_ ∨ _))

/-- The number that decimal digits denote. -/
def value (digits : Bytes) : ℕ := Nat.ofDigits 10 (digits.map digitValue).reverse

/-- The number of the digits of a text. -/
def magnitude (aString : Bytes) : ℕ := value (aString.filter IsDigit)

theorem value_concat (digits : Bytes) (x : UInt8) :
    value (digits ++ [x]) = value digits * 10 + digitValue x := by
  rw [value, List.map_append, List.reverse_append]
  change Nat.ofDigits 10 (digitValue x :: (digits.map digitValue).reverse) = _
  rw [Nat.ofDigits_cons, value]
  omega

theorem IsDigit.ne_minus {x : UInt8} (hx : IsDigit x) : x ≠ minus := by
  rintro rfl
  exact absurd hx (by decide)

theorem step_minus (s : Accumulated) : step T s minus = .ok { s with sNegative := true } := by
  rw [step, if_pos rfl]

theorem step_digit (s : Accumulated) {x : UInt8} (hx : IsDigit x) :
    step T s x = (accumulate T s.sResult x).map fun sResult => { s with sResult } := by
  obtain ⟨hzero, hnine⟩ := id hx
  have hforeign : ¬ (nine < x ∨ x < zero) := by
    rw [UInt8.lt_iff_toNat_lt, UInt8.lt_iff_toNat_lt]
    rw [UInt8.le_iff_toNat_le] at hzero hnine
    omega
  rw [step, if_neg hx.ne_minus, if_neg hforeign]
  cases accumulate T s.sResult x <;> rfl

theorem step_foreign (s : Accumulated) {x : UInt8} (hx : ¬ IsPart x) :
    step T s x = .error .notNumber := by
  have hminus : x ≠ minus := fun h => hx (.inr h)
  have hforeign : nine < x ∨ x < zero := by
    by_contra h
    refine hx (.inl ?_)
    rw [not_or, UInt8.not_lt, UInt8.not_lt] at h
    exact h.symm
  rw [step, if_neg hminus, if_pos hforeign]

variable (T) in
/-- The digits do not overflow a type that is checked. -/
def Fits (aString : Bytes) : Prop := T.Checked → (magnitude aString + 48 : ℕ) ≤ T.max

instance (aString : Bytes) : Decidable (Fits T aString) := inferInstanceAs (Decidable (_ → _))

theorem magnitude_minus (l : Bytes) : magnitude (l ++ [minus]) = magnitude l := by
  rw [magnitude, List.filter_append, List.filter_singleton, decide_eq_false (by decide),
    cond_false, List.append_nil]
  rfl

theorem magnitude_digit (l : Bytes) {x : UInt8} (hx : IsDigit x) :
    magnitude (l ++ [x]) = magnitude l * 10 + digitValue x := by
  rw [magnitude, List.filter_append, List.filter_singleton, decide_eq_true hx, cond_true,
    value_concat]
  rfl

theorem fits_nil : Fits T [] := by
  intro hT
  have hmax := IntType.le_max_of_checked hT
  rw [show magnitude [] = 0 from rfl]
  omega

theorem fits_minus (l : Bytes) : Fits T (l ++ [minus]) ↔ Fits T l := by
  rw [Fits, Fits, magnitude_minus]

theorem Fits.of_digit {l : Bytes} {x : UInt8} (hx : IsDigit x) (h : Fits T (l ++ [x])) :
    Fits T l := by
  intro hT
  have hmax := h hT
  rw [magnitude_digit l hx] at hmax
  omega

/-- One more digit. -/
theorem accumulate_magnitude {l : Bytes} (hl : Fits T l) {x : UInt8} (hx : IsDigit x) :
    accumulate T (T.convert (magnitude l)) x =
      if Fits T (l ++ [x]) then .ok (T.convert (magnitude (l ++ [x]))) else .error .overflow := by
  have hmagnitude := magnitude_digit l hx
  by_cases hT : T.Checked
  · have hmin := T.min_nonpos
    have hle := hl hT
    rw [IntType.convert_of_inRange ⟨by omega, by omega⟩, accumulate_of_checked hT hx, ← hmagnitude]
    by_cases hfits : Fits T (l ++ [x])
    · have hlast := hfits hT
      rw [if_pos hfits, if_pos hlast, IntType.convert_of_inRange ⟨by omega, by omega⟩]
    · rw [if_neg hfits, if_neg fun h => hfits fun _ => h]
  · have hfits : Fits T (l ++ [x]) := fun h => absurd h hT
    rw [if_pos hfits, accumulate_of_not_checked hT (T.inRange_convert _) hx, hmagnitude]
    have hmod := (T.convert_modEq (magnitude l)).mul_right 10
    rw [IntType.convert_congr (hmod.add_right _)]
    push_cast
    rfl

/-- What the loop does with digits and minus signs. -/
theorem foldlM_parts {aString : Bytes} (hparts : ∀ x ∈ aString, IsPart x) :
    aString.foldlM (step T) { sResult := 0, sNegative := false } =
      if Fits T aString then
        .ok { sResult := T.convert (magnitude aString), sNegative := minus ∈ aString }
      else .error .overflow := by
  induction aString using List.reverseRecOn with
  | nil =>
      have hzero : T.convert 0 = 0 := by
        rw [IntType.convert]
        split
        · exact Int.zero_bmod
        · exact Int.zero_emod _
      rw [if_pos fits_nil, show (magnitude [] : ℤ) = 0 from rfl, hzero]
      rfl
  | append_singleton l x ih =>
      have hl := ih fun y hy => hparts y (List.mem_append_left _ hy)
      rw [List.foldlM_append, hl]
      rcases hparts x (List.mem_append_right _ (List.mem_singleton_self x)) with hx | rfl
      · by_cases hfits : Fits T l
        · have hminus : minus ∈ l ++ [x] ↔ minus ∈ l := by
            rw [List.mem_append, List.mem_singleton, or_iff_left hx.ne_minus.symm]
          rw [if_pos hfits]
          change (step T _ x >>= pure) = _
          rw [bind_pure, step_digit _ hx]
          dsimp only
          rw [accumulate_magnitude hfits hx]
          simp only [hminus]
          split <;> rfl
        · rw [if_neg hfits, if_neg fun hlast => hfits (hlast.of_digit hx)]
          rfl
      · have hminus : minus ∈ l ++ [minus] := List.mem_append_right _ (List.mem_singleton_self _)
        rw [magnitude_minus]
        by_cases hfits : Fits T l
        · rw [if_pos hfits, if_pos ((fits_minus l).mpr hfits), decide_eq_true hminus]
          change (step T _ minus >>= pure) = _
          rw [bind_pure, step_minus]
        · rw [if_neg hfits, if_neg (mt (fits_minus l).mp hfits)]
          rfl

/-- The value with its sign. -/
def signedValue (aString : Bytes) : ℤ :=
  if minus ∈ aString then -magnitude aString else magnitude aString

/-- The negation cannot overflow. -/
theorem negate_magnitude {aString : Bytes} (h : Fits T aString) :
    ∃ n, T.promoted.evaluate (-T.convert (magnitude aString)) = .ok n ∧
      T.convert n = T.convert (-magnitude aString) := by
  by_cases hT : T.Checked
  · have hmax := h hT
    have hmin := T.min_nonpos
    have hbounds : T.min = -T.max - 1 := by
      rw [IntType.min, IntType.max, if_pos hT.1, if_pos hT.1]
      omega
    rw [hT.2, IntType.convert_of_inRange ⟨by omega, by omega⟩,
      IntType.evaluate_of_inRange hT.1 ⟨by omega, by omega⟩]
    exact ⟨_, rfl, rfl⟩
  · have hrange := T.inRange_convert (magnitude aString)
    obtain ⟨n, hn, hmod, -⟩ := IntType.evaluate_of_not_checked hT
      (n := -T.convert (magnitude aString)) fun hne => by
        have hsmall := (IntType.small_of_ne hne hrange).2
        omega
    exact ⟨n, hn, IntType.convert_congr (hmod.trans (T.convert_modEq _).neg)⟩

theorem atoi_parts {aString : Bytes} (hparts : ∀ x ∈ aString, IsPart x) :
    atoi T aString =
      if Fits T aString then .ok (T.convert (signedValue aString)) else .error .overflow := by
  rw [atoi, foldlM_parts hparts]
  by_cases hfits : Fits T aString
  · rw [if_pos hfits, if_pos hfits, signedValue]
    by_cases hminus : minus ∈ aString
    · obtain ⟨n, hn, hconvert⟩ := negate_magnitude hfits
      rw [if_pos hminus, ← hconvert]
      simp only [bind, Except.bind, hminus, decide_true, if_true, hn, pure, Except.pure]
    · rw [if_neg hminus]
      simp only [bind, Except.bind, hminus, decide_false, Bool.false_eq_true, if_false, pure,
        Except.pure]
  · rw [if_neg hfits, if_neg hfits]
    rfl

theorem atoi_foreign {front : Bytes} (hfront : ∀ y ∈ front, IsPart y) {x : UInt8}
    (hx : ¬ IsPart x) (rest : Bytes) :
    atoi T (front ++ x :: rest) =
      .error (if Fits T front then .notNumber else .overflow) := by
  rw [atoi, List.foldlM_append, foldlM_parts hfront]
  by_cases hfits : Fits T front
  · rw [if_pos hfits, if_pos hfits]
    simp only [bind, Except.bind, List.foldlM_cons, step_foreign _ hx]
  · rw [if_neg hfits, if_neg hfits]
    rfl

/-! ## What is accepted -/

/-- An optional minus sign and one or more digits. -/
def Denotes (aString : Bytes) (n : ℤ) : Prop :=
  ∃ digits : Bytes, digits ≠ [] ∧ (∀ x ∈ digits, IsDigit x) ∧
    (aString = digits ∧ n = value digits ∨ aString = minus :: digits ∧ n = -value digits)

theorem Denotes.parts {aString : Bytes} {n : ℤ} (h : Denotes aString n) :
    ∀ x ∈ aString, IsPart x := by
  obtain ⟨digits, -, hdigits, ⟨rfl, -⟩ | ⟨rfl, -⟩⟩ := h
  · exact fun x hx => .inl (hdigits x hx)
  · intro x hx
    rcases List.mem_cons.mp hx with rfl | hx
    · exact .inr rfl
    · exact .inl (hdigits x hx)

theorem Denotes.eq {aString : Bytes} {n : ℤ} (h : Denotes aString n) :
    n = signedValue aString := by
  obtain ⟨digits, -, hdigits, hn⟩ := h
  have hfilter : digits.filter IsDigit = digits :=
    List.filter_eq_self.mpr fun x hx => decide_eq_true (hdigits x hx)
  rcases hn with ⟨rfl, rfl⟩ | ⟨rfl, rfl⟩
  · have hminus : minus ∉ aString := fun hmem => (hdigits _ hmem).ne_minus rfl
    rw [signedValue, if_neg hminus, magnitude, hfilter]
  · have hcons : (minus :: digits).filter IsDigit = digits := by
      rw [List.filter_cons_of_neg (by decide), hfilter]
    rw [signedValue, if_pos List.mem_cons_self, magnitude, hcons]

variable (T) in
/-- The number that is denoted is returned if the type has it, and all other texts are no
numbers. -/
def Parses (aString : Bytes) : Prop :=
  (∀ n, atoi T aString = .ok n ↔ Denotes aString n ∧ T.InRange n) ∧
    ((¬ ∃ n, Denotes aString n ∧ T.InRange n) → atoi T aString = .error .notNumber)

theorem not_parses_of_overflow {aString : Bytes} (h : atoi T aString = .error .overflow) :
    ¬ Parses T aString := by
  rintro ⟨hok, herror⟩
  by_cases hdenotes : ∃ n, Denotes aString n ∧ T.InRange n
  · obtain ⟨n, hn⟩ := hdenotes
    have heq := (hok n).mpr hn
    rw [h] at heq
    cases heq
  · have heq := herror hdenotes
    rw [h] at heq
    cases heq

theorem parses_iff_of_parts {aString : Bytes} (hparts : ∀ x ∈ aString, IsPart x) :
    Parses T aString ↔ Fits T aString ∧ ∃ n, Denotes aString n ∧ T.InRange n := by
  have hatoi := atoi_parts (T := T) hparts
  by_cases hfits : Fits T aString
  · rw [if_pos hfits] at hatoi
    constructor
    · exact fun h => ⟨hfits, _, (h.1 _).mp hatoi⟩
    · rintro ⟨-, n, hdenotes, hrange⟩
      have hconvert : T.convert (signedValue aString) = n := by
        rw [← hdenotes.eq, IntType.convert_of_inRange hrange]
      rw [hconvert] at hatoi
      refine ⟨fun m => ⟨fun hm => ?_, fun hm => ?_⟩, fun hnone => ?_⟩
      · rw [hatoi] at hm
        cases hm
        exact ⟨hdenotes, hrange⟩
      · rw [hatoi, hdenotes.eq, hm.1.eq]
      · exact absurd ⟨n, hdenotes, hrange⟩ hnone
  · rw [if_neg hfits] at hatoi
    exact iff_of_false (not_parses_of_overflow hatoi) fun h => hfits h.1

theorem parses_iff_of_foreign {front : Bytes} (hfront : ∀ y ∈ front, IsPart y) {x : UInt8}
    (hx : ¬ IsPart x) (rest : Bytes) : Parses T (front ++ x :: rest) ↔ Fits T front := by
  have hatoi := atoi_foreign (T := T) hfront hx rest
  have hnone : ∀ n, ¬ Denotes (front ++ x :: rest) n := fun n h =>
    hx (h.parts x (List.mem_append_right _ List.mem_cons_self))
  by_cases hfits : Fits T front
  · rw [if_pos hfits] at hatoi
    refine iff_of_true ⟨fun n => ?_, fun _ => hatoi⟩ hfits
    rw [hatoi]
    exact iff_of_false (fun h => by cases h) fun h => hnone n h.1
  · rw [if_neg hfits] at hatoi
    exact iff_of_false (not_parses_of_overflow hatoi) hfits

/-- A foreign character, with those in front of it. -/
theorem exists_foreign {aString : Bytes} (h : ¬ ∀ x ∈ aString, IsPart x) :
    ∃ x rest, ¬ IsPart x ∧ aString = aString.takeWhile IsPart ++ x :: rest := by
  have hne : aString.dropWhile IsPart ≠ [] := fun hnil => h fun x hx => by
    have hall := List.dropWhile_eq_nil_iff.mp hnil x hx
    exact of_decide_eq_true hall
  obtain ⟨x, rest, hdrop⟩ := List.exists_cons_of_ne_nil hne
  have hx := List.head_dropWhile_not (fun y => decide (IsPart y)) hne
  simp only [hdrop, List.head_cons, decide_eq_false_iff_not] at hx
  exact ⟨x, rest, hx, by rw [← hdrop, List.takeWhile_append_dropWhile]⟩

variable (T) in
theorem parses_iff (aString : Bytes) :
    Parses T aString ↔
      Fits T (aString.takeWhile IsPart) ∧
        ((∃ x ∈ aString, ¬ IsPart x) ∨ ∃ n, Denotes aString n ∧ T.InRange n) := by
  by_cases hparts : ∀ x ∈ aString, IsPart x
  · have hall : aString.takeWhile IsPart = aString :=
      List.takeWhile_eq_self_iff.mpr fun x hx => decide_eq_true (hparts x hx)
    have hforeign : ¬ ∃ x ∈ aString, ¬ IsPart x := fun ⟨x, hx, hnot⟩ => hnot (hparts x hx)
    rw [parses_iff_of_parts hparts, hall, or_iff_right hforeign]
  · obtain ⟨x, rest, hx, heq⟩ := exists_foreign hparts
    have hfront : ∀ y ∈ aString.takeWhile IsPart, IsPart y := by
      intro y hy
      have hpart := List.mem_takeWhile_imp hy
      exact of_decide_eq_true hpart
    have hmem : x ∈ aString := by
      rw [heq]
      exact List.mem_append_right _ List.mem_cons_self
    have hparses : Parses T aString ↔ Fits T (aString.takeWhile IsPart) := by
      conv_lhs => rw [heq]
      exact parses_iff_of_foreign hfront hx rest
    rw [hparses, and_iff_left (.inl ⟨x, hmem, hx⟩)]

/-- An empty text is a number, minus signs may stand anywhere, and the range is not checked. -/
theorem not_parses_examples :
    ¬ Parses { signed := true, width := .w64 } [] ∧
      ¬ Parses { signed := true, width := .w32 } (ascii "1-2") ∧
      ¬ Parses { signed := false, width := .w8 } (ascii "256") := by
  refine ⟨fun h => ?_, fun h => ?_, fun h => ?_⟩
  · obtain ⟨⟨digits, hne, -, ⟨heq, -⟩ | ⟨heq, -⟩⟩, -⟩ := (h.1 0).mp rfl
    · exact hne heq.symm
    · cases heq
  · obtain ⟨⟨digits, -, hdigits, ⟨rfl, -⟩ | ⟨heq, -⟩⟩, -⟩ := (h.1 (-12)).mp rfl
    · exact absurd (hdigits minus (by decide)) (by decide)
    · have hhead := congrArg List.head? heq
      rw [List.head?_cons] at hhead
      exact absurd hhead (by decide)
  · have hzero := ((h.1 0).mp rfl).1.eq
    exact absurd hzero (by decide)

end Stuff.ParserAtoi
