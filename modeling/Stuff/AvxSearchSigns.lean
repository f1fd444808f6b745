import Stuff.AvxSearch
import Mathlib.Data.Nat.Log

/-!
# The signs in a search

On its way down a search of `Util::avxIndex` should meet at each level the block with the place of
`std::lower_bound`. The signed comparison takes large elements for small ones, and large values for
values in front of all elements, unless what it meets has the same sign.
-/
namespace Stuff.AvxSearch
open Loops

section
variable {k : ℕ} {aInput : List UInt32} {aValue : UInt32}

/-! ## The way down -/

/-- From the level `m` on, at the place `p`. -/
def descent (aInput : List UInt32) (aValue : UInt32) (k m p : ℕ) : Option Int32 :=
  ((List.range' 1 m).map (level aInput k)).reverse.foldlM (descend aValue) (Int32.ofNat p)

theorem lowerBound_built (hk : 2 ≤ k) :
    (built k aInput).lowerBound aValue =
      (descent aInput aValue k (k - 1) 0).bind fun sOffset =>
        (load aInput sOffset).map fun sInput => avxLowerBound1 sInput aValue + sOffset := by
  have htop : k - 2 + 1 = k - 1 := by omega
  have hlength : ((List.range' 1 (k - 1)).map (level aInput k)).length = k - 1 := by
    rw [List.length_map, List.length_range']
  simp only [AvxIndex.lowerBound, built, htop, List.take_of_length_le hlength.le]
  refine congrArg _ (funext fun sOffset => ?_)
  cases load aInput sOffset <;> rfl

theorem descent_succ (m p : ℕ) :
    descent aInput aValue k (m + 1) p =
      (descend aValue (Int32.ofNat p) (level aInput k (m + 1))).bind fun sOffset =>
        ((List.range' 1 m).map (level aInput k)).reverse.foldlM (descend aValue) sOffset := by
  rw [descent, List.range'_concat, List.map_append, List.reverse_append, Nat.one_mul,
    Nat.add_comm 1 m]
  rfl

theorem descent_step {m p s : ℕ} (hp : p < 2 ^ 31) (hlength : p + 8 ≤ 8 ^ (k - (m + 1)))
    (hs : s ≤ 8) (hbefore : ∀ j < s, cmpgt aValue (element (level aInput k (m + 1)) (p + j)) = true)
    (hat : s < 8 → cmpgt aValue (element (level aInput k (m + 1)) (p + s)) = false) :
    descent aInput aValue k (m + 1) p = descent aInput aValue k m (8 * (p + s)) := by
  have hin : p + 8 ≤ (level aInput k (m + 1)).length := by rwa [length_level]
  rw [descent_succ, descend_eq hp hin hs hbefore hat]
  rfl

/-! ## Blocks -/

theorem block_le {w i n : ℕ} (hw : w ∣ n) (hi : i < n) : w * (i / w + 1) ≤ n := by
  obtain ⟨c, rfl⟩ := hw
  have hlt : i / w < c := Nat.div_lt_of_lt_mul hi
  exact Nat.mul_le_mul_left w hlt

theorem dvd_word {m b : ℕ} (hm : m ≤ 10) (hb : 30 ≤ b) : 8 ^ m ∣ 2 ^ b := by
  have height : 8 ^ m = 2 ^ (3 * m) := by
    rw [Nat.pow_mul]
  rw [height]
  exact Nat.pow_dvd_pow 2 (by omega)

/-- The last place of the block of `8 ^ m` with the place `i`. -/
def blockEnd (m i : ℕ) : ℕ := 8 ^ m * (i / 8 ^ m + 1) - 1

theorem le_blockEnd (m i : ℕ) : i ≤ blockEnd m i := by
  have hpos : 0 < 8 ^ m := Nat.pow_pos (by decide)
  have hlt := Nat.lt_mul_div_succ i hpos
  rw [blockEnd]
  omega

theorem blockEnd_lt {m i n : ℕ} (hm : 8 ^ m ∣ n) (hi : i < n) : blockEnd m i < n := by
  have hle := block_le hm hi
  rw [blockEnd]
  omega

/-- A block of eight blocks. -/
theorem blockEnd_mono {m m' : ℕ} (hm : m ≤ m') (i : ℕ) : blockEnd m i ≤ blockEnd m' i := by
  have hlt : i < 8 ^ m' * (i / 8 ^ m' + 1) :=
    Nat.lt_mul_div_succ i (Nat.pow_pos (by decide))
  have hle := block_le ((Nat.pow_dvd_pow 8 hm).mul_right (i / 8 ^ m' + 1)) hlt
  exact Nat.sub_le_sub_right hle 1

theorem div_split (m i : ℕ) : i / 8 ^ m = 8 * (i / 8 ^ (m + 1)) + i / 8 ^ m % 8 := by
  rw [Nat.pow_succ, ← Nat.div_div_eq_div_mul]
  omega

/-- The lane at the level `m` is that of the place `i`. -/
structure Lane (aInput : List UInt32) (aValue : UInt32) (m i : ℕ) : Prop where
  before : ∀ j < i / 8 ^ m % 8,
    cmpgt aValue (element aInput (8 ^ m * (8 * (i / 8 ^ (m + 1)) + j + 1) - 1)) = true
  hit : cmpgt aValue (element aInput (blockEnd m i)) = false

/-- The sign does not matter at the level `m`. -/
def Good (aInput : List UInt32) (aValue : UInt32) (m i : ℕ) : Prop :=
  if aValue.toNat < 2 ^ 31 then (element aInput (blockEnd m i)).toNat < 2 ^ 31
  else 2 ^ 31 ≤ (element aInput (8 ^ m * (8 * (i / 8 ^ (m + 1)) + 1) - 1)).toNat

theorem Input.lane (h : Input k aInput aValue) {m : ℕ} (hm : m < k)
    (hgood : Good aInput aValue m (stdLowerBound aInput aValue)) :
    Lane aInput aValue m (stdLowerBound aInput aValue) := by
  have hi := h.stdLowerBound_lt
  have hle : ∀ p < 8 ^ k, aValue.toNat ≤ (element aInput p).toNat ↔
      stdLowerBound aInput aValue ≤ p := fun p hp => h.le_element_iff hp
  generalize stdLowerBound aInput aValue = i at *
  have hend : blockEnd m i < 8 ^ k := blockEnd_lt (Nat.pow_dvd_pow 8 hm.le) hi
  have hhit := (hle (blockEnd m i) hend).mpr (le_blockEnd m i)
  have hpos : 0 < 8 ^ m := Nat.pow_pos (by decide)
  constructor
  case hit =>
    rw [← Bool.not_eq_true, cmpgt_iff]
    unfold Good at hgood
    split at hgood
    case isTrue hsmall =>
      rw [if_pos hsmall]
      omega
    case isFalse hlarge =>
      rw [if_neg hlarge]
      omega
  case before =>
    intro j hj
    -- the blocks in front of that of `i`
    have hblock : 8 ^ m * (8 * (i / 8 ^ (m + 1)) + j + 1) ≤ 8 ^ m * (i / 8 ^ m) := by
      apply Nat.mul_le_mul_left
      have hsplit := div_split m i
      omega
    have hfirst : 8 ^ m * (8 * (i / 8 ^ (m + 1)) + 1) ≤ 8 ^ m * (8 * (i / 8 ^ (m + 1)) + j + 1) :=
      Nat.mul_le_mul_left _ (by omega)
    have hfront : 8 ^ m * (i / 8 ^ m) ≤ i := Nat.mul_div_le i (8 ^ m)
    have hstart : 0 < 8 ^ m * (8 * (i / 8 ^ (m + 1)) + 1) := Nat.mul_pos hpos (Nat.succ_pos _)
    have hbelow := mt (hle (8 ^ m * (8 * (i / 8 ^ (m + 1)) + j + 1) - 1) (by omega)).mp (by omega)
    rw [cmpgt_iff]
    unfold Good at hgood
    split at hgood
    case isTrue hsmall =>
      rw [if_pos hsmall]
      omega
    case isFalse hlarge =>
      have hmono := h.mono (i := 8 ^ m * (8 * (i / 8 ^ (m + 1)) + 1) - 1)
        (j := 8 ^ m * (8 * (i / 8 ^ (m + 1)) + j + 1) - 1) (by omega) (by omega)
      rw [if_neg hlarge]
      omega

/-! ## Runs -/

/-- A place in front of `2 ^ 31` is the same in a word. -/
theorem element_level_block {m i p : ℕ} (hm : m ≤ 10) (hi : i < 2 ^ 31) (hp : p ≤ i / 8 ^ m)
    (hin : p < 8 ^ (k - m)) :
    element (level aInput k m) p = element aInput (8 ^ m * (p + 1) - 1) := by
  have hle := block_le (dvd_word (b := 31) hm (by decide)) hi
  have hmono : 8 ^ m * (p + 1) ≤ 8 ^ m * (i / 8 ^ m + 1) := Nat.mul_le_mul_left _ (by omega)
  rw [element_level hin, Nat.mod_eq_of_lt (by omega)]

theorem blockStart_le (m i : ℕ) : 8 * (i / 8 ^ (m + 1)) ≤ i := by
  have hle : i / 8 ^ (m + 1) * 8 ^ (m + 1) ≤ i := Nat.div_mul_le_self _ _
  have hpow : 8 ≤ 8 ^ (m + 1) := by
    have hpos : 0 < 8 ^ m := Nat.pow_pos (by decide)
    rw [Nat.pow_succ]
    omega
  have hmul := Nat.mul_le_mul_left (i / 8 ^ (m + 1)) hpow
  omega

/-- The eight places of a block are in the level. -/
theorem blockStart_add_le {m i : ℕ} (hm : m + 1 ≤ k) (hi : i < 8 ^ k) :
    8 * (i / 8 ^ (m + 1)) + 8 ≤ 8 ^ (k - m) := by
  have hpow : 8 ^ k = 8 ^ (m + 1) * 8 ^ (k - (m + 1)) := by
    rw [← Nat.pow_add]
    congr 1
    omega
  have hlt : i / 8 ^ (m + 1) < 8 ^ (k - (m + 1)) := Nat.div_lt_of_lt_mul (hpow ▸ hi)
  have hsub : k - m = k - (m + 1) + 1 := by omega
  rw [hsub, Nat.pow_succ 8 (k - (m + 1))]
  omega

theorem descent_good (hk : k ≤ 11) {i : ℕ} (hi : i < 8 ^ k) (hword : i < 2 ^ 31) {m : ℕ}
    (hm : m < k) (hlane : ∀ l ≤ m, Lane aInput aValue l i) :
    descent aInput aValue k m (8 * (i / 8 ^ (m + 1))) =
      some (Int32.ofNat (8 * (i / 8 ^ 1))) := by
  induction m with
  | zero => rfl
  | succ m ih =>
      have hsplit := div_split (m + 1) i
      have hstart := blockStart_le (m + 1) i
      have hin := blockStart_add_le (m := m + 1) (by omega) hi
      have hmod : i / 8 ^ (m + 1) % 8 < 8 := Nat.mod_lt _ (by decide)
      have hthis := hlane (m + 1) (Nat.le_refl _)
      have hstep : descent aInput aValue k (m + 1) (8 * (i / 8 ^ (m + 1 + 1))) =
          descent aInput aValue k m
            (8 * (8 * (i / 8 ^ (m + 1 + 1)) + i / 8 ^ (m + 1) % 8)) := by
        refine descent_step (by omega) hin hmod.le (fun j hj => ?_) fun _ => ?_
        · rw [element_level_block (by omega) hword (by omega) (by omega)]
          exact hthis.before j hj
        · rw [element_level_block (by omega) hword (by omega) (by omega), ← hsplit]
          exact hthis.hit
      rw [hstep, ← hsplit]
      exact ih (by omega) fun l hl => hlane l (by omega)

theorem Input.lowerBound_good (h : Input k aInput aValue) (hk : k ≤ 11) {i : ℕ}
    (hi : i < 8 ^ k) (hword : i < 2 ^ 31) (hlane : ∀ m < k, Lane aInput aValue m i) :
    (built k aInput).lowerBound aValue = some (Int32.ofNat i) := by
  have htwo := h.two
  have hzero : 8 * (i / 8 ^ (k - 1 + 1)) = 0 := by
    rw [Nat.sub_add_cancel (by omega), Nat.div_eq_of_lt hi]
  have hdescent := descent_good hk hi hword (m := k - 1) (by omega)
    fun l hl => hlane l (by omega)
  rw [hzero] at hdescent
  have hin : 8 * (i / 8 ^ 1) + 8 ≤ aInput.length := by
    rw [h.size]
    exact blockStart_add_le (m := 0) (by omega) hi
  have hfirst := hlane 0 (by omega)
  have hsplit : i = 8 * (i / 8 ^ 1) + i % 8 := by omega
  have hlanes : avxLowerBound1 ((aInput.drop (8 * (i / 8 ^ 1))).take 8) aValue =
      Int32.ofNat (i % 8) := by
    refine avxLowerBound1_eq hin (by omega) (fun j hj => ?_) fun _ => ?_
    · have hbefore := hfirst.before j (by rwa [Nat.pow_zero, Nat.div_one])
      rwa [Nat.pow_zero, Nat.one_mul, Nat.add_sub_cancel] at hbefore
    · have hhit := hfirst.hit
      rw [blockEnd, Nat.pow_zero, Nat.one_mul, Nat.div_one, Nat.add_sub_cancel] at hhit
      rwa [← hsplit]
  rw [lowerBound_built htwo, hdescent, Option.bind_some, load_of_le (by omega) hin,
    Option.map_some, hlanes, ← Int32.ofNat_add, Nat.add_comm, ← hsplit]

/-- Always the first lane. -/
theorem descent_zero (hk : k ≤ 11) {m : ℕ} (hm : m < k)
    (hhit : ∀ l ≤ m, cmpgt aValue (element aInput (8 ^ l - 1)) = false) :
    descent aInput aValue k m 0 = some 0 := by
  induction m with
  | zero => rfl
  | succ m ih =>
      have hin : 0 + 8 ≤ 8 ^ (k - (m + 1)) := by
        have hpow : 8 ^ 1 ≤ 8 ^ (k - (m + 1)) := Nat.pow_le_pow_right (by decide) (by omega)
        omega
      rw [descent_step (s := 0) (by decide) hin (by decide) (fun j hj => nomatch hj) fun _ => ?_]
      · exact ih (by omega) fun l hl => hhit l (by omega)
      · rw [element_level_block (i := 0) (by omega) (by decide) (Nat.zero_le _) (by omega),
          Nat.zero_add, Nat.mul_one]
        exact hhit (m + 1) (Nat.le_refl _)

theorem Input.lowerBound_zero (h : Input k aInput aValue) (hk : k ≤ 11)
    (hhit : ∀ m < k, cmpgt aValue (element aInput (8 ^ m - 1)) = false) :
    (built k aInput).lowerBound aValue = some 0 := by
  have htwo := h.two
  have hin : 0 + 8 ≤ aInput.length := by
    have hpow : 8 ^ 1 ≤ 8 ^ k := Nat.pow_le_pow_right (by decide) (by omega)
    rw [h.size]
    omega
  have hlanes : avxLowerBound1 ((aInput.drop 0).take 8) aValue = Int32.ofNat 0 :=
    avxLowerBound1_eq hin (by decide) (fun j hj => nomatch hj) fun _ => hhit 0 (by omega)
  have hload : load aInput 0 = some ((aInput.drop 0).take 8) := load_of_le (by decide) hin
  rw [lowerBound_built htwo, descent_zero hk (by omega) fun l hl => hhit l (by omega),
    Option.bind_some, hload, Option.map_some, hlanes]
  rfl

theorem descend_none {xs : List UInt32} {p : ℕ} (hp : p < 2 ^ 31) (hlength : xs.length < p + 8) :
    descend aValue (Int32.ofNat p) xs = none := by
  rw [descend, load_of_lt hp hlength, Option.map_none]

/-- Also in a word the places in the top level are ends of blocks. -/
theorem dvd_place {m j : ℕ} (hm : m ≤ 10) : 8 ^ m ∣ (8 ^ m * (j + 1) - 1) % 2 ^ 32 + 1 := by
  have hpos : 0 < 8 ^ m * (j + 1) := Nat.mul_pos (Nat.pow_pos (by decide)) (Nat.succ_pos j)
  have hdiv := Nat.div_add_mod (8 ^ m * (j + 1) - 1) (2 ^ 32)
  have hturns : 8 ^ m ∣ 2 ^ 32 * ((8 ^ m * (j + 1) - 1) / 2 ^ 32) :=
    (dvd_word hm (by decide)).mul_right _
  have hsum : 2 ^ 32 * ((8 ^ m * (j + 1) - 1) / 2 ^ 32) +
      ((8 ^ m * (j + 1) - 1) % 2 ^ 32 + 1) = 8 ^ m * (j + 1) := by omega
  rw [← Nat.dvd_add_right hturns, hsum]
  exact Nat.dvd_mul_right _ _

/-- The end of the block is negative, and so are all that are not less than the value. -/
theorem Input.top_lanes (h : Input k aInput aValue) (hk : k ≤ 11) (hsmall : aValue.toNat < 2 ^ 31)
    (hend : 2 ^ 31 ≤ (element aInput (blockEnd (k - 1) (stdLowerBound aInput aValue))).toNat)
    {j : ℕ} (hj : j < 8) : cmpgt aValue (element (level aInput k (k - 1)) (0 + j)) = true := by
  have htwo := h.two
  have hsub : k - (k - 1) = 1 := by omega
  have hpow : 8 ^ (k - 1) * 8 = 8 ^ k := Nat.pow_pred_mul (by omega)
  have hplace := dvd_place (j := j) (show k - 1 ≤ 10 by omega)
  have hle : (8 ^ (k - 1) * (j + 1) - 1) % 2 ^ 32 ≤ 8 ^ (k - 1) * (j + 1) - 1 := Nat.mod_le _ _
  have hmul : 8 ^ (k - 1) * (j + 1) ≤ 8 ^ (k - 1) * 8 := Nat.mul_le_mul_left _ (by omega)
  have hpos : 0 < 8 ^ (k - 1) := Nat.pow_pos (by decide)
  rw [Nat.zero_add, element_level (by rw [hsub]; exact hj), cmpgt_iff, if_pos hsmall]
  generalize (8 ^ (k - 1) * (j + 1) - 1) % 2 ^ 32 = q at *
  have hq : q < 8 ^ k := by omega
  by_cases hi : stdLowerBound aInput aValue ≤ q
  · have hblock := block_le hplace (Nat.lt_succ_of_le hi)
    have hmono := h.mono (i := blockEnd (k - 1) (stdLowerBound aInput aValue)) (j := q)
      (Nat.sub_le_of_le_add hblock) hq
    exact .inr (hend.trans hmono)
  · have hless := mt (h.le_element_iff hq).mp hi
    exact .inl (Nat.not_le.mp hless)

/-- Behind the last lane of the top level there is nothing. -/
theorem Input.lowerBound_none (h : Input k aInput aValue) (hk : k ≤ 11)
    (hsmall : aValue.toNat < 2 ^ 31)
    (hend : 2 ^ 31 ≤ (element aInput (blockEnd (k - 1) (stdLowerBound aInput aValue))).toNat) :
    (built k aInput).lowerBound aValue = none := by
  obtain ⟨m, rfl⟩ : ∃ m, k = m + 2 := ⟨k - 2, by have htwo := h.two; omega⟩
  have hstep : descent aInput aValue (m + 2) (m + 1) 0 =
      descent aInput aValue (m + 2) m (8 * (0 + 8)) := by
    refine descent_step (by decide) ?_ (Nat.le_refl _) (fun j hj => h.top_lanes hk hsmall hend hj)
      fun hlt => absurd hlt (Nat.lt_irrefl _)
    have hone : m + 2 - (m + 1) = 1 := by omega
    rw [hone]
    decide
  have htop : m + 2 - 1 = m + 1 := rfl
  rw [lowerBound_built h.two, htop, hstep]
  cases m with
  | zero =>
      have hload : load aInput (Int32.ofNat 64) = none := by
        refine load_of_lt (by decide) ?_
        rw [h.size]
        decide
      change ((load aInput (Int32.ofNat 64)).map _) = none
      rw [hload, Option.map_none]
  | succ m =>
      have hnone : descend aValue (Int32.ofNat (8 * (0 + 8))) (level aInput (m + 1 + 2) (m + 1)) =
          none := by
        refine descend_none (by decide) ?_
        have htwo : m + 1 + 2 - (m + 1) = 2 := by omega
        rw [length_level, htwo]
        decide
      rw [descent_succ, hnone]
      rfl

/-! ## When the search agrees -/

theorem Input.agrees_of_good (h : Input k aInput aValue) (hk : k ≤ 11)
    (hword : stdLowerBound aInput aValue < 2 ^ 31)
    (hgood : ∀ m < k, Good aInput aValue m (stdLowerBound aInput aValue)) :
    Agrees aInput aValue := by
  rw [h.agrees_iff_built hk]
  refine ⟨_, h.lowerBound_good hk h.stdLowerBound_lt hword fun m hm => h.lane hm (hgood m hm), ?_⟩
  exact Int32.toInt_ofNat_of_lt hword

/-- For a value that is not negative: an element of the top level that is not less is not
negative. -/
def TopFits (k : ℕ) (aInput : List UInt32) (aValue : UInt32) : Prop :=
  ∃ j < 8, aValue ≤ element aInput (8 ^ (k - 1) * (j + 1) - 1) ∧
    element aInput (8 ^ (k - 1) * (j + 1) - 1) < 0x80000000

/-- For a negative value: the ends of the first blocks in front of it are negative. -/
def FirstFit (k : ℕ) (aInput : List UInt32) (aValue : UInt32) : Prop :=
  ∀ m < k, aValue ≤ element aInput (8 ^ (m + 1) - 1) → 0x80000000 ≤ element aInput (8 ^ m - 1)

/-- The levels are built, the place is an `int`, and the signs do not matter. -/
def Signed (k : ℕ) (aInput : List UInt32) (aValue : UInt32) : Prop :=
  k ≤ 11 ∧ aValue ≤ element aInput (min (8 ^ k) (2 ^ 31) - 1) ∧
    if aValue < 0x80000000 then TopFits k aInput aValue else FirstFit k aInput aValue

theorem toNat_sign : (0x80000000 : UInt32).toNat = 2 ^ 31 := rfl

theorem Input.topFits_iff (h : Input k aInput aValue) :
    TopFits k aInput aValue ↔
      (element aInput (blockEnd (k - 1) (stdLowerBound aInput aValue))).toNat < 2 ^ 31 := by
  have htwo := h.two
  have hi := h.stdLowerBound_lt
  have hpow : 8 ^ (k - 1) * 8 = 8 ^ k := Nat.pow_pred_mul (by omega)
  have hpos : 0 < 8 ^ (k - 1) := Nat.pow_pos (by decide)
  have hend : blockEnd (k - 1) (stdLowerBound aInput aValue) < 8 ^ k :=
    blockEnd_lt (Nat.pow_dvd_pow 8 (by omega)) hi
  constructor
  · rintro ⟨j, hj, hle, hlt⟩
    have hmul : 8 ^ (k - 1) * (j + 1) ≤ 8 ^ (k - 1) * 8 := Nat.mul_le_mul_left _ (by omega)
    have hstart : 0 < 8 ^ (k - 1) * (j + 1) := Nat.mul_pos hpos (Nat.succ_pos j)
    have hplace : 8 ^ (k - 1) * (j + 1) - 1 < 8 ^ k := by omega
    rw [UInt32.le_iff_toNat_le, h.le_element_iff hplace] at hle
    rw [UInt32.lt_iff_toNat_lt, toNat_sign] at hlt
    have hblock := block_le (Nat.dvd_mul_right (8 ^ (k - 1)) (j + 1))
      (show stdLowerBound aInput aValue < 8 ^ (k - 1) * (j + 1) by omega)
    exact (h.mono (Nat.sub_le_sub_right hblock 1) hplace).trans_lt hlt
  · intro hlt
    refine ⟨stdLowerBound aInput aValue / 8 ^ (k - 1), ?_, ?_, ?_⟩
    · exact Nat.div_lt_of_lt_mul (hpow.symm ▸ hi)
    · rw [UInt32.le_iff_toNat_le]
      exact (h.le_element_iff hend).mpr (le_blockEnd _ _)
    · rw [UInt32.lt_iff_toNat_lt]
      exact hlt

/-- The value is not negative. -/
theorem Input.agrees_iff_topFits (h : Input k aInput aValue) (hk : k ≤ 11)
    (hword : stdLowerBound aInput aValue < 2 ^ 31) (hsmall : aValue.toNat < 2 ^ 31) :
    Agrees aInput aValue ↔ TopFits k aInput aValue := by
  have htwo := h.two
  rw [h.topFits_iff]
  constructor
  · intro hagrees
    by_contra hend
    obtain ⟨r, hlower, -⟩ := (h.agrees_iff_built hk).mp hagrees
    rw [h.lowerBound_none hk hsmall (Nat.not_lt.mp hend)] at hlower
    cases hlower
  · intro hend
    refine h.agrees_of_good hk hword fun m hm => ?_
    have hplaces : blockEnd m (stdLowerBound aInput aValue) ≤
        blockEnd (k - 1) (stdLowerBound aInput aValue) := blockEnd_mono (by omega) _
    rw [Good, if_pos hsmall]
    refine (h.mono hplaces ?_).trans_lt hend
    exact blockEnd_lt (Nat.pow_dvd_pow 8 (by omega)) h.stdLowerBound_lt

/-- The end of the first block with a part of the elements in front of the place. -/
theorem Input.negative_of_firstFit (h : Input k aInput aValue) (hfit : FirstFit k aInput aValue)
    {m : ℕ} (hm : m < k) (hlt : stdLowerBound aInput aValue < 8 ^ (m + 1)) :
    2 ^ 31 ≤ (element aInput (8 ^ m - 1)).toNat := by
  have hpow : 8 ^ (m + 1) ≤ 8 ^ k := Nat.pow_le_pow_right (by decide) hm
  have hpos : 0 < 8 ^ (m + 1) := Nat.pow_pos (by decide)
  have hle := (h.le_element_iff (by omega)).mpr (Nat.le_sub_one_of_lt hlt)
  exact UInt32.le_iff_toNat_le.mp (hfit m hm (UInt32.le_iff_toNat_le.mpr hle))

/-- A block that starts behind the place 0. -/
theorem le_blockStart {m l i : ℕ} (hl : m + 1 ≤ l) (hi : 8 ^ l ≤ i) :
    8 ^ l ≤ 8 ^ (m + 1) * (i / 8 ^ (m + 1)) := by
  obtain ⟨c, hc⟩ := Nat.pow_dvd_pow 8 hl
  rw [hc] at hi ⊢
  apply Nat.mul_le_mul_left
  rwa [Nat.le_div_iff_mul_le (Nat.pow_pos (by decide)), Nat.mul_comm]

theorem Input.good_of_firstFit (h : Input k aInput aValue) (hlarge : ¬ aValue.toNat < 2 ^ 31)
    (hfit : FirstFit k aInput aValue) {m : ℕ} (hm : m < k) :
    Good aInput aValue m (stdLowerBound aInput aValue) := by
  have hi := h.stdLowerBound_lt
  rw [Good, if_neg hlarge]
  by_cases hblock : stdLowerBound aInput aValue < 8 ^ (m + 1)
  · rw [Nat.div_eq_of_lt hblock, Nat.mul_zero, Nat.zero_add, Nat.mul_one]
    exact h.negative_of_firstFit hfit hm hblock
  · have hfirst := fun l (hl : l < k) => h.negative_of_firstFit hfit hl
    generalize stdLowerBound aInput aValue = i at *
    have hne : i ≠ 0 := by
      have hpos : 0 < 8 ^ (m + 1) := Nat.pow_pos (by decide)
      omega
    have hlow : 8 ^ Nat.log 8 i ≤ i := Nat.pow_log_le_self 8 hne
    have hhigh : i < 8 ^ (Nat.log 8 i + 1) := Nat.lt_pow_succ_log_self (by decide) i
    have hlog : Nat.log 8 i < k := (Nat.pow_lt_pow_iff_right (by decide)).mp (hlow.trans_lt hi)
    have hlevel : m + 1 ≤ Nat.log 8 i :=
      (Nat.le_log_iff_pow_le (by decide) hne).mpr (Nat.not_lt.mp hblock)
    have hstart := le_blockStart hlevel hlow
    have hend := block_le (Nat.pow_dvd_pow 8 (show m + 1 ≤ k by omega)) hi
    have hplace : 8 ^ m * (8 * (i / 8 ^ (m + 1)) + 1) =
        8 ^ (m + 1) * (i / 8 ^ (m + 1)) + 8 ^ m := by
      rw [Nat.mul_add, Nat.mul_one, ← Nat.mul_assoc, ← Nat.pow_succ]
    have hpow : 8 ^ m ≤ 8 ^ (m + 1) := Nat.pow_le_pow_right (by decide) (Nat.le_succ m)
    have hpos : 0 < 8 ^ m := Nat.pow_pos (by decide)
    rw [Nat.mul_add, Nat.mul_one] at hend
    exact (hfirst (Nat.log 8 i) hlog hhigh).trans (h.mono (by omega) (by omega))

/-- The search stays at the first place. -/
theorem Input.not_agrees_of_positive (h : Input k aInput aValue) (hk : k ≤ 11)
    (hlarge : ¬ aValue.toNat < 2 ^ 31) {m : ℕ} (hm : m < k)
    (hle : aValue ≤ element aInput (8 ^ (m + 1) - 1))
    (hpositive : (element aInput (8 ^ m - 1)).toNat < 2 ^ 31) : ¬ Agrees aInput aValue := by
  have hplace : ∀ l < k, 8 ^ l - 1 < 8 ^ k := by
    intro l hl
    have hpow : 8 ^ l ≤ 8 ^ k := Nat.pow_le_pow_right (by decide) hl.le
    have hpos : 0 < 8 ^ l := Nat.pow_pos (by decide)
    omega
  have hmono : ∀ {l l'}, l ≤ l' → 8 ^ l - 1 ≤ 8 ^ l' - 1 := fun hl =>
    Nat.sub_le_sub_right (Nat.pow_le_pow_right (by decide) hl) 1
  have hhit : ∀ l < k, cmpgt aValue (element aInput (8 ^ l - 1)) = false := by
    intro l hl
    rw [← Bool.not_eq_true, cmpgt_iff, if_neg hlarge]
    rcases Nat.lt_or_ge m l with hlt | hge
    · have helement := h.mono (hmono (show m + 1 ≤ l from hlt)) (hplace l hl)
      rw [UInt32.le_iff_toNat_le] at hle
      omega
    · have helement := h.mono (hmono hge) (hplace m hm)
      omega
  rw [h.agrees_iff_built hk, h.lowerBound_zero hk hhit]
  rintro ⟨r, hr, hplace0⟩
  cases hr
  have hzero : stdLowerBound aInput aValue ≤ 0 := by
    change (0 : ℤ) = _ at hplace0
    omega
  have hfirst := (h.le_element_iff (Nat.pow_pos (by decide))).mpr hzero
  have hmin := h.mono (Nat.zero_le (8 ^ m - 1)) (hplace m hm)
  omega

/-- The value is negative. -/
theorem Input.agrees_iff_firstFit (h : Input k aInput aValue) (hk : k ≤ 11)
    (hword : stdLowerBound aInput aValue < 2 ^ 31) (hlarge : ¬ aValue.toNat < 2 ^ 31) :
    Agrees aInput aValue ↔ FirstFit k aInput aValue := by
  constructor
  · intro hagrees m hm hle
    rw [UInt32.le_iff_toNat_le, toNat_sign]
    by_contra hpositive
    exact h.not_agrees_of_positive hk hlarge hm hle (Nat.not_le.mp hpositive) hagrees
  · exact fun hfit => h.agrees_of_good hk hword fun m hm => h.good_of_firstFit hlarge hfit hm

theorem Input.place_iff (h : Input k aInput aValue) :
    aValue ≤ element aInput (min (8 ^ k) (2 ^ 31) - 1) ↔
      stdLowerBound aInput aValue < 2 ^ 31 := by
  have hi := h.stdLowerBound_lt
  have hpos : 0 < 8 ^ k := Nat.pow_pos (by decide)
  rw [UInt32.le_iff_toNat_le, h.le_element_iff (by omega)]
  omega

/-- Exactly for these vectors and values the search finds the right place. -/
theorem avxIndex_agrees_iff (h : Input k aInput aValue) :
    Agrees aInput aValue ↔ Signed k aInput aValue := by
  have hsign : aValue < 0x80000000 ↔ aValue.toNat < 2 ^ 31 := UInt32.lt_iff_toNat_lt
  unfold Signed
  rw [h.place_iff]
  by_cases hk : k ≤ 11
  case neg =>
    refine iff_of_false ?_ fun hsigned => hk hsigned.1
    rintro ⟨r, ⟨n, hn⟩, -⟩
    have hnone : search n aInput aValue = none := by
      rw [search, h.construct_never (Nat.not_le.mp hk)]
      rfl
    exact absurd ((hn n (Nat.le_refl n)).symm.trans hnone) (Option.some_ne_none r)
  by_cases hword : stdLowerBound aInput aValue < 2 ^ 31
  case neg =>
    refine iff_of_false ?_ fun hsigned => hword hsigned.2.1
    rintro ⟨r, -, hr⟩
    have hlt := r.toInt_lt
    omega
  rw [and_iff_right hk, and_iff_right hword]
  split
  case isTrue hsmall => exact h.agrees_iff_topFits hk hword (hsign.mp hsmall)
  case isFalse hlarge => exact h.agrees_iff_firstFit hk hword (mt hsign.mpr hlarge)

/-- 64 equal elements. -/
theorem avxIndex_agrees_equal :
    Agrees (List.replicate 64 5) 5 ↔ Signed 2 (List.replicate 64 5) 5 :=
  avxIndex_agrees_iff
    { two := Nat.le_refl 2
      size := List.length_replicate
      sorted := List.pairwise_replicate.mpr (.inr (UInt32.le_refl 5))
      last := fun x hx => by
        rw [List.eq_of_mem_replicate (List.mem_of_getLast? hx)]
        exact UInt32.le_refl 5 }

/-- The last one of 64 elements, behind others that are zero. -/
theorem avxIndex_finds_zero :
    ¬ Agrees (List.replicate 63 0 ++ [0x80000000]) 0x80000000 := by
  have hsorted : (List.replicate 63 (0 : UInt32) ++ [0x80000000]).Pairwise (· ≤ ·) := by
    refine List.pairwise_append.mpr
      ⟨List.pairwise_replicate.mpr (.inr (UInt32.le_refl 0)), List.pairwise_singleton _ _, ?_⟩
    intro x hx _ _
    rw [List.eq_of_mem_replicate hx]
    exact UInt32.zero_le
  have hinput : Input 2 (List.replicate 63 0 ++ [0x80000000]) 0x80000000 :=
    { two := Nat.le_refl 2
      size := rfl
      sorted := hsorted
      last := fun x hx => by
        rw [List.getLast?_concat, Option.mem_some_iff] at hx
        rw [← hx]
        exact UInt32.le_refl _ }
  exact hinput.not_agrees_of_positive (by decide) (by decide) (m := 1) (by decide) (by decide)
    (by decide)

end

end Stuff.AvxSearch
