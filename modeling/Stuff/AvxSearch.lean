import Stuff.Loops
import Mathlib.Data.Nat.Bitwise
import Mathlib.Data.UInt

/-!
# A search with vectors of eight

`Util::avxIndex` takes the last element of every eight of a sorted vector for its first level, those
of this for the next one and so on, until a level has eight. A search goes down from there with one
comparison at each level. The comparison is one of signed numbers, the offset is an `int`, and the
index of a level is counted in 32 bits.
-/
namespace Stuff.AvxSearch
open Loops

/-! ## One comparison -/

/-- `_mm256_cmpgt_epi32` in one lane. -/
def cmpgt (aVal x : UInt32) : Bool := x.toInt32 < aVal.toInt32

def bits : List Bool → ℕ
  | [] => 0
  | b :: lanes => Nat.bit b (bits lanes)

/-- `_mm256_movemask_ps`, the first lane in the lowest bit. -/
def movemask (lanes : List Bool) : UInt32 := UInt32.ofNat (bits lanes)

/-- `__builtin_ffs` -/
def ffs (x : UInt32) : Int32 :=
  match (List.range 32).find? fun i => x.toNat.testBit i with
  | none => 0
  | some i => Int32.ofNat (i + 1)

/-- `operator>=` of `WideInt32` is the comparison. -/
def avxLowerBound1 (aInput : List UInt32) (aVal : UInt32) : Int32 :=
  ffs (~~~movemask (aInput.map (cmpgt aVal))) - 1

/-! ## The index -/

structure AvxIndex where
  m_Input : List UInt32
  m_Index : List (List UInt32)
  m_TopLevel : ℕ
deriving DecidableEq, Repr

/-- A turn of the inner loop, with `i` and the level so far. -/
def fillTurn (sInput : List UInt32) (s : UInt32 × List UInt32) :
    Option (Turn (UInt32 × List UInt32) (List UInt32)) :=
  if s.1.toNat < sInput.length / 8 then
    (sInput[((s.1 + 1) * 8 - 1).toNat]?).map fun x => .next (s.1 + 1, s.2 ++ [x])
  else some (.leave s.2)

def fill (n : ℕ) (sInput : List UInt32) : Option (List UInt32) :=
  loop (fun _ => fillTurn sInput) n (0, [])

/-- A turn of the outer loop, with `m_Index` and `sInput`. A failed `assert` is the end of the
program. -/
def buildTurn (n : ℕ) (s : List (List UInt32) × List UInt32) :
    Option (Turn (List (List UInt32) × List UInt32) (List (List UInt32))) :=
  (fill n s.2).bind fun sIndex =>
    if sIndex.length = 8 then some (.leave (s.1 ++ [sIndex]))
    else if (s.1 ++ [sIndex]).length ≤ 32 then some (.next (s.1 ++ [sIndex], sIndex))
    else none

/-- The constructor. -/
def construct (n : ℕ) (aInput : List UInt32) : Option AvxIndex :=
  if aInput.length % 8 = 0 then
    (loop buildTurn n ([], aInput)).map fun m_Index =>
      { m_Input := aInput, m_Index := m_Index, m_TopLevel := m_Index.length - 1 }
  else none

/-- Eight elements. The place is a `size_t`, and what is behind the end is not read. -/
def load (xs : List UInt32) (sOffset : Int32) : Option (List UInt32) :=
  let i := sOffset.toInt64.toUInt64.toNat
  if i + 8 ≤ xs.length then some ((xs.drop i).take 8) else none

/-- The product with `INDEX_SIZE`, which is unsigned, has the bits of that of two numbers of type
`int`. -/
def descend (aValue : UInt32) (sOffset : Int32) (sIndex : List UInt32) : Option Int32 :=
  (load sIndex sOffset).map fun sInput => sOffset * 8 + avxLowerBound1 sInput aValue * 8

def AvxIndex.lowerBound (x : AvxIndex) (aValue : UInt32) : Option Int32 := do
  let sOffset ← (x.m_Index.take (x.m_TopLevel + 1)).reverse.foldlM (descend aValue) 0
  let sInput ← load x.m_Input sOffset
  return avxLowerBound1 sInput aValue + sOffset

/-- An index for the elements, and a search in it. -/
def search (n : ℕ) (aInput : List UInt32) (aValue : UInt32) : Option Int32 :=
  (construct n aInput).bind fun x => x.lowerBound aValue

/-- The first element that is not less. -/
def stdLowerBound (aInput : List UInt32) (aValue : UInt32) : ℕ :=
  aInput.findIdx fun x => aValue ≤ x

/-- The search returns the place that `std::lower_bound` finds. -/
def Agrees (aInput : List UInt32) (aValue : UInt32) : Prop :=
  ∃ r, Returns (fun n => search n aInput aValue) r ∧ r.toInt = stdLowerBound aInput aValue

/-! ## Lanes -/

theorem bits_lt (lanes : List Bool) : bits lanes < 2 ^ lanes.length := by
  induction lanes with
  | nil => exact Nat.one_pos
  | cons b lanes ih =>
      have hb := Bool.toNat_le b
      rw [bits, Nat.bit_val, List.length_cons, Nat.pow_succ]
      omega

theorem testBit_bits (lanes : List Bool) (i : ℕ) : (bits lanes).testBit i = lanes.getD i false := by
  induction lanes generalizing i with
  | nil => simp [bits]
  | cons b lanes ih =>
      cases i with
      | zero => exact Nat.testBit_bit_zero b (bits lanes)
      | succ i =>
          rw [bits, Nat.testBit_bit_succ, ih]
          rfl

/-- The first lane that is not set, or the one behind the last. -/
theorem ffs_movemask {lanes : List Bool} {s : ℕ} (hlength : lanes.length < 32)
    (hs : s ≤ lanes.length) (hbefore : ∀ j < s, lanes.getD j false = true)
    (hat : lanes.getD s false = false) :
    ffs (~~~movemask lanes) = Int32.ofNat (s + 1) := by
  have hlt := bits_lt lanes
  have hsmall : bits lanes < 2 ^ 32 := hlt.trans (Nat.pow_lt_pow_right (by decide) hlength)
  have hbit : ∀ i < 32, (~~~movemask lanes).toNat.testBit i = !lanes.getD i false := by
    intro i hi
    have hsize : UInt32.size = 2 ^ 32 := rfl
    have hnot : (~~~movemask lanes).toNat = 2 ^ 32 - (bits lanes + 1) := by
      rw [UInt32.toNat_not, movemask, UInt32.toNat_ofNat', Nat.mod_eq_of_lt hsmall]
      omega
    rw [hnot, Nat.testBit_two_pow_sub_succ hsmall, testBit_bits, decide_eq_true hi, Bool.true_and]
  have hfind : (List.range 32).find? (fun i => (~~~movemask lanes).toNat.testBit i) = some s := by
    rw [List.find?_range_eq_some]
    refine ⟨?_, List.mem_range.mpr (by omega), fun j hj => ?_⟩
    · rw [hbit s (by omega), hat]
      rfl
    · rw [hbit j (by omega), hbefore j hj]
      rfl
  rw [ffs, hfind]

def element (xs : List UInt32) (i : ℕ) : UInt32 := xs.getD i 0

section
variable {xs : List UInt32} {p s : ℕ} {aVal : UInt32}

theorem lane_eq (hlength : p + 8 ≤ xs.length) {j : ℕ} (hj : j < 8) :
    (((xs.drop p).take 8).map (cmpgt aVal)).getD j false = cmpgt aVal (element xs (p + j)) := by
  have hin : p + j < xs.length := by omega
  rw [element, List.getD_eq_getElem?_getD, List.getD_eq_getElem?_getD, List.getElem?_map,
    List.getElem?_take_of_lt hj, List.getElem?_drop, List.getElem?_eq_getElem hin]
  rfl

/-- The first lane with an element that is not less, or 8. -/
theorem avxLowerBound1_eq (hlength : p + 8 ≤ xs.length) (hs : s ≤ 8)
    (hbefore : ∀ j < s, cmpgt aVal (element xs (p + j)) = true)
    (hat : s < 8 → cmpgt aVal (element xs (p + s)) = false) :
    avxLowerBound1 ((xs.drop p).take 8) aVal = Int32.ofNat s := by
  have hlanes : (((xs.drop p).take 8).map (cmpgt aVal)).length = 8 := by
    rw [List.length_map, List.length_take, List.length_drop]
    omega
  rw [avxLowerBound1, ffs_movemask (s := s) (by omega) (by omega) ?_ ?_, Int32.ofNat_add]
  · exact Int32.add_sub_cancel _ _
  · intro j hj
    rw [lane_eq hlength (by omega)]
    exact hbefore j hj
  · rcases Nat.lt_or_eq_of_le hs with hlt | rfl
    · rw [lane_eq hlength hlt]
      exact hat hlt
    · rw [List.getD_eq_default _ _ hlanes.le]

theorem toNat_offset (hp : p < 2 ^ 31) : (Int32.ofNat p).toInt64.toUInt64.toNat = p := by
  have hmax : (p : ℤ) ≤ Int32.maxValue.toInt := by
    change (p : ℤ) ≤ 2 ^ 31 - 1
    omega
  rw [Int32.toInt64_ofNat' hmax, Int64.toUInt64_ofNat', UInt64.toNat_ofNat', Nat.mod_eq_of_lt]
  omega

theorem load_of_le (hp : p < 2 ^ 31) (hlength : p + 8 ≤ xs.length) :
    load xs (Int32.ofNat p) = some ((xs.drop p).take 8) := by
  simp only [load, toNat_offset hp, if_pos hlength]

theorem load_of_lt (hp : p < 2 ^ 31) (hlength : xs.length < p + 8) :
    load xs (Int32.ofNat p) = none := by
  simp only [load, toNat_offset hp, if_neg (Nat.not_le.mpr hlength)]

theorem descend_eq (hp : p < 2 ^ 31) (hlength : p + 8 ≤ xs.length) (hs : s ≤ 8)
    (hbefore : ∀ j < s, cmpgt aVal (element xs (p + j)) = true)
    (hat : s < 8 → cmpgt aVal (element xs (p + s)) = false) :
    descend aVal (Int32.ofNat p) xs = some (Int32.ofNat (8 * (p + s))) := by
  rw [descend, load_of_le hp hlength, Option.map_some,
    avxLowerBound1_eq hlength hs hbefore hat]
  change some (Int32.ofNat p * Int32.ofNat 8 + Int32.ofNat s * Int32.ofNat 8) = _
  rw [← Int32.ofNat_mul, ← Int32.ofNat_mul, ← Int32.ofNat_add, ← Nat.add_mul, Nat.mul_comm]

end

/-! ## Signs -/

theorem toInt_word (x : UInt32) :
    x.toInt32.toInt = if x.toNat < 2 ^ 31 then (x.toNat : ℤ) else x.toNat - 2 ^ 32 := by
  have hx := x.toNat_lt
  have hbmod : x.toInt32.toInt = (x.toNat : ℤ).bmod Int32.size := by
    conv_lhs => rw [← UInt32.ofNat_toNat (x := x)]
    rw [UInt32.toInt32_ofNat', Int32.toInt_ofNat']
  have hsize : Int32.size = 2 ^ 32 := rfl
  rw [hbmod, Int.bmod_def, hsize]
  split <;> split <;> omega

theorem cmpgt_iff (aVal x : UInt32) :
    cmpgt aVal x = true ↔
      if aVal.toNat < 2 ^ 31 then x.toNat < aVal.toNat ∨ 2 ^ 31 ≤ x.toNat
      else 2 ^ 31 ≤ x.toNat ∧ x.toNat < aVal.toNat := by
  have ha := aVal.toNat_lt
  have hx := x.toNat_lt
  rw [cmpgt, decide_eq_true_iff, Int32.lt_iff_toInt_lt, toInt_word, toInt_word]
  split <;> split <;> omega

/-! ## Sorted elements -/

/-- A sorted vector of `8 ^ k` elements, and a value that is not above the last one. -/
structure Input (k : ℕ) (aInput : List UInt32) (aValue : UInt32) : Prop where
  two : 2 ≤ k
  size : aInput.length = 8 ^ k
  sorted : aInput.Pairwise (· ≤ ·)
  last : ∀ x ∈ aInput.getLast?, aValue ≤ x

section
variable {k : ℕ} {aInput : List UInt32} {aValue : UInt32}

theorem element_eq {i : ℕ} (hi : i < aInput.length) : element aInput i = aInput[i] := by
  rw [element, List.getD_eq_getElem?_getD, List.getElem?_eq_getElem hi]
  rfl

theorem Input.mono (h : Input k aInput aValue) {i j : ℕ} (hij : i ≤ j) (hj : j < 8 ^ k) :
    (element aInput i).toNat ≤ (element aInput j).toNat := by
  rw [← h.size] at hj
  rw [element_eq (hij.trans_lt hj), element_eq hj, ← UInt32.le_iff_toNat_le]
  rcases Nat.lt_or_eq_of_le hij with hlt | rfl
  · exact List.pairwise_iff_getElem.mp h.sorted i j _ hj hlt
  · exact UInt32.le_refl _

theorem Input.stdLowerBound_lt (h : Input k aInput aValue) :
    stdLowerBound aInput aValue < 8 ^ k := by
  have hne : aInput ≠ [] := by
    apply List.ne_nil_of_length_pos
    rw [h.size]
    exact Nat.pow_pos (by decide)
  have hlast := h.last _ (List.getLast?_eq_some_getLast hne)
  rw [← h.size]
  exact List.findIdx_lt_length_of_exists
    ⟨aInput.getLast hne, List.getLast_mem hne, decide_eq_true hlast⟩

theorem Input.le_element_iff (h : Input k aInput aValue) {i : ℕ} (hi : i < 8 ^ k) :
    aValue.toNat ≤ (element aInput i).toNat ↔ stdLowerBound aInput aValue ≤ i := by
  have hbound := h.stdLowerBound_lt
  constructor
  · intro hle
    by_contra hlt
    have hnot := List.not_of_lt_findIdx (Nat.not_le.mp hlt)
    rw [decide_eq_false_iff_not, UInt32.le_iff_toNat_le, ← element_eq (h.size ▸ hi)] at hnot
    exact hnot hle
  · intro hle
    have hin : stdLowerBound aInput aValue < aInput.length := h.size ▸ hbound
    have hfound : decide (aValue ≤ aInput[stdLowerBound aInput aValue]) = true :=
      List.findIdx_getElem (w := hin)
    rw [decide_eq_true_iff, UInt32.le_iff_toNat_le, ← element_eq hin] at hfound
    exact hfound.trans (h.mono hle hi)

/-! ## Levels -/

/-- The elements at the ends of `8 ^ m`, where a word runs around. -/
def level (aInput : List UInt32) (k m : ℕ) : List UInt32 :=
  (List.range (8 ^ (k - m))).map fun i => element aInput ((8 ^ m * (i + 1) - 1) % 2 ^ 32)

theorem length_level (m : ℕ) : (level aInput k m).length = 8 ^ (k - m) := by
  rw [level, List.length_map, List.length_range]

theorem element_level {m i : ℕ} (hi : i < 8 ^ (k - m)) :
    element (level aInput k m) i = element aInput ((8 ^ m * (i + 1) - 1) % 2 ^ 32) := by
  have hin : i < (level aInput k m).length := by rwa [length_level]
  rw [element_eq hin]
  simp [level]

/-- What the inner loop makes of a level. -/
def nextLevel (sInput : List UInt32) : List UInt32 :=
  (List.range (sInput.length / 8)).map fun i => element sInput ((8 * (i + 1) - 1) % 2 ^ 32)

/-- Where the inner loop is. -/
structure Filling (sInput : List UInt32) (s : UInt32 × List UInt32) : Prop where
  bound : s.1.toNat ≤ sInput.length / 8
  level : s.2 = (List.range s.1.toNat).map fun i =>
    element sInput ((8 * (i + 1) - 1) % 2 ^ 32)

theorem fillTurn_ok {sInput : List UInt32} (hsize : sInput.length / 8 < 2 ^ 32)
    {s : UInt32 × List UInt32} (h : Filling sInput s) :
    ∃ t, Returns (fun _ => fillTurn sInput s) t ∧
      t.Ok (Filling sInput) (fun s => sInput.length / 8 - s.1.toNat)
        (fun r => r = nextLevel sInput) (sInput.length / 8 - s.1.toNat) := by
  obtain ⟨i, sIndex⟩ := s
  obtain ⟨hi, hlevel⟩ := h
  dsimp only at *
  rw [fillTurn]
  dsimp only
  by_cases hlt : i.toNat < sInput.length / 8
  · have hone : (1 : UInt32).toNat = 1 := rfl
    have height : (8 : UInt32).toNat = 8 := rfl
    have hnext : (i + 1).toNat = i.toNat + 1 := by
      rw [UInt32.toNat_add, hone]
      omega
    have hplace : ((i + 1) * 8 - 1).toNat = (8 * (i.toNat + 1) - 1) % 2 ^ 32 := by
      rw [UInt32.toNat_sub, UInt32.toNat_mul, hnext, hone, height]
      omega
    have hin : (8 * (i.toNat + 1) - 1) % 2 ^ 32 < sInput.length := by omega
    rw [if_pos hlt, hplace, List.getElem?_eq_getElem hin, Option.map_some, ← element_eq hin]
    refine ⟨_, returns_some _, ⟨?_, ?_⟩, ?_⟩
    · dsimp only
      rw [hnext]
      exact hlt
    · dsimp only
      rw [hnext, List.range_succ, List.map_append, List.map_singleton, hlevel]
    · dsimp only
      rw [hnext]
      omega
  · have hall : i.toNat = sInput.length / 8 := by omega
    rw [if_neg hlt]
    refine ⟨_, returns_some _, ?_⟩
    change sIndex = nextLevel sInput
    rw [hlevel, hall, nextLevel]

theorem fill_returns {sInput : List UInt32} (hsize : sInput.length / 8 < 2 ^ 32) :
    Returns (fun n => fill n sInput) (nextLevel sInput) := by
  have hstart : Filling sInput (0, []) := ⟨Nat.zero_le _, rfl⟩
  obtain ⟨r, hreturns, hr⟩ := loop_returns (I := Filling sInput) _
    (fun s hs => fillTurn_ok hsize hs) hstart
  rwa [hr] at hreturns

/-- The number in a word never comes to the end. -/
theorem fill_never {sInput : List UInt32} (hsize : 2 ^ 32 ≤ sInput.length / 8) (n : ℕ) :
    fill n sInput = none := by
  rw [Option.eq_none_iff_forall_not_mem]
  intro r hr
  refine of_loop_eq_some (I := fun _ => True) (Q := fun _ => False) (fun _ _ _ _ _ => trivial) ?_
    trivial hr
  intro n s r _ hturn
  have hlt : s.1.toNat < sInput.length / 8 := s.1.toNat_lt.trans_le hsize
  rw [fillTurn, if_pos hlt, Option.map_eq_some_iff] at hturn
  obtain ⟨x, -, hleave⟩ := hturn
  cases hleave

/-! ## The levels of the index -/

/-- What the inner loop makes of the level `m`. -/
theorem fill_level (hk : k ≤ 11) {m : ℕ} (hm : m < k) {sInput : List UInt32}
    (hsize : sInput.length = 8 ^ (k - m))
    (helement : ∀ i < 8 ^ (k - m - 1), element sInput ((8 * (i + 1) - 1) % 2 ^ 32) =
      element aInput ((8 ^ (m + 1) * (i + 1) - 1) % 2 ^ 32)) :
    Returns (fun n => fill n sInput) (level aInput k (m + 1)) := by
  have hpow : 8 ^ (k - m - 1) * 8 = 8 ^ (k - m) := Nat.pow_pred_mul (by omega)
  have hlength : sInput.length / 8 = 8 ^ (k - m - 1) := by
    rw [hsize, ← hpow, Nat.mul_div_cancel _ (by decide)]
  have hsmall : 8 ^ (k - m - 1) ≤ 8 ^ 10 := Nat.pow_le_pow_right (by decide) (by omega)
  have hreturns : Returns (fun n => fill n sInput) (nextLevel sInput) :=
    fill_returns (by omega)
  have hlevel : nextLevel sInput = level aInput k (m + 1) := by
    rw [nextLevel, level, hlength, Nat.sub_add_eq]
    exact List.map_congr_left fun i hi => helement i (List.mem_range.mp hi)
  rwa [hlevel] at hreturns

theorem fill_first (hk : k ≤ 11) (hpos : 0 < k) (hsize : aInput.length = 8 ^ k) :
    Returns (fun n => fill n aInput) (level aInput k 1) := by
  refine fill_level hk hpos hsize fun i _ => ?_
  rw [Nat.pow_one]

/-- From the second level on the numbers are small. -/
theorem fill_next (hk : k ≤ 11) {m : ℕ} (hpos : 0 < m) (hm : m < k) :
    Returns (fun n => fill n (level aInput k m)) (level aInput k (m + 1)) := by
  refine fill_level hk hm (length_level m) fun i hi => ?_
  have hpow : 8 ^ (k - m - 1) * 8 = 8 ^ (k - m) := Nat.pow_pred_mul (by omega)
  have hsmall : 8 ^ (k - m) ≤ 8 ^ 10 := Nat.pow_le_pow_right (by decide) (by omega)
  have hmod : (8 * (i + 1) - 1) % 2 ^ 32 = 8 * (i + 1) - 1 := Nat.mod_eq_of_lt (by omega)
  rw [hmod, element_level (by omega), Nat.sub_add_cancel (by omega), ← Nat.mul_assoc,
    Nat.pow_succ 8 m]

theorem buildTurn_leave {front : List (List UInt32)} {sInput sIndex : List UInt32}
    (hfill : Returns (fun n => fill n sInput) sIndex) (hsize : sIndex.length = 8) :
    Returns (fun n => buildTurn n (front, sInput)) (.leave (front ++ [sIndex])) := by
  apply hfill.bind
  rw [if_pos hsize]
  exact returns_some _

theorem buildTurn_next {front : List (List UInt32)} {sInput sIndex : List UInt32}
    (hfill : Returns (fun n => fill n sInput) sIndex) (hsize : sIndex.length ≠ 8)
    (hroom : (front ++ [sIndex]).length ≤ 32) :
    Returns (fun n => buildTurn n (front, sInput)) (.next (front ++ [sIndex], sIndex)) := by
  apply hfill.bind
  rw [if_neg hsize, if_pos hroom]
  exact returns_some _

/-- All levels behind `m`, of which there are `d + 1`. -/
theorem build_returns (hk : k ≤ 11) (d : ℕ) {m : ℕ} {front : List (List UInt32)}
    {sInput : List UInt32} (hm : m + d + 2 = k) (hfront : front.length = m)
    (hfill : Returns (fun n => fill n sInput) (level aInput k (m + 1))) :
    Returns (fun n => loop buildTurn n (front, sInput))
      (front ++ (List.range' (m + 1) (d + 1)).map (level aInput k)) := by
  have hlength : (level aInput k (m + 1)).length = 8 ^ (d + 1) := by
    rw [length_level]
    congr 1
    omega
  induction d generalizing m front sInput with
  | zero => exact loop_leave (buildTurn_leave hfill hlength)
  | succ d ih =>
      have hne : 8 ^ (d + 1 + 1) ≠ 8 := by
        have hpos : 0 < 8 ^ d := Nat.pow_pos (by decide)
        rw [Nat.pow_succ, Nat.pow_succ]
        omega
      have hfront' : (front ++ [level aInput k (m + 1)]).length = m + 1 := by
        rw [List.length_append, hfront, List.length_singleton]
      have hmap : front ++ (List.range' (m + 1) (d + 1 + 1)).map (level aInput k) =
          front ++ [level aInput k (m + 1)] ++
            (List.range' (m + 1 + 1) (d + 1)).map (level aInput k) := by
        rw [List.range'_succ, List.map_cons, List.append_cons]
      refine loop_next (buildTurn_next hfill (hlength ▸ hne) (by omega)) ?_
      rw [hmap]
      refine ih (by omega) hfront' (fill_next hk (by omega) (by omega)) ?_
      rw [length_level]
      congr 1
      omega

/-- The index of these elements. -/
def built (k : ℕ) (aInput : List UInt32) : AvxIndex where
  m_Input := aInput
  m_Index := (List.range' 1 (k - 1)).map (level aInput k)
  m_TopLevel := k - 2

theorem Input.construct_returns (h : Input k aInput aValue) (hk : k ≤ 11) :
    Returns (fun n => construct n aInput) (built k aInput) := by
  have htwo := h.two
  have height : aInput.length % 8 = 0 := by
    have hpow : 8 ^ (k - 1) * 8 = 8 ^ k := Nat.pow_pred_mul (by omega)
    rw [h.size, ← hpow, Nat.mul_mod_left]
  have hbuild : Returns (fun n => loop buildTurn n ([], aInput))
      ([] ++ (List.range' (0 + 1) (k - 2 + 1)).map (level aInput k)) :=
    build_returns hk (k - 2) (by omega) rfl (fill_first hk (by omega) h.size)
  have hsub : k - 2 + 1 = k - 1 := by omega
  rw [List.nil_append, hsub] at hbuild
  have hmap := hbuild.map fun m_Index =>
    ({ m_Input := aInput, m_Index := m_Index, m_TopLevel := m_Index.length - 1 } : AvxIndex)
  rw [List.length_map, List.length_range'] at hmap
  simp only [construct, if_pos height]
  exact hmap

/-- In a vector of `8 ^ 12` elements a word does not reach the end of the first level. -/
theorem Input.construct_never (h : Input k aInput aValue) (hk : 11 < k) (n : ℕ) :
    construct n aInput = none := by
  have hpow : 8 ^ 11 * 8 ≤ 8 ^ k := by
    rw [← Nat.pow_succ]
    exact Nat.pow_le_pow_right (by decide) hk
  have hsize : 2 ^ 32 ≤ aInput.length / 8 := by
    rw [h.size]
    omega
  rw [construct]
  split
  case isFalse => rfl
  case isTrue =>
    cases n with
    | zero => rfl
    | succ n =>
        rw [loop, buildTurn, fill_never hsize]
        rfl

theorem Input.agrees_iff_built (h : Input k aInput aValue) (hk : k ≤ 11) :
    Agrees aInput aValue ↔
      ∃ r, (built k aInput).lowerBound aValue = some r ∧
        r.toInt = stdLowerBound aInput aValue := by
  have hbuilt := h.construct_returns hk
  constructor
  · rintro ⟨r, ⟨n, hn⟩, hr⟩
    obtain ⟨n', hn'⟩ := hbuilt
    have hsearch := hn (max n n') (by omega)
    have hconstruct := hn' (max n n') (by omega)
    dsimp only at hsearch hconstruct
    unfold search at hsearch
    rw [hconstruct, Option.bind_some] at hsearch
    exact ⟨r, hsearch, hr⟩
  · rintro ⟨r, hlower, hr⟩
    refine ⟨r, hbuilt.bind ?_, hr⟩
    rw [hlower]
    exact returns_some r

end

end Stuff.AvxSearch
