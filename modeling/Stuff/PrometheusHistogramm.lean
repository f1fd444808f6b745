import Mathlib.Algebra.BigOperators.Ring.Finset
import Mathlib.Algebra.Field.Rat
import Mathlib.Data.List.GetD
import Mathlib.Data.List.Sort
import Mathlib.Data.Nat.Cast.Order.Field
import Mathlib.Order.Lattice
import Mathlib.Tactic.FieldSimp
import Mathlib.Tactic.Ring

/-!
# Samples of what was measured

`Prometheus::Histogramm` keeps the least and the greatest value, and a sample. When the sample is
full, a new value takes a random place of it, or none. The place is a number below the number of
values before the new one.
-/
namespace Stuff.PrometheusHistogramm

structure Histogramm (α : Type) where
  m_Size : ℕ
  m_Count : ℕ := 0
  m_Storage : List α := []
  m_Min : α
  m_Max : α

/-- A value of a quantile: the place that is asked for, by the last one. -/
inductive Phi
  | least
  | greatest
  | inner (place : ℕ → ℕ)

section
variable {α : Type} [LinearOrder α]

/-- `Histogramm(aSize)`. -/
def empty (zero : α) (aSize : ℕ) : Histogramm α :=
  { m_Size := aSize, m_Min := zero, m_Max := zero }

/-- The result of `randomInt` is a parameter. -/
def Histogramm.tick (h : Histogramm α) (aValue : α) (sPos : ℕ) : Histogramm α :=
  { h with
    m_Min := if h.m_Storage.isEmpty then aValue else min h.m_Min aValue
    m_Max := if h.m_Storage.isEmpty then aValue else max h.m_Max aValue
    m_Storage :=
      if h.m_Count < h.m_Size then h.m_Storage ++ [aValue]
      else if sPos < h.m_Size then h.m_Storage.set sPos aValue
      else h.m_Storage
    m_Count := h.m_Count + 1 }

/-- What is at a place of the sorted sample, where `half` is the mean of two. -/
def pick (half : α → α → α) (zero : α) (sStorage : List α) (place : ℕ → ℕ) : α :=
  let sMaxIdx := sStorage.length - 1
  let sIdx := min (place sMaxIdx) sMaxIdx
  if sStorage.length % 2 = 0 ∧ 1 ≤ sIdx then
    half (sStorage.getD sIdx zero) (sStorage.getD (sIdx - 1) zero)
  else sStorage.getD sIdx zero

/-- One value of `quantile`. -/
def Histogramm.at (half : α → α → α) (zero : α) (h : Histogramm α) (sPhi : Phi) : α :=
  let sStorage := h.m_Storage.insertionSort (· ≤ ·)
  if sStorage.length = 0 then zero
  else
    match sPhi with
    | .least => h.m_Min
    | .greatest => h.m_Max
    | .inner place => pick half zero sStorage place

/-- The storage stays sorted. -/
def Histogramm.quantile (half : α → α → α) (zero : α) (h : Histogramm α) (aParam : List Phi) :
    Histogramm α × List α :=
  ({ h with m_Storage := h.m_Storage.insertionSort (· ≤ ·) }, aParam.map (h.at half zero))

def Histogramm.clear (zero : α) (h : Histogramm α) : Histogramm α :=
  { h with m_Count := 0, m_Storage := [], m_Min := zero, m_Max := zero }

/-- The histogram has seen these values. -/
structure Represents (h : Histogramm α) (values : List α) : Prop where
  count : h.m_Count = values.length
  sample : h.m_Storage.Subperm values
  size : h.m_Storage.length = min values.length h.m_Size
  all : values.length ≤ h.m_Size → h.m_Storage = values
  least : ∀ first rest, values = first :: rest → h.m_Min = rest.foldl min first
  greatest : ∀ first rest, values = first :: rest → h.m_Max = rest.foldl max first

theorem represents_nil {h : Histogramm α} (hcount : h.m_Count = 0) (hstorage : h.m_Storage = []) :
    Represents h [] := by
  constructor
  case count => exact hcount
  case sample => rw [hstorage]
  case size => rw [hstorage, List.length_nil, Nat.zero_min]
  case all => exact fun _ => hstorage
  case least => exact fun first rest hvalues => absurd hvalues (List.cons_ne_nil first rest).symm
  case greatest => exact fun first rest hvalues => absurd hvalues (List.cons_ne_nil first rest).symm

omit [LinearOrder α] in
theorem subperm_set {l values : List α} (h : l.Subperm values) (i : ℕ) (a : α) :
    (l.set i a).Subperm (values ++ [a]) := by
  by_cases hi : i < l.length
  · have hperm : (l.set i a).Perm (a :: l.eraseIdx i) := List.set_perm_cons_eraseIdx hi a
    have hsub : (l.eraseIdx i).Subperm values := (List.eraseIdx_sublist l i).subperm.trans h
    refine hperm.subperm.trans ?_
    exact ((List.subperm_cons a).mpr hsub).trans (List.perm_append_singleton a values).symm.subperm
  · rw [List.set_eq_of_length_le (Nat.le_of_not_lt hi)]
    exact h.trans (List.sublist_append_left values [a]).subperm

/-- The histogram takes one more value, whatever place is drawn. -/
theorem Represents.tick {h : Histogramm α} {values : List α} (hr : Represents h values)
    (hsize : 0 < h.m_Size) (aValue : α) (sPos : ℕ) :
    Represents (h.tick aValue sPos) (values ++ [aValue]) := by
  have hcount := hr.count
  have hlength := hr.size
  have hempty : h.m_Storage.isEmpty = true ↔ values = [] := by
    rw [List.isEmpty_iff_length_eq_zero, hlength, ← List.length_eq_zero_iff]
    omega
  have hfold : ∀ (f : α → α → α) (m : α),
      (∀ first rest, values = first :: rest → m = rest.foldl f first) →
      ∀ first rest, values ++ [aValue] = first :: rest →
        (if h.m_Storage.isEmpty then aValue else f m aValue) = rest.foldl f first := by
    intro f m hm first rest hvalues
    cases hcase : values with
    | nil =>
        rw [hcase, List.nil_append, List.cons.injEq] at hvalues
        rw [if_pos (hempty.mpr hcase), ← hvalues.1, ← hvalues.2]
        rfl
    | cons x xs =>
        rw [hcase, List.cons_append, List.cons.injEq] at hvalues
        have hne : ¬ h.m_Storage.isEmpty = true := by
          rw [hempty, hcase]
          exact List.cons_ne_nil x xs
        rw [if_neg hne, hm x xs hcase, ← hvalues.1, ← hvalues.2, List.foldl_append]
        rfl
  constructor
  case count =>
    change h.m_Count + 1 = _
    rw [hcount, List.length_append, List.length_singleton]
  case sample =>
    simp only [Histogramm.tick]
    split_ifs
    · exact hr.sample.append (List.Subperm.refl [aValue])
    · exact subperm_set hr.sample sPos aValue
    · exact hr.sample.trans (List.sublist_append_left values [aValue]).subperm
  case size =>
    simp only [Histogramm.tick]
    rw [List.length_append, List.length_singleton]
    split_ifs
    · rw [List.length_append, List.length_singleton]
      omega
    · rw [List.length_set]
      omega
    · omega
  case all =>
    intro hfits
    rw [List.length_append, List.length_singleton] at hfits
    have hfits' : values.length + 1 ≤ h.m_Size := hfits
    simp only [Histogramm.tick]
    rw [if_pos (by omega), hr.all (by omega)]
  case least => exact hfold min h.m_Min hr.least
  case greatest => exact hfold max h.m_Max hr.greatest

/-! ## The order of the quantiles -/

omit [LinearOrder α] in
theorem foldl_bound {r : α → α → Prop} {f : α → α → α} (hrefl : ∀ x, r x x)
    (htrans : ∀ x y z, r x y → r y z → r x z) (hleft : ∀ x y, r (f x y) x)
    (hright : ∀ x y, r (f x y) y) (first : α) (rest : List α) :
    ∀ x ∈ first :: rest, r (rest.foldl f first) x := by
  induction rest generalizing first with
  | nil => exact fun x hx => List.mem_singleton.mp hx ▸ hrefl x
  | cons y rest ih =>
      have hstep : r (rest.foldl f (f first y)) (f first y) := ih _ _ List.mem_cons_self
      intro x hx
      rw [List.foldl_cons]
      rcases List.mem_cons.mp hx with rfl | hx
      · exact htrans _ _ _ hstep (hleft x y)
      · rcases List.mem_cons.mp hx with rfl | hx
        · exact htrans _ _ _ hstep (hright first x)
        · exact ih _ x (List.mem_cons_of_mem _ hx)

/-- The mean of two of the values is between them. -/
def Between (half : α → α → α) (values : List α) : Prop :=
  ∀ x ∈ values, ∀ y ∈ values, x ≤ y → x ≤ half y x ∧ half y x ≤ y

section Pick
variable {half : α → α → α} (zero : α) {l : List α} {place place' : ℕ → ℕ}

theorem getD_mono (hl : l.Pairwise (· ≤ ·)) {i j : ℕ} (hij : i ≤ j) (hj : j < l.length) :
    l.getD i zero ≤ l.getD j zero := by
  rw [List.getD_eq_getElem l zero (hij.trans_lt hj), List.getD_eq_getElem l zero hj]
  rcases Nat.eq_or_lt_of_le hij with heq | hlt
  · exact le_of_eq (getElem_congr_idx heq)
  · exact List.pairwise_iff_getElem.mp hl i j (hij.trans_lt hj) hj hlt

omit [LinearOrder α] in
theorem getD_mem {i : ℕ} (hi : i < l.length) : l.getD i zero ∈ l := by
  rw [List.getD_eq_getElem l zero hi]
  exact List.getElem_mem hi

/-- What is picked is not above the value at its place, and not below the one in front of it. -/
theorem pick_bounds (hhalf : Between half l) (hl : l.Pairwise (· ≤ ·)) (hne : l ≠ [])
    (place : ℕ → ℕ) :
    let sIdx := min (place (l.length - 1)) (l.length - 1)
    l.getD (sIdx - 1) zero ≤ pick half zero l place ∧
      pick half zero l place ≤ l.getD sIdx zero := by
  intro sIdx
  have hpos := List.length_pos_iff.mpr hne
  have hmono := getD_mono zero hl (Nat.sub_le sIdx 1) (by omega)
  simp only [pick]
  split_ifs
  · exact hhalf _ (getD_mem zero (by omega)) _ (getD_mem zero (by omega)) hmono
  · exact ⟨hmono, le_refl _⟩

theorem pick_mono (hhalf : Between half l) (hl : l.Pairwise (· ≤ ·)) (hne : l ≠ [])
    (hplace : ∀ n, place n ≤ place' n) :
    pick half zero l place ≤ pick half zero l place' := by
  have hpos := List.length_pos_iff.mpr hne
  have hn := hplace (l.length - 1)
  obtain ⟨-, hupper⟩ := pick_bounds zero hhalf hl hne place
  obtain ⟨hlower, -⟩ := pick_bounds zero hhalf hl hne place'
  by_cases hsame : min (place (l.length - 1)) (l.length - 1) =
      min (place' (l.length - 1)) (l.length - 1)
  · simp only [pick]
    rw [hsame]
  · exact hupper.trans ((getD_mono zero hl (by omega) (by omega)).trans hlower)

/-- What is picked is between any bounds of the sample. -/
theorem pick_within (hhalf : Between half l) (hl : l.Pairwise (· ≤ ·)) (hne : l ≠ [])
    {lo hi : α} (hbounds : ∀ x ∈ l, lo ≤ x ∧ x ≤ hi) (place : ℕ → ℕ) :
    lo ≤ pick half zero l place ∧ pick half zero l place ≤ hi := by
  have hpos := List.length_pos_iff.mpr hne
  obtain ⟨hlower, hupper⟩ := pick_bounds zero hhalf hl hne place
  exact ⟨(hbounds _ (getD_mem zero (by omega))).1.trans hlower,
    hupper.trans (hbounds _ (getD_mem zero (by omega))).2⟩

end Pick

/-! ## How likely a value is kept -/

/-- The parameter of `randomInt` has 32 bits. -/
def Histogramm.draws (h : Histogramm α) : ℕ := h.m_Count % 2 ^ 32

/-- The chance that the sample has `P` behind these values, if `randomInt` takes every number below
its parameter with the same chance. Nothing is drawn as long as there is room. -/
def chance (P : List α → Bool) : Histogramm α → List α → ℚ
  | h, [] => if P h.m_Storage then 1 else 0
  | h, v :: vs =>
      if h.m_Count < h.m_Size then chance P (h.tick v 0) vs
      else (∑ r ∈ Finset.range h.draws, chance P (h.tick v r) vs) / h.draws

/-- The sample has no room, and what is in it and still to come is different. -/
structure Full (h : Histogramm α) (vs : List α) : Prop where
  pos : 1 ≤ h.m_Size
  full : h.m_Size ≤ h.m_Count
  length : h.m_Storage.length = h.m_Size
  nodup : (h.m_Storage ++ vs).Nodup
  bound : h.m_Count + vs.length ≤ 2 ^ 32

section Chance
variable {h : Histogramm α} {vs : List α} {v x : α}

theorem Full.storage_tick (hf : Full h (v :: vs)) (r : ℕ) : (h.tick v r).m_Storage =
    if r < h.m_Size then h.m_Storage.set r v else h.m_Storage := by
  have hfull := hf.full
  simp only [Histogramm.tick]
  rw [if_neg (by omega)]

theorem Full.tick (hf : Full h (v :: vs)) (r : ℕ) : Full (h.tick v r) vs := by
  have hstorage := hf.storage_tick r
  have hnodup := hf.nodup
  have hbound := hf.bound
  rw [List.length_cons] at hbound
  refine ⟨hf.pos, Nat.le_succ_of_le hf.full, ?_, ?_, ?_⟩
  · rw [hstorage]
    split_ifs
    · rw [List.length_set]
      exact hf.length
    · exact hf.length
  · rw [hstorage]
    have hsplit : h.m_Storage ++ v :: vs = (h.m_Storage ++ [v]) ++ vs := by
      rw [List.append_assoc, List.singleton_append]
    rw [hsplit] at hnodup
    split_ifs
    · have hsub := (subperm_set (List.Subperm.refl h.m_Storage) r v).append (List.Subperm.refl vs)
      obtain ⟨l, hperm, hsublist⟩ := hsub
      exact hperm.nodup_iff.mp (hnodup.sublist hsublist)
    · exact hf.nodup.sublist ((List.sublist_cons_self v vs).append_left _)
  · change h.m_Count + 1 + vs.length ≤ 2 ^ 32
    omega

theorem Full.chance_cons (hf : Full h (v :: vs)) (P : List α → Bool) :
    chance P h (v :: vs) * h.m_Count = ∑ r ∈ Finset.range h.m_Count, chance P (h.tick v r) vs := by
  have hpos := hf.pos
  have hfull := hf.full
  have hbound := hf.bound
  rw [List.length_cons] at hbound
  have hdraws : h.draws = h.m_Count := Nat.mod_eq_of_lt (by omega)
  have hne : (h.m_Count : ℚ) ≠ 0 := Nat.cast_ne_zero.mpr (by omega)
  rw [chance, if_neg (by omega), hdraws, div_mul_cancel₀ _ hne]

/-- What is not in the sample and does not come is not kept. -/
theorem chance_absent (hf : Full h vs) (hx : x ∉ h.m_Storage) (hvs : x ∉ vs) :
    chance (fun l => decide (x ∈ l)) h vs = 0 := by
  induction vs generalizing h with
  | nil => rw [chance, decide_eq_false hx, if_neg Bool.false_ne_true]
  | cons v vs ih =>
      rw [List.mem_cons, not_or] at hvs
      have hzero : ∀ r, chance (fun l => decide (x ∈ l)) (h.tick v r) vs = 0 := by
        intro r
        apply ih (hf.tick r) _ hvs.2
        rw [hf.storage_tick]
        split_ifs
        · intro hmem
          rcases List.mem_or_eq_of_mem_set hmem with hold | heq
          · exact hx hold
          · exact hvs.1 heq
        · exact hx
      have hfull := hf.full
      have hpos := hf.pos
      rw [chance, if_neg (by omega), Finset.sum_congr rfl fun r _ => hzero r, Finset.sum_const_zero,
        zero_div]

/-- What is in the sample loses its place to one of the numbers that may be drawn. -/
theorem chance_kept (hf : Full h vs) (hx : x ∈ h.m_Storage) :
    chance (fun l => decide (x ∈ l)) h vs * (h.m_Count + vs.length - 1) = h.m_Count - 1 := by
  induction vs generalizing h with
  | nil =>
      rw [chance, decide_eq_true hx, if_pos rfl, List.length_nil, Nat.cast_zero, add_zero, one_mul]
  | cons v vs ih =>
      have hpos := hf.pos
      have hfull := hf.full
      have hlength := hf.length
      have hnodup := hf.nodup
      obtain ⟨i, hi, hix⟩ := List.getElem_of_mem hx
      have hne : ∀ y ∈ h.m_Storage, y ≠ v := by
        intro y hy heq
        exact (List.nodup_append.mp hnodup).2.2 y hy v List.mem_cons_self heq
      have hxvs : x ∉ vs := by
        intro hmem
        exact (List.nodup_append.mp hnodup).2.2 x hx x (List.mem_cons_of_mem v hmem) rfl
      -- the place of `x` is drawn, or another one
      have hlost : chance (fun l => decide (x ∈ l)) (h.tick v i) vs = 0 := by
        apply chance_absent (hf.tick i) _ hxvs
        rw [hf.storage_tick, if_pos (by omega)]
        intro hmem
        obtain ⟨j, hj, hjx⟩ := List.getElem_of_mem hmem
        rw [List.getElem_set] at hjx
        split_ifs at hjx with hij
        · exact hne x hx hjx.symm
        · rw [List.length_set] at hj
          have hsame := (List.nodup_append.mp hnodup).1.getElem_inj_iff.mp (hjx.trans hix.symm)
          exact hij hsame.symm
      have hstays : ∀ r, r ≠ i →
          chance (fun l => decide (x ∈ l)) (h.tick v r) vs * (h.m_Count + vs.length) =
            h.m_Count := by
        intro r hr
        have hmem : x ∈ (h.tick v r).m_Storage := by
          rw [hf.storage_tick]
          split_ifs
          · have hset : i < (h.m_Storage.set r v).length := by rwa [List.length_set]
            have hget : (h.m_Storage.set r v)[i] = x := by
              rw [List.getElem_set_ne hr]
              exact hix
            exact hget ▸ List.getElem_mem hset
          · exact hx
        have hstep := ih (hf.tick r) hmem
        have hcount : ((h.tick v r).m_Count : ℚ) = h.m_Count + 1 := Nat.cast_succ h.m_Count
        rw [hcount] at hstep
        have hleft : (h.m_Count : ℚ) + 1 + vs.length - 1 = h.m_Count + vs.length := by ring
        rw [hleft, add_sub_cancel_right] at hstep
        exact hstep
      have hsum := hf.chance_cons fun l => decide (x ∈ l)
      have hmemRange : i ∈ Finset.range h.m_Count := Finset.mem_range.mpr (by omega)
      have htotal : (∑ r ∈ Finset.range h.m_Count,
          chance (fun l => decide (x ∈ l)) (h.tick v r) vs) * (h.m_Count + vs.length) =
          (h.m_Count - 1) * h.m_Count := by
        rw [← Finset.add_sum_erase _ _ hmemRange, hlost, zero_add, Finset.sum_mul,
          Finset.sum_congr rfl fun r hr => hstays r (Finset.ne_of_mem_erase hr), Finset.sum_const,
          Finset.card_erase_of_mem hmemRange, Finset.card_range, nsmul_eq_mul,
          Nat.cast_pred (by omega)]
      have hcountNe : (h.m_Count : ℚ) ≠ 0 := Nat.cast_ne_zero.mpr (by omega)
      rw [← hsum] at htotal
      rw [List.length_cons, Nat.cast_succ]
      apply mul_right_cancel₀ hcountNe
      rw [← htotal]
      ring

/-- What comes later is drawn with every place of the sample, and then loses its place to one. -/
theorem chance_later {front back : List α} (hf : Full h (front ++ x :: back)) :
    chance (fun l => decide (x ∈ l)) h (front ++ x :: back) *
      (h.m_Count + (front ++ x :: back).length - 1) = h.m_Size := by
  induction front generalizing h with
  | nil =>
      rw [List.nil_append] at hf ⊢
      have hpos := hf.pos
      have hfull := hf.full
      have hlength := hf.length
      have hnodup := hf.nodup
      have hstorage : x ∉ h.m_Storage := by
        intro hmem
        exact (List.nodup_append.mp hnodup).2.2 x hmem x List.mem_cons_self rfl
      have hback : x ∉ back := (List.nodup_cons.mp (List.nodup_append.mp hnodup).2.1).1
      have hdrawn : ∀ r ∈ Finset.range h.m_Count,
          chance (fun l => decide (x ∈ l)) (h.tick x r) back * (h.m_Count + back.length) =
            if r < h.m_Size then (h.m_Count : ℚ) else 0 := by
        intro r _
        have hstep := hf.storage_tick r
        split_ifs with hr
        · rw [if_pos hr] at hstep
          have hmem : x ∈ (h.tick x r).m_Storage := by
            rw [hstep]
            exact List.mem_set (by omega) x
          have hkept := chance_kept (hf.tick r) hmem
          have hcount : ((h.tick x r).m_Count : ℚ) = h.m_Count + 1 := Nat.cast_succ h.m_Count
          rw [hcount] at hkept
          have hleft : (h.m_Count : ℚ) + 1 + back.length - 1 = h.m_Count + back.length := by ring
          rw [hleft, add_sub_cancel_right] at hkept
          exact hkept
        · rw [if_neg hr] at hstep
          rw [chance_absent (hf.tick r) (by rwa [hstep]) hback, zero_mul]
      have hsum := hf.chance_cons fun l => decide (x ∈ l)
      have hcard : (Finset.range h.m_Count).filter (fun r => r < h.m_Size) =
          Finset.range h.m_Size := by
        ext r
        simp only [Finset.mem_filter, Finset.mem_range]
        omega
      have htotal : (∑ r ∈ Finset.range h.m_Count,
          chance (fun l => decide (x ∈ l)) (h.tick x r) back) * (h.m_Count + back.length) =
          h.m_Size * h.m_Count := by
        rw [Finset.sum_mul, Finset.sum_congr rfl hdrawn, ← Finset.sum_filter, hcard,
          Finset.sum_const, Finset.card_range, nsmul_eq_mul]
      have hcountNe : (h.m_Count : ℚ) ≠ 0 := Nat.cast_ne_zero.mpr (by omega)
      rw [← hsum] at htotal
      rw [List.length_cons, Nat.cast_succ]
      apply mul_right_cancel₀ hcountNe
      rw [← htotal]
      ring
  | cons v front ih =>
      rw [List.cons_append] at hf ⊢
      have hpos := hf.pos
      have hfull := hf.full
      have hstep : ∀ r ∈ Finset.range h.m_Count,
          chance (fun l => decide (x ∈ l)) (h.tick v r) (front ++ x :: back) *
            (h.m_Count + (v :: (front ++ x :: back)).length - 1) = h.m_Size := by
        intro r _
        have hrest := ih (hf.tick r)
        have hcount : ((h.tick v r).m_Count : ℚ) = h.m_Count + 1 := Nat.cast_succ h.m_Count
        rw [hcount] at hrest
        rw [List.length_cons, Nat.cast_succ]
        have hsame : (h.m_Count : ℚ) + ((front ++ x :: back).length + 1) - 1 =
            h.m_Count + 1 + (front ++ x :: back).length - 1 := by ring
        rw [hsame]
        exact hrest
      have hsum := hf.chance_cons fun l => decide (x ∈ l)
      have hcountNe : (h.m_Count : ℚ) ≠ 0 := Nat.cast_ne_zero.mpr (by omega)
      apply mul_right_cancel₀ hcountNe
      rw [mul_right_comm, hsum, Finset.sum_mul, Finset.sum_congr rfl hstep, Finset.sum_const,
        Finset.card_range, nsmul_eq_mul, mul_comm]

end Chance

/-! ### From the beginning -/

/-- Nothing is drawn before the sample is full. -/
theorem chance_fill (P : List α → Bool) {h : Histogramm α} {front : List α} (back : List α)
    (hfits : h.m_Count + front.length ≤ h.m_Size) :
    chance P h (front ++ back) = chance P (front.foldl (fun h v => h.tick v 0) h) back := by
  induction front generalizing h with
  | nil => rfl
  | cons v front ih =>
      rw [List.length_cons] at hfits
      rw [List.cons_append, chance, if_pos (by omega), List.foldl_cons]
      apply ih
      change h.m_Count + 1 + front.length ≤ h.m_Size
      omega

theorem m_Size_fill (front : List α) (h : Histogramm α) :
    (front.foldl (fun h v => h.tick v 0) h).m_Size = h.m_Size := by
  induction front generalizing h with
  | nil => rfl
  | cons v front ih => exact ih (h.tick v 0)

theorem Represents.fill {h : Histogramm α} {values : List α} (hr : Represents h values)
    (hsize : 0 < h.m_Size) (front : List α) :
    Represents (front.foldl (fun h v => h.tick v 0) h) (values ++ front) := by
  induction front generalizing h values with
  | nil => rwa [List.append_nil]
  | cons v front ih =>
      have hnext := ih (hr.tick hsize v 0) hsize
      rwa [List.append_assoc, List.singleton_append] at hnext

theorem full_fill (zero : α) {aSize : ℕ} {front back : List α} (hpos : 1 ≤ aSize)
    (hfront : front.length = aSize) (hnodup : (front ++ back).Nodup)
    (hbound : (front ++ back).length ≤ 2 ^ 32) :
    let h := front.foldl (fun h v => h.tick v 0) (empty zero aSize)
    Full h back ∧ h.m_Storage = front ∧ h.m_Count = aSize ∧ h.m_Size = aSize := by
  intro h
  have hsize : h.m_Size = aSize := m_Size_fill front (empty zero aSize)
  have hrep : Represents h front :=
    (represents_nil (h := empty zero aSize) rfl rfl).fill hpos front
  have hcount : h.m_Count = aSize := hrep.count.trans hfront
  have hstorage : h.m_Storage = front := hrep.all (by omega)
  rw [List.length_append] at hbound
  refine ⟨?_, hstorage, hcount, hsize⟩
  constructor
  case pos => rwa [hsize]
  case full => omega
  case length => rw [hstorage, hsize, hfront]
  case nodup => rwa [hstorage]
  case bound => omega

/-- Not every value has the same chance to be in the sample: one of the first `aSize` values has
one place less than the others, as the number that is drawn is below the number of values before
the new one. -/
theorem sample_chance (zero : α) {aSize : ℕ} {values : List α} (hpos : 1 ≤ aSize)
    (hmore : aSize < values.length) (hbound : values.length ≤ 2 ^ 32) (hnodup : values.Nodup)
    (i : Fin values.length) :
    chance (fun l => decide (values[i] ∈ l)) (empty zero aSize) values =
      (if i < aSize then (aSize : ℚ) - 1 else aSize) / (values.length - 1) := by
  have hsplit : values.take aSize ++ values.drop aSize = values :=
    List.take_append_drop aSize values
  have hfront : (values.take aSize).length = aSize := by
    rw [List.length_take]
    omega
  obtain ⟨hfull, hstorage, hcount, hsize⟩ := full_fill zero hpos hfront
    (hsplit.symm ▸ hnodup) (hsplit.symm ▸ hbound)
  have hfill := chance_fill (fun l => decide (values[i] ∈ l)) (h := empty zero aSize)
    (values.drop aSize) (Nat.le_of_eq ((Nat.zero_add _).trans hfront))
  rw [hsplit] at hfill
  rw [hfill]
  have hback : (aSize : ℚ) + (values.drop aSize).length = values.length := by
    rw [List.length_drop, Nat.cast_sub (by omega)]
    ring
  have hne : (values.length : ℚ) - 1 ≠ 0 := by
    have hlt : (1 : ℚ) < values.length := Nat.one_lt_cast.mpr (by omega)
    exact (sub_pos.mpr hlt).ne'
  apply eq_div_of_mul_eq hne
  split_ifs with hi
  · have hmem : values[i] ∈ values.take aSize := by
      refine List.mem_iff_getElem.mpr ⟨i, by omega, ?_⟩
      rw [List.getElem_take]
      rfl
    have hkept := chance_kept hfull (hstorage.symm ▸ hmem)
    rwa [hcount, hback] at hkept
  · have hlater : values.drop aSize = (values.drop aSize).take (i - aSize) ++
        values[i] :: (values.drop aSize).drop (i - aSize + 1) := by
      have hlt : i.val - aSize < (values.drop aSize).length := by
        rw [List.length_drop]
        omega
      have hget : (values.drop aSize)[i.val - aSize] = values[i] := by
        rw [List.getElem_drop]
        exact getElem_congr_idx (by omega)
      rw [← hget, List.getElem_cons_drop, List.take_append_drop]
    have hchance := chance_later (hlater ▸ hfull)
    rwa [← hlater, hcount, hback, hsize] at hchance

/-- Of one place and two values the second always stays. -/
theorem sample_chance_two :
    chance (fun l => decide ((5 : ℕ) ∈ l)) (empty 0 1) [5, 7] = 0 := by
  have h : chance (fun l => decide (([5, 7] : List ℕ)[(0 : Fin 2)] ∈ l)) (empty 0 1) [5, 7] = _ :=
    sample_chance 0 (by decide) (by decide) (by decide) (by decide) 0
  rw [if_pos (by decide), Nat.cast_one, sub_self, zero_div] at h
  exact h

end

end Stuff.PrometheusHistogramm
