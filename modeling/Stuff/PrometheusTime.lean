import Stuff.EventRuns
import Stuff.PrometheusHistogramm
import Mathlib.Algebra.Order.Field.Rat
import Mathlib.Tactic.Linarith

/-!
# Quantiles of what was measured lately

`Prometheus::Time` has two histograms that see every value. Each update publishes one of them and
clears it, the two in turn, so that what is published is about the time since the update before the
last one.
-/
namespace Stuff.PrometheusTime
open EventRuns PrometheusHistogramm

/-- The arithmetic of the values, and the mean of two of them as it is computed. -/
structure Arithmetic (α : Type) where
  zero : α
  half : α → α → α

/-- `std::round` of a part of the last place, which is below 1000. A half is rounded up. -/
def place (percent sMaxIdx : ℕ) : ℕ := (sMaxIdx * percent + 50) / 100

theorem place_mono {percent percent' : ℕ} (h : percent ≤ percent') (sMaxIdx : ℕ) :
    place percent sMaxIdx ≤ place percent' sMaxIdx :=
  Nat.div_le_div_right (Nat.add_le_add_right (Nat.mul_le_mul_left sMaxIdx h) 50)

structure Time (α : Type) where
  m_Data1 : Histogramm α
  m_Data2 : Histogramm α
  m_Actual1 : Bool := true
  m_50 : α
  m_90 : α
  m_99 : α
  m_00 : α

/-- A value comes with the numbers that the two histograms draw for it. -/
inductive Event (α : Type)
  | account (v : α) (sPos1 sPos2 : ℕ)
  | update

section
variable {α : Type} [LinearOrder α]

/-- `Time(aName, aTags...)`, with the default size of a histogram. -/
def create (a : Arithmetic α) : Time α where
  m_Data1 := empty a.zero 1000
  m_Data2 := empty a.zero 1000
  m_50 := a.zero
  m_90 := a.zero
  m_99 := a.zero
  m_00 := a.zero

namespace Time

def account (t : Time α) (v : α) (sPos1 sPos2 : ℕ) : Time α :=
  { t with m_Data1 := t.m_Data1.tick v sPos1, m_Data2 := t.m_Data2.tick v sPos2 }

/-- The histogram whose turn it is. -/
def actual (t : Time α) : Histogramm α := if t.m_Actual1 then t.m_Data1 else t.m_Data2

def other (t : Time α) : Histogramm α := if t.m_Actual1 then t.m_Data2 else t.m_Data1

/-- `m_Prob`. -/
def prob : List Phi := [.inner (place 50), .inner (place 90), .inner (place 99), .greatest]

def update (a : Arithmetic α) (t : Time α) : Time α :=
  let sTmp := t.actual
  let sResult := (sTmp.quantile a.half a.zero prob).2
  { m_Data1 := if t.m_Actual1 then t.m_Data1.clear a.zero else t.m_Data1
    m_Data2 := if t.m_Actual1 then t.m_Data2 else t.m_Data2.clear a.zero
    m_Actual1 := !t.m_Actual1
    m_50 := sResult.getD 0 a.zero
    m_90 := sResult.getD 1 a.zero
    m_99 := sResult.getD 2 a.zero
    m_00 := sResult.getD 3 a.zero }

end Time

def step (a : Arithmetic α) (t : Time α) : Event α → Time α
  | .account v sPos1 sPos2 => t.account v sPos1 sPos2
  | .update => t.update a

/-! ## What is measured between updates -/

/-- The values between the last two updates, and those since the last one. -/
structure Windows (α : Type) where
  before : List α := []
  since : List α := []

omit [LinearOrder α] in
def Windows.next (w : Windows α) : Event α → Windows α
  | .account v _ _ => { w with since := w.since ++ [v] }
  | .update => { before := w.since, since := [] }

def windows (es : List (Event α)) : Windows α := es.foldl Windows.next {}

structure Inv (t : Time α) (w : Windows α) : Prop where
  actual : Represents t.actual (w.before ++ w.since)
  other : Represents t.other w.since
  actualSize : t.actual.m_Size = 1000
  otherSize : t.other.m_Size = 1000

theorem inv_create (a : Arithmetic α) : Inv (create a) {} :=
  ⟨represents_nil rfl rfl, represents_nil rfl rfl, rfl, rfl⟩

/-- Both histograms see the value. -/
theorem actual_account (t : Time α) (v : α) (sPos1 sPos2 : ℕ) :
    (∃ sPos, (t.account v sPos1 sPos2).actual = t.actual.tick v sPos) ∧
      ∃ sPos, (t.account v sPos1 sPos2).other = t.other.tick v sPos := by
  unfold Time.actual Time.other
  cases hcase : t.m_Actual1 with
  | false =>
      refine ⟨⟨sPos2, ?_⟩, sPos1, ?_⟩ <;> rw [Time.account, hcase] <;> rfl
  | true =>
      refine ⟨⟨sPos1, ?_⟩, sPos2, ?_⟩ <;> rw [Time.account, hcase] <;> rfl

theorem Inv.account {t : Time α} {w : Windows α} (hi : Inv t w) (v : α) (sPos1 sPos2 : ℕ) :
    Inv (t.account v sPos1 sPos2) (w.next (.account v sPos1 sPos2)) := by
  obtain ⟨⟨sPos, hactual⟩, sPos', hother⟩ := actual_account t v sPos1 sPos2
  have hpos : 0 < t.actual.m_Size := by rw [hi.actualSize]; decide
  have hpos' : 0 < t.other.m_Size := by rw [hi.otherSize]; decide
  constructor
  case actual =>
    have htick := hi.actual.tick hpos v sPos
    rw [List.append_assoc] at htick
    rwa [hactual]
  case other =>
    rw [hother]
    exact hi.other.tick hpos' v sPos'
  case actualSize => exact hactual ▸ hi.actualSize
  case otherSize => exact hother ▸ hi.otherSize

/-- The histogram that was not published has what came since the last update. -/
theorem Inv.update {t : Time α} {w : Windows α} (hi : Inv t w) (a : Arithmetic α) :
    Inv (t.update a) (w.next .update) := by
  have hactual : (t.update a).actual = t.other := by
    cases hcase : t.m_Actual1 <;> simp [Time.update, Time.actual, Time.other, hcase]
  have hother : (t.update a).other = t.actual.clear a.zero := by
    cases hcase : t.m_Actual1 <;> simp [Time.update, Time.actual, Time.other, hcase]
  constructor
  case actual =>
    rw [hactual]
    exact (List.append_nil w.since).symm ▸ hi.other
  case other =>
    rw [hother]
    exact represents_nil rfl rfl
  case actualSize => exact hactual ▸ hi.otherSize
  case otherSize => exact hother ▸ hi.actualSize

theorem inv_run (a : Arithmetic α) (es : List (Event α)) :
    Inv (run (step a) (create a) es) (windows es) := by
  induction es using List.reverseRecOn with
  | nil => exact inv_create a
  | append_singleton es e ih =>
      rw [run_concat, windows, List.foldl_concat]
      cases e with
      | account v sPos1 sPos2 => exact ih.account v sPos1 sPos2
      | update => exact ih.update a

/-! ## What is published -/

/-- The quantiles are about these values: the last one is the greatest of them, the others are in
order and not below the least. As long as the values fit, the quantiles are those of all of them. -/
structure Published (a : Arithmetic α) (t : Time α) (values : List α) : Prop where
  nothing : values = [] → t.m_50 = a.zero ∧ t.m_90 = a.zero ∧ t.m_99 = a.zero ∧ t.m_00 = a.zero
  greatest : ∀ first rest, values = first :: rest → t.m_00 = rest.foldl max first
  least : ∀ first rest, values = first :: rest → rest.foldl min first ≤ t.m_50
  ordered : t.m_50 ≤ t.m_90 ∧ t.m_90 ≤ t.m_99 ∧ t.m_99 ≤ t.m_00
  exact : values.length ≤ 1000 → values ≠ [] →
    t.m_50 = pick a.half a.zero (values.insertionSort (· ≤ ·)) (place 50) ∧
    t.m_90 = pick a.half a.zero (values.insertionSort (· ≤ ·)) (place 90) ∧
    t.m_99 = pick a.half a.zero (values.insertionSort (· ≤ ·)) (place 99)
  sample : values ≠ [] → ∃ l : List α, l.Subperm values ∧ l.length = min values.length 1000 ∧
    t.m_50 = pick a.half a.zero (l.insertionSort (· ≤ ·)) (place 50) ∧
    t.m_90 = pick a.half a.zero (l.insertionSort (· ≤ ·)) (place 90) ∧
    t.m_99 = pick a.half a.zero (l.insertionSort (· ≤ ·)) (place 99)

/-- What the four gauges have behind an update. -/
theorem gauges_update (a : Arithmetic α) (t : Time α) :
    (t.update a).m_50 = t.actual.at a.half a.zero (.inner (place 50)) ∧
    (t.update a).m_90 = t.actual.at a.half a.zero (.inner (place 90)) ∧
    (t.update a).m_99 = t.actual.at a.half a.zero (.inner (place 99)) ∧
    (t.update a).m_00 = t.actual.at a.half a.zero .greatest :=
  ⟨rfl, rfl, rfl, rfl⟩

theorem at_nil {half : α → α → α} {zero : α} {h : Histogramm α} (hnil : h.m_Storage = [])
    (sPhi : Phi) : h.at half zero sPhi = zero := by
  unfold Histogramm.at
  rw [hnil]
  rfl

theorem at_cons (half : α → α → α) (zero : α) {h : Histogramm α} (hne : h.m_Storage ≠ []) :
    h.at half zero .greatest = h.m_Max ∧ ∀ place, h.at half zero (.inner place) =
      pick half zero (h.m_Storage.insertionSort (· ≤ ·)) place := by
  have hlength : ¬ (h.m_Storage.insertionSort (· ≤ ·)).length = 0 := by
    rw [List.length_insertionSort, List.length_eq_zero_iff]
    exact hne
  refine ⟨?_, fun place => ?_⟩ <;> unfold Histogramm.at <;> rw [if_neg hlength]

theorem published_update (a : Arithmetic α) {t : Time α} {values : List α}
    (hhalf : Between a.half values) (hr : Represents t.actual values)
    (hsize : t.actual.m_Size = 1000) : Published a (t.update a) values := by
  obtain ⟨e50, e90, e99, e00⟩ := gauges_update a t
  have hlength := hr.size
  rw [hsize] at hlength
  cases hcase : values with
  | nil =>
      rw [hcase, List.length_nil, Nat.zero_min, List.length_eq_zero_iff] at hlength
      rw [at_nil hlength] at e50 e90 e99 e00
      constructor
      case nothing => exact fun _ => ⟨e50, e90, e99, e00⟩
      case greatest => exact fun first rest h => absurd h (List.cons_ne_nil first rest).symm
      case least => exact fun first rest h => absurd h (List.cons_ne_nil first rest).symm
      case ordered =>
        exact ⟨(e50.trans e90.symm).le, (e90.trans e99.symm).le, (e99.trans e00.symm).le⟩
      case exact => exact fun _ h => absurd rfl h
      case sample => exact fun h => absurd rfl h
  | cons v vs =>
      have hne : t.actual.m_Storage ≠ [] := by
        rw [hcase, List.length_cons] at hlength
        rw [← List.length_pos_iff]
        omega
      obtain ⟨hmax, hinner⟩ := at_cons a.half a.zero hne
      rw [hmax, hr.greatest v vs hcase] at e00
      rw [hinner] at e50 e90 e99
      have hsorted := List.pairwise_insertionSort (· ≤ ·) t.actual.m_Storage
      have hne' : t.actual.m_Storage.insertionSort (· ≤ ·) ≠ [] := by
        rwa [← List.length_pos_iff, List.length_insertionSort, List.length_pos_iff]
      have hsub : ∀ x ∈ t.actual.m_Storage.insertionSort (· ≤ ·), x ∈ values :=
        fun x hx => hr.sample.subset ((List.mem_insertionSort (· ≤ ·)).mp hx)
      have hbetween : Between a.half (t.actual.m_Storage.insertionSort (· ≤ ·)) :=
        fun x hx y hy => hhalf x (hsub x hx) y (hsub y hy)
      have hbounds : ∀ x ∈ t.actual.m_Storage.insertionSort (· ≤ ·),
          vs.foldl min v ≤ x ∧ x ≤ vs.foldl max v := by
        intro x hx
        have hmem := hcase ▸ hsub x hx
        exact ⟨foldl_bound (r := (· ≤ ·)) le_refl (fun _ _ _ => le_trans) min_le_left min_le_right
          v vs x hmem, foldl_bound (r := (· ≥ ·)) le_refl (fun _ _ _ => ge_trans) le_max_left
          le_max_right v vs x hmem⟩
      constructor
      case nothing => exact fun h => absurd h (List.cons_ne_nil v vs)
      case greatest =>
        intro first rest h
        rw [← (List.cons.inj h).1, ← (List.cons.inj h).2]
        exact e00
      case least =>
        intro first rest h
        rw [← (List.cons.inj h).1, ← (List.cons.inj h).2, e50]
        exact (pick_within a.zero hbetween hsorted hne' hbounds _).1
      case ordered =>
        rw [e50, e90, e99, e00]
        exact ⟨pick_mono a.zero hbetween hsorted hne' (place_mono (by decide)),
          pick_mono a.zero hbetween hsorted hne' (place_mono (by decide)),
          (pick_within a.zero hbetween hsorted hne' hbounds _).2⟩
      case exact =>
        intro hfits _
        rw [← hcase] at hfits ⊢
        rw [← hr.all (hsize.symm ▸ hfits)]
        exact ⟨e50, e90, e99⟩
      case sample =>
        exact fun _ =>
          ⟨t.actual.m_Storage, hcase ▸ hr.sample, hcase ▸ hlength, e50, e90, e99⟩

/-- In every run an update publishes the quantiles of what was measured since the update before the
last one, if no sum of two of these values overflows. -/
theorem update_publishes (a : Arithmetic α) (es : List (Event α))
    (hhalf : Between a.half ((windows es).before ++ (windows es).since)) :
    Published a ((run (step a) (create a) es).update a)
      ((windows es).before ++ (windows es).since) :=
  published_update a hhalf (inv_run a es).actual (inv_run a es).actualSize

/-- Numbers whose sums are exact. -/
def exactNumbers : Arithmetic ℚ where
  zero := 0
  half x y := (x + y) / 2

theorem update_publishes_three :
    Published exactNumbers ((run (step exactNumbers) (create exactNumbers)
      [.account 9 0 0, .update, .account 5 0 0, .update, .account 7 0 0]).update exactNumbers)
      [5, 7] := by
  apply update_publishes
  intro x _ y _ hxy
  change x ≤ (y + x) / 2 ∧ (y + x) / 2 ≤ y
  constructor <;> linarith

end

end Stuff.PrometheusTime
