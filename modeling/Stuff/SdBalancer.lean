import Stuff.Budgets
import Stuff.HashRing
import Stuff.Loops
import Stuff.OrderedMap
import Mathlib.Data.List.GetD
import Mathlib.Data.Rat.Floor
import Mathlib.Order.Bounds.Defs

/-!
# Balancing by weight

`SD::Balancer::ByWeight` picks peers that can pay the step, which `update` takes from the
weights. The weights are rational numbers here. `m_Info[i]` is the entry of `m_Store` under
the key of `m_Peers[i]`, as the assertions say.
-/
namespace Stuff.SdBalancer
open Budgets Loops MachineWords OrderedMap

structure Params where
  use_client_latency : Bool := true
  use_server_rps : Bool := false
deriving DecidableEq, Repr

structure Entry where
  key : Bytes
  latency : ℚ := 0
  rps : ℚ := 0
  threads : ℕ := 1
  weight : ℚ := 0
  utilization : ℚ := 0
deriving DecidableEq, Repr

structure EwmaRps where
  m_SlowLatency : ℚ := 0
  m_FastLatency : ℚ := 0
  m_SuccessRate : ℚ := 1
deriving DecidableEq, Repr

/-- `m_Close` is the one of the breaker. -/
structure PeerInfo where
  m_Budget : ℚ := 0
  m_LastWeight : ℚ := 0
  m_Ewma : EwmaRps := {}
  m_Close : Bool := false
deriving DecidableEq, Repr

def LOSS_MAX : ℚ := 1 / 2
def LOSS_FACTOR : ℚ := 9 / 10
def BOOST_FACTOR : ℚ := 21 / 20
def UTIL_MAX : ℚ := 3 / 4

def adjustWeight (p : Params) (info : PeerInfo) (aEntry : Entry) : PeerInfo × Entry :=
  if info.m_Close then (info, { aEntry with weight := 0 })
  else
    let latency := max info.m_Ewma.m_SlowLatency info.m_Ewma.m_FastLatency
    let sPreviousWeight := if 0 < info.m_LastWeight then info.m_LastWeight else aEntry.weight
    let sWeight := aEntry.weight
    let sWeight :=
      if p.use_client_latency ∧ latency > aEntry.latency then
        max (aEntry.threads / latency) (sWeight * LOSS_MAX)
      else sWeight
    let sWeight :=
      if p.use_server_rps ∧ aEntry.utilization > UTIL_MAX then
        sWeight * (1 + UTIL_MAX - min aEntry.utilization 1)
      else sWeight
    let sWeight :=
      if info.m_Ewma.m_SuccessRate < 95 / 100 then
        sWeight * max info.m_Ewma.m_SuccessRate LOSS_MAX
      else sWeight
    let sWeight :=
      if sWeight ≥ sPreviousWeight then min sWeight (sPreviousWeight * BOOST_FACTOR)
      else max sWeight (sPreviousWeight * LOSS_FACTOR)
    ({ info with m_LastWeight := sWeight }, { aEntry with weight := sWeight })

/-- A peer that was not known is made when it is looked up. -/
abbrev Store := Bytes → PeerInfo

structure ByWeight where
  m_Params : Params := {}
  m_RPS : ℚ := 0
  m_TotalWeight : ℚ := 0
  m_Step : ℚ := 0
  m_Pos : ℕ := 0
  m_Store : Store := fun _ => {}
  m_Peers : List Entry := []
  m_Ring : HashRing.Ring := []

/-! ## `update` -/

/-- The loop of `adjust_weights`, with the entries as they become. -/
def adjustWeights (p : Params) : Store → List Entry → Store × List Entry
  | store, [] => (store, [])
  | store, e :: aState =>
      let r := adjustWeight p (store e.key) e
      let rest := adjustWeights p (Function.update store e.key r.1) aState
      (rest.1, r.2 :: rest.2)

/-- A loop over the peers that changes the information on each. -/
def forPeers (f : PeerInfo → Entry → PeerInfo) (store : Store) (m_Peers : List Entry) : Store :=
  m_Peers.foldl (fun store e => Function.update store e.key (f (store e.key) e)) store

def clip (info : PeerInfo) (e : Entry) : PeerInfo :=
  if info.m_Budget > e.weight then { info with m_Budget := e.weight } else info

structure S where
  rps : ℚ := 0
  total_weight : ℚ := 0
  min_weight : ℚ := 0
deriving DecidableEq, Repr

def minWeight (min_weight weight : ℚ) : ℚ :=
  if min_weight > 0 then min min_weight weight else weight

def S.add (s : S) (x : Entry) : S :=
  { rps := s.rps + x.rps
    total_weight := s.total_weight + x.weight
    min_weight := minWeight s.min_weight x.weight }

def sortByKey (aState : List Entry) : List Entry :=
  aState.insertionSort fun a b => less b.key a.key = false

def sRing (xxh3 : Bytes → UInt64 → UInt64) (m_Peers : List Entry) : HashRing.Ring :=
  HashRing.prepare (m_Peers.zipIdx.foldl
    (fun sRing x => HashRing.insert xxh3 sRing x.1.key x.2 x.2 10) [])

namespace ByWeight

/-- The peers with the weights that are used. -/
def adjusted (s : ByWeight) (aState : List Entry) : List Entry :=
  (adjustWeights s.m_Params s.m_Store (sortByKey aState)).2

def update (xxh3 : Bytes → UInt64 → UInt64) (s : ByWeight) (aState : List Entry) : ByWeight :=
  let m_Store := (adjustWeights s.m_Params s.m_Store (sortByKey aState)).1
  let m_Peers := s.adjusted aState
  let sStat := m_Peers.foldl S.add {}
  { s with
    m_Peers := m_Peers
    m_Store := forPeers clip m_Store m_Peers
    m_Ring := sRing xxh3 m_Peers
    m_RPS := sStat.rps
    m_TotalWeight := sStat.total_weight
    m_Step := sStat.min_weight }

/-! ## `random_i` and `try_session` -/

def entry (s : ByWeight) (i : ℕ) : Entry := s.m_Peers.getD i { key := [] }

def weight (s : ByWeight) (i : ℕ) : ℚ := (s.entry i).weight

/-- `m_Info[i]->m_Budget` -/
def budget (s : ByWeight) (i : ℕ) : ℚ := (s.m_Store (s.entry i).key).m_Budget

def rewind (s : ByWeight) : ByWeight :=
  { s with
    m_Store := forPeers (fun info e => { info with m_Budget := info.m_Budget + e.weight })
      s.m_Store s.m_Peers }

/-- A peer pays the step. -/
def spend (s : ByWeight) (sPos : ℕ) : ByWeight :=
  let info := s.m_Store (s.entry sPos).key
  { s with
    m_Store := Function.update s.m_Store (s.entry sPos).key
      { info with m_Budget := info.m_Budget - s.m_Step } }

/-- A turn of `random_i`, which counts how often it did rewind. -/
def randomTurn (s : ByWeight × ℕ) : Turn (ByWeight × ℕ) (ℕ × ℕ × ByWeight) :=
  let size := s.1.m_Peers.length
  match ((List.range size).map fun i => (s.1.m_Pos + i) % size).find?
      fun sPos => s.1.m_Step ≤ s.1.budget sPos with
  | some sPos => .leave (sPos, s.2, { s.1.spend sPos with m_Pos := sPos + 1 })
  | none => .next (s.1.rewind, s.2 + 1)

/-- The position, the number of rewinds and the new state. -/
def randomI (n : ℕ) (s : ByWeight) : Option (ℕ × ℕ × ByWeight) :=
  loop (fun _ s => some (randomTurn s)) n (s, 0)

def noBudget (s : ByWeight) : Bool :=
  (List.range s.m_Peers.length).all fun i => s.budget i < s.m_Step

/-- `none` is the position -1. -/
def trySession (s : ByWeight) (aSession : UInt64) : Option ℕ × ℕ × ByWeight :=
  let r := if s.noBudget then (s.rewind, 1) else (s, 0)
  match (HashRing.lookup r.1.m_Ring aSession).find? fun sPos => r.1.m_Step ≤ r.1.budget sPos with
  | some sPos => (some sPos, r.2, r.1.spend sPos)
  | none => (none, r.2, r.1)

inductive Call
  | random
  | session (aSession : UInt64)
deriving DecidableEq, Repr

def call (n : ℕ) (s : ByWeight) : Call → Option (Option ℕ × ℕ × ByWeight)
  | .random => (s.randomI n).map fun r => (some r.1, r.2)
  | .session aSession => some (s.trySession aSession)

/-- What the calls return, the number of rewinds and the last state. -/
def run (n : ℕ) (s : ByWeight) : List Call → Option (List (Option ℕ) × ℕ × ByWeight)
  | [] => some ([], 0, s)
  | c :: calls =>
      (s.call n c).bind fun r => (r.2.2.run n calls).map fun t =>
        (r.1 :: t.1, r.2.1 + t.2.1, t.2.2)

end ByWeight

/-! ## One peer after the other -/

theorem forPeers_of_notMem (f : PeerInfo → Entry → PeerInfo) (store : Store) {m_Peers : List Entry}
    {key : Bytes} (h : key ∉ m_Peers.map Entry.key) : forPeers f store m_Peers key = store key := by
  induction m_Peers generalizing store with
  | nil => rfl
  | cons e m_Peers ih =>
      rw [List.map_cons, List.mem_cons, not_or] at h
      rw [forPeers, List.foldl_cons]
      exact (ih _ h.2).trans (Function.update_of_ne h.1 _ _)

/-- With different keys, the information on a peer is changed once. -/
theorem forPeers_of_mem (f : PeerInfo → Entry → PeerInfo) (store : Store) {m_Peers : List Entry}
    (hkeys : (m_Peers.map Entry.key).Nodup) {e : Entry} (he : e ∈ m_Peers) :
    forPeers f store m_Peers e.key = f (store e.key) e := by
  induction m_Peers generalizing store with
  | nil => cases he
  | cons x m_Peers ih =>
      rw [List.map_cons, List.nodup_cons] at hkeys
      rw [forPeers, List.foldl_cons]
      rcases List.mem_cons.mp he with rfl | hrest
      · exact (forPeers_of_notMem f _ hkeys.1).trans (Function.update_self _ _ _)
      · have hne : e.key ≠ x.key := by
          intro heq
          exact hkeys.1 (heq ▸ List.mem_map_of_mem hrest)
        refine (ih _ hkeys.2 hrest).trans ?_
        rw [Function.update_of_ne hne]

/-! ## What `adjust_weight` gives -/

theorem adjustWeight_key (p : Params) (info : PeerInfo) (aEntry : Entry) :
    (adjustWeight p info aEntry).2.key = aEntry.key := by
  rw [adjustWeight]
  split <;> rfl

theorem adjustWeight_budget (p : Params) (info : PeerInfo) (aEntry : Entry) :
    (adjustWeight p info aEntry).1.m_Budget = info.m_Budget := by
  rw [adjustWeight]
  split <;> rfl

theorem adjustWeight_nonneg (p : Params) (info : PeerInfo) {aEntry : Entry}
    (hw : 0 ≤ aEntry.weight) : 0 ≤ (adjustWeight p info aEntry).2.weight := by
  have hite : ∀ (c : Prop) [Decidable c] (a b : ℚ), 0 ≤ a → 0 ≤ b → 0 ≤ if c then a else b := by
    intro c _ a b ha hb
    split
    · exact ha
    · exact hb
  have hloss : (0 : ℚ) ≤ LOSS_MAX := by norm_num [LOSS_MAX]
  rw [adjustWeight]
  split
  case isTrue => exact le_rfl
  case isFalse =>
    have hprevious : 0 ≤ if 0 < info.m_LastWeight then info.m_LastWeight else aEntry.weight := by
      split
      case isTrue hpos => exact hpos.le
      case isFalse => exact hw
    have hutil : 0 ≤ 1 + UTIL_MAX - min aEntry.utilization 1 := by
      have hmin := min_le_right aEntry.utilization 1
      have hmax : (0 : ℚ) ≤ UTIL_MAX := by norm_num [UTIL_MAX]
      linarith
    have hrate : 0 ≤ max info.m_Ewma.m_SuccessRate LOSS_MAX := le_max_of_le_right hloss
    extract_lets latency sPreviousWeight sWeight sClient sServer sSuccess sLast
    have hclient : 0 ≤ sClient := hite _ _ _ (le_max_of_le_right (mul_nonneg hw hloss)) hw
    have hserver : 0 ≤ sServer := hite _ _ _ (mul_nonneg hclient hutil) hclient
    have hsuccess : 0 ≤ sSuccess := hite _ _ _ (mul_nonneg hserver hrate) hserver
    have hboost : 0 ≤ sPreviousWeight * BOOST_FACTOR :=
      mul_nonneg hprevious (by norm_num [BOOST_FACTOR])
    exact hite _ _ _ (le_min hsuccess hboost) (le_max_of_le_left hsuccess)

/-! ## What `update` gives -/

theorem adjustWeights_keys (p : Params) (store : Store) (aState : List Entry) :
    (adjustWeights p store aState).2.map Entry.key = aState.map Entry.key := by
  induction aState generalizing store with
  | nil => rfl
  | cons e aState ih =>
      rw [adjustWeights, List.map_cons, List.map_cons, ih, adjustWeight_key]

/-- With different keys, each entry is adjusted by what is known of its peer. -/
theorem of_mem_adjustWeights {p : Params} {store : Store} {aState : List Entry}
    (hkeys : (aState.map Entry.key).Nodup) {e' : Entry}
    (he' : e' ∈ (adjustWeights p store aState).2) :
    ∃ e ∈ aState, e' = (adjustWeight p (store e.key) e).2 := by
  induction aState generalizing store with
  | nil => cases he'
  | cons x aState ih =>
      rw [List.map_cons, List.nodup_cons] at hkeys
      rcases List.mem_cons.mp he' with rfl | hrest
      · exact ⟨x, List.mem_cons_self, rfl⟩
      · obtain ⟨e, he, rfl⟩ := ih hkeys.2 hrest
        refine ⟨e, List.mem_cons_of_mem _ he, ?_⟩
        have hne : e.key ≠ x.key := by
          intro heq
          exact hkeys.1 (heq ▸ List.mem_map_of_mem he)
        rw [Function.update_of_ne hne]

theorem adjustWeights_budget (p : Params) (store : Store) (aState : List Entry) (key : Bytes) :
    ((adjustWeights p store aState).1 key).m_Budget = (store key).m_Budget := by
  induction aState generalizing store with
  | nil => rfl
  | cons e aState ih =>
      refine (ih _).trans ?_
      by_cases heq : key = e.key
      · rw [heq, Function.update_self, adjustWeight_budget]
      · rw [Function.update_of_ne heq]

theorem sortByKey_perm (aState : List Entry) : (sortByKey aState).Perm aState :=
  List.perm_insertionSort _ aState

theorem of_mem_sRing {xxh3 : Bytes → UInt64 → UInt64} {m_Peers : List Entry} {x : HashRing.Info}
    (h : x ∈ sRing xxh3 m_Peers) : x.id < m_Peers.length := by
  rw [sRing, HashRing.mem_prepare] at h
  have hfold : ∀ (xs : List (Entry × ℕ)) (ring : HashRing.Ring),
      x ∈ xs.foldl (fun sRing x => HashRing.insert xxh3 sRing x.1.key x.2 x.2 10) ring →
        x ∈ ring ∨ ∃ y ∈ xs, x.id = y.2 := by
    intro xs
    induction xs with
    | nil => exact fun _ hx => .inl hx
    | cons y xs ih =>
        intro ring hx
        rcases ih _ hx with hinsert | ⟨z, hz, hid⟩
        · rcases HashRing.id_of_mem_insert hinsert with hring | hid
          · exact .inl hring
          · exact .inr ⟨y, List.mem_cons_self, hid⟩
        · exact .inr ⟨z, List.mem_cons_of_mem _ hz, hid⟩
  obtain hnil | ⟨⟨e, i⟩, hy, hid⟩ := hfold _ _ h
  · cases hnil
  · obtain ⟨-, hi, -⟩ := List.mem_zipIdx hy
    omega

namespace ByWeight

section
variable {s : ByWeight} {aState : List Entry}

theorem adjusted_keys (s : ByWeight) (hkeys : (aState.map Entry.key).Nodup) :
    ((s.adjusted aState).map Entry.key).Nodup := by
  rw [adjusted, adjustWeights_keys]
  exact ((sortByKey_perm aState).map Entry.key).nodup_iff.mpr hkeys

theorem of_mem_adjusted (hkeys : (aState.map Entry.key).Nodup) {e' : Entry}
    (he' : e' ∈ s.adjusted aState) :
    ∃ e ∈ aState, e' = (adjustWeight s.m_Params (s.m_Store e.key) e).2 := by
  have hsorted : ((sortByKey aState).map Entry.key).Nodup :=
    ((sortByKey_perm aState).map Entry.key).nodup_iff.mpr hkeys
  obtain ⟨e, he, heq⟩ := of_mem_adjustWeights hsorted he'
  exact ⟨e, (sortByKey_perm aState).mem_iff.mp he, heq⟩

theorem adjusted_nonneg (hkeys : (aState.map Entry.key).Nodup) (hw : ∀ e ∈ aState, 0 ≤ e.weight) :
    ∀ e ∈ s.adjusted aState, 0 ≤ e.weight := by
  intro e' he'
  obtain ⟨e, he, rfl⟩ := of_mem_adjusted hkeys he'
  exact adjustWeight_nonneg s.m_Params _ (hw e he)

/-- A closed peer has no weight. -/
theorem adjusted_close (hkeys : (aState.map Entry.key).Nodup) {e : Entry}
    (he : e ∈ s.adjusted aState) (hclose : (s.m_Store e.key).m_Close = true) : e.weight = 0 := by
  obtain ⟨x, -, rfl⟩ := of_mem_adjusted hkeys he
  rw [adjustWeight_key] at hclose
  rw [adjustWeight, if_pos hclose]

/-- No budget is more than the weight. -/
theorem update_budget (xxh3 : Bytes → UInt64 → UInt64) (hkeys : (aState.map Entry.key).Nodup)
    {e : Entry} (he : e ∈ s.adjusted aState) :
    ((s.update xxh3 aState).m_Store e.key).m_Budget =
      min (s.m_Store e.key).m_Budget e.weight := by
  refine (congrArg PeerInfo.m_Budget
    (forPeers_of_mem clip _ (s.adjusted_keys hkeys) he)).trans ?_
  rw [← adjustWeights_budget s.m_Params s.m_Store (sortByKey aState), clip]
  split
  case isTrue hlt => exact (min_eq_right hlt.le).symm
  case isFalse hle => exact (min_eq_left (not_lt.mp hle)).symm

end

end ByWeight

/-! ## The least weight -/

theorem min_weight_foldl (aState : List Entry) (s : S) :
    (aState.foldl S.add s).min_weight =
      (aState.map Entry.weight).foldl minWeight s.min_weight := by
  induction aState generalizing s with
  | nil => rfl
  | cons e aState ih => exact ih _

/-- A positive result is one of the weights, and no weight after it is zero. -/
theorem of_foldl_minWeight_pos {aState : List Entry}
    (h : 0 < (aState.map Entry.weight).foldl minWeight 0) :
    ∃ front e tail, aState = front ++ e :: tail ∧
      e.weight = (aState.map Entry.weight).foldl minWeight 0 ∧ ∀ e' ∈ tail, 0 < e'.weight := by
  induction aState using List.reverseRecOn with
  | nil => exact absurd h (lt_irrefl 0)
  | append_singleton aState x ih =>
      rw [List.map_append, List.foldl_append, List.map_singleton, List.foldl_cons,
        List.foldl_nil] at h ⊢
      have hlast : ∀ w, x.weight = w → ∃ front e tail, aState ++ [x] = front ++ e :: tail ∧
          e.weight = w ∧ ∀ e' ∈ tail, 0 < e'.weight := by
        intro w hw
        exact ⟨aState, x, [], rfl, hw, fun e' he' => absurd he' List.not_mem_nil⟩
      by_cases hpos : 0 < (aState.map Entry.weight).foldl minWeight 0
      · rw [minWeight, if_pos hpos] at h ⊢
        obtain ⟨hfold, hx⟩ := lt_min_iff.mp h
        rcases le_total ((aState.map Entry.weight).foldl minWeight 0) x.weight with hle | hle
        · obtain ⟨front, e, tail, heq, hweight, htail⟩ := ih hpos
          refine ⟨front, e, tail ++ [x], ?_, ?_, ?_⟩
          · rw [heq, List.append_assoc, List.cons_append]
          · rw [min_eq_left hle, hweight]
          · intro e' he'
            rcases List.mem_append.mp he' with he' | he'
            · exact htail e' he'
            · rw [List.mem_singleton.mp he']
              exact hx
        · exact hlast _ (min_eq_right hle).symm
      · exact hlast _ (by rw [minWeight, if_neg hpos])

theorem foldl_minWeight_of_le {weights : List ℚ} {w : ℚ} (hw : 0 < w) (h : ∀ v ∈ weights, w ≤ v) :
    weights.foldl minWeight w = w := by
  induction weights with
  | nil => rfl
  | cons v weights ih =>
      rw [List.foldl_cons, minWeight, if_pos hw, min_eq_left (h v List.mem_cons_self)]
      exact ih fun v' hv' => h v' (List.mem_cons_of_mem _ hv')

/-- The least positive weight is found when no weight after it is zero. -/
theorem foldl_minWeight_eq {front tail : List Entry} {e : Entry} (he : 0 < e.weight)
    (htail : ∀ e' ∈ tail, 0 < e'.weight)
    (hleast : ∀ e' ∈ front ++ e :: tail, 0 < e'.weight → e.weight ≤ e'.weight) :
    ((front ++ e :: tail).map Entry.weight).foldl minWeight 0 = e.weight := by
  have hhere : minWeight ((front.map Entry.weight).foldl minWeight 0) e.weight = e.weight := by
    rw [minWeight]
    split
    case isTrue hpos =>
      obtain ⟨front', x, tail', hfront, hweight, -⟩ := of_foldl_minWeight_pos hpos
      apply min_eq_right
      rw [← hweight] at hpos ⊢
      refine hleast x (List.mem_append_left _ ?_) hpos
      rw [hfront]
      exact List.mem_append_right _ List.mem_cons_self
    case isFalse => rfl
  rw [List.map_append, List.foldl_append, List.map_cons, List.foldl_cons, hhere]
  apply foldl_minWeight_of_le he
  intro v hv
  obtain ⟨e', he', rfl⟩ := List.mem_map.mp hv
  exact hleast e' (List.mem_append_right _ (List.mem_cons_of_mem _ he')) (htail e' he')

namespace ByWeight

theorem update_step (xxh3 : Bytes → UInt64 → UInt64) (s : ByWeight) (aState : List Entry) :
    (s.update xxh3 aState).m_Step = ((s.adjusted aState).map Entry.weight).foldl minWeight 0 :=
  min_weight_foldl _ _

/-- The least of the positive weights. -/
def LeastWeight (m_Peers : List Entry) (w : ℚ) : Prop :=
  IsLeast {w | 0 < w ∧ ∃ e ∈ m_Peers, e.weight = w} w

/-- The step is the least positive weight just when, in the order of the keys, no weight after
one that is least is zero. -/
theorem leastWeight_iff {aState : List Entry} :
    LeastWeight aState ((aState.map Entry.weight).foldl minWeight 0) ↔
      ∃ front e tail, aState = front ++ e :: tail ∧ 0 < e.weight ∧ (∀ e' ∈ tail, 0 < e'.weight) ∧
        ∀ e' ∈ aState, 0 < e'.weight → e.weight ≤ e'.weight := by
  constructor
  · rintro ⟨⟨hpos, -⟩, hleast⟩
    obtain ⟨front, e, tail, heq, hweight, htail⟩ := of_foldl_minWeight_pos hpos
    refine ⟨front, e, tail, heq, hweight ▸ hpos, htail, ?_⟩
    intro e' he' hpos'
    rw [hweight]
    exact hleast ⟨hpos', e', he', rfl⟩
  · rintro ⟨front, e, tail, rfl, hpos, htail, hleast⟩
    rw [foldl_minWeight_eq hpos htail hleast]
    refine ⟨⟨hpos, e, List.mem_append_right _ List.mem_cons_self, rfl⟩, ?_⟩
    rintro w ⟨hw, e', he', rfl⟩
    exact hleast e' he' hw

end ByWeight

end Stuff.SdBalancer
