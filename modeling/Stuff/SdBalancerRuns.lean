import Stuff.SdBalancer

/-!
# Runs of the balancer

`random_i` and `try_session` change the budgets by rewinds and picks.
-/
namespace Stuff.SdBalancer
open Budgets Loops MachineWords

namespace ByWeight

/-- What the selection relies on: different keys, and a ring of positions. -/
structure Placed (s : ByWeight) : Prop where
  keys : (s.m_Peers.map Entry.key).Nodup
  ring : ∀ x ∈ s.m_Ring, x.id < s.m_Peers.length

/-- What no selection changes. -/
structure Follows (s s' : ByWeight) : Prop where
  peers : s'.m_Peers = s.m_Peers
  step : s'.m_Step = s.m_Step
  ring : s'.m_Ring = s.m_Ring

section
variable {s s' s'' : ByWeight}

theorem Follows.trans (h : s.Follows s') (h' : s'.Follows s'') : s.Follows s'' :=
  ⟨h'.peers.trans h.peers, h'.step.trans h.step, h'.ring.trans h.ring⟩

theorem Follows.placed (h : s.Follows s') (hs : s.Placed) : s'.Placed := by
  constructor
  · rw [h.peers]
    exact hs.keys
  · rw [h.peers, h.ring]
    exact hs.ring

theorem Follows.weight (h : s.Follows s') : s'.weight = s.weight := by
  funext i
  rw [ByWeight.weight, ByWeight.weight, entry, entry, h.peers]

def positions (s : ByWeight) : Finset ℕ := Finset.range s.m_Peers.length

theorem entry_mem {i : ℕ} (hi : i < s.m_Peers.length) : s.entry i ∈ s.m_Peers := by
  rw [entry, List.getD_eq_getElem _ _ hi]
  exact List.getElem_mem hi

theorem Placed.key_ne (h : s.Placed) {i j : ℕ} (hi : i < s.m_Peers.length)
    (hj : j < s.m_Peers.length) (hne : i ≠ j) : (s.entry i).key ≠ (s.entry j).key := by
  intro heq
  apply hne
  have hentry := List.inj_on_of_nodup_map h.keys (entry_mem hi) (entry_mem hj) heq
  rw [entry, entry, List.getD_eq_getElem _ _ hi, List.getD_eq_getElem _ _ hj] at hentry
  exact (h.keys.of_map _).getElem_inj_iff.mp hentry

/-- The selection makes these moves. -/
def Reaches (s : ByWeight) (log : List (Option ℕ)) (s' : ByWeight) : Prop :=
  s.Follows s' ∧ Moves s.positions s.weight s.m_Step s.budget log s'.budget

theorem Reaches.refl (s : ByWeight) : s.Reaches [] s := ⟨⟨rfl, rfl, rfl⟩, .nil⟩

theorem Reaches.trans {log log' : List (Option ℕ)} (h : s.Reaches log s')
    (h' : s'.Reaches log' s'') : s.Reaches (log ++ log') s'' := by
  obtain ⟨hfollows, hmoves⟩ := h
  obtain ⟨hfollows', hmoves'⟩ := h'
  rw [positions, hfollows.peers, hfollows.weight, hfollows.step] at hmoves'
  exact ⟨hfollows.trans hfollows', hmoves.append hmoves'⟩

theorem reaches_rewind (hs : s.Placed)
    (hbudget : ∀ i < s.m_Peers.length, s.budget i < s.m_Step) : s.Reaches [none] s.rewind := by
  refine ⟨⟨rfl, rfl, rfl⟩, .cons (.rewind ?_ ?_) .nil⟩
  · intro i hi
    exact hbudget i (Finset.mem_range.mp hi)
  · intro i hi
    have he := entry_mem (Finset.mem_range.mp hi)
    change (forPeers _ s.m_Store s.m_Peers (s.entry i).key).m_Budget = _
    rw [forPeers_of_mem _ _ hs.keys he]
    rfl

theorem reaches_spend (hs : s.Placed) {sPos : ℕ} (hpos : sPos < s.m_Peers.length)
    (hle : s.m_Step ≤ s.budget sPos) : s.Reaches [some sPos] (s.spend sPos) := by
  refine ⟨⟨rfl, rfl, rfl⟩, .cons (.pick (Finset.mem_range.mpr hpos) hle ?_ ?_) .nil⟩
  · change (Function.update s.m_Store _ _ (s.entry sPos).key).m_Budget = _
    rw [Function.update_self]
    rfl
  · intro j hj hne
    change (Function.update s.m_Store _ _ (s.entry j).key).m_Budget = _
    rw [Function.update_of_ne (hs.key_ne (Finset.mem_range.mp hj) hpos hne)]
    rfl

/-! ## `random_i` -/

/-- The loop looks at every position. -/
theorem exists_turn {size : ℕ} (m_Pos : ℕ) {j : ℕ} (hj : j < size) :
    ∃ i < size, (m_Pos + i) % size = j := by
  have hpos : m_Pos % size < size := Nat.mod_lt _ (by omega)
  have hdiv := Nat.mod_add_div m_Pos size
  by_cases hle : m_Pos % size ≤ j
  · refine ⟨j - m_Pos % size, by omega, ?_⟩
    rw [Nat.add_mod, Nat.mod_eq_of_lt (show j - m_Pos % size < size by omega),
      Nat.mod_eq_of_lt (by omega)]
    omega
  · refine ⟨j + size - m_Pos % size, by omega, ?_⟩
    rw [Nat.add_mod, Nat.mod_eq_of_lt (show j + size - m_Pos % size < size by omega)]
    have hsum : m_Pos % size + (j + size - m_Pos % size) = j + size := by omega
    rw [hsum, Nat.add_mod_right, Nat.mod_eq_of_lt hj]

theorem randomTurn_of_find {r sPos : ℕ}
    (h : ((List.range s.m_Peers.length).map fun i => (s.m_Pos + i) % s.m_Peers.length).find?
      (fun sPos => s.m_Step ≤ s.budget sPos) = some sPos) :
    randomTurn (s, r) = .leave (sPos, r, { s.spend sPos with m_Pos := sPos + 1 }) := by
  rw [randomTurn]
  simp only [h]

/-- A turn takes the step from a peer that has it, or rewinds when no peer has it. -/
theorem randomTurn_spec (hs : s.Placed) (r : ℕ) :
    (∃ sPos, randomTurn (s, r) = .leave (sPos, r, { s.spend sPos with m_Pos := sPos + 1 }) ∧
      s.Reaches [some sPos] { s.spend sPos with m_Pos := sPos + 1 }) ∨
    (randomTurn (s, r) = .next (s.rewind, r + 1) ∧ s.Reaches [none] s.rewind) := by
  unfold randomTurn
  dsimp only
  split
  case h_1 sPos hfind =>
    left
    refine ⟨sPos, rfl, ?_⟩
    have hle := List.find?_some hfind
    rw [decide_eq_true_eq] at hle
    obtain ⟨i, hi, rfl⟩ := List.mem_map.mp (List.mem_of_find?_eq_some hfind)
    have hlt := List.mem_range.mp hi
    obtain ⟨⟨hpeers, hstep, hring⟩, hmoves⟩ := reaches_spend hs (Nat.mod_lt _ (by omega)) hle
    exact ⟨⟨hpeers, hstep, hring⟩, hmoves⟩
  case h_2 hfind =>
    right
    have hbudget : ∀ i < s.m_Peers.length, s.budget i < s.m_Step := by
      intro j hj
      obtain ⟨i, hi, rfl⟩ := exists_turn s.m_Pos hj
      have hnone := List.find?_eq_none.mp hfind _
        (List.mem_map_of_mem (List.mem_range.mpr hi))
      rw [decide_eq_true_eq, not_le] at hnone
      exact hnone
    exact ⟨rfl, reaches_rewind hs hbudget⟩

/-- It ends, because a peer with a weight comes nearer to the step with every rewind. -/
theorem randomI_returns (hs : s.Placed) {i : ℕ} (hi : i < s.m_Peers.length) (hw : 0 < s.weight i) :
    ∃ sPos r s', Returns (fun n => s.randomI n) (sPos, r, s') ∧
      s.Reaches (List.replicate r none ++ [some sPos]) s' := by
  have hturn : ∀ t : ByWeight × ℕ, s.Reaches (List.replicate t.2 none) t.1 →
      ∃ u, Returns (fun _ => some (randomTurn t)) u ∧
        u.Ok (fun t => s.Reaches (List.replicate t.2 none) t.1)
          (fun t => rank s.weight s.m_Step i t.1.budget)
          (fun q => s.Reaches (List.replicate q.2.1 none ++ [some q.1]) q.2.2)
          (rank s.weight s.m_Step i t.1.budget) := by
    rintro ⟨t, r⟩ ht
    refine ⟨_, returns_some _, ?_⟩
    rcases randomTurn_spec (ht.1.placed hs) r with ⟨sPos, hleave, hreach⟩ | ⟨hnext, hreach⟩
    · rw [hleave]
      exact ht.trans hreach
    · rw [hnext]
      refine ⟨?_, ?_⟩
      · have hmoves := ht.trans hreach
        rw [← List.replicate_succ'] at hmoves
        exact hmoves
      · have hmem : i ∈ t.positions := by
          rw [positions, ht.1.peers]
          exact Finset.mem_range.mpr hi
        have hmoves := hreach.2
        rw [ht.1.weight, ht.1.step] at hmoves
        cases hmoves with
        | cons hmove hrest =>
            cases hrest
            exact hmove.rank_lt hmem hw
  have hstart : s.Reaches (List.replicate (s, 0).2 none) (s, 0).1 := Reaches.refl s
  obtain ⟨⟨sPos, r, s'⟩, hreturns, hQ⟩ := loop_returns
    (fun t : ByWeight × ℕ => rank s.weight s.m_Step i t.1.budget) hturn hstart
  exact ⟨sPos, r, s', hreturns, hQ⟩

/-! ## `try_session` -/

theorem budget_lt_of_noBudget (h : s.noBudget = true) :
    ∀ i < s.m_Peers.length, s.budget i < s.m_Step := by
  intro i hi
  rw [noBudget, List.all_eq_true] at h
  simpa using h i (List.mem_range.mpr hi)

/-- At most one rewind, and at most one pick. -/
theorem trySession_spec (hs : s.Placed) (aSession : UInt64) :
    s.Reaches (List.replicate (s.trySession aSession).2.1 none ++
        ((s.trySession aSession).1.map some).toList) (s.trySession aSession).2.2 := by
  have hfirst : ∃ r t, (if s.noBudget then (s.rewind, 1) else (s, 0)) = (t, r) ∧
      s.Reaches (List.replicate r none) t := by
    cases hbudget : s.noBudget with
    | true => exact ⟨1, s.rewind, rfl, reaches_rewind hs (budget_lt_of_noBudget hbudget)⟩
    | false => exact ⟨0, s, rfl, Reaches.refl s⟩
  obtain ⟨r, t, heq, ht⟩ := hfirst
  have hplaced := ht.1.placed hs
  rw [trySession, heq]
  dsimp only
  split
  case h_1 sPos hfind =>
    have hle := List.find?_some hfind
    rw [decide_eq_true_eq] at hle
    obtain ⟨x, hx, rfl⟩ := HashRing.mem_lookup (List.mem_of_find?_eq_some hfind)
    exact ht.trans (reaches_spend hplaced (hplaced.ring x hx) hle)
  case h_2 => exact ht.trans (Reaches.refl t)

/-! ## Runs -/

/-- Every call returns, and what it returns is what the moves do. -/
theorem call_returns (hs : s.Placed) {i : ℕ} (hi : i < s.m_Peers.length) (hw : 0 < s.weight i)
    (c : Call) : ∃ p r s', Returns (fun n => s.call n c) (p, r, s') ∧
      s.Reaches (List.replicate r none ++ (p.map some).toList) s' := by
  cases c with
  | random =>
      obtain ⟨sPos, r, s', hreturns, hreach⟩ := randomI_returns hs hi hw
      exact ⟨some sPos, r, s', hreturns.map fun r => (some r.1, r.2), hreach⟩
  | session aSession => exact ⟨_, _, _, returns_some _, trySession_spec hs aSession⟩

theorem run_returns (hs : s.Placed) {i : ℕ} (hi : i < s.m_Peers.length) (hw : 0 < s.weight i)
    (calls : List Call) : ∃ results r s' log, Returns (fun n => s.run n calls) (results, r, s') ∧
      s.Reaches log s' ∧ log.count none = r ∧
      ∀ j, log.count (some j) = results.count (some j) := by
  induction calls generalizing s with
  | nil => exact ⟨[], 0, s, [], returns_some _, Reaches.refl s, rfl, fun _ => rfl⟩
  | cons c calls ih =>
      obtain ⟨p, r, s₁, hcall, hreach⟩ := call_returns hs hi hw c
      have hi₁ : i < s₁.m_Peers.length := by
        rw [hreach.1.peers]
        exact hi
      have hw₁ : 0 < s₁.weight i := by
        rw [hreach.1.weight]
        exact hw
      obtain ⟨results, r', s', log, hrun, hreach', hrewinds, hpicks⟩ :=
        ih (hreach.1.placed hs) hi₁ hw₁
      refine ⟨p :: results, r + r', s', _, hcall.bind (hrun.map _), hreach.trans hreach', ?_, ?_⟩
      · cases p <;> simp [List.count_append, hrewinds]
      · intro j
        have hnone : (List.replicate r (none : Option ℕ)).count (some j) = 0 := by
          simp [List.count_replicate]
        cases p <;> simp [List.count_append, List.count_cons, hpicks, hnone, add_comm]

end

/-! ## A run after `update` -/

theorem update_placed (xxh3 : Bytes → UInt64 → UInt64) (s : ByWeight)
    (hkeys : (aState.map Entry.key).Nodup) : (s.update xxh3 aState).Placed :=
  ⟨s.adjusted_keys hkeys, fun _ hx => of_mem_sRing hx⟩

/-- In every run, a peer that has neither a weight nor a budget is not selected. -/
def Excludes (s : ByWeight) : Prop :=
  ∀ calls results r s₁, Returns (fun n => s.run n calls) (results, r, s₁) →
    ∀ i < s₁.m_Peers.length, s₁.weight i = 0 → s₁.budget i = 0 →
      ∀ calls' results' r' s₂, Returns (fun n => s₁.run n calls') (results', r', s₂) →
        some i ∉ results'

theorem excludes {s : ByWeight} (hs : s.Placed) (hstep : 0 < s.m_Step) {i : ℕ}
    (hi : i < s.m_Peers.length) (hw : 0 < s.weight i) : s.Excludes := by
  intro calls results r s₁ hrun j hj hweight hbudget calls' results' r' s₂ hrun'
  obtain ⟨results₁, r₁, t₁, log, hreturns, hreach, -, -⟩ := run_returns hs hi hw calls
  obtain ⟨rfl, rfl, rfl⟩ : results = results₁ ∧ r = r₁ ∧ s₁ = t₁ := by
    simpa using hrun.unique hreturns
  have hi₁ : i < s₁.m_Peers.length := by
    rw [hreach.1.peers]
    exact hi
  have hw₁ : 0 < s₁.weight i := by
    rw [hreach.1.weight]
    exact hw
  have hstep₁ : 0 < s₁.m_Step := by
    rw [hreach.1.step]
    exact hstep
  obtain ⟨results₂, r₂, t₂, log', hreturns', hreach', -, hpicks⟩ :=
    run_returns (hreach.1.placed hs) hi₁ hw₁ calls'
  obtain ⟨rfl, -, -⟩ : results' = results₂ ∧ r' = r₂ ∧ s₂ = t₂ := by
    simpa using hrun'.unique hreturns'
  rw [← List.count_eq_zero, ← hpicks]
  exact hreach'.2.count_eq_zero hstep₁ (Finset.mem_range.mpr hj) hweight hbudget

theorem update_step_iff (xxh3 : Bytes → UInt64 → UInt64) (s : ByWeight) (aState : List Entry)
    (hkeys : (aState.map Entry.key).Nodup) :
    LeastWeight (s.update xxh3 aState).m_Peers (s.update xxh3 aState).m_Step ∧
        (s.update xxh3 aState).Excludes ↔
      ∃ front e tail, s.adjusted aState = front ++ e :: tail ∧ 0 < e.weight ∧
        (∀ e' ∈ tail, 0 < e'.weight) ∧
        ∀ e' ∈ s.adjusted aState, 0 < e'.weight → e.weight ≤ e'.weight := by
  rw [← leastWeight_iff, update_step]
  constructor
  · exact And.left
  · intro hleast
    refine ⟨hleast, ?_⟩
    obtain ⟨hpos, e, he, hweight⟩ := hleast.1
    obtain ⟨i, hi, hget⟩ := List.mem_iff_getElem.mp he
    refine excludes (update_placed xxh3 s hkeys) (update_step xxh3 s aState ▸ hpos) hi ?_
    rw [weight, entry]
    change 0 < ((s.adjusted aState).getD i _).weight
    rw [List.getD_eq_getElem _ _ hi, hget, hweight]
    exact hpos

def closedB : ByWeight :=
  { m_Pos := 1, m_Store := fun key => { m_Close := decide (key = ascii "b") } }

/-- The peer with the last key is closed. -/
def lastClosed : ByWeight :=
  closedB.update (fun _ _ => 0)
    [{ key := ascii "b", weight := 1 }, { key := ascii "a", weight := 2 }]

/-- The step is zero then, and the closed peer is selected. -/
theorem last_closed_selected :
    (0 < lastClosed.weight 0 ∧ lastClosed.weight 1 = 0 ∧ lastClosed.m_Step = 0) ∧
      ¬ LeastWeight lastClosed.m_Peers lastClosed.m_Step ∧ ¬ lastClosed.Excludes := by
  have hstep : lastClosed.m_Step = 0 := by decide +kernel
  refine ⟨⟨by decide +kernel, by decide +kernel, hstep⟩, ?_, ?_⟩
  · rintro ⟨⟨hpos, -⟩, -⟩
    exact absurd hpos (by rw [hstep]; exact lt_irrefl 0)
  · intro hexcludes
    have hturn : randomTurn (lastClosed, 0) =
        .leave (1, 0, { lastClosed.spend 1 with m_Pos := 2 }) :=
      randomTurn_of_find (by decide +kernel)
    have hrun : Returns (fun n => lastClosed.run n [.random])
        ([some 1], 0, { lastClosed.spend 1 with m_Pos := 2 }) :=
      ((loop_leave_of_eq hturn).map _).bind ((returns_some _).map _)
    exact hexcludes [] [] 0 lastClosed (returns_some _) 1 (by decide +kernel) (by decide +kernel)
      (by decide +kernel) [.random] _ _ _ hrun List.mem_cons_self

/-- When the closed peer has the first key, the step is the weight of the other one. -/
theorem first_closed_excluded :
    LeastWeight (closedB.update (fun _ _ => 0)
        [{ key := ascii "b", weight := 1 }, { key := ascii "c", weight := 2 }]).m_Peers
      (closedB.update (fun _ _ => 0)
        [{ key := ascii "b", weight := 1 }, { key := ascii "c", weight := 2 }]).m_Step ∧
    (closedB.update (fun _ _ => 0)
      [{ key := ascii "b", weight := 1 }, { key := ascii "c", weight := 2 }]).Excludes :=
  (update_step_iff (fun _ _ => 0) closedB
    [{ key := ascii "b", weight := 1 }, { key := ascii "c", weight := 2 }] (by decide)).mpr
    ⟨[{ key := ascii "b", weight := 0 }], { key := ascii "c", weight := 2 }, [],
      by decide +kernel, by decide, by simp, by decide +kernel⟩

/-- After `update` no budget is more than the weight, or less than zero if none was. -/
theorem update_ready (xxh3 : Bytes → UInt64 → UInt64) (s : ByWeight) {aState : List Entry}
    (hkeys : (aState.map Entry.key).Nodup) (hw : ∀ e ∈ aState, 0 ≤ e.weight)
    (hbudget : ∀ key, 0 ≤ (s.m_Store key).m_Budget) :
    ∀ i ∈ (s.update xxh3 aState).positions, 0 ≤ (s.update xxh3 aState).weight i ∧
      0 ≤ (s.update xxh3 aState).budget i ∧
      (s.update xxh3 aState).budget i ≤ (s.update xxh3 aState).weight i := by
  intro i hi
  have he : (s.update xxh3 aState).entry i ∈ s.adjusted aState := entry_mem (Finset.mem_range.mp hi)
  have hweight : 0 ≤ (s.update xxh3 aState).weight i := adjusted_nonneg hkeys hw _ he
  have hclip : (s.update xxh3 aState).budget i =
      min (s.m_Store ((s.update xxh3 aState).entry i).key).m_Budget
        ((s.update xxh3 aState).weight i) := update_budget xxh3 hkeys he
  rw [hclip]
  exact ⟨hweight, le_min (hbudget _) hweight, min_le_right _ _⟩

/-- Between two updates the picks of a peer follow its share of the weights. -/
theorem run_fair (xxh3 : Bytes → UInt64 → UInt64) (s : ByWeight)
    (hkeys : (s.m_Peers.map Entry.key).Nodup) (hring : s.m_Ring = sRing xxh3 s.m_Peers)
    (hw : ∀ i ∈ s.positions, 0 ≤ s.weight i) (hstep : 0 < s.m_Step)
    (htotal : 0 < ∑ i ∈ s.positions, s.weight i)
    (hbudget : ∀ i ∈ s.positions, 0 ≤ s.budget i ∧ s.budget i ≤ s.weight i) (calls : List Call) :
    ∃ results rewinds s', Returns (fun n => s.run n calls) (results, rewinds, s') ∧
      ∀ i ∈ s.positions,
        (0 ≤ s'.budget i ∧ s'.budget i < s.m_Step + s.weight i) ∧
        (results.count (some i) : ℚ) * s.m_Step =
          s.budget i + rewinds * s.weight i - s'.budget i ∧
        |(results.count (some i) : ℚ) - (∑ j ∈ s.positions, (results.count (some j) : ℚ)) *
            (s.weight i / ∑ j ∈ s.positions, s.weight j)| ≤
          deviation s.positions s.weight s.m_Step i := by
  obtain ⟨i, hi, hweight⟩ : ∃ i ∈ s.positions, 0 < s.weight i := by
    by_contra hnone
    push Not at hnone
    exact absurd htotal (not_lt.mpr (Finset.sum_nonpos hnone))
  have hs : s.Placed := ⟨hkeys, fun x hx => of_mem_sRing (hring ▸ hx)⟩
  have hbounded : Bounded s.positions s.weight s.m_Step s.budget := by
    intro j hj
    obtain ⟨hzero, hle⟩ := hbudget j hj
    exact ⟨hzero, by linarith⟩
  obtain ⟨results, r, s', log, hreturns, hreach, hrewinds, hpicks⟩ :=
    run_returns hs (Finset.mem_range.mp hi) hweight calls
  refine ⟨results, r, s', hreturns, ?_⟩
  intro j hj
  refine ⟨hreach.2.bounded hw hstep.le hbounded j hj, ?_, ?_⟩
  · rw [← hpicks, ← hrewinds]
    exact hreach.2.account hj
  · simp only [← hpicks]
    exact hreach.2.share hw hstep htotal hbounded hj

/-- Weights of one, three and six. -/
def threePeers : ByWeight :=
  ({} : ByWeight).update (fun _ _ => 0)
    [{ key := ascii "a", weight := 1 }, { key := ascii "b", weight := 3 },
      { key := ascii "c", weight := 6 }]

theorem run_fair_ten :
    ∃ results rewinds s', Returns (fun n => threePeers.run n
        (List.replicate 9 .random ++ [.session 5])) (results, rewinds, s') ∧
      (0 ≤ s'.budget 2 ∧ s'.budget 2 < 1 + 6) ∧
      (results.count (some 2) : ℚ) * 1 = 0 + rewinds * 6 - s'.budget 2 := by
  obtain ⟨results, rewinds, s', hreturns, hall⟩ := run_fair (fun _ _ => 0) threePeers
    (by decide +kernel) rfl (by decide +kernel) (by decide +kernel) (by decide +kernel)
    (by decide +kernel) (List.replicate 9 .random ++ [.session 5])
  have hstep : threePeers.m_Step = 1 := by decide +kernel
  have hweight : threePeers.weight 2 = 6 := by decide +kernel
  have hbudget : threePeers.budget 2 = 0 := by decide +kernel
  obtain ⟨hbounded, haccount, -⟩ := hall 2 (by decide +kernel)
  rw [hstep, hweight] at hbounded haccount
  rw [hbudget] at haccount
  exact ⟨results, rewinds, s', hreturns, hbounded, haccount⟩

end ByWeight

end Stuff.SdBalancer
