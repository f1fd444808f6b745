import Stuff.EventRuns
import Mathlib.Data.List.Perm.Basic
import Mathlib.Data.List.Range
import Mathlib.Algebra.Order.Floor.Defs
import Mathlib.Algebra.Order.Field.Rat
import Mathlib.Order.Lattice
import Mathlib.Tactic.Linarith
import Mathlib.Tactic.NormNum

/-!
# A fair queue

`Threads::Fair::List` keeps tasks by the second in which they are pushed, later by what their user
has cost so far. Tasks of one second are kept in the order in which they are pushed. A task may be
overtaken by later ones, but only by those pushed before the clock has reached its place.
-/
namespace Stuff.ThreadsFairQueue
open EventRuns

/-! ## Averages -/

/-- The arithmetic of `double`, as far as it is used. -/
structure Arithmetic (α : Type) where
  zero : α
  one : α
  add : α → α → α
  sub : α → α → α
  mul : α → α → α
  div : α → α → α
  ofInt : ℤ → α
  /-- The conversion to `uint64_t`. -/
  trunc : α → ℕ
  /-- `0.95`. -/
  factor : α
  /-- `0.75`. -/
  fast : α

structure Ewma (α : Type) where
  m_Factor : α
  m_Value : α

def Ewma.add {α : Type} (a : Arithmetic α) (e : Ewma α) (aValue : α) : Ewma α :=
  { e with m_Value :=
      a.add (a.mul e.m_Value e.m_Factor) (a.mul (a.sub a.one e.m_Factor) aValue) }

structure EwmaRps (α : Type) where
  m_SlowLatency : Ewma α
  m_FastLatency : Ewma α
  m_RPS : Ewma α
  m_SuccessRate : Ewma α
  m_LastUpdateTs : ℤ := 0
  m_Elapsed : α
  m_Count : UInt32 := 0
  m_Success : UInt32 := 0

structure Info (α : Type) where
  latency : α
  rps : α
  success_rate : α

section
variable {α : Type} [LinearOrder α]

namespace EwmaRps

/-- `EwmaRps()`, with its defaults. -/
def make (a : Arithmetic α) : EwmaRps α where
  m_SlowLatency := ⟨a.factor, a.zero⟩
  m_FastLatency := ⟨a.mul a.factor a.fast, a.zero⟩
  m_RPS := ⟨a.factor, a.zero⟩
  m_SuccessRate := ⟨a.factor, a.one⟩
  m_Elapsed := a.zero

/-- A new second: what was counted in the last one goes into the averages. -/
def turn (a : Arithmetic α) (e : EwmaRps α) (aNow : ℤ) : EwmaRps α :=
  let sCount := a.ofInt e.m_Count.toNat
  let sTime := a.ofInt (aNow - e.m_LastUpdateTs)
  let e := if 0 < e.m_Count then
      { e with
        m_SlowLatency := e.m_SlowLatency.add a (a.div e.m_Elapsed sCount)
        m_FastLatency := e.m_FastLatency.add a (a.div e.m_Elapsed sCount)
        m_RPS := e.m_RPS.add a (a.div sCount sTime)
        m_SuccessRate := e.m_SuccessRate.add a (a.div (a.ofInt e.m_Success.toNat) sCount) }
    else e
  { e with m_Elapsed := a.zero, m_Count := 0, m_Success := 0, m_LastUpdateTs := aNow }

def add (a : Arithmetic α) (e : EwmaRps α) (aNow : ℤ) (aElapsed : α) (aSuccess : Bool) :
    EwmaRps α :=
  let e := if aNow > e.m_LastUpdateTs then e.turn a aNow else e
  { e with
    m_Elapsed := a.add e.m_Elapsed aElapsed
    m_Count := e.m_Count + 1
    m_Success := if aSuccess then e.m_Success + 1 else e.m_Success }

def estimate (e : EwmaRps α) : Info α where
  latency := max e.m_SlowLatency.m_Value e.m_FastLatency.m_Value
  rps := e.m_RPS.m_Value
  success_rate := e.m_SuccessRate.m_Value

end EwmaRps

/-! ## The queue -/

/-- What the multimap has: a key, and a task of a user. The serial number says which push it was. -/
structure Node where
  key : ℕ
  serial : ℕ
  user : String
deriving DecidableEq

/-- Behind all nodes whose key is not greater. -/
def emplace (n : Node) : List Node → List Node
  | [] => [n]
  | x :: xs => if n.key < x.key then n :: x :: xs else x :: emplace n xs

/-- A push, with the time of it and the key it got. -/
structure Push (α : Type) where
  now : α
  key : ℕ
  user : String
deriving DecidableEq

/-- The queue, and what has been pushed and popped so far. -/
structure FairList (α : Type) where
  m_List : List Node := []
  m_State : String → Option (EwmaRps α) := fun _ => none
  pushed : List (Push α) := []
  pops : List ℕ := []

namespace FairList

def prepare (a : Arithmetic α) (l : FairList α) (sWeight : α) (user : String) :
    α × (String → Option (EwmaRps α)) :=
  match l.m_State user with
  | some sState =>
      let sEst := sState.estimate
      let sTmp := a.mul (a.mul sEst.latency sEst.rps) (a.ofInt (l.m_List.length + 1))
      (a.add sWeight sTmp, l.m_State)
  | none =>
      (a.add sWeight a.zero, Function.update l.m_State user (some (EwmaRps.make a)))

def push (a : Arithmetic α) (l : FairList α) (sNow : α) (user : String) : FairList α :=
  let sWeight := l.prepare a sNow user
  let key := a.trunc sWeight.1
  { l with
    m_List := emplace ⟨key, l.pushed.length, user⟩ l.m_List
    m_State := sWeight.2
    pushed := l.pushed ++ [⟨sNow, key, user⟩] }

/-- `top` and `pop`, of a queue that is not empty. -/
def pop (l : FairList α) : FairList α :=
  match l.m_List with
  | [] => l
  | x :: xs => { l with m_List := xs, pops := l.pops ++ [x.serial] }

/-- The handler of a task has returned or thrown. -/
def account (a : Arithmetic α) (l : FairList α) (user : String) (aNow : ℤ) (sElapsed : α)
    (aSuccess : Bool) : FairList α :=
  match l.m_State user with
  | some sState =>
      { l with m_State :=
          Function.update l.m_State user (some (sState.add a aNow sElapsed aSuccess)) }
  | none => l

end FairList

inductive Event (α : Type)
  | push (sNow : α) (user : String)
  | pop
  | account (user : String) (aNow : ℤ) (sElapsed : α) (aSuccess : Bool)

def step (a : Arithmetic α) (l : FairList α) : Event α → FairList α
  | .push sNow user => l.push a sNow user
  | .pop => l.pop
  | .account user aNow sElapsed aSuccess => l.account a user aNow sElapsed aSuccess

/-- The clock does not go back, and no handler takes less than no time. -/
def Admits (a : Arithmetic α) (l : FairList α) : Event α → Prop
  | .push sNow _ => ∀ x ∈ l.pushed, x.now ≤ sNow
  | .pop => True
  | .account _ _ sElapsed _ => a.zero ≤ sElapsed

instance (a : Arithmetic α) (l : FairList α) : (e : Event α) → Decidable (Admits a l e)
  | .push sNow _ => inferInstanceAs (Decidable (∀ x ∈ l.pushed, x.now ≤ sNow))
  | .pop => inferInstanceAs (Decidable True)
  | .account _ _ sElapsed _ => inferInstanceAs (Decidable (a.zero ≤ sElapsed))

/-! ## What is needed of the arithmetic -/

/-- Sums, products and quotients of what is not negative are not negative, and a longer time is not
truncated to less. -/
structure Arithmetic.Rounds (a : Arithmetic α) : Prop where
  add_zero : ∀ x, a.add x a.zero = x
  le_add : ∀ x y, a.zero ≤ y → x ≤ a.add x y
  mul_nonneg : ∀ x y, a.zero ≤ x → a.zero ≤ y → a.zero ≤ a.mul x y
  div_nonneg : ∀ x y, a.zero ≤ x → a.zero < y → a.zero ≤ a.div x y
  ofInt_pos : ∀ n, 0 < n → a.zero < a.ofInt n
  trunc_mono : ∀ x y, x ≤ y → a.trunc x ≤ a.trunc y
  factor_nonneg : a.zero ≤ a.factor
  factor_le : a.zero ≤ a.sub a.one a.factor
  fast_nonneg : a.zero ≤ a.mul a.factor a.fast
  fast_le : a.zero ≤ a.sub a.one (a.mul a.factor a.fast)

/-- An average of what is not negative. -/
structure Ewma.Sound (a : Arithmetic α) (e : Ewma α) : Prop where
  value : a.zero ≤ e.m_Value
  factor : a.zero ≤ e.m_Factor
  rest : a.zero ≤ a.sub a.one e.m_Factor

structure EwmaRps.Sound (a : Arithmetic α) (e : EwmaRps α) : Prop where
  slow : e.m_SlowLatency.Sound a
  fast : e.m_FastLatency.Sound a
  rps : e.m_RPS.Sound a
  elapsed : a.zero ≤ e.m_Elapsed

variable {a : Arithmetic α}

theorem Arithmetic.Rounds.add_nonneg (ha : a.Rounds) {x y : α} (hx : a.zero ≤ x)
    (hy : a.zero ≤ y) : a.zero ≤ a.add x y :=
  le_trans hx (ha.le_add x y hy)

theorem Ewma.Sound.add (ha : a.Rounds) {e : Ewma α} (he : e.Sound a) {x : α} (hx : a.zero ≤ x) :
    (e.add a x).Sound a := by
  constructor
  case value =>
    exact ha.add_nonneg (ha.mul_nonneg _ _ he.value he.factor) (ha.mul_nonneg _ _ he.rest hx)
  case factor => exact he.factor
  case rest => exact he.rest

theorem EwmaRps.sound_make (ha : a.Rounds) : (EwmaRps.make a).Sound a := by
  constructor
  case slow => exact ⟨le_refl _, ha.factor_nonneg, ha.factor_le⟩
  case fast => exact ⟨le_refl _, ha.fast_nonneg, ha.fast_le⟩
  case rps => exact ⟨le_refl _, ha.factor_nonneg, ha.factor_le⟩
  case elapsed => exact le_refl _

theorem EwmaRps.Sound.turn (ha : a.Rounds) {e : EwmaRps α} (he : e.Sound a) {aNow : ℤ}
    (hnow : aNow > e.m_LastUpdateTs) : (e.turn a aNow).Sound a := by
  unfold EwmaRps.turn
  by_cases hcount : 0 < e.m_Count
  · have hpos : (0 : ℤ) < e.m_Count.toNat := by
      rw [UInt32.lt_iff_toNat_lt] at hcount
      exact Int.natCast_pos.mpr hcount
    have hsCount := ha.ofInt_pos _ hpos
    have hsTime := ha.ofInt_pos (aNow - e.m_LastUpdateTs) (by omega)
    have hlatency := ha.div_nonneg _ _ he.elapsed hsCount
    have hrps := ha.div_nonneg _ _ hsCount.le hsTime
    simp only [if_pos hcount]
    exact ⟨he.slow.add ha hlatency, he.fast.add ha hlatency, he.rps.add ha hrps, le_refl _⟩
  · simp only [if_neg hcount]
    exact ⟨he.slow, he.fast, he.rps, le_refl _⟩

theorem EwmaRps.Sound.add (ha : a.Rounds) {e : EwmaRps α} (he : e.Sound a) (aNow : ℤ)
    {aElapsed : α} (helapsed : a.zero ≤ aElapsed) (aSuccess : Bool) :
    (e.add a aNow aElapsed aSuccess).Sound a := by
  have hturn : (if aNow > e.m_LastUpdateTs then e.turn a aNow else e).Sound a := by
    split
    · exact he.turn ha ‹_›
    · exact he
  exact ⟨hturn.slow, hturn.fast, hturn.rps, ha.add_nonneg hturn.elapsed helapsed⟩

/-- What a task costs does not bring it forward. -/
theorem EwmaRps.Sound.estimate (ha : a.Rounds) {e : EwmaRps α} (he : e.Sound a) :
    a.zero ≤ a.mul e.estimate.latency e.estimate.rps :=
  ha.mul_nonneg _ _ (le_trans he.slow.value (le_max_left _ _)) he.rps.value

/-! ## Order of the tasks -/

/-- The order of the multimap. -/
def Node.Before (x y : Node) : Prop := x.key < y.key ∨ x.key = y.key ∧ x.serial < y.serial

theorem emplace_perm (n : Node) (l : List Node) : (emplace n l).Perm (n :: l) := by
  induction l with
  | nil => exact List.Perm.refl _
  | cons x xs ih =>
      rw [emplace]
      split
      · exact List.Perm.refl _
      · exact (ih.cons x).trans (List.Perm.swap n x xs)

theorem emplace_sorted {n : Node} {l : List Node} (hl : l.Pairwise Node.Before)
    (hn : ∀ x ∈ l, x.serial < n.serial) : (emplace n l).Pairwise Node.Before := by
  induction l with
  | nil => exact List.pairwise_singleton _ _
  | cons x xs ih =>
      have hx := List.pairwise_cons.mp hl
      rw [emplace]
      split
      · rename_i hlt
        refine List.pairwise_cons.mpr ⟨fun y hy => ?_, hl⟩
        rcases List.mem_cons.mp hy with rfl | hy
        · exact Or.inl hlt
        · rcases hx.1 y hy with hkey | ⟨hkey, -⟩
          · exact Or.inl (hlt.trans hkey)
          · exact Or.inl (hkey ▸ hlt)
      · rename_i hle
        have hserial := hn x List.mem_cons_self
        refine List.pairwise_cons.mpr
          ⟨fun y hy => ?_, ih hx.2 fun y hy => hn y (List.mem_cons_of_mem x hy)⟩
        rcases List.mem_cons.mp ((emplace_perm n xs).mem_iff.mp hy) with rfl | hy
        · rcases Nat.lt_or_ge x.key y.key with hlt | hge
          · exact Or.inl hlt
          · exact Or.inr ⟨by omega, hserial⟩
        · exact hx.1 y hy

/-! ## Who may overtake -/

/-- The later push has been popped while the earlier one was still waiting. -/
def Overtakes (l : FairList α) (j i : ℕ) : Prop :=
  i < j ∧ ∃ l₁ l₂, l.pops = l₁ ++ j :: l₂ ∧ i ∉ l₁

structure Inv (a : Arithmetic α) (l : FairList α) : Prop where
  states : ∀ user e, l.m_State user = some e → e.Sound a
  known : ∀ user, l.m_State user ≠ none →
    ∃ (k : ℕ) (x : Push α), l.pushed[k]? = some x ∧ x.user = user
  places : (l.pops ++ l.m_List.map Node.serial).Perm (List.range l.pushed.length)
  sorted : l.m_List.Pairwise Node.Before
  nodes : ∀ n ∈ l.m_List, ∃ x, l.pushed[n.serial]? = some x ∧ x.key = n.key
  clock : l.pushed.Pairwise fun x y => x.now ≤ y.now
  keys : ∀ x ∈ l.pushed, a.trunc x.now ≤ x.key
  first : ∀ (i : ℕ) (x : Push α), l.pushed[i]? = some x → x.key = a.trunc x.now ∨
    ∃ (k : ℕ) (y : Push α), k < i ∧ l.pushed[k]? = some y ∧ y.user = x.user
  behind : ∀ (i j : ℕ) (x y : Push α), Overtakes l j i → l.pushed[i]? = some x →
    l.pushed[j]? = some y → y.key < x.key

theorem inv_start : Inv a ({} : FairList α) := by
  constructor
  case states => exact fun user e h => by cases h
  case known => exact fun user h => absurd rfl h
  case places => exact List.Perm.refl _
  case sorted => exact List.Pairwise.nil
  case nodes => exact fun n h => absurd h List.not_mem_nil
  case clock => exact List.Pairwise.nil
  case keys => exact fun x h => absurd h List.not_mem_nil
  case first => exact fun i x h => by cases h
  case behind =>
    rintro i j x y ⟨-, l₁, l₂, heq, -⟩
    exact absurd heq.symm (List.append_ne_nil_of_right_ne_nil l₁ (List.cons_ne_nil j l₂))

theorem Inv.serial_lt {l : FairList α} (h : Inv a l) {n : Node} (hn : n ∈ l.m_List) :
    n.serial < l.pushed.length :=
  List.mem_range.mp (h.places.mem_iff.mp
    (List.mem_append_right _ (List.mem_map_of_mem hn)))

theorem Inv.pops_lt {l : FairList α} (h : Inv a l) {j : ℕ} (hj : j ∈ l.pops) :
    j < l.pushed.length :=
  List.mem_range.mp (h.places.mem_iff.mp (List.mem_append_left _ hj))

/-- The key is not before the time, and it is the time for the first task of a user. -/
theorem Inv.prepare (ha : a.Rounds) {l : FairList α} (h : Inv a l) (sNow : α) (user : String) :
    sNow ≤ (l.prepare a sNow user).1 ∧
      (l.m_State user = none → (l.prepare a sNow user).1 = sNow) := by
  rw [FairList.prepare]
  cases hstate : l.m_State user with
  | none => exact ⟨(ha.add_zero sNow).ge, fun _ => ha.add_zero sNow⟩
  | some e =>
      have hsize := ha.ofInt_pos (l.m_List.length + 1) (by omega)
      have hcost := (h.states user e hstate).estimate ha
      exact ⟨ha.le_add _ _ (ha.mul_nonneg _ _ hcost hsize.le), fun hnone => by cases hnone⟩

/-- A user who has no average yet gets one. -/
theorem Inv.prepare_states (ha : a.Rounds) {l : FairList α} (h : Inv a l) (sNow : α)
    (user u : String) (e : EwmaRps α) (he : (l.prepare a sNow user).2 u = some e) :
    e.Sound a := by
  rw [FairList.prepare] at he
  cases hstate : l.m_State user with
  | some e' =>
      rw [hstate] at he
      exact h.states u e he
  | none =>
      rw [hstate] at he
      dsimp only at he
      by_cases hu : u = user
      · rw [hu, Function.update_self] at he
        exact Option.some.inj he ▸ EwmaRps.sound_make ha
      · rw [Function.update_of_ne hu] at he
        exact h.states u e he

theorem FairList.prepare_known {l : FairList α} {sNow : α} {user u : String}
    (hu : (l.prepare a sNow user).2 u ≠ none) : l.m_State u ≠ none ∨ user = u := by
  rw [FairList.prepare] at hu
  cases hstate : l.m_State user with
  | some e' =>
      rw [hstate] at hu
      exact Or.inl hu
  | none =>
      rw [hstate] at hu
      dsimp only at hu
      by_cases heq : u = user
      · exact Or.inr heq.symm
      · rw [Function.update_of_ne heq] at hu
        exact Or.inl hu

theorem getElem?_concat {β : Type} {l : List β} {z x : β} {i : ℕ} (h : (l ++ [z])[i]? = some x) :
    l[i]? = some x ∨ i = l.length ∧ x = z := by
  rcases Nat.lt_trichotomy i l.length with hlt | heq | hgt
  · rw [List.getElem?_append_left hlt] at h
    exact Or.inl h
  · rw [heq, List.getElem?_concat_length] at h
    exact Or.inr ⟨heq, (Option.some.inj h).symm⟩
  · rw [List.getElem?_eq_none (by rw [List.length_append, List.length_singleton]; omega)] at h
    cases h

theorem Inv.push (ha : a.Rounds) {l : FairList α} (h : Inv a l) {sNow : α}
    (hclock : ∀ x ∈ l.pushed, x.now ≤ sNow) (user : String) : Inv a (l.push a sNow user) := by
  obtain ⟨hweight, hfirst⟩ := h.prepare ha sNow user
  have hold : ∀ {i : ℕ} {x : Push α}, l.pushed[i]? = some x →
      (l.push a sNow user).pushed[i]? = some x := fun hx => by
    rw [FairList.push, List.getElem?_append_left (List.getElem?_eq_some_iff.mp hx).1]
    exact hx
  have hnew : (l.push a sNow user).pushed[l.pushed.length]? =
      some ⟨sNow, a.trunc (l.prepare a sNow user).1, user⟩ := List.getElem?_concat_length
  constructor
  case states =>
    intro u e he
    exact h.prepare_states ha sNow user u e he
  case known =>
    intro u hu
    rcases FairList.prepare_known hu with hu | rfl
    · obtain ⟨k, x, hx, huser⟩ := h.known u hu
      exact ⟨k, x, hold hx, huser⟩
    · exact ⟨_, _, hnew, rfl⟩
  case places =>
    have hperm := (emplace_perm ⟨a.trunc (l.prepare a sNow user).1, l.pushed.length, user⟩
      l.m_List).map Node.serial
    rw [FairList.push, List.length_append, List.length_singleton, List.range_succ]
    exact ((hperm.append_left l.pops).trans List.perm_middle).trans
      ((h.places.cons _).trans (List.perm_append_singleton _ _).symm)
  case sorted => exact emplace_sorted h.sorted fun x hx => h.serial_lt hx
  case nodes =>
    intro n hn
    rcases List.mem_cons.mp ((emplace_perm _ l.m_List).mem_iff.mp hn) with rfl | hn
    · exact ⟨_, hnew, rfl⟩
    · obtain ⟨x, hx, hkey⟩ := h.nodes n hn
      exact ⟨x, hold hx, hkey⟩
  case clock =>
    refine List.pairwise_append.mpr ⟨h.clock, List.pairwise_singleton _ _, fun x hx y hy => ?_⟩
    rw [List.mem_singleton.mp hy]
    exact hclock x hx
  case keys =>
    intro x hx
    rcases List.mem_append.mp hx with hx | hx
    · exact h.keys x hx
    · rw [List.mem_singleton.mp hx]
      exact ha.trunc_mono _ _ hweight
  case first =>
    intro i x hx
    rcases getElem?_concat hx with hx | ⟨rfl, rfl⟩
    · rcases h.first i x hx with hkey | ⟨k, y, hk, hy, huser⟩
      · exact Or.inl hkey
      · exact Or.inr ⟨k, y, hk, hold hy, huser⟩
    · cases hstate : l.m_State user with
      | none => exact Or.inl (congrArg a.trunc (hfirst hstate))
      | some e =>
          obtain ⟨k, y, hy, huser⟩ := h.known user (by rw [hstate]; exact Option.some_ne_none e)
          exact Or.inr ⟨k, y, (List.getElem?_eq_some_iff.mp hy).1, hold hy, huser⟩
  case behind =>
    rintro i j x y ⟨hij, l₁, l₂, hpops, hi⟩ hx hy
    have hj : j < l.pushed.length := h.pops_lt (hpops ▸ List.mem_append_right _ List.mem_cons_self)
    rcases getElem?_concat hx with hx | ⟨rfl, -⟩
    · rcases getElem?_concat hy with hy | ⟨rfl, -⟩
      · exact h.behind i j x y ⟨hij, l₁, l₂, hpops, hi⟩ hx hy
      · exact absurd hj (Nat.lt_irrefl _)
    · omega

theorem Inv.pop {l : FairList α} (h : Inv a l) : Inv a l.pop := by
  rw [FairList.pop]
  cases hlist : l.m_List with
  | nil => exact h
  | cons n ns =>
      have hsorted := List.pairwise_cons.mp (hlist ▸ h.sorted)
      have hplaces := h.places
      rw [hlist, List.map_cons] at hplaces
      constructor
      case states => exact h.states
      case known => exact h.known
      case places =>
        change (l.pops ++ [n.serial] ++ ns.map Node.serial).Perm _
        rwa [List.append_assoc, List.singleton_append]
      case sorted => exact hsorted.2
      case nodes => exact fun m hm => h.nodes m (hlist ▸ List.mem_cons_of_mem n hm)
      case clock => exact h.clock
      case keys => exact h.keys
      case first => exact h.first
      case behind =>
        rintro i j x y ⟨hij, l₁, l₂, hpops, hi⟩ hx hy
        rcases List.eq_nil_or_concat l₂ with rfl | ⟨l₂, k, rfl⟩
        · -- `j` is popped now, and `i` is behind it in the list
          obtain ⟨rfl, hj⟩ := List.append_inj' hpops rfl
          have hwaits : i ∈ ns.map Node.serial := by
            have hmem := hplaces.mem_iff.mpr (List.mem_range.mpr
              (List.getElem?_eq_some_iff.mp hx).1)
            rcases List.mem_append.mp hmem with hmem | hmem
            · exact absurd hmem hi
            · rcases List.mem_cons.mp hmem with heq | hmem
              · rw [List.cons.injEq] at hj
                omega
              · exact hmem
          obtain ⟨m, hm, rfl⟩ := List.mem_map.mp hwaits
          obtain ⟨x', hx', hkey⟩ := h.nodes m (hlist ▸ List.mem_cons_of_mem n hm)
          obtain ⟨y', hy', hkey'⟩ := h.nodes n (hlist ▸ List.mem_cons_self)
          have hserial : j = n.serial := (List.cons.inj hj).1.symm
          have hxx : x' = x := Option.some.inj (hx'.symm.trans hx)
          have hyy : y' = y := Option.some.inj (hy'.symm.trans (hserial ▸ hy))
          rw [← hxx, ← hyy, hkey, hkey']
          rcases hsorted.1 m hm with hlt | ⟨-, hlt⟩
          · exact hlt
          · omega
        · have hinit : l.pops = l₁ ++ j :: l₂ := by
            rw [List.concat_eq_append, ← List.cons_append, ← List.append_assoc] at hpops
            exact (List.append_inj' hpops rfl).1
          exact h.behind i j x y ⟨hij, l₁, l₂, hinit, hi⟩ hx hy

theorem Inv.account (ha : a.Rounds) {l : FairList α} (h : Inv a l) (user : String) (aNow : ℤ)
    {sElapsed : α} (helapsed : a.zero ≤ sElapsed) (aSuccess : Bool) :
    Inv a (l.account a user aNow sElapsed aSuccess) := by
  rw [FairList.account]
  cases hstate : l.m_State user with
  | none => exact h
  | some e =>
      constructor
      case states =>
        intro u e' he'
        dsimp only at he'
        by_cases hu : u = user
        · rw [hu, Function.update_self] at he'
          exact Option.some.inj he' ▸ (h.states user e hstate).add ha aNow helapsed aSuccess
        · rw [Function.update_of_ne hu] at he'
          exact h.states u e' he'
      case known =>
        intro u hu
        dsimp only at hu
        by_cases heq : u = user
        · exact h.known u (by rw [heq, hstate]; exact Option.some_ne_none e)
        · rw [Function.update_of_ne heq] at hu
          exact h.known u hu
      case places => exact h.places
      case sorted => exact h.sorted
      case nodes => exact h.nodes
      case clock => exact h.clock
      case keys => exact h.keys
      case first => exact h.first
      case behind => exact h.behind

theorem Inv.step (ha : a.Rounds) (l : FairList α) (e : Event α) (h : Inv a l)
    (he : Admits a l e) : Inv a (step a l e) := by
  cases e with
  | push sNow user => exact h.push ha he user
  | pop => exact h.pop
  | account user aNow sElapsed aSuccess => exact h.account ha user aNow he aSuccess

/-- In every run each task is waiting or has been popped once. A task is overtaken only by tasks
that were pushed before the clock had reached its key, and never if it is the first one of its
user. -/
theorem overtaken_early (a : Arithmetic α) (ha : a.Rounds) (es : List (Event α))
    (hes : Meets (step a) (Admits a) {} es) :
    let l := run (step a) {} es
    (l.pops ++ l.m_List.map Node.serial).Perm (List.range l.pushed.length) ∧
      ∀ i j x y, Overtakes l j i → l.pushed[i]? = some x → l.pushed[j]? = some y →
        a.trunc y.now < x.key ∧ ∃ k z, k < i ∧ l.pushed[k]? = some z ∧ z.user = x.user := by
  have h : Inv a (run (step a) {} es) := run_invariant (Inv.step ha) inv_start hes
  refine ⟨h.places, fun i j x y hover hx hy => ?_⟩
  have hkey := h.keys y (List.mem_of_getElem? hy)
  have hlt := h.behind i j x y hover hx hy
  refine ⟨Nat.lt_of_le_of_lt hkey hlt, ?_⟩
  rcases h.first i x hx with hfirst | hknown
  · -- the key of a first task is its time, which is not after the time of `y`
    have hi := (List.getElem?_eq_some_iff.mp hx).2
    have hj := (List.getElem?_eq_some_iff.mp hy).2
    have hclock : x.now ≤ y.now := by
      rw [← hi, ← hj]
      exact List.pairwise_iff_getElem.mp h.clock i j _ _ hover.1
    have htrunc := ha.trunc_mono _ _ hclock
    omega
  · exact hknown

end

/-- Exact arithmetic. -/
def rational : Arithmetic ℚ where
  zero := 0
  one := 1
  add := (· + ·)
  sub := (· - ·)
  mul := (· * ·)
  div := (· / ·)
  ofInt := Int.cast
  trunc x := x.floor.toNat
  factor := 95 / 100
  fast := 75 / 100

theorem rational_rounds : rational.Rounds := by
  constructor
  case add_zero => exact add_zero
  case le_add => exact fun x y hy => le_add_of_nonneg_right hy
  case mul_nonneg => exact fun x y hx hy => mul_nonneg hx hy
  case div_nonneg => exact fun x y hx hy => div_nonneg hx hy.le
  case ofInt_pos => exact fun n hn => Int.cast_pos.mpr hn
  case trunc_mono => exact fun x y hxy => Int.toNat_le_toNat (Rat.floor_monotone hxy)
  case factor_nonneg => norm_num [rational]
  case factor_le => norm_num [rational]
  case fast_nonneg => norm_num [rational]
  case fast_le => norm_num [rational]

/-- A task of a user whose first one took long, and the first task of another user. -/
def costly : List (Event ℚ) :=
  [.push 1 "slow", .pop, .account "slow" 1 80 true, .account "slow" 2 1 true, .push 2 "slow",
    .push 2 "quick", .pop]

theorem overtaken_early_costly :
    2 < 3 ∧ ∃ (k : ℕ) (z : Push ℚ), k < 1 ∧
      (run (step rational) {} costly).pushed[k]? = some z ∧ z.user = "slow" := by
  have hmeets : Meets (step rational) (Admits rational) {} costly := by decide +kernel
  have hover : Overtakes (run (step rational) {} costly) 2 1 :=
    ⟨by decide, [0], [], by decide +kernel, by decide⟩
  exact (overtaken_early rational rational_rounds costly hmeets).2 1 2 ⟨2, 3, "slow"⟩
    ⟨2, 2, "quick"⟩ hover (by decide +kernel) (by decide +kernel)

end Stuff.ThreadsFairQueue
