import Stuff.EventRuns
import Mathlib.Data.Int.Notation
import Mathlib.Data.List.Basic
import Mathlib.Logic.Function.Basic

/-!
# The pool of idle objects

A `Pool` is a list of objects with the time of their insert, used from the back
and cleaned from the front. A `KeyPool` is a map of pools. Its `cleanup` should
drop the pools that the cleaning left empty.
-/
namespace Stuff.ContainerPool
open EventRuns
open Function (update)

variable {Key T : Type} [DecidableEq Key]

/-- The time is a signed count of seconds. -/
structure Data (T : Type) where
  timestamp : ℤ
  data : T
deriving DecidableEq, Repr

/-- Too old for a pool that keeps objects for `aTimeout` seconds. -/
def Data.Stale (x : Data T) (aTimeout sNow : ℤ) : Prop := x.timestamp + aTimeout < sNow

instance (x : Data T) (aTimeout sNow : ℤ) : Decidable (x.Stale aTimeout sNow) :=
  inferInstanceAs (Decidable (_ < _))

structure Pool (T : Type) where
  store : List (Data T) := []

namespace Pool

def get (p : Pool T) : Option T × Pool T :=
  match p.store.getLast? with
  | none => (none, p)
  | some x => (some x.data, { store := p.store.dropLast })

def insert (p : Pool T) (x : T) (sNow : ℤ) : Pool T := { store := p.store ++ [⟨sNow, x⟩] }

def cleanup (p : Pool T) (aTimeout sNow : ℤ) : Pool T :=
  { store := p.store.dropWhile fun x => x.Stale aTimeout sNow }

def empty (p : Pool T) : Bool := p.store.isEmpty

end Pool

/-- The map by its lookups. -/
structure KeyPool (Key T : Type) where
  set : Key → Option (Pool T) := fun _ => none

namespace KeyPool

def get (p : KeyPool Key T) (aKey : Key) : Option T × KeyPool Key T :=
  match p.set aKey with
  | none => (none, p)
  | some pool => (pool.get.1, { set := update p.set aKey (some pool.get.2) })

def insert (p : KeyPool Key T) (aKey : Key) (x : T) (sNow : ℤ) : KeyPool Key T :=
  { set := update p.set aKey (some (((p.set aKey).getD {}).insert x sNow)) }

/-- `discard_if` with the predicate `s.second.empty() == 0`. -/
def cleanup (p : KeyPool Key T) (aTimeout sNow : ℤ) : KeyPool Key T :=
  { set := fun aKey =>
      ((p.set aKey).map fun pool => pool.cleanup aTimeout sNow).filter fun pool =>
        !(pool.empty.toNat == 0) }

/-- The objects pooled for a key, the oldest one first. -/
def pooled (p : KeyPool Key T) (aKey : Key) : List (Data T) := ((p.set aKey).getD {}).store

end KeyPool

/-! ## The operations on what is pooled -/

theorem pooled_insert (p : KeyPool Key T) (aKey : Key) (x : T) (sNow : ℤ) :
    (p.insert aKey x sNow).pooled = update p.pooled aKey (p.pooled aKey ++ [⟨sNow, x⟩]) := by
  funext k
  unfold KeyPool.pooled KeyPool.insert
  rcases eq_or_ne k aKey with rfl | hne
  · simp only [Function.update_self, Option.getD_some]
    rfl
  · simp only [Function.update_of_ne hne]

theorem get_eq (p : KeyPool Key T) (aKey : Key) :
    (p.get aKey).1 = (p.pooled aKey).getLast?.map Data.data ∧
      (p.get aKey).2.pooled = update p.pooled aKey (p.pooled aKey).dropLast := by
  unfold KeyPool.get
  cases hkey : p.set aKey with
  | none =>
      have hnil : p.pooled aKey = [] := by simp [KeyPool.pooled, hkey]
      rw [hnil]
      refine ⟨rfl, ?_⟩
      rw [List.dropLast_nil, ← hnil, Function.update_eq_self]
  | some pool =>
      have hstore : p.pooled aKey = pool.store := by simp [KeyPool.pooled, hkey]
      rw [hstore]
      have hget : pool.get.1 = pool.store.getLast?.map Data.data ∧
          pool.get.2.store = pool.store.dropLast := by
        unfold Pool.get
        cases hlast : pool.store.getLast? with
        | none => simp [List.getLast?_eq_none_iff.mp hlast]
        | some x => exact ⟨rfl, rfl⟩
      refine ⟨hget.1, ?_⟩
      funext k
      unfold KeyPool.pooled
      rcases eq_or_ne k aKey with rfl | hne
      · simp only [Function.update_self, Option.getD_some, hget.2]
      · simp only [Function.update_of_ne hne]

omit [DecidableEq Key] in
/-- The predicate has the wrong sense: the pools that are kept are the empty ones. -/
theorem pooled_cleanup (p : KeyPool Key T) (aTimeout sNow : ℤ) (aKey : Key) :
    (p.cleanup aTimeout sNow).pooled aKey = [] := by
  unfold KeyPool.pooled KeyPool.cleanup
  dsimp only
  cases p.set aKey with
  | none => rfl
  | some pool =>
      rw [Option.map_some]
      generalize pool.cleanup aTimeout sNow = cleaned
      cases hstore : cleaned.store with
      | nil => simp [Option.filter, Pool.empty, hstore]
      | cons x xs => simp [Option.filter, Pool.empty, hstore]

/-! ## Runs -/

inductive Event (Key T : Type)
  | insert (aKey : Key) (x : T) (sNow : ℤ)
  | get (aKey : Key)
  | cleanup (aTimeout sNow : ℤ)

/-- The pool, and the objects that it should hold, the last one inserted first. -/
structure State (Key T : Type) where
  pool : KeyPool Key T := {}
  kept : List (Key × Data T) := []

def poolStep (s : State Key T) : Event Key T → State Key T
  | .insert aKey x sNow =>
      { pool := s.pool.insert aKey x sNow, kept := (aKey, ⟨sNow, x⟩) :: s.kept }
  | .get aKey =>
      { pool := (s.pool.get aKey).2, kept := s.kept.eraseP fun x => x.1 = aKey }
  | .cleanup aTimeout sNow =>
      { pool := s.pool.cleanup aTimeout sNow
        kept := s.kept.filter fun x => ¬ x.2.Stale aTimeout sNow }

/-- Under each key the pool has the objects that it should hold. -/
def Matches (s : State Key T) : Prop :=
  ∀ k, s.pool.pooled k = ((s.kept.filter fun x => x.1 = k).map Prod.snd).reverse

/-- A get returns the object inserted last of those that should be pooled for the
key, and after every step the pool has what it should hold. -/
def Keeps (s : State Key T) (e : Event Key T) : Prop :=
  (∀ aKey, e = .get aKey →
    (s.pool.get aKey).1 = (s.kept.find? fun x => x.1 = aKey).map fun x => x.2.data) ∧
  Matches (poolStep s e)

/-- A cleanup finds nothing that would have to stay. -/
def AllStale (s : State Key T) : Event Key T → Prop
  | .cleanup aTimeout sNow => ∀ k, ∀ x ∈ s.pool.pooled k, x.Stale aTimeout sNow
  | _ => True

theorem filter_eraseP {α : Type} (p : α → Bool) (l : List α) :
    (l.eraseP p).filter p = (l.filter p).tail := by
  induction l with
  | nil => rfl
  | cons a l ih =>
      cases hp : p a with
      | true => simp [hp]
      | false => simp [hp, ih]

theorem filter_eraseP_other {α : Type} {p p' : α → Bool} (h : ∀ a, p a = true → p' a = false)
    (l : List α) : (l.eraseP p).filter p' = l.filter p' := by
  induction l with
  | nil => rfl
  | cons a l ih =>
      cases hp : p a with
      | true => simp [hp, h a hp]
      | false => simp [hp, List.filter_cons, ih]

theorem Matches.insert {s : State Key T} (h : Matches s) (aKey : Key) (x : T) (sNow : ℤ) :
    Matches (poolStep s (.insert aKey x sNow)) := by
  intro k
  simp only [poolStep, pooled_insert]
  rcases eq_or_ne k aKey with rfl | hne
  · simp [h k]
  · simp [Function.update_of_ne hne, h k, hne.symm]

theorem Matches.get {s : State Key T} (h : Matches s) (aKey : Key) :
    (s.pool.get aKey).1 = (s.kept.find? fun x => x.1 = aKey).map (fun x => x.2.data) ∧
      Matches (poolStep s (.get aKey)) := by
  obtain ⟨hresult, hpooled⟩ := get_eq s.pool aKey
  constructor
  · rw [hresult, h aKey, List.getLast?_reverse, ← List.head?_filter, List.head?_map, Option.map_map]
    rfl
  · intro k
    simp only [poolStep, hpooled]
    rcases eq_or_ne k aKey with rfl | hne
    · rw [Function.update_self, h k, filter_eraseP, List.map_tail, List.dropLast_reverse]
    · rw [Function.update_of_ne hne, h k, filter_eraseP_other]
      intro x hx
      simp only [decide_eq_true_eq, decide_eq_false_iff_not] at hx ⊢
      exact fun heq => hne (heq.symm.trans hx)

theorem Matches.cleanup_iff {s : State Key T} (h : Matches s) (aTimeout sNow : ℤ) :
    Matches (poolStep s (.cleanup aTimeout sNow)) ↔ AllStale s (.cleanup aTimeout sNow) := by
  simp only [Matches, AllStale, poolStep, pooled_cleanup]
  apply forall_congr'
  intro k
  rw [h k, eq_comm, List.reverse_eq_nil_iff, List.map_eq_nil_iff, List.filter_filter]
  constructor
  · intro hnil x hx
    obtain ⟨y, hy, rfl⟩ := List.mem_map.mp (List.mem_reverse.mp hx)
    rw [List.mem_filter, decide_eq_true_eq] at hy
    have hout := List.filter_eq_nil_iff.mp hnil y hy.1
    simpa [hy.2] using hout
  · intro hstale
    rw [List.filter_eq_nil_iff]
    intro y hy hboth
    simp only [Bool.and_eq_true, decide_eq_true_eq] at hboth
    apply hboth.2
    apply hstale
    rw [List.mem_reverse, List.mem_map]
    exact ⟨y, List.mem_filter.mpr ⟨hy, decide_eq_true hboth.1⟩, rfl⟩

theorem keeps_iff {s : State Key T} (h : Matches s) (e : Event Key T) :
    Keeps s e ↔ AllStale s e := by
  cases e with
  | insert aKey x sNow => exact iff_of_true ⟨by simp, h.insert aKey x sNow⟩ trivial
  | get aKey =>
      obtain ⟨hresult, hmatches⟩ := h.get aKey
      apply iff_of_true _ trivial
      refine ⟨?_, hmatches⟩
      intro k hk
      cases hk
      exact hresult
  | cleanup aTimeout sNow =>
      rw [← h.cleanup_iff]
      simp [Keeps]

/-- The steps of a run all do what they should exactly if every cleanup finds
nothing that would have to stay. -/
theorem keeps_iff_allStale (es : List (Event Key T)) :
    Meets poolStep Keeps ({} : State Key T) es ↔ Meets poolStep AllStale {} es := by
  have hstart : Matches ({} : State Key T) := fun _ => rfl
  apply meets_iff _ _ hstart (meets_true poolStep {} es)
  · intro s e h _
    exact keeps_iff h e
  · intro s e _ _ hkeeps
    exact hkeeps.2

/-- An object is inserted, and at the same second a cleanup throws it out. -/
theorem not_keeps_fresh :
    let s := run poolStep ({} : State ℕ ℕ) [.insert 1 7 100, .cleanup 10 100]
    s.kept = [(1, ⟨100, 7⟩)] ∧ ¬ (⟨100, 7⟩ : Data ℕ).Stale 10 100 ∧ (s.pool.get 1).1 = none := by
  decide

end Stuff.ContainerPool
