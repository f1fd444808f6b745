import Stuff.EventRuns
import Mathlib.Logic.Function.Basic

/-!
# Session variables

`Session::Set` puts a variable into the store of the thread while it lives. The coroutines of a
thread have one store, and all of them that are suspended keep their objects.
-/
namespace Stuff.ContainerSession
open EventRuns

variable {T : Type} {El : T → Type}

/-- `boost::any`: the type of a value, and the value. -/
abbrev Any (El : T → Type) := Σ t, El t

structure Store (El : T → Type) where
  m_Map : String → Option (Any El) := fun _ => none

inductive Error
  | bad_any_cast
deriving DecidableEq, Repr

def any_cast [DecidableEq T] (t : T) (x : Any El) : Except Error (El t) :=
  if h : x.1 = t then .ok (h ▸ x.2) else .error .bad_any_cast

namespace Store

def set (s : Store El) (aKey : String) (aValue : Any El) : Store El :=
  { m_Map := Function.update s.m_Map aKey (some aValue) }

def get [DecidableEq T] (s : Store El) (t : T) (aKey : String) : Except Error (Option (El t)) :=
  match s.m_Map aKey with
  | none => .ok none
  | some x => (any_cast t x).map some

def del (s : Store El) (aKey : String) : Store El :=
  { m_Map := Function.update s.m_Map aKey none }

/-- The key has no value, of any type. -/
def Absent [DecidableEq T] (s : Store El) (aKey : String) : Prop := ∀ t, s.get t aKey = .ok none

section
variable [DecidableEq T]

theorem get_of_some {s : Store El} {aKey : String} {x : Any El} (h : s.m_Map aKey = some x) :
    s.get x.1 aKey = .ok (some x.2) := by
  simp [get, h, any_cast, Except.map]

theorem absent_iff (s : Store El) (aKey : String) : s.Absent aKey ↔ s.m_Map aKey = none := by
  constructor
  · intro h
    cases hmap : s.m_Map aKey with
    | none => rfl
    | some x =>
        have hsome := get_of_some hmap
        rw [h x.1] at hsome
        cases hsome
  · intro h t
    rw [get, h]

theorem get_eq_some_iff (s : Store El) (aKey : String) (x : Any El) :
    s.get x.1 aKey = .ok (some x.2) ↔ s.m_Map aKey = some x := by
  refine ⟨?_, get_of_some⟩
  intro h
  cases hmap : s.m_Map aKey with
  | none => simp [get, hmap] at h
  | some y =>
      rw [get, hmap] at h
      by_cases heq : y.1 = x.1
      · obtain ⟨t, y⟩ := y
        obtain ⟨u, x⟩ := x
        cases heq
        simp [any_cast, Except.map] at h
        rw [h]
      · simp [any_cast, heq, Except.map] at h

end
end Store

/-! ## Coroutines -/

/-- The object has its key; the value it was constructed with is recorded. -/
structure Set (El : T → Type) where
  m_Key : String
  aValue : Any El

/-- Coroutines are numbered, and `sets` are the objects of each, the innermost one first. -/
structure State (El : T → Type) where
  sStore : Store El := {}
  sets : ℕ → List (Set El) := fun _ => []

/-- Between two events of a coroutine, others run. -/
inductive Event (El : T → Type)
  | construct (j : ℕ) (aKey : String) (aValue : Any El)
  | destroy (j : ℕ)

def step (s : State El) : Event El → State El
  | .construct j aKey aValue =>
      { sStore := s.sStore.set aKey aValue
        sets := Function.update s.sets j ({ m_Key := aKey, aValue } :: s.sets j) }
  | .destroy j =>
      match s.sets j with
      | [] => s
      | x :: rest =>
          { sStore := s.sStore.del x.m_Key
            sets := Function.update s.sets j rest }

namespace State

/-- What a coroutine itself has set, by its innermost object of the key. -/
def own (s : State El) (j : ℕ) (aKey : String) : Option (Any El) :=
  ((s.sets j).find? fun x => x.m_Key = aKey).map Set.aValue

/-- Each coroutine finds its own value, and a key without objects is absent. -/
structure Owned [DecidableEq T] (s : State El) : Prop where
  found : ∀ j aKey x, s.own j aKey = some x → s.sStore.get x.1 aKey = .ok (some x.2)
  absent : ∀ aKey, (∀ j, s.own j aKey = none) → s.sStore.Absent aKey

end State

open State

/-- An object is constructed with the value that the other coroutines have for the key, and when it
is destroyed, there is no other one of its key. -/
def Undisturbed (s : State El) : Event El → Prop
  | .construct j aKey aValue => ∀ i, i ≠ j → ∀ x, s.own i aKey = some x → x = aValue
  | .destroy j =>
      ∀ x rest, s.sets j = x :: rest →
        (∀ i, i ≠ j → s.own i x.m_Key = none) ∧ ∀ y ∈ rest, y.m_Key ≠ x.m_Key

theorem own_construct (s : State El) (j : ℕ) (aKey : String) (aValue : Any El) (i : ℕ)
    (key : String) : (step s (.construct j aKey aValue)).own i key =
      if i = j ∧ aKey = key then some aValue else s.own i key := by
  by_cases hi : i = j
  · subst hi
    by_cases hkey : aKey = key <;> simp [step, own, hkey]
  · simp [step, own, hi]

theorem own_destroy {s : State El} {j : ℕ} {x : Set El} {rest : List (Set El)}
    (hsets : s.sets j = x :: rest) (i : ℕ) (key : String) :
    (step s (.destroy j)).own i key =
      if i = j then (rest.find? fun y => y.m_Key = key).map Set.aValue else s.own i key := by
  by_cases hi : i = j
  · subst hi
    simp [step, own, hsets]
  · simp [step, own, hsets, hi]

/-! ## One key -/

/-- Its value in the store, and what the coroutines have set. -/
def Kept {α : Type} (value : Option α) (own : ℕ → Option α) : Prop :=
  (∀ j x, own j = some x → value = some x) ∧ ((∀ j, own j = none) → value = none)

theorem kept_some {α : Type} {aValue : α} {own : ℕ → Option α} {j : ℕ} (hj : own j = some aValue) :
    Kept (some aValue) own ↔ ∀ i, i ≠ j → ∀ x, own i = some x → x = aValue := by
  constructor
  · intro h i _ x hx
    exact (Option.some.inj (h.1 i x hx)).symm
  · intro h
    constructor
    · intro i x hx
      by_cases hi : i = j
      · rw [← hx, hi, hj]
      · rw [h i hi x hx]
    · intro hnone
      rw [hnone j] at hj
      cases hj

theorem kept_none {α : Type} {own : ℕ → Option α} : Kept none own ↔ ∀ i, own i = none := by
  constructor
  · intro h i
    cases hi : own i with
    | none => rfl
    | some x => exact absurd (h.1 i x hi) (by simp)
  · intro h
    refine ⟨?_, fun _ => rfl⟩
    intro i x hx
    rw [h i] at hx
    cases hx

section
variable [DecidableEq T] {s t : State El}

theorem owned_iff : s.Owned ↔ ∀ aKey, Kept (s.sStore.m_Map aKey) fun j => s.own j aKey := by
  constructor
  · intro h aKey
    refine ⟨?_, ?_⟩
    · exact fun j x hx => (Store.get_eq_some_iff s.sStore aKey x).mp (h.found j aKey x hx)
    · exact fun hnone => (Store.absent_iff s.sStore aKey).mp (h.absent aKey hnone)
  · intro h
    refine ⟨?_, ?_⟩
    · exact fun j aKey x hx => Store.get_of_some ((h aKey).1 j x hx)
    · exact fun aKey hnone => (Store.absent_iff s.sStore aKey).mpr ((h aKey).2 hnone)

/-- An event is about one key, and the others stay as they are. -/
theorem owned_step (hs : s.Owned) (aKey : String)
    (hmap : ∀ key, key ≠ aKey → t.sStore.m_Map key = s.sStore.m_Map key)
    (hown : ∀ key, key ≠ aKey → ∀ i, t.own i key = s.own i key) :
    t.Owned ↔ Kept (t.sStore.m_Map aKey) fun j => t.own j aKey := by
  rw [owned_iff] at hs ⊢
  constructor
  · exact fun h => h aKey
  · intro h key
    by_cases hkey : key = aKey
    · exact hkey ▸ h
    · simpa only [hmap key hkey, hown key hkey] using hs key

theorem owned_construct (hs : s.Owned) (j : ℕ) (aKey : String) (aValue : Any El) :
    (step s (.construct j aKey aValue)).Owned ↔ Undisturbed s (.construct j aKey aValue) := by
  rw [owned_step hs aKey]
  · have hmap : (step s (.construct j aKey aValue)).sStore.m_Map aKey = some aValue := by
      simp [step, Store.set]
    rw [hmap, kept_some (j := j) (by simp [own_construct])]
    simp only [own_construct, Undisturbed]
    refine forall₂_congr fun i hi => ?_
    rw [if_neg fun h => hi h.1]
  · intro key hkey
    simp [step, Store.set, hkey]
  · intro key hkey i
    rw [own_construct, if_neg fun h => hkey h.2.symm]

theorem owned_destroy (hs : s.Owned) (j : ℕ) :
    (step s (.destroy j)).Owned ↔ Undisturbed s (.destroy j) := by
  cases hsets : s.sets j with
  | nil =>
      have hsame : step s (.destroy j) = s := by simp [step, hsets]
      rw [hsame]
      refine iff_of_true hs ?_
      intro x rest heq
      rw [hsets] at heq
      cases heq
  | cons x rest =>
      have hmap : (step s (.destroy j)).sStore.m_Map x.m_Key = none := by
        simp [step, hsets, Store.del]
      rw [owned_step hs x.m_Key, hmap, kept_none]
      · -- the others have nothing, and neither has the rest of this one
        simp only [own_destroy hsets, Undisturbed, hsets, List.cons.injEq]
        constructor
        · rintro hnone y rest' ⟨rfl, rfl⟩
          refine ⟨?_, ?_⟩
          · intro i hi
            simpa [hi] using hnone i
          · simpa using hnone j
        · intro h i
          obtain ⟨hothers, hrest⟩ := h x rest ⟨rfl, rfl⟩
          split_ifs with hi
          · simpa using hrest
          · exact hothers i hi
      · intro key hkey
        simp [step, hsets, Store.del, hkey]
      · intro key hkey i
        rw [own_destroy hsets]
        split_ifs with hi
        · subst hi
          simp [own, hsets, Ne.symm hkey]
        · rfl

/-- Every event leaves each coroutine its own values, just in the runs where no object disturbs
another one. -/
theorem run_owned (es : List (Event El)) :
    Meets step (fun s e => (step s e).Owned) {} es ↔ Meets step Undisturbed {} es := by
  have hok : ∀ (s : State El) (e : Event El), s.Owned → ((step s e).Owned ↔ Undisturbed s e) := by
    intro s e hs
    cases e with
    | construct j aKey aValue => exact owned_construct hs j aKey aValue
    | destroy j => exact owned_destroy hs j
  have hstart : ({} : State El).Owned := owned_iff.mpr fun _ => kept_none.mpr fun _ => rfl
  exact meets_iff (fun s e hs _ => hok s e hs) (fun _ _ _ _ hgood => hgood) hstart
    (meets_true step _ es)

end

/-- The only type of the values is that of the names of the peers. -/
abbrev Peer (_ : Unit) : Type := String

/-- The second request starts while the first one is suspended, which finds the name of the wrong
peer, and none when the second one is through. -/
theorem suspended_request_disturbed :
    ∃ es : List (Event Peer), (run step {} es).own 1 "peer" = some ⟨(), "10.0.0.1"⟩ ∧
      (run step {} es).sStore.get () "peer" = .ok (some "10.0.0.2") ∧
      ¬(run step {} es).Owned ∧ ¬(run step {} (es ++ [.destroy 2])).Owned := by
  refine ⟨[.construct 1 "peer" ⟨(), "10.0.0.1"⟩, .construct 2 "peer" ⟨(), "10.0.0.2"⟩], ?_⟩
  have hown : (run step {} [.construct 1 "peer" ⟨(), "10.0.0.1"⟩,
      .construct 2 "peer" ⟨(), "10.0.0.2"⟩] : State Peer).own 1 "peer" =
      some ⟨(), "10.0.0.1"⟩ := by simp [run, step, own]
  have hget : (run step {} [.construct 1 "peer" ⟨(), "10.0.0.1"⟩,
      .construct 2 "peer" ⟨(), "10.0.0.2"⟩] : State Peer).sStore.get () "peer" =
      .ok (some "10.0.0.2") := by
    simp [run, step, Store.set, Store.get, any_cast, Except.map]
  refine ⟨hown, hget, ?_, ?_⟩
  · intro howned
    have hfound := howned.found 1 "peer" _ hown
    rw [hget] at hfound
    simp at hfound
  · intro howned
    have hfound := howned.found 1 "peer" ⟨(), "10.0.0.1"⟩ (by simp [run, step, own])
    simp [run, step, Store.del, Store.get] at hfound

end Stuff.ContainerSession
