import Mathlib.Data.Nat.Notation
import Mathlib.Tactic.Common

/-!
# Loops that end

A loop is given a number of turns, and has no result when they do not suffice. It returns
what is its result with every number of turns from some number on. So the rules for
`Returns` are those of total correctness: a loop returns if a rank falls with every turn,
and a turn may contain other loops that return.
-/
namespace Stuff.Loops

variable {σ ρ α β : Type*}

/-- The result with every number of turns from some number on. -/
def Returns (f : ℕ → Option α) (a : α) : Prop := ∃ n, ∀ m ≥ n, f m = some a

theorem Returns.unique {f : ℕ → Option α} {a b : α} (h : Returns f a) (h' : Returns f b) :
    a = b := by
  obtain ⟨n, hn⟩ := h
  obtain ⟨n', hn'⟩ := h'
  have heq := (hn (max n n') (by omega)).symm.trans (hn' (max n n') (by omega))
  exact Option.some.inj heq

theorem returns_some (a : α) : Returns (fun _ => some a) a := ⟨0, fun _ _ => rfl⟩

theorem Returns.bind {f : ℕ → Option α} {g : ℕ → α → Option β} {a : α} {b : β}
    (h : Returns f a) (hg : Returns (fun n => g n a) b) :
    Returns (fun n => (f n).bind (g n)) b := by
  obtain ⟨n, hn⟩ := h
  obtain ⟨n', hn'⟩ := hg
  refine ⟨max n n', fun m hm => ?_⟩
  dsimp only at hn' ⊢
  rw [hn m (by omega), Option.bind_some]
  exact hn' m (by omega)

theorem Returns.map {f : ℕ → Option α} {a : α} (h : Returns f a) (g : α → β) :
    Returns (fun n => (f n).map g) (g a) := by
  obtain ⟨n, hn⟩ := h
  refine ⟨n, fun m hm => ?_⟩
  dsimp only
  rw [hn m hm, Option.map_some]

/-- How a turn ends: the loop goes on from a state, or is left with a result. -/
inductive Turn (σ ρ : Type*)
  | next (s : σ)
  | leave (r : ρ)
deriving DecidableEq, Repr

/-- Only what the loop is left with is another. -/
def Turn.map (g : ρ → α) : Turn σ ρ → Turn σ α
  | .next s => .next s
  | .leave r => .leave (g r)

/-- Loops inside of a turn are given the number of turns that are left. -/
def loop (turn : ℕ → σ → Option (Turn σ ρ)) : ℕ → σ → Option ρ
  | 0, _ => none
  | n + 1, s =>
      match turn n s with
      | none => none
      | some (.next s') => loop turn n s'
      | some (.leave r) => some r

variable {turn : ℕ → σ → Option (Turn σ ρ)} {s : σ}

theorem loop_leave {r : ρ} (h : Returns (fun n => turn n s) (.leave r)) :
    Returns (fun n => loop turn n s) r := by
  obtain ⟨n, hn⟩ := h
  refine ⟨n + 1, fun m hm => ?_⟩
  obtain ⟨m, rfl⟩ : ∃ k, m = k + 1 := ⟨m - 1, by omega⟩
  have hturn : turn m s = some (.leave r) := hn m (by omega)
  dsimp only
  rw [loop, hturn]

theorem loop_next {s' : σ} {r : ρ} (h : Returns (fun n => turn n s) (.next s'))
    (hrest : Returns (fun n => loop turn n s') r) : Returns (fun n => loop turn n s) r := by
  obtain ⟨n, hn⟩ := h
  obtain ⟨n', hn'⟩ := hrest
  refine ⟨max n n' + 1, fun m hm => ?_⟩
  obtain ⟨m, rfl⟩ : ∃ k, m = k + 1 := ⟨m - 1, by omega⟩
  have hturn : turn m s = some (.next s') := hn m (by omega)
  dsimp only
  rw [loop, hturn]
  exact hn' m (by omega)

theorem loop_leave_of_eq {turn : σ → Turn σ ρ} {r : ρ} (h : turn s = .leave r) :
    Returns (fun n => loop (fun _ s => some (turn s)) n s) r := by
  apply loop_leave
  rw [h]
  exact returns_some _

theorem loop_next_of_eq {turn : σ → Turn σ ρ} {s' : σ} {r : ρ} (h : turn s = .next s')
    (hrest : Returns (fun n => loop (fun _ s => some (turn s)) n s') r) :
    Returns (fun n => loop (fun _ s => some (turn s)) n s) r := by
  refine loop_next ?_ hrest
  rw [h]
  exact returns_some _

/-- A loop that was seen to end. -/
theorem returns_of_loop {turn : σ → Turn σ ρ} {n : ℕ} {r : ρ}
    (h : loop (fun _ s => some (turn s)) n s = some r) :
    Returns (fun n => loop (fun _ s => some (turn s)) n s) r := by
  induction n generalizing s with
  | zero => cases h
  | succ n ih =>
      rw [loop] at h
      cases hturn : turn s with
      | next t =>
          rw [hturn] at h
          exact loop_next_of_eq hturn (ih h)
      | leave r' =>
          rw [hturn] at h
          cases h
          exact loop_leave_of_eq hturn

theorem loop_map {turn : σ → Turn σ ρ} {turn' : σ → Turn σ α} (g : ρ → α)
    (h : ∀ s, turn' s = (turn s).map g) (n : ℕ) (s : σ) :
    loop (fun _ s => some (turn' s)) n s = (loop (fun _ s => some (turn s)) n s).map g := by
  induction n generalizing s with
  | zero => rfl
  | succ n ih =>
      rw [loop, loop, h]
      cases turn s with
      | next t => exact ih t
      | leave r => rfl

/-- What a turn from an invariant state with the given rank does. -/
def Turn.Ok (I : σ → Prop) (rank : σ → ℕ) (Q : ρ → Prop) (k : ℕ) : Turn σ ρ → Prop
  | .next s => I s ∧ rank s < k
  | .leave r => Q r

/-- Total correctness of a loop. -/
theorem loop_returns {I : σ → Prop} {Q : ρ → Prop} (rank : σ → ℕ)
    (hturn : ∀ s, I s → ∃ t, Returns (fun n => turn n s) t ∧ t.Ok I rank Q (rank s)) (hs : I s) :
    ∃ r, Returns (fun n => loop turn n s) r ∧ Q r := by
  induction hk : rank s using Nat.strongRecOn generalizing s with
  | ind k ih =>
      obtain ⟨t, ht, hok⟩ := hturn s hs
      cases t with
      | leave r => exact ⟨r, loop_leave ht, hok⟩
      | next s' =>
          obtain ⟨hI, hlt⟩ := hok
          obtain ⟨r, hr, hQ⟩ := ih (rank s') (hk ▸ hlt) hI rfl
          exact ⟨r, loop_next ht hr, hQ⟩

/-- Partial correctness of a loop. -/
theorem of_loop_eq_some {I : σ → Prop} {Q : ρ → Prop}
    (hnext : ∀ n s s', I s → turn n s = some (.next s') → I s')
    (hleave : ∀ n s r, I s → turn n s = some (.leave r) → Q r) (hs : I s) {n : ℕ} {r : ρ}
    (h : loop turn n s = some r) : Q r := by
  induction n generalizing s with
  | zero => cases h
  | succ n ih =>
      rw [loop] at h
      split at h
      · cases h
      case h_2 s' hturn => exact ih (hnext n s s' hs hturn) h
      case h_3 r' hturn =>
        cases h
        exact hleave n s r hs hturn

end Stuff.Loops
