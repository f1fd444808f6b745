import Mathlib.Data.Nat.Notation
import Mathlib.Tactic.Common

/-!
# Cutting a stream at lengths a consumer asks for

A consumer says how many elements it wants next, takes them, and moves on or
stops. The pieces it is given are determined by the stream alone. Pieces may be
empty, so a consumer must not ask for nothing twice in a row.
-/
namespace Stuff.StreamCut

/-- A consumer of pieces; `none` is the end of its work. -/
structure Consumer (σ α : Type) where
  hint : σ → ℕ
  process : σ → List α → Option σ
  progress : ∀ s piece s', hint s = 0 → process s piece = some s' → 0 < hint s'

variable {σ α : Type} (P : Consumer σ α)

/-- What remains to be done: twice the length of the stream, and one more for a
piece that takes nothing from it. -/
def work (s : σ) (len : ℕ) : ℕ := 2 * len + if P.hint s = 0 then 1 else 0

theorem work_lt {s s' : σ} {piece : List α} {len : ℕ} (hlen : P.hint s ≤ len)
    (h : P.process s piece = some s') : work P s' (len - P.hint s) < work P s len := by
  unfold work
  by_cases hs : P.hint s = 0
  · have hs' := P.progress s piece s' hs h
    rw [if_pos hs, if_neg (by omega)]
    omega
  · rw [if_neg hs]
    split_ifs <;> omega

/-- The pieces of a stream, as far as it goes. -/
def cut (s : σ) (stream : List α) : List (List α) :=
  if _hlen : P.hint s ≤ stream.length then
    stream.take (P.hint s) ::
      match _h : P.process s (stream.take (P.hint s)) with
      | none => []
      | some s' => cut s' (stream.drop (P.hint s))
  else []
termination_by work P s stream.length
decreasing_by
  rw [List.length_drop]
  exact work_lt P _hlen _h

theorem cut_of_lt {s : σ} {stream : List α} (h : stream.length < P.hint s) :
    cut P s stream = [] := by
  rw [cut, dif_neg (by omega)]

theorem cut_of_none {s : σ} {piece rest : List α} (hlen : piece.length = P.hint s)
    (h : P.process s piece = none) : cut P s (piece ++ rest) = [piece] := by
  have htake : (piece ++ rest).take (P.hint s) = piece := by simp [← hlen]
  rw [cut, dif_pos (by simp only [List.length_append]; omega)]
  split
  · rw [htake]
  · rename_i s' heq
    rw [htake, h] at heq
    cases heq

theorem cut_of_some {s s' : σ} {piece rest : List α} (hlen : piece.length = P.hint s)
    (h : P.process s piece = some s') : cut P s (piece ++ rest) = piece :: cut P s' rest := by
  have htake : (piece ++ rest).take (P.hint s) = piece := by simp [← hlen]
  have hdrop : (piece ++ rest).drop (P.hint s) = rest := by simp [← hlen]
  rw [cut, dif_pos (by simp only [List.length_append]; omega)]
  split
  · rename_i heq
    rw [htake, h] at heq
    cases heq
  · rename_i s'' heq
    rw [htake, h, Option.some.injEq] at heq
    subst heq
    rw [htake, hdrop]

end Stuff.StreamCut
