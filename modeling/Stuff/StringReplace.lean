import Stuff.Loops
import Stuff.ParserMultipart

/-!
# Replacing all occurrences

`String::replace_all` looks for the pattern again and again in the text that it changes, each
time from behind the last replacement. What is behind this place is the rest of the source.
-/
namespace Stuff.StringReplace
open Loops MachineWords
open ParserMultipart (find)

/-! ## Occurrences -/

/-- `std::string::find`, with `none` for `npos`. -/
def findFrom (str aFrom : Bytes) (pos : ℕ) : Option ℕ :=
  if pos ≤ str.length then (find aFrom (str.drop pos)).map (· + pos) else none

/-- `std::string::replace` with a place, a count and a string. -/
def replaceAt (str : Bytes) (pos count : ℕ) (aTo : Bytes) : Bytes :=
  str.take pos ++ aTo ++ str.drop (pos + count)

/-- Each occurrence is replaced once, from left to right. -/
def scan (aFrom aTo : Bytes) : Bytes → Bytes
  | [] => []
  | c :: rest =>
      if aFrom <+: c :: rest then aTo ++ scan aFrom aTo (rest.drop (aFrom.length - 1))
      else c :: scan aFrom aTo rest
termination_by str => str.length
decreasing_by
  · rw [List.length_drop, List.length_cons]
    omega
  · exact Nat.lt_succ_self _

variable {aFrom aTo : Bytes}

theorem find_nil (str : Bytes) : find [] str = some 0 := by
  cases str with
  | nil => rfl
  | cons c rest => rfl

theorem findFrom_append (done rest : Bytes) :
    findFrom (done ++ rest) aFrom done.length =
      (find aFrom rest).map (· + done.length) := by
  rw [findFrom, if_pos (by rw [List.length_append]; omega), List.drop_left]

theorem scan_of_prefix (hne : aFrom ≠ []) (rest : Bytes) :
    scan aFrom aTo (aFrom ++ rest) = aTo ++ scan aFrom aTo rest := by
  cases aFrom with
  | nil => exact absurd rfl hne
  | cons c pattern =>
      rw [List.cons_append, scan, if_pos ⟨rest, rfl⟩, List.length_cons, Nat.add_sub_cancel,
        List.drop_left]

theorem scan_of_find_eq_none {str : Bytes}
    (h : find aFrom str = none) : scan aFrom aTo str = str := by
  induction str with
  | nil => rw [scan]
  | cons c rest ih =>
      rw [find] at h
      split at h
      case isTrue => cases h
      case isFalse hnot =>
        rw [scan, if_neg (mt List.isPrefixOf_iff_prefix.mpr hnot), ih (Option.map_eq_none_iff.mp h)]

/-- What is in front of the first occurrence stays as it is. -/
theorem scan_of_find_eq_some (aTo : Bytes) (hne : aFrom ≠ []) {str : Bytes} {k : ℕ}
    (h : find aFrom str = some k) :
    k + aFrom.length ≤ str.length ∧
      scan aFrom aTo str =
        str.take k ++ aTo ++ scan aFrom aTo (str.drop (k + aFrom.length)) := by
  induction str generalizing k with
  | nil =>
      rw [find, if_neg hne] at h
      cases h
  | cons c rest ih =>
      rw [find] at h
      split at h
      case isTrue hprefix =>
        cases h
        obtain ⟨tail, htail⟩ := List.isPrefixOf_iff_prefix.mp hprefix
        rw [← htail, scan_of_prefix hne, Nat.zero_add, List.drop_left, List.length_append]
        exact ⟨Nat.le_add_right _ _, rfl⟩
      case isFalse hnot =>
        obtain ⟨k, hk, rfl⟩ := Option.map_eq_some_iff.mp h
        obtain ⟨hle, hscan⟩ := ih hk
        rw [scan, if_neg (mt List.isPrefixOf_iff_prefix.mpr hnot), hscan, Nat.add_right_comm,
          List.drop_succ_cons, List.take_succ_cons, List.length_cons]
        exact ⟨by omega, rfl⟩

/-! ## The loop -/

structure Replacing where
  sResult : Bytes
  sFrom : ℕ
deriving DecidableEq, Repr

def turn (aFrom aTo : Bytes) (s : Replacing) : Turn Replacing Bytes :=
  match findFrom s.sResult aFrom s.sFrom with
  | none => .leave s.sResult
  | some sPos =>
      .next { sResult := replaceAt s.sResult sPos aFrom.length aTo, sFrom := sPos + aTo.length }

/-- `String::replace_all`. -/
def replaceAll (aSrc aFrom aTo : Bytes) (turns : ℕ) : Option Bytes :=
  loop (fun _ s => some (turn aFrom aTo s)) turns { sResult := aSrc, sFrom := 0 }

theorem turn_of_find {done rest : Bytes} {k : ℕ} (h : find aFrom rest = some k)
    (hk : k ≤ rest.length) :
    turn aFrom aTo { sResult := done ++ rest, sFrom := done.length } =
      .next { sResult := (done ++ rest.take k ++ aTo) ++ rest.drop (k + aFrom.length)
              sFrom := (done ++ rest.take k ++ aTo).length } := by
  have hlen : (done ++ rest.take k ++ aTo).length = k + done.length + aTo.length := by
    rw [List.length_append, List.length_append, List.length_take, min_eq_left hk]
    omega
  have htake : (done ++ rest).take (k + done.length) = done ++ rest.take k := by
    rw [Nat.add_comm, List.take_length_add_append]
  have hdrop : (done ++ rest).drop (k + done.length + aFrom.length) =
      rest.drop (k + aFrom.length) := by
    rw [show k + done.length + aFrom.length = done.length + (k + aFrom.length) by omega,
      List.drop_length_add_append]
  rw [turn, findFrom_append, h, Option.map_some]
  dsimp only
  rw [replaceAt, htake, hdrop, hlen]

/-- Text that was inserted is not looked at again. -/
theorem returns_scan (aTo : Bytes) (hne : aFrom ≠ []) (done rest : Bytes) :
    Returns (fun n => loop (fun _ s => some (turn aFrom aTo s)) n
      { sResult := done ++ rest, sFrom := done.length }) (done ++ scan aFrom aTo rest) := by
  induction hn : rest.length using Nat.strongRecOn generalizing done rest with
  | ind n ih =>
      cases h : find aFrom rest with
      | none =>
          rw [scan_of_find_eq_none h]
          apply loop_leave_of_eq
          rw [turn, findFrom_append, h]
          rfl
      | some k =>
          obtain ⟨hle, hscan⟩ := scan_of_find_eq_some aTo hne h
          have hpos := List.length_pos_of_ne_nil hne
          apply loop_next_of_eq (turn_of_find h (by omega))
          have hrest := ih _ (by rw [List.length_drop]; omega) (done ++ rest.take k ++ aTo)
            (rest.drop (k + aFrom.length)) rfl
          rw [hscan]
          simp only [List.append_assoc] at hrest ⊢
          exact hrest

/-- The empty pattern is found at once, behind each replacement again. -/
theorem loop_nil_eq_none (aTo : Bytes) (n : ℕ) (done rest : Bytes) :
    loop (fun _ s => some (turn [] aTo s)) n
      { sResult := done ++ rest, sFrom := done.length } = none := by
  induction n generalizing done with
  | zero => rfl
  | succ n ih =>
      rw [loop, turn_of_find (find_nil rest) (Nat.zero_le _)]
      exact ih _

theorem replaceAll_nil (aSrc aTo : Bytes) (turns : ℕ) : replaceAll aSrc [] aTo turns = none :=
  loop_nil_eq_none aTo turns [] aSrc

/-- The call ends, and a pattern that is not empty is replaced everywhere. -/
def Replaces (aSrc aFrom aTo : Bytes) : Prop :=
  (∃ sResult, Returns (replaceAll aSrc aFrom aTo) sResult) ∧
    (aFrom ≠ [] → Returns (replaceAll aSrc aFrom aTo) (scan aFrom aTo aSrc))

theorem replaces_iff (aSrc aFrom aTo : Bytes) : Replaces aSrc aFrom aTo ↔ aFrom ≠ [] := by
  constructor
  · rintro ⟨⟨sResult, n, hn⟩, -⟩ rfl
    have hnone := hn n le_rfl
    rw [replaceAll_nil] at hnone
    cases hnone
  · intro hne
    have hreturns := returns_scan aTo hne [] aSrc
    exact ⟨⟨_, hreturns⟩, fun _ => hreturns⟩

theorem not_replaces_nil : ¬ Replaces (ascii "foo bar") [] [] := by
  rintro ⟨⟨sResult, n, hn⟩, -⟩
  have hnone := hn n le_rfl
  rw [replaceAll_nil] at hnone
  cases hnone

end Stuff.StringReplace
