import Mathlib.Data.List.Basic
import Mathlib.Data.List.TakeWhile

/-!
# Texts that are split at a separator

`List.splitOn` gives the pieces between the separators, of which there is one more than
there are separators. A consumer of lines wants the last piece only if it is not empty;
these are the `parts`. A text may come in portions: what is behind the last separator is
the beginning of the next piece.
-/
namespace Stuff.Splitting

variable {α : Type*} [DecidableEq α] {sep : α}

/-- What comes behind a text goes on with its last piece. -/
theorem splitOn_append_of_eq {l last : List α} {pieces : List (List α)}
    (h : l.splitOn sep = pieces ++ [last]) (rest : List α) :
    (l ++ rest).splitOn sep = pieces ++ (last ++ rest).splitOn sep := by
  induction l generalizing pieces last with
  | nil =>
      rw [List.splitOn_nil] at h
      obtain ⟨rfl, hlast⟩ := List.append_eq_singleton_iff.mp h.symm |>.resolve_right (by simp)
      cases hlast
      rfl
  | cons x l ih =>
      rw [List.splitOn_cons_eq_if_modifyHead] at h
      rw [List.cons_append, List.splitOn_cons_eq_if_modifyHead]
      split_ifs at h ⊢ with hx
      · cases pieces with
        | nil =>
            rw [List.nil_append, List.cons.injEq] at h
            exact absurd h.2 (List.splitOn_ne_nil sep l)
        | cons piece pieces =>
            rw [List.cons_append, List.cons.injEq] at h
            rw [ih h.2, ← h.1, List.cons_append]
      · obtain ⟨first, firsts, hsplit⟩ := List.exists_cons_of_ne_nil (List.splitOn_ne_nil sep l)
        rw [hsplit, List.modifyHead_cons] at h
        cases pieces with
        | nil =>
            rw [List.nil_append, List.cons.injEq] at h
            obtain ⟨rfl, rfl⟩ := h
            have hlast : l.splitOn sep = [] ++ [first] := hsplit
            have hrest := ih hlast
            rw [List.nil_append] at hrest
            rw [hrest, List.nil_append, List.cons_append, List.splitOn_cons_eq_if_modifyHead,
              if_neg hx]
        | cons piece pieces =>
            rw [List.cons_append, List.cons.injEq] at h
            obtain ⟨rfl, rfl⟩ := h
            have hlast : l.splitOn sep = (first :: pieces) ++ [last] := hsplit
            have hrest := ih hlast
            rw [hrest, List.cons_append, List.modifyHead_cons, List.cons_append]

/-- The first separator, with what is before and behind it. -/
theorem eq_append_of_mem {l : List α} (h : sep ∈ l) :
    sep ∉ l.takeWhile (· != sep) ∧
      l = l.takeWhile (· != sep) ++ sep :: l.drop ((l.takeWhile (· != sep)).length + 1) := by
  constructor
  · intro hmem
    have hne := List.mem_takeWhile_imp hmem
    rw [bne_self_eq_false] at hne
    cases hne
  · induction l with
    | nil => cases h
    | cons x l ih =>
        by_cases hx : x = sep
        · rw [hx, List.takeWhile_cons_of_neg (by simp)]
          rfl
        · have hrest := (List.mem_cons.mp h).resolve_left (Ne.symm hx)
          rw [List.takeWhile_cons_of_pos (by simpa using hx), List.cons_append,
            List.length_cons, List.drop_succ_cons, ← ih hrest]

/-- By induction on the number of separators. -/
@[elab_as_elim]
theorem induction_lines (sep : α) {P : List α → Prop}
    (last : ∀ line, sep ∉ line → P line)
    (cons : ∀ line rest, sep ∉ line → P rest → P (line ++ sep :: rest)) (l : List α) : P l := by
  induction hn : l.length using Nat.strongRecOn generalizing l with
  | ind n ih =>
      by_cases hsep : sep ∈ l
      · obtain ⟨hline, hl⟩ := eq_append_of_mem hsep
        have hlen := congrArg List.length hl
        rw [List.length_append, List.length_cons] at hlen
        rw [hl]
        exact cons _ _ hline (ih _ (by omega) _ rfl)
      · exact last l hsep

/-- The pieces, without an empty one at the end. -/
def parts (sep : α) (l : List α) : List (List α) :=
  (l.splitOn sep).dropLast ++ ((l.splitOn sep).getLast?.filter fun last => last ≠ []).toList

theorem parts_of_splitOn {l last : List α} {pieces : List (List α)}
    (h : l.splitOn sep = pieces ++ [last]) :
    parts sep l = pieces ++ if last = [] then [] else [last] := by
  rw [parts, h, List.dropLast_concat, List.getLast?_concat]
  by_cases hlast : last = []
  · simp [hlast]
  · simp [hlast]

@[simp] theorem parts_nil : parts sep ([] : List α) = [] := by
  have hsplit : ([] : List α).splitOn sep = [] ++ [[]] := List.splitOn_nil sep
  rw [parts_of_splitOn hsplit, if_pos rfl]
  rfl

theorem parts_of_notMem {l : List α} (h : sep ∉ l) (hne : l ≠ []) : parts sep l = [l] := by
  have hsplit : l.splitOn sep = [] ++ [l] := List.splitOn_eq_singleton h
  rw [parts_of_splitOn hsplit, if_neg hne, List.nil_append]

theorem parts_append_cons {piece : List α} (h : sep ∉ piece) (rest : List α) :
    parts sep (piece ++ sep :: rest) = piece :: parts sep rest := by
  obtain ⟨pieces, last, hsplit⟩ : ∃ pieces last, rest.splitOn sep = pieces ++ [last] :=
    ⟨_, _, (List.dropLast_append_getLast (List.splitOn_ne_nil sep rest)).symm⟩
  have hall : (piece ++ sep :: rest).splitOn sep = piece :: pieces ++ [last] := by
    rw [List.splitOn_append_cons_self_of_not_mem h, hsplit, List.cons_append]
  rw [parts_of_splitOn hall, parts_of_splitOn hsplit, List.cons_append]

end Stuff.Splitting
