import Mathlib.Data.List.Nodup

/-!
# The most recent distinct elements of a history

For a history with the newest element first, `eraseDups` lists the distinct
elements in the order of their last use. A new element comes to the front of
that list; the lemmas here say what happens to its first `n` elements then.
-/
namespace Stuff.Recency

variable {α : Type} [DecidableEq α]

theorem filter_bne (a : α) (l : List α) : (l.filter fun c => !c == a) = l.filter (· ≠ a) := by
  apply List.filter_congr
  intro c _
  rw [Bool.eq_iff_iff]
  simp

theorem eraseDups_filter (a : α) (l : List α) :
    (l.filter (· ≠ a)).eraseDups = l.eraseDups.filter (· ≠ a) := by
  induction hn : l.length using Nat.strongRecOn generalizing l with
  | _ n ih =>
      cases l with
      | nil => rfl
      | cons b l =>
          have hlen : (l.filter fun c => !c == b).length < n := by
            rw [← hn, List.length_cons]
            exact Nat.lt_succ_of_le (List.length_filter_le _ _)
          rw [List.eraseDups_cons]
          rcases eq_or_ne b a with rfl | hne
          · rw [List.filter_cons_of_neg (by simp), List.filter_cons_of_neg (by simp)]
            rw [filter_bne, eq_comm, List.filter_eq_self]
            intro c hc
            rw [List.mem_eraseDups, List.mem_filter] at hc
            exact hc.2
          · rw [List.filter_cons_of_pos (by simpa using hne),
              List.filter_cons_of_pos (by simpa using hne), List.eraseDups_cons, ← ih _ hlen _ rfl,
              List.filter_filter, List.filter_filter]
            congr 2
            apply List.filter_congr
            intro c _
            exact Bool.and_comm _ _

theorem eraseDups_cons_filter (a : α) (l : List α) :
    (a :: l).eraseDups = a :: l.eraseDups.filter (· ≠ a) := by
  rw [List.eraseDups_cons, filter_bne, eraseDups_filter]

theorem nodup_eraseDups (l : List α) : l.eraseDups.Nodup := by
  induction l with
  | nil => exact List.nodup_nil
  | cons a l ih =>
      rw [eraseDups_cons_filter, List.nodup_cons]
      exact ⟨by simp, ih.sublist List.filter_sublist⟩

/-- A new element comes to the front. -/
theorem eraseDups_cons_erase (a : α) (l : List α) :
    (a :: l).eraseDups = a :: l.eraseDups.erase a := by
  rw [eraseDups_cons_filter, (nodup_eraseDups l).erase_eq_filter]
  exact congrArg (a :: ·) (filter_bne a _).symm

theorem erase_last {a : α} {l : List α} (h : (l ++ [a]).Nodup) : (l ++ [a]).erase a = l := by
  have hnot : a ∉ l := fun hmem =>
    (List.nodup_append.mp h).2.2 a hmem a List.mem_cons_self rfl
  rw [List.erase_append_right _ hnot, List.erase_cons_head, List.append_nil]

omit [DecidableEq α] in
/-- A list that is too long has a last element. -/
theorem exists_last {l : List α} {n : ℕ} (h : ¬ l.length ≤ n) : ∃ a, l.getLast? = some a := by
  have hne : l ≠ [] := by
    rintro rfl
    exact h (Nat.zero_le n)
  exact ⟨l.getLast hne, List.getLast?_eq_some_getLast hne⟩

/-! ## The first elements -/

theorem take_erase_of_mem {a : α} {l : List α} {n : ℕ} (h : a ∈ l.take (n + 1)) :
    (l.erase a).take n = (l.take (n + 1)).erase a := by
  induction l generalizing n with
  | nil => simp at h
  | cons b l ih =>
      rw [List.take_succ_cons] at h ⊢
      rcases eq_or_ne b a with rfl | hne
      · rw [List.erase_cons_head, List.erase_cons_head]
      · rw [List.erase_cons_tail (by simpa using hne), List.erase_cons_tail (by simpa using hne)]
        rcases List.mem_cons.mp h with heq | hmem
        · exact absurd heq.symm hne
        · cases n with
          | zero => simp at hmem
          | succ n => rw [List.take_succ_cons, ih hmem]

theorem take_erase_of_not_mem {a : α} {l : List α} {n : ℕ} (h : a ∉ l.take (n + 1)) :
    (l.erase a).take n = l.take n := by
  induction l generalizing n with
  | nil => rfl
  | cons b l ih =>
      rw [List.take_succ_cons, List.mem_cons, not_or] at h
      rw [List.erase_cons_tail (by simpa using Ne.symm h.1)]
      cases n with
      | zero => rfl
      | succ n => rw [List.take_succ_cons, List.take_succ_cons, ih h.2]

/-- An element among the first `n` comes to the front of them. -/
theorem take_hit {a : α} {l : List α} {n : ℕ} (h : a ∈ l.take n) :
    (a :: l.erase a).take n = a :: (l.take n).erase a := by
  cases n with
  | zero => simp at h
  | succ n => rw [List.take_succ_cons, take_erase_of_mem h]

/-- Any other element pushes the last of them out. -/
theorem take_miss {a : α} {l : List α} {n : ℕ} (h : a ∉ l.take n) :
    (a :: l.erase a).take n = (a :: l.take n).take n := by
  cases n with
  | zero => rfl
  | succ n =>
      rw [List.take_succ_cons, List.take_succ_cons, take_erase_of_not_mem h, List.take_take,
        Nat.min_eq_left (Nat.le_succ n)]

end Stuff.Recency
