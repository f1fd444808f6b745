import Mathlib.Data.Nat.Notation
import Mathlib.Tactic.Common

/-!
# Windows between a sender and a receiver

Credit-based flow control in the abstract. A sender may send as many bytes as
its counter allows. The receiver keeps a counter of its own and grants a full
window of `w` bytes whenever the counter falls below `w`. Bytes and grants take
time to travel; `slack` is credit the sender has given up. The receiver's
counter is always the sum of all that.
-/
namespace Stuff.CreditWindow

/-- What the receiver grants when its counter has come down to `r`. -/
def granted (w r : ℕ) : ℕ := if r < w then w else 0

/-- Credit at the sender, bytes on their way, grants on their way back and
slack add up to the receiver's counter, which lies between one window and
two. -/
structure Account (w sender bytes grants slack receiver : ℕ) : Prop where
  sum : sender + bytes + grants + slack = receiver
  low : w ≤ receiver
  high : receiver < 2 * w

namespace Account
variable {w s b g x r : ℕ}

theorem start (hw : 0 < w) : Account w w 0 0 0 w := ⟨by omega, Nat.le_refl w, by omega⟩

/-- The sender sends `n` bytes. -/
theorem send (h : Account w s b g x r) {n : ℕ} (hn : n ≤ s) : Account w (s - n) (b + n) g x r := by
  obtain ⟨hsum, hlow, hhigh⟩ := h
  exact ⟨by omega, hlow, hhigh⟩

/-- The receiver takes `n` of the bytes and grants what is due. -/
theorem receive {n : ℕ} (h : Account w s (n + b) g x r) :
    Account w s b (g + granted w (r - n)) x (r - n + granted w (r - n)) := by
  obtain ⟨hsum, hlow, hhigh⟩ := h
  unfold granted
  split_ifs <;> exact ⟨by omega, by omega, by omega⟩

/-- A grant of `n` bytes arrives at the sender. -/
theorem credit {n : ℕ} (h : Account w s b (n + g) x r) : Account w (s + n) b g x r := by
  obtain ⟨hsum, hlow, hhigh⟩ := h
  exact ⟨by omega, hlow, hhigh⟩

/-- The sender gives up `n` of its credit. -/
theorem release (h : Account w s b g x r) {n : ℕ} (hn : n ≤ s) :
    Account w (s - n) b g (x + n) r := by
  obtain ⟨hsum, hlow, hhigh⟩ := h
  exact ⟨by omega, hlow, hhigh⟩

/-- With nothing on its way and nothing given up, the sender has a full
window. -/
theorem settled (h : Account w s 0 0 0 r) : w ≤ s := by
  obtain ⟨hsum, hlow, -⟩ := h
  omega

theorem bytes_le (h : Account w s b g x r) : b ≤ r := by
  have := h.sum
  omega

theorem credit_lt (h : Account w s b g x r) : s + g < 2 * w := by
  obtain ⟨hsum, -, hhigh⟩ := h
  omega

end Account
end Stuff.CreditWindow
