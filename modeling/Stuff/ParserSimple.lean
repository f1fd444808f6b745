import Stuff.MachineWords
import Stuff.Splitting

/-!
# The simple parser

`Parser::simple` calls its argument for every part of a text between separators. The parts
are views of the text: a caller may look at where they begin.
-/
namespace Stuff.ParserSimple
open MachineWords Splitting

/-- A `std::string_view` of a buffer, with the place where it begins. -/
structure View where
  pos : ℕ
  text : Bytes
deriving DecidableEq, Repr

def View.removePrefix (str : View) (n : ℕ) : View :=
  { pos := str.pos + n, text := str.text.drop n }

/-- What `simple` calls its argument with. -/
def simple (str : View) (sep : UInt8) : List View :=
  if _hempty : str.text = [] then []
  else
    let pos := (str.text.takeWhile (· != sep)).length
    { str with text := str.text.take pos } ::
      simple (str.removePrefix (min (pos + 1) str.text.length)) sep
termination_by str.text.length
decreasing_by
  have hpos := List.length_pos_of_ne_nil _hempty
  rw [View.removePrefix, List.length_drop]
  omega

variable {sep : UInt8}

theorem simple_nil (pos : ℕ) : simple { pos, text := [] } sep = [] := by
  rw [simple, dif_pos rfl]

theorem simple_last (pos : ℕ) {line : Bytes} (hline : sep ∉ line) (hne : line ≠ []) :
    simple { pos, text := line } sep = [{ pos, text := line }] := by
  have hwhole : line.takeWhile (· != sep) = line := by
    rw [List.takeWhile_eq_self_iff]
    intro x hx
    rw [bne_iff_ne]
    rintro rfl
    exact hline hx
  rw [simple, dif_neg hne]
  simp only [hwhole, View.removePrefix, List.take_length]
  rw [show min (line.length + 1) line.length = line.length by omega, List.drop_length, simple_nil]

theorem simple_append_cons (pos : ℕ) {line : Bytes} (hline : sep ∉ line) (rest : Bytes) :
    simple { pos, text := line ++ sep :: rest } sep =
      { pos, text := line } :: simple { pos := pos + (line.length + 1), text := rest } sep := by
  have htake : (line ++ sep :: rest).takeWhile (· != sep) = line := by
    rw [List.takeWhile_append_of_pos]
    · rw [List.takeWhile_cons_of_neg (by simp), List.append_nil]
    · intro x hx
      rw [bne_iff_ne]
      rintro rfl
      exact hline hx
  have hmin : min (line.length + 1) (line ++ sep :: rest).length = line.length + 1 := by
    rw [List.length_append, List.length_cons]
    omega
  have hdrop : (line ++ sep :: rest).drop (line.length + 1) = rest := by
    rw [← List.drop_drop, List.drop_left]
    rfl
  rw [simple, dif_neg (by simp)]
  simp only [htake, hmin, View.removePrefix, List.take_left, hdrop]

/-- The texts of the views are the parts. -/
theorem texts_simple (text : Bytes) (pos : ℕ) :
    (simple { pos, text } sep).map View.text = parts sep text := by
  induction text using induction_lines sep generalizing pos with
  | last line hline =>
      by_cases hnil : line = []
      · rw [hnil, simple_nil, parts_nil]
        rfl
      · rw [simple_last pos hline hnil, parts_of_notMem hline hnil]
        rfl
  | cons line rest hline ih =>
      rw [simple_append_cons pos hline, parts_append_cons hline, List.map_cons, ih]

end Stuff.ParserSimple
