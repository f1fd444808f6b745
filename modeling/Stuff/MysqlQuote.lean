import Stuff.MysqlUpload

/-!
# `MySQL::Quote`

A text for a literal of SQL. The server reads such a literal byte by byte to the first quote that
is neither escaped nor doubled.
-/
namespace Stuff.MysqlQuote
open MachineWords
open MysqlUpload renaming quote → apostrophe
open MysqlUpload (backslash unescape literal)

/-- The bytes that get a backslash. -/
def escapes (a : UInt8) : Bool :=
  a = 0x5c || a = 0x27 || a = 0x22 || a = 0 || a = 0x0a || a = 0x0d || a = 0x60

def quote : Bytes → Bytes
  | [] => []
  | a :: aStr => if escapes a then backslash :: a :: quote aStr else a :: quote aStr

/-! ## How the server reads a literal -/

/-- Behind the first quote: the text that is meant, and what follows the last quote. -/
def lexRest : Bytes → Option (Bytes × Bytes)
  | [] => none
  | [c] => if c = apostrophe then some ([], []) else none
  | c :: d :: text =>
      if c = backslash then (lexRest text).map fun r => (unescape d ++ r.1, r.2)
      else if c = apostrophe then
        if d = apostrophe then (lexRest text).map fun r => (apostrophe :: r.1, r.2)
        else some ([], d :: text)
      else (lexRest (d :: text)).map fun r => (c :: r.1, r.2)

def lexLiteral : Bytes → Option (Bytes × Bytes)
  | [] => none
  | c :: text => if c = apostrophe then lexRest text else none

/-- What is meant by a text between quotes is what is read, if no quote follows. -/
theorem lexRest_of_literal {x v t : Bytes} (h : literal x = some v)
    (ht : t.head? ≠ some apostrophe) : lexRest (x ++ apostrophe :: t) = some (v, t) := by
  have hne : apostrophe ≠ backslash := by decide
  have hend : lexRest (apostrophe :: t) = some ([], t) := by
    cases t with
    | nil => rfl
    | cons d t =>
        have hd : d ≠ apostrophe := fun heq => ht (congrArg some heq)
        rw [lexRest, if_neg hne, if_pos rfl, if_neg hd]
  induction x using MysqlUpload.literal.induct generalizing v with
  | case1 =>
      cases h
      exact hend
  | case2 c hc =>
      rw [literal, if_pos hc] at h
      cases h
  | case3 c hc =>
      rw [literal, if_neg hc] at h
      cases h
      obtain ⟨hquote, hslash⟩ := not_or.mp hc
      rw [List.singleton_append, lexRest, if_neg hslash, if_neg hquote, hend]
      rfl
  | case4 d text ih =>
      rw [literal, if_pos rfl] at h
      obtain ⟨w, hw, rfl⟩ := Option.map_eq_some_iff.mp h
      rw [List.cons_append, List.cons_append, lexRest, if_pos rfl, ih hw]
      rfl
  | case5 text _ ih =>
      rw [literal, if_neg hne, if_pos rfl, if_pos rfl] at h
      obtain ⟨w, hw, rfl⟩ := Option.map_eq_some_iff.mp h
      rw [List.cons_append, List.cons_append, lexRest, if_neg hne, if_pos rfl, if_pos rfl, ih hw]
      rfl
  | case6 d text hd _ =>
      rw [literal, if_neg hne, if_pos rfl, if_neg hd] at h
      cases h
  | case7 c d text hslash hquote ih =>
      rw [literal, if_neg hslash, if_neg hquote] at h
      obtain ⟨w, hw, rfl⟩ := Option.map_eq_some_iff.mp h
      rw [List.cons_append, List.cons_append, lexRest, if_neg hslash, if_neg hquote]
      exact congrArg (Option.map fun r : Bytes × Bytes => (c :: r.1, r.2)) (ih hw)

/-! ## Quoted texts -/

/-- None of the bytes behind a backslash has a meaning of its own there. -/
theorem unescape_of_escapes {a : UInt8} (h : escapes a = true) : unescape a = [a] := by
  simp only [escapes, Bool.or_eq_true, decide_eq_true_eq] at h
  rcases h with (((((rfl | rfl) | rfl) | rfl) | rfl) | rfl) | rfl <;> rfl

theorem plain_of_not_escapes {a : UInt8} (h : ¬ escapes a = true) :
    a ≠ backslash ∧ a ≠ apostrophe := by
  constructor
  · rintro rfl
    exact h rfl
  · rintro rfl
    exact h rfl

theorem literal_cons {c : UInt8} (hslash : c ≠ backslash) (hquote : c ≠ apostrophe)
    (text : Bytes) : literal (c :: text) = (literal text).map (c :: ·) := by
  cases text with
  | nil => simp [literal, hslash, hquote]
  | cons d text => rw [literal, if_neg hslash, if_neg hquote]

/-- A quoted text means the text. -/
theorem literal_quote (aStr : Bytes) : literal (quote aStr) = some aStr := by
  induction aStr with
  | nil => rfl
  | cons a aStr ih =>
      rw [quote]
      split_ifs with ha
      · rw [literal, if_pos rfl, ih, unescape_of_escapes ha]
        rfl
      · obtain ⟨hslash, hquote⟩ := plain_of_not_escapes ha
        rw [literal_cons hslash hquote, ih]
        rfl

/-- Whatever the text is, it is read back from between the quotes, and the literal ends with the
last one. -/
theorem lexLiteral_quote (aStr t : Bytes) (ht : t.head? ≠ some apostrophe) :
    lexLiteral (apostrophe :: quote aStr ++ apostrophe :: t) = some (aStr, t) :=
  lexRest_of_literal (literal_quote aStr) ht

/-- A text that ends with a backslash and a quote, and a comma behind the literal. -/
theorem lexLiteral_quote_backslash :
    lexLiteral (apostrophe :: quote [0x61, 0x5c, 0x27] ++ apostrophe :: [0x2c]) =
      some ([0x61, 0x5c, 0x27], [0x2c]) :=
  lexLiteral_quote [0x61, 0x5c, 0x27] [0x2c] (by decide)

end Stuff.MysqlQuote
