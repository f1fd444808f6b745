import Stuff.MachineWords

/-!
# A line of CSV

`CSV::line` goes over a line once, one character at a time. A separator or a quote takes
effect with the character behind it: `previous` holds what was seen, and is zero when
there is nothing to decide.
-/
namespace Stuff.ParserCsv
open MachineWords

structure Dialect where
  sep : UInt8 := 0x2c
  quote : UInt8 := 0x22
  esc : UInt8 := 0x5c

structure Loop where
  current : Bytes := []
  firstCharacter : Bool := true
  quotedString : Bool := false
  previous : UInt8 := 0
  c : UInt8 := 0
  calls : List Bytes := []
deriving DecidableEq, Repr

variable (d : Dialect)

def Loop.push (s : Loop) (c : UInt8) : Loop := { s with current := s.current ++ [c] }

/-- A token ends when the character behind its separator is seen. -/
def Loop.startToken (s : Loop) : Loop :=
  if s.previous = d.sep then
    { s with
      calls := s.calls ++ [s.current]
      current := []
      firstCharacter := true
      quotedString := false
      previous := 0 }
  else s

def Loop.quoted (s : Loop) (c : UInt8) : Except Loop Loop :=
  if s.previous = d.quote then
    if c = d.sep then .ok { s with previous := d.sep }
    else if c = d.quote then .ok { s.push d.quote with previous := 0 }
    else .error { s with previous := 0 }
  else if c = d.esc then .ok { s with previous := d.esc }
  else if c = d.quote then .ok { s with previous := d.quote }
  else .ok (s.push c)

def Loop.plain (s : Loop) (c : UInt8) : Loop :=
  if c = d.esc then { s with previous := d.esc }
  else if c = d.sep then { s with previous := d.sep }
  else s.push c

/-- One turn of the loop. An error is `return false`. -/
def Loop.step (s : Loop) (c : UInt8) : Except Loop Loop :=
  let t := { s with c := c }.startToken d
  let u := { t with firstCharacter := false }
  if t.firstCharacter ∧ c = d.quote then .ok { u with quotedString := true }
  else if u.previous = d.esc then .ok { u.push c with previous := 0 }
  else if u.quotedString then u.quoted d c
  else .ok (u.plain d c)

/-- What is returned, and the tokens that the handler was called with. -/
def line (str : Bytes) : Bool × List Bytes :=
  match str.foldlM (Loop.step d) {} with
  | .error s => (false, s.calls)
  | .ok s =>
      if s.previous = d.esc then (false, s.calls)
      else if s.quotedString ∧ s.previous ≠ d.sep ∧ s.previous ≠ d.quote then (false, s.calls)
      else if s.c = d.sep then (true, s.calls ++ [s.current, []])
      else (true, s.calls ++ [s.current])

/-! ## Quoted fields -/

def double (c : UInt8) : Bytes := if c = d.quote ∨ c = d.esc then [c, c] else [c]

/-- A field in quotes. -/
def enclose (field : Bytes) : Bytes := d.quote :: (field.flatMap (double d) ++ [d.quote])

def join (fields : List Bytes) : Bytes := [d.sep].intercalate (fields.map (enclose d))

/-- Three different characters, none of them NUL. -/
structure Dialect.Distinct : Prop where
  sepQuote : d.sep ≠ d.quote
  sepEsc : d.sep ≠ d.esc
  quoteEsc : d.quote ≠ d.esc
  sepZero : d.sep ≠ 0
  quoteZero : d.quote ≠ 0
  escZero : d.esc ≠ 0

variable {d}

/-- In a quoted token, with nothing to decide. -/
def opened (calls : List Bytes) (current : Bytes) (c : UInt8) : Loop :=
  { current := current, firstCharacter := false, quotedString := true, c := c, calls := calls }

/-- After a quote in a quoted token. -/
def closed (d : Dialect) (calls : List Bytes) (current : Bytes) : Loop :=
  { opened calls current d.quote with previous := d.quote }

/-- After the separator behind a quoted token. -/
def separated (d : Dialect) (calls : List Bytes) (current : Bytes) : Loop :=
  { opened calls current d.sep with previous := d.sep }

theorem foldlM_step {s t : Loop} {c : UInt8} (h : Loop.step d s c = .ok t) (str : Bytes) :
    (c :: str).foldlM (Loop.step d) s = str.foldlM (Loop.step d) t := by
  rw [List.foldlM_cons, h]
  rfl

theorem foldlM_append {s t : Loop} {str : Bytes} (h : str.foldlM (Loop.step d) s = .ok t)
    (rest : Bytes) : (str ++ rest).foldlM (Loop.step d) s = rest.foldlM (Loop.step d) t := by
  rw [List.foldlM_append, h]
  rfl

theorem step_separated (calls : List Bytes) (current : Bytes) :
    Loop.step d (separated d calls current) d.quote =
      .ok (opened (calls ++ [current]) [] d.quote) := by
  simp [Loop.step, Loop.startToken, separated, opened]

namespace Dialect.Distinct
variable (h : d.Distinct) (calls : List Bytes) (current : Bytes) (c₀ : UInt8)
include h

theorem step_start : Loop.step d {} d.quote = .ok (opened [] [] d.quote) := by
  simp [Loop.step, Loop.startToken, opened, h.sepZero.symm]

theorem step_char {c : UInt8} (hquote : c ≠ d.quote) (hesc : c ≠ d.esc) :
    Loop.step d (opened calls current c₀) c = .ok (opened calls (current ++ [c]) c) := by
  simp [Loop.step, Loop.startToken, Loop.quoted, Loop.push, opened, h.sepZero.symm,
    h.escZero.symm, h.quoteZero.symm, hquote, hesc]

theorem step_esc :
    Loop.step d (opened calls current c₀) d.esc =
      .ok { opened calls current d.esc with previous := d.esc } := by
  simp [Loop.step, Loop.startToken, Loop.quoted, opened, h.sepZero.symm, h.escZero.symm,
    h.quoteZero.symm]

theorem step_esc_esc :
    Loop.step d { opened calls current d.esc with previous := d.esc } d.esc =
      .ok (opened calls (current ++ [d.esc]) d.esc) := by
  simp [Loop.step, Loop.startToken, Loop.push, opened, h.sepEsc.symm]

theorem step_quote :
    Loop.step d (opened calls current c₀) d.quote = .ok (closed d calls current) := by
  simp [Loop.step, Loop.startToken, Loop.quoted, opened, closed, h.sepZero.symm, h.escZero.symm,
    h.quoteZero.symm, h.quoteEsc]

theorem step_quote_quote :
    Loop.step d (closed d calls current) d.quote =
      .ok (opened calls (current ++ [d.quote]) d.quote) := by
  simp [Loop.step, Loop.startToken, Loop.quoted, Loop.push, opened, closed, h.sepQuote.symm,
    h.quoteEsc]

theorem step_sep :
    Loop.step d (closed d calls current) d.sep = .ok (separated d calls current) := by
  simp [Loop.step, Loop.startToken, Loop.quoted, opened, closed, separated, h.sepQuote.symm,
    h.quoteEsc]

theorem foldlM_double (c : UInt8) :
    (double d c).foldlM (Loop.step d) (opened calls current c₀) =
      .ok (opened calls (current ++ [c]) c) := by
  unfold double
  split_ifs with hspecial
  · obtain rfl | rfl := hspecial
    · rw [foldlM_step (h.step_quote calls current c₀),
        foldlM_step (h.step_quote_quote calls current)]
      rfl
    · rw [foldlM_step (h.step_esc calls current c₀), foldlM_step (h.step_esc_esc calls current)]
      rfl
  · rw [not_or] at hspecial
    rw [foldlM_step (h.step_char calls current c₀ hspecial.1 hspecial.2)]
    rfl

/-- The characters of a field are collected one after the other. -/
theorem foldlM_field (field : Bytes) :
    ∃ c, (field.flatMap (double d)).foldlM (Loop.step d) (opened calls current c₀) =
      .ok (opened calls (current ++ field) c) := by
  induction field generalizing current c₀ with
  | nil =>
      rw [List.append_nil]
      exact ⟨c₀, rfl⟩
  | cons c field ih =>
      obtain ⟨c', hrest⟩ := ih (current ++ [c]) c
      rw [List.append_assoc, List.singleton_append] at hrest
      refine ⟨c', ?_⟩
      rw [List.flatMap_cons, foldlM_append (h.foldlM_double calls current c₀ c), hrest]

theorem foldlM_enclose {s : Loop} (hs : Loop.step d s d.quote = .ok (opened calls [] d.quote))
    (field : Bytes) :
    (enclose d field).foldlM (Loop.step d) s = .ok (closed d calls field) := by
  obtain ⟨c, hfield⟩ := h.foldlM_field calls [] d.quote field
  rw [enclose, foldlM_step hs, foldlM_append hfield, List.nil_append,
    foldlM_step (h.step_quote calls field c)]
  rfl

/-- Every separator hands over the token before it, so the last one is still in hand. -/
theorem foldlM_join {s : Loop} (hs : Loop.step d s d.quote = .ok (opened calls [] d.quote))
    (field : Bytes) (fields : List Bytes) :
    ∃ calls' last, (join d (field :: fields)).foldlM (Loop.step d) s =
        .ok (closed d calls' last) ∧ calls' ++ [last] = calls ++ field :: fields := by
  induction fields generalizing s calls field with
  | nil =>
      refine ⟨calls, field, ?_, rfl⟩
      rw [join, List.map_singleton, List.intercalate_singleton]
      exact h.foldlM_enclose calls hs field
  | cons next fields ih =>
      obtain ⟨calls', last, hrest, heq⟩ := ih (calls ++ [field]) (step_separated calls field) next
      refine ⟨calls', last, ?_, ?_⟩
      · rw [join, List.map_cons, List.map_cons, List.intercalate_cons_cons, List.append_assoc,
          foldlM_append (h.foldlM_enclose calls hs field), List.singleton_append,
          foldlM_step (h.step_sep calls field)]
        exact hrest
      · rw [heq, List.append_assoc, List.singleton_append]

end Dialect.Distinct

/-- Fields in quotes, with each quote and each escape character doubled, are parsed as
these fields. -/
theorem line_join (d : Dialect) (h : d.Distinct) (fields : List Bytes) (hne : fields ≠ []) :
    line d (join d fields) = (true, fields) := by
  obtain ⟨field, fields, rfl⟩ := List.exists_cons_of_ne_nil hne
  obtain ⟨calls, last, hloop, hcalls⟩ := h.foldlM_join [] h.step_start field fields
  rw [line, hloop]
  simp [closed, opened, h.quoteEsc, h.sepQuote.symm, hcalls]

/-- With every special character at the border of a field, and an empty field. -/
theorem line_join_special :
    line {} (join {} [[0x2c, 0x22, 0x5c], [], [0x5c, 0x61, 0x22]]) =
      (true, [[0x2c, 0x22, 0x5c], [], [0x5c, 0x61, 0x22]]) :=
  line_join {} (by constructor <;> decide) _ (by decide)

/-! ## Escaped fields -/

/-- A character of a field outside of quotes. -/
def escape (d : Dialect) (c : UInt8) : Bytes :=
  if c = d.sep ∨ c = d.quote ∨ c = d.esc then [d.esc, c] else [c]

def joinEscaped (d : Dialect) (fields : List Bytes) : Bytes :=
  [d.sep].intercalate (fields.map fun field => field.flatMap (escape d))

/-- In a token without quotes, with nothing to decide. -/
def bare (calls : List Bytes) (current : Bytes) (c : UInt8) : Loop :=
  { current := current, firstCharacter := false, c := c, calls := calls }

/-- After the separator behind a token without quotes. -/
def pastSep (d : Dialect) (calls : List Bytes) (current : Bytes) : Loop :=
  { bare calls current d.sep with previous := d.sep }

/-- The next character finds these tokens handed over and this one in hand, outside of
quotes and with nothing to decide. -/
def Collects (d : Dialect) (s : Loop) (calls : List Bytes) (current : Bytes) : Prop :=
  ∃ first, ∀ c, ({ s with c := c } : Loop).startToken d =
    { bare calls current c with firstCharacter := first }

theorem collects_pastSep (calls : List Bytes) (current : Bytes) :
    Collects d (pastSep d calls current) (calls ++ [current]) [] := by
  refine ⟨true, fun c => ?_⟩
  simp [Loop.startToken, pastSep, bare]

namespace Dialect.Distinct
variable {s : Loop} {calls : List Bytes} {current : Bytes} (h : d.Distinct)
include h

theorem collects_start : Collects d {} [] [] := by
  refine ⟨true, fun c => ?_⟩
  simp [Loop.startToken, bare, h.sepZero.symm]

theorem collects_bare (calls : List Bytes) (current : Bytes) (c₀ : UInt8) :
    Collects d (bare calls current c₀) calls current := by
  refine ⟨false, fun c => ?_⟩
  simp [Loop.startToken, bare, h.sepZero.symm]

theorem step_sep_collects (hs : Collects d s calls current) :
    Loop.step d s d.sep = .ok (pastSep d calls current) := by
  obtain ⟨first, hs⟩ := hs
  simp [Loop.step, hs, Loop.plain, pastSep, bare, h.sepQuote, h.sepEsc, h.escZero.symm]

/-- A character that is written as it is, or behind the escape character. -/
theorem foldlM_escape (hs : Collects d s calls current) (c : UInt8) :
    (escape d c).foldlM (Loop.step d) s = .ok (bare calls (current ++ [c]) c) := by
  obtain ⟨first, hs⟩ := hs
  unfold escape
  split_ifs with hspecial
  · have hesc : Loop.step d s d.esc =
        .ok { bare calls current d.esc with previous := d.esc } := by
      simp [Loop.step, hs, Loop.plain, bare, h.quoteEsc.symm, h.escZero.symm]
    have hchar : Loop.step d { bare calls current d.esc with previous := d.esc } c =
        .ok (bare calls (current ++ [c]) c) := by
      simp [Loop.step, Loop.startToken, Loop.push, bare, h.sepEsc.symm]
    rw [foldlM_step hesc, foldlM_step hchar]
    rfl
  · rw [not_or, not_or] at hspecial
    obtain ⟨hsep, hquote, hesc⟩ := hspecial
    have hchar : Loop.step d s c = .ok (bare calls (current ++ [c]) c) := by
      simp [Loop.step, hs, Loop.plain, Loop.push, bare, hsep, hquote, hesc, h.escZero.symm]
    rw [foldlM_step hchar]
    rfl

/-- After a field that is not empty its last character is the one that was seen last. -/
theorem foldlM_escaped (hs : Collects d s calls current) (field : Bytes) (c : UInt8) :
    ((field ++ [c]).flatMap (escape d)).foldlM (Loop.step d) s =
      .ok (bare calls (current ++ (field ++ [c])) c) := by
  induction field generalizing s current with
  | nil =>
      rw [List.nil_append, List.flatMap_cons, List.flatMap_nil, List.append_nil]
      exact h.foldlM_escape hs c
  | cons x field ih =>
      have hrest := ih (h.collects_bare calls (current ++ [x]) x)
      rw [List.append_assoc, List.singleton_append] at hrest
      rw [List.cons_append, List.flatMap_cons, foldlM_append (h.foldlM_escape hs x), hrest]

end Dialect.Distinct

/-- What the handler is called with if the line ends here. -/
def handed (d : Dialect) (s : Loop) : List Bytes :=
  s.calls ++ s.current :: if s.c = d.sep then [[]] else []

/-- Outside of quotes, and not behind an escape character. -/
structure Rests (d : Dialect) (s : Loop) (tokens : List Bytes) : Prop where
  previous : s.previous ≠ d.esc
  quotedString : s.quotedString = false
  handed : handed d s = tokens

theorem line_of_rests {str : Bytes} {s : Loop} {tokens : List Bytes}
    (hloop : str.foldlM (Loop.step d) {} = .ok s) (hs : Rests d s tokens) :
    line d str = (true, tokens) := by
  rw [line, hloop, ← hs.handed, handed]
  simp only [hs.previous, hs.quotedString, if_false, Bool.false_eq_true, false_and]
  split_ifs <;> rfl

/-- The token that follows a separator at the end of the last field, although it is escaped. -/
def surplus (d : Dialect) (fields : List Bytes) : List Bytes :=
  if fields.getLast?.bind List.getLast? = some d.sep then [[]] else []

namespace Dialect.Distinct
variable {s : Loop} {calls : List Bytes} (h : d.Distinct)
include h

theorem rests_start : Rests d {} [[]] :=
  ⟨h.escZero.symm, rfl, by simp [handed, h.sepZero.symm]⟩

theorem rests_pastSep (calls : List Bytes) (current : Bytes) :
    Rests d (pastSep d calls current) (calls ++ [current] ++ [[]]) :=
  ⟨h.sepEsc, rfl, by simp [handed, pastSep, bare]⟩

/-- An empty field leaves the state as it is. -/
theorem foldlM_last (hs : Collects d s calls []) (hrests : Rests d s (calls ++ [[]]))
    (field : Bytes) :
    ∃ t, (field.flatMap (escape d)).foldlM (Loop.step d) s = .ok t ∧ Collects d t calls field ∧
      Rests d t (calls ++ field :: surplus d [field]) := by
  rcases List.eq_nil_or_concat field with rfl | ⟨front, c, rfl⟩
  · exact ⟨s, rfl, hs, hrests⟩
  · have hfield := h.foldlM_escaped hs front c
    rw [List.nil_append, ← List.concat_eq_append] at hfield
    refine ⟨_, hfield, h.collects_bare calls _ c, h.escZero.symm, rfl, ?_⟩
    simp [handed, bare, surplus]

theorem foldlM_joinEscaped (hs : Collects d s calls []) (hrests : Rests d s (calls ++ [[]]))
    (field : Bytes) (fields : List Bytes) :
    ∃ t, (joinEscaped d (field :: fields)).foldlM (Loop.step d) s = .ok t ∧
      Rests d t (calls ++ field :: fields ++ surplus d (field :: fields)) := by
  induction fields generalizing s calls field with
  | nil =>
      obtain ⟨t, hfield, -, ht⟩ := h.foldlM_last hs hrests field
      rw [joinEscaped, List.map_singleton, List.intercalate_singleton, List.append_assoc]
      exact ⟨t, hfield, ht⟩
  | cons next fields ih =>
      obtain ⟨t, hfield, ht, -⟩ := h.foldlM_last hs hrests field
      obtain ⟨u, hrest, hu⟩ :=
        ih (collects_pastSep calls field) (h.rests_pastSep calls field) next
      refine ⟨u, ?_, ?_⟩
      · rw [joinEscaped, List.map_cons, List.map_cons, List.intercalate_cons_cons,
          List.append_assoc, foldlM_append hfield, List.singleton_append,
          foldlM_step (h.step_sep_collects ht)]
        exact hrest
      · have hsurplus : surplus d (field :: next :: fields) = surplus d (next :: fields) := by
          rw [surplus, surplus, List.getLast?_cons_cons]
        rw [hsurplus]
        rwa [List.append_assoc calls [field], List.singleton_append] at hu

end Dialect.Distinct

theorem line_joinEscaped (h : d.Distinct) {fields : List Bytes} (hne : fields ≠ []) :
    line d (joinEscaped d fields) = (true, fields ++ surplus d fields) := by
  obtain ⟨field, fields, rfl⟩ := List.exists_cons_of_ne_nil hne
  obtain ⟨t, hloop, ht⟩ := h.foldlM_joinEscaped h.collects_start h.rests_start field fields
  exact line_of_rests hloop ht

/-- Fields with the special characters escaped are parsed as these fields if and only if
the last one does not end with a separator. -/
theorem line_escaped_iff (d : Dialect) (h : d.Distinct) (fields : List Bytes)
    (hne : fields ≠ []) :
    line d (joinEscaped d fields) = (true, fields) ↔
      (fields.getLast hne).getLast? ≠ some d.sep := by
  rw [line_joinEscaped h hne, surplus, List.getLast?_eq_some_getLast hne, Option.bind_some]
  split_ifs with hlast
  · simp [hlast]
  · simp [hlast]

theorem line_escaped_middle :
    line {} (joinEscaped {} [[0x2c], [0x5c, 0x22]]) = (true, [[0x2c], [0x5c, 0x22]]) :=
  (line_escaped_iff {} (by constructor <;> decide) _ (by decide)).mpr (by decide)

/-- The line is `\,` and there is only one field. -/
theorem comma_at_the_end :
    ¬ ∀ (d : Dialect) (fields : List Bytes), d.Distinct → fields ≠ [] →
      line d (joinEscaped d fields) = (true, fields) := by
  intro h
  have hline := h {} [[0x2c]] (by constructor <;> decide) (by decide)
  revert hline
  decide

end Stuff.ParserCsv
