import Stuff.ParserSimple
import Stuff.ParserUrl
import Stuff.TextEscapes

/-!
# Parameters in paths

`Parser::http_path_params` takes the parameters of a pattern out of a target. Both are cut at
the place of the first brace of the pattern and split at slashes. In each part the texts around
the braces are cut off by their lengths: the target is not compared with them.
-/
namespace Stuff.ParserPathParams
open MachineWords ParserSimple Splitting TextEscapes
open ParserUrl (slash)

def openBrace : UInt8 := 0x7b
def closeBrace : UInt8 := 0x7d
def question : UInt8 := 0x3f

/-- `std::string_view::find` of a character. -/
def find (str : Bytes) (c : UInt8) : Option ℕ :=
  if c ∈ str then some (str.takeWhile (· != c)).length else none

inductive Fault
  /-- An exception. -/
  | thrown (what : Bytes)
  /-- A view is shortened by more characters than it has. -/
  | beyond
deriving DecidableEq, Repr

def removePrefix (str : Bytes) (n : ℕ) : Except Fault Bytes :=
  if n ≤ str.length then .ok (str.drop n) else .error .beyond

def removeSuffix (str : Bytes) (n : ℕ) : Except Fault Bytes :=
  if n ≤ str.length then .ok (str.take (str.length - n)) else .error .beyond

/-- A name and a value that the handler is called with. -/
abbrev Call := Bytes × Bytes

/-- The body of the loop, with `none` for a part without a parameter. -/
def pathParam (sName sValue : Bytes) : Except Fault (Option Call) :=
  if sName = [] then .ok none
  else
    match find sName openBrace, find sName closeBrace with
    | some sLeft, some sRight => do
        let sValue ← removePrefix sValue sLeft
        let sValue ← removeSuffix sValue (sName.length - sRight - 1)
        let sName ← removePrefix sName (sLeft + 1)
        let sName ← removeSuffix sName (sName.length + sLeft - sRight + 1)
        let sValue ← (urlDecode sValue).mapError Fault.thrown
        return some (sName, sValue)
    | _, _ => .ok none

/-- The loop: the calls of the handler, and how it ends if not at the last part. -/
def pathParams : List (Bytes × Bytes) → List Call × Option Fault
  | [] => ([], none)
  | (sName, sValue) :: rest =>
      match pathParam sName sValue with
      | .error fault => ([], some fault)
      | .ok none => pathParams rest
      | .ok (some call) => ((call :: (pathParams rest).1), (pathParams rest).2)

def wrongCount (names values : ℕ) : Bytes :=
  ascii ("expect " ++ toString names ++ " parameters, but got " ++ toString values)

/-- A target without its query. -/
def cutQuery (aTarget : Bytes) : Bytes :=
  match find aTarget question with
  | none => aTarget
  | some sPos => aTarget.take sPos

def httpPathParams (aTarget aPattern : Bytes) : List Call × Option Fault :=
  match find aPattern openBrace with
  | none => ([], none)
  | some sPos =>
      match removePrefix aTarget sPos with
      | .error fault => ([], some fault)
      | .ok aTarget =>
          let sNames := (simple { pos := 0, text := aPattern.drop sPos } slash).map View.text
          let sValues := (simple { pos := 0, text := cutQuery aTarget } slash).map View.text
          if sNames.length ≠ sValues.length then
            ([], some (.thrown (wrongCount sNames.length sValues.length)))
          else pathParams (sNames.zip sValues)

/-! ## Places of characters -/

theorem find_of_notMem {str : Bytes} {c : UInt8} (h : c ∉ str) : find str c = none := if_neg h

theorem find_append_cons {front : Bytes} {c : UInt8} (h : c ∉ front) (rest : Bytes) :
    find (front ++ c :: rest) c = some front.length := by
  have htake : (front ++ c :: rest).takeWhile (· != c) = front := by
    rw [List.takeWhile_append_of_pos]
    · rw [List.takeWhile_cons_of_neg (by simp), List.append_nil]
    · intro x hx
      rw [bne_iff_ne]
      rintro rfl
      exact h hx
  rw [find, if_pos (List.mem_append_right _ List.mem_cons_self), htake]

theorem cutQuery_append {path query : Bytes} (hpath : question ∉ path)
    (hquery : query = [] ∨ ∃ rest, query = question :: rest) : cutQuery (path ++ query) = path := by
  rcases hquery with rfl | ⟨rest, rfl⟩
  · rw [List.append_nil, cutQuery, find_of_notMem hpath]
  · rw [cutQuery, find_append_cons hpath]
    exact List.take_left

/-! ## Patterns -/

/-- A text without braces, slashes and question marks. -/
def Plain (text : Bytes) : Prop :=
  openBrace ∉ text ∧ closeBrace ∉ text ∧ slash ∉ text ∧ question ∉ text

instance (text : Bytes) : Decidable (Plain text) := inferInstanceAs (Decidable (_ ∧ _))

/-- A name ends at the brace behind it. -/
def IsName (name : Bytes) : Prop := closeBrace ∉ name ∧ slash ∉ name

instance (name : Bytes) : Decidable (IsName name) := inferInstanceAs (Decidable (_ ∧ _))

/-- What is between two slashes of a pattern. -/
inductive Segment
  | literal (text : Bytes) (plain : Plain text)
  | param (before name behind : Bytes) (plainBefore : Plain before) (isName : IsName name)
      (plainBehind : Plain behind)

namespace Segment

def text : Segment → Bytes
  | literal text _ => text
  | param before name behind _ _ _ => before ++ openBrace :: name ++ closeBrace :: behind

/-- A value in the place of the parameter. -/
def fill (value : Bytes) : Segment → Bytes
  | literal text _ => text
  | param before _ behind _ _ _ => before ++ urlEncode value ++ behind

/-- The call that reports this value. -/
def call (value : Bytes) : Segment → Option Call
  | literal _ _ => none
  | param _ name _ _ _ _ => some (name, value)

/-- The first parameter without the text in front of it, and how much is in front of it. -/
def skip : List Segment → Option (ℕ × List Segment)
  | [] => none
  | literal text _ :: rest => (skip rest).map fun r => (text.length + 1 + r.1, r.2)
  | param before name behind _ isName plainBehind :: rest =>
      some (before.length, param [] name behind (by decide) isName plainBehind :: rest)

theorem slash_notMem_text (segment : Segment) : slash ∉ segment.text := by
  cases segment with
  | literal text plain => exact plain.2.2.1
  | param before name behind plainBefore isName plainBehind =>
      simp only [text, List.mem_append, List.mem_cons, not_or]
      exact ⟨⟨plainBefore.2.2.1, by decide, isName.2⟩, by decide, plainBehind.2.2.1⟩

end Segment

/-- Texts with a slash between them. -/
def join (texts : List Bytes) : Bytes := [slash].intercalate texts

theorem join_cons {texts : List Bytes} (h : texts ≠ []) (text : Bytes) :
    join (text :: texts) = text ++ slash :: join texts := by
  obtain ⟨next, rest, rfl⟩ := List.exists_cons_of_ne_nil h
  rw [join, List.intercalate_cons_cons, List.append_assoc]
  rfl

theorem join_append (front : Bytes) (text : Bytes) (texts : List Bytes) :
    join ((front ++ text) :: texts) = front ++ join (text :: texts) := by
  cases texts with
  | nil => rw [join, join, List.intercalate_singleton, List.intercalate_singleton]
  | cons next rest =>
      rw [join_cons (List.cons_ne_nil _ _), join_cons (List.cons_ne_nil _ _), List.append_assoc]

/-- Texts without an empty one at the end. -/
def dropEmptyLast (texts : List Bytes) : List Bytes :=
  if texts.getLast? = some [] then texts.dropLast else texts

theorem dropEmptyLast_concat (front : List Bytes) (last : Bytes) :
    dropEmptyLast (front ++ [last]) = if last = [] then front else front ++ [last] := by
  rw [dropEmptyLast, List.getLast?_concat, List.dropLast_concat]
  by_cases hlast : last = []
  · rw [if_pos hlast, if_pos (congrArg some hlast)]
  · rw [if_neg hlast, if_neg (mt Option.some.inj hlast)]

theorem parts_join {texts : List Bytes} (hne : texts ≠ []) (h : ∀ text ∈ texts, slash ∉ text) :
    parts slash (join texts) = dropEmptyLast texts := by
  have hsplit : (join texts).splitOn slash = texts := List.splitOn_intercalate slash h hne
  obtain ⟨pieces, last, rfl⟩ : ∃ pieces last, texts = pieces ++ [last] :=
    ⟨_, _, (List.dropLast_append_getLast hne).symm⟩
  rw [parts_of_splitOn hsplit, dropEmptyLast_concat]
  split
  · rw [List.append_nil]
  · rfl

def pattern (segments : List Segment) : Bytes := join (segments.map Segment.text)

theorem pattern_cons {segments : List Segment} (h : segments ≠ []) (segment : Segment) :
    pattern (segment :: segments) = segment.text ++ slash :: pattern segments :=
  join_cons (mt List.map_eq_nil_iff.mp h) _

theorem skip_ne_nil {segments rest : List Segment} {n : ℕ}
    (h : Segment.skip segments = some (n, rest)) : segments ≠ [] := by
  rintro rfl
  cases h

/-- Without a parameter there is no brace. -/
theorem openBrace_notMem_pattern {segments : List Segment} (h : Segment.skip segments = none) :
    openBrace ∉ pattern segments := by
  induction segments with
  | nil => exact List.not_mem_nil
  | cons segment segments ih =>
      cases segment with
      | param => cases h
      | literal text plain =>
          have hrest := ih (Option.map_eq_none_iff.mp h)
          by_cases hnil : segments = []
          · rw [hnil, pattern, join, List.map_singleton, List.intercalate_singleton]
            exact plain.1
          · rw [pattern_cons hnil, List.mem_append, List.mem_cons, not_or, not_or]
            exact ⟨plain.1, by decide, hrest⟩

/-- The pattern from the first brace on. -/
theorem pattern_skip {segments rest : List Segment} {n : ℕ}
    (h : Segment.skip segments = some (n, rest)) :
    ∃ front, pattern segments = front ++ pattern rest ∧ front.length = n ∧ openBrace ∉ front ∧
      ∃ tail, pattern rest = openBrace :: tail := by
  induction segments generalizing n with
  | nil => cases h
  | cons segment segments ih =>
      cases segment with
      | literal text plain =>
          obtain ⟨⟨n', rest'⟩, hrest, heq⟩ := Option.map_eq_some_iff.mp h
          cases heq
          obtain ⟨front, hpattern, hlength, hbrace, htail⟩ := ih hrest
          refine ⟨text ++ slash :: front, ?_, ?_, ?_, htail⟩
          · rw [pattern_cons (skip_ne_nil hrest), hpattern, List.append_assoc]
            rfl
          · rw [List.length_append, List.length_cons, hlength]
            omega
          · rw [List.mem_append, List.mem_cons, not_or, not_or]
            exact ⟨plain.1, by decide, hbrace⟩
      | param before name behind plainBefore isName plainBehind =>
          cases h
          refine ⟨before, ?_, rfl, plainBefore.1, ?_⟩
          · rw [pattern, pattern, List.map_cons, List.map_cons]
            change join ((before ++ openBrace :: name ++ closeBrace :: behind) :: _) = _
            rw [List.append_assoc, join_append]
            rfl
          · by_cases hnil : segments = []
            · rw [hnil]
              exact ⟨_, rfl⟩
            · rw [pattern_cons hnil]
              exact ⟨_, rfl⟩

theorem rest_ne_nil {segments rest : List Segment} {n : ℕ}
    (h : Segment.skip segments = some (n, rest)) : rest ≠ [] := by
  obtain ⟨-, -, -, -, tail, htail⟩ := pattern_skip h
  rintro rfl
  cases htail

theorem find_pattern {segments rest : List Segment} {n : ℕ}
    (h : Segment.skip segments = some (n, rest)) :
    find (pattern segments) openBrace = some n ∧ (pattern segments).drop n = pattern rest := by
  obtain ⟨front, hpattern, rfl, hbrace, tail, htail⟩ := pattern_skip h
  constructor
  · rw [hpattern, htail, find_append_cons hbrace]
  · rw [hpattern, List.drop_left]

/-! ## One part -/

theorem removePrefix_of_le {str : Bytes} {n : ℕ} (h : n ≤ str.length) :
    removePrefix str n = .ok (str.drop n) := if_pos h

theorem removeSuffix_of_le {str : Bytes} {n : ℕ} (h : n ≤ str.length) :
    removeSuffix str n = .ok (str.take (str.length - n)) := if_pos h

theorem removePrefix_append (front rest : Bytes) :
    removePrefix (front ++ rest) front.length = .ok rest := by
  rw [removePrefix_of_le (by rw [List.length_append]; omega), List.drop_left]

theorem removeSuffix_append (rest last : Bytes) :
    removeSuffix (rest ++ last) last.length = .ok rest := by
  rw [removeSuffix_of_le (by rw [List.length_append]; omega), List.length_append,
    Nat.add_sub_cancel, List.take_left]

theorem pathParam_literal {text : Bytes} (plain : Plain text) (sValue : Bytes) :
    pathParam text sValue = .ok none := by
  rw [pathParam]
  split
  · rfl
  · rw [find_of_notMem plain.1]

/-- What the handler is given for a parameter. -/
def report (before name behind sValue : Bytes) : Except Fault (Option Call) := do
  let sValue ← removePrefix sValue before.length
  let sValue ← removeSuffix sValue behind.length
  let sValue ← (urlDecode sValue).mapError Fault.thrown
  return some (name, sValue)

/-- The name is what is between the braces. -/
theorem pathParam_param {before name behind : Bytes} (plainBefore : Plain before)
    (isName : IsName name) (sValue : Bytes) :
    pathParam (before ++ openBrace :: name ++ closeBrace :: behind) sValue =
      report before name behind sValue := by
  have hleft : find (before ++ openBrace :: name ++ closeBrace :: behind) openBrace =
      some before.length := by
    rw [List.append_assoc]
    exact find_append_cons plainBefore.1 _
  have hright : find (before ++ openBrace :: name ++ closeBrace :: behind) closeBrace =
      some (before ++ openBrace :: name).length := by
    refine find_append_cons ?_ _
    rw [List.mem_append, List.mem_cons, not_or, not_or]
    exact ⟨plainBefore.2.1, by decide, isName.1⟩
  have hlength : (before ++ openBrace :: name ++ closeBrace :: behind).length =
      before.length + name.length + behind.length + 2 := by
    simp only [List.length_append, List.length_cons]
    omega
  have hname : removePrefix (before ++ openBrace :: name ++ closeBrace :: behind)
      (before.length + 1) = .ok (name ++ closeBrace :: behind) := by
    have happend := removePrefix_append (before ++ [openBrace]) (name ++ closeBrace :: behind)
    rw [List.length_append, List.length_singleton] at happend
    simpa only [List.append_assoc, List.cons_append, List.nil_append] using happend
  have hbehind : removeSuffix (name ++ closeBrace :: behind) (behind.length + 1) = .ok name :=
    removeSuffix_append name (closeBrace :: behind)
  have hright' : (before ++ openBrace :: name).length = before.length + name.length + 1 := by
    rw [List.length_append, List.length_cons]
    omega
  have hcut : (before ++ openBrace :: name ++ closeBrace :: behind).length -
      (before ++ openBrace :: name).length - 1 = behind.length := by
    omega
  have hcutName : (name ++ closeBrace :: behind).length + before.length -
      (before ++ openBrace :: name).length + 1 = behind.length + 1 := by
    rw [List.length_append, List.length_cons]
    omega
  rw [pathParam, if_neg (by simp), hleft, hright, report]
  dsimp only
  rw [hcut, hname]
  cases removePrefix sValue before.length with
  | error fault => rfl
  | ok sValue =>
      change (removeSuffix sValue behind.length >>= fun sValue => removeSuffix _ _ >>= _) =
        (removeSuffix sValue behind.length >>= _)
      rw [hcutName, hbehind]
      rfl

/-- The part without the texts around its value. -/
def inside (before behind sValue : Bytes) : Bytes :=
  (sValue.drop before.length).take (sValue.length - before.length - behind.length)

theorem report_of_le {before behind sValue : Bytes}
    (h : before.length + behind.length ≤ sValue.length) (name : Bytes) :
    report before name behind sValue =
      match urlDecode (inside before behind sValue) with
      | .ok value => .ok (some (name, value))
      | .error what => .error (.thrown what) := by
  have hprefix : removePrefix sValue before.length = .ok (sValue.drop before.length) :=
    removePrefix_of_le (by omega)
  have hsuffix : removeSuffix (sValue.drop before.length) behind.length =
      .ok (inside before behind sValue) := by
    rw [removeSuffix_of_le (by rw [List.length_drop]; omega), List.length_drop]
    rfl
  rw [report, hprefix]
  change (removeSuffix (sValue.drop before.length) behind.length >>= _) = _
  rw [hsuffix]
  change ((urlDecode (inside before behind sValue)).mapError Fault.thrown >>= _) = _
  cases urlDecode (inside before behind sValue) <;> rfl

theorem report_of_lt {before behind sValue : Bytes}
    (h : sValue.length < before.length + behind.length) (name : Bytes) :
    report before name behind sValue = .error .beyond := by
  by_cases hbefore : before.length ≤ sValue.length
  · have hbehind : ¬ behind.length ≤ (sValue.drop before.length).length := by
      rw [List.length_drop]
      omega
    rw [report, removePrefix_of_le hbefore]
    change (removeSuffix (sValue.drop before.length) behind.length >>= _) = _
    rw [removeSuffix, if_neg hbehind]
    rfl
  · rw [report, removePrefix, if_neg hbefore]
    rfl

theorem report_fill (before name behind value : Bytes) :
    report before name behind (before ++ urlEncode value ++ behind) =
      .ok (some (name, value)) := by
  have hinside : inside before behind (before ++ urlEncode value ++ behind) = urlEncode value := by
    rw [inside, List.append_assoc, List.drop_left, List.length_append, Nat.add_sub_cancel_left,
      List.length_append, Nat.add_sub_cancel, List.take_left]
  rw [report_of_le (by simp only [List.length_append]; omega), hinside, urlDecode_urlEncode]

/-! ## Targets of any kind -/

/-- No part is shorter than the texts around its parameter, up to the first value that is not
decoded. -/
def Fits : List Segment → List Bytes → Prop
  | .param before _ behind _ _ _ :: segments, sValue :: sValues =>
      before.length + behind.length ≤ sValue.length ∧
        ((∃ value, urlDecode (inside before behind sValue) = .ok value) → Fits segments sValues)
  | .literal _ _ :: segments, _ :: sValues => Fits segments sValues
  | [], _ => True
  | _ :: _, [] => True

theorem pathParams_ne_beyond_iff (segments : List Segment) (sValues : List Bytes) :
    (pathParams ((segments.map Segment.text).zip sValues)).2 ≠ some .beyond ↔
      Fits segments sValues := by
  induction segments generalizing sValues with
  | nil => simp [pathParams, Fits]
  | cons segment segments ih =>
      cases sValues with
      | nil => simp [pathParams, Fits]
      | cons sValue sValues =>
          rw [List.map_cons, List.zip_cons_cons, pathParams]
          cases segment with
          | literal text plain =>
              rw [Segment.text, pathParam_literal plain, Fits]
              exact ih sValues
          | param before name behind plainBefore isName plainBehind =>
              rw [Segment.text, pathParam_param plainBefore isName, Fits]
              by_cases hle : before.length + behind.length ≤ sValue.length
              · rw [report_of_le hle, and_iff_right hle]
                cases urlDecode (inside before behind sValue) with
                | ok value =>
                    rw [forall_prop_of_true ⟨value, rfl⟩]
                    exact ih sValues
                | error what => simp
              · rw [report_of_lt (by omega)]
                simp [hle]

theorem zip_dropEmptyLast (names values : List Bytes)
    (h : (dropEmptyLast names).length = values.length) :
    (dropEmptyLast names).zip values = names.zip values := by
  rw [dropEmptyLast] at h ⊢
  split at h
  case isTrue hlast =>
    rw [if_pos hlast]
    obtain ⟨front, rfl⟩ : ∃ front, names = front ++ [[]] := by
      rw [List.getLast?_eq_some_iff] at hlast
      exact hlast
    rw [List.dropLast_concat] at h ⊢
    conv_rhs => rw [← List.append_nil values, List.zip_append h, List.zip_nil_right,
      List.append_nil]
  case isFalse hlast => rw [if_neg hlast]

theorem parts_pattern {segments : List Segment} (h : segments ≠ []) :
    parts slash (pattern segments) = dropEmptyLast (segments.map Segment.text) := by
  refine parts_join (mt List.map_eq_nil_iff.mp h) fun text htext => ?_
  obtain ⟨segment, -, rfl⟩ := List.mem_map.mp htext
  exact segment.slash_notMem_text

/-- The call with a pattern that has a parameter. -/
theorem httpPathParams_pattern {segments rest : List Segment} {n : ℕ}
    (h : Segment.skip segments = some (n, rest)) (aTarget : Bytes) :
    httpPathParams aTarget (pattern segments) =
      if n ≤ aTarget.length then
        let sNames := dropEmptyLast (rest.map Segment.text)
        let sValues := parts slash (cutQuery (aTarget.drop n))
        if sNames.length = sValues.length then pathParams ((rest.map Segment.text).zip sValues)
        else ([], some (.thrown (wrongCount sNames.length sValues.length)))
      else ([], some .beyond) := by
  obtain ⟨hfind, hdrop⟩ := find_pattern h
  have hrest := rest_ne_nil h
  rw [httpPathParams, hfind]
  dsimp only
  by_cases hn : n ≤ aTarget.length
  · rw [removePrefix_of_le hn, if_pos hn, hdrop]
    dsimp only
    rw [texts_simple, texts_simple, parts_pattern hrest]
    by_cases hcount : (dropEmptyLast (rest.map Segment.text)).length =
        (parts slash (cutQuery (aTarget.drop n))).length
    · rw [if_neg (not_not_intro hcount), if_pos hcount, zip_dropEmptyLast _ _ hcount]
    · rw [if_pos hcount, if_neg hcount]
  · rw [removePrefix, if_neg hn, if_neg hn]

/-- No view is shortened by more characters than it has. -/
def Safe (aTarget aPattern : Bytes) : Prop := (httpPathParams aTarget aPattern).2 ≠ some .beyond

/-- If the pattern has a parameter, the target is not shorter than the text in front of it, and
the parts behind fit if they are as many as in the pattern. -/
def HasRoom (aTarget : Bytes) (segments : List Segment) : Prop :=
  ∀ n rest, Segment.skip segments = some (n, rest) →
    n ≤ aTarget.length ∧
      ((parts slash (pattern rest)).length =
          (parts slash (cutQuery (aTarget.drop n))).length →
        Fits rest (parts slash (cutQuery (aTarget.drop n))))

theorem safe_iff (aTarget : Bytes) (segments : List Segment) :
    Safe aTarget (pattern segments) ↔ HasRoom aTarget segments := by
  unfold Safe HasRoom
  cases h : Segment.skip segments with
  | none =>
      rw [httpPathParams, find_of_notMem (openBrace_notMem_pattern h)]
      simp
  | some r =>
      obtain ⟨n, rest⟩ := r
      have hrest := rest_ne_nil h
      have hforall : ∀ P : ℕ → List Segment → Prop,
          (∀ n' rest', some (n, rest) = some (n', rest') → P n' rest') ↔ P n rest :=
        fun P => ⟨fun hP => hP n rest rfl, fun hP n' rest' heq => by cases heq; exact hP⟩
      rw [hforall, httpPathParams_pattern h, parts_pattern hrest]
      by_cases hn : n ≤ aTarget.length
      · rw [if_pos hn, and_iff_right hn]
        dsimp only
        split
        case isTrue hcount =>
          rw [forall_prop_of_true hcount]
          exact pathParams_ne_beyond_iff _ _
        case isFalse hcount => simp [hcount]
      · rw [if_neg hn]
        simp [hn]

/-- Files with a number as their name. -/
def kvSegments : List Segment :=
  [.literal [] (by decide), .literal (ascii "kv") (by decide),
    .param [] (ascii "id") (ascii ".json") (by decide) (by decide) (by decide)]

theorem not_safe_kvSegments : ¬ Safe (ascii "/kv/1") (pattern kvSegments) := by
  intro h
  exact h (by decide +kernel)

/-! ## Targets made of values -/

theorem unreserved_sDict : ∀ n < 16, unreserved (sDict.getD n 0) := by
  decide

theorem unreserved_digits {i c : UInt8} (h : c ∈ digits i) : unreserved c := by
  have hlt := i.toNat_lt
  rcases List.mem_cons.mp h with rfl | hlow
  · exact unreserved_sDict _ (by rw [toNat_high]; omega)
  · cases List.mem_singleton.mp hlow
    exact unreserved_sDict _ (by rw [toNat_low]; omega)

theorem of_mem_urlEncode {value : Bytes} {c : UInt8} (h : c ∈ urlEncode value) :
    unreserved c ∨ c = percent := by
  obtain ⟨i, -, hc⟩ := List.mem_flatMap.mp h
  split at hc
  case isTrue hi =>
    cases List.mem_singleton.mp hc
    exact .inl hi
  case isFalse =>
    rcases List.mem_cons.mp hc with rfl | hdigits
    · exact .inr rfl
    · exact .inl (unreserved_digits hdigits)

theorem urlEncode_ne_nil {value : Bytes} (h : value ≠ []) : urlEncode value ≠ [] := by
  obtain ⟨i, rest, rfl⟩ := List.exists_cons_of_ne_nil h
  rw [urlEncode, List.flatMap_cons]
  split
  · exact List.cons_ne_nil _ _
  · exact List.cons_ne_nil _ _

/-- A segment with a value for its parameter. A literal does not use it. -/
structure Filled where
  segment : Segment
  value : Bytes
  nonempty : value ≠ []

namespace Filled

def fill (f : Filled) : Bytes := f.segment.fill f.value

def call (f : Filled) : Option Call := f.segment.call f.value

theorem fill_eq_nil_iff (f : Filled) : f.fill = [] ↔ f.segment.text = [] := by
  obtain ⟨segment, value, nonempty⟩ := f
  cases segment with
  | literal => exact Iff.rfl
  | param =>
      refine iff_of_false ?_ (by simp [Segment.text])
      simp [fill, Segment.fill, urlEncode_ne_nil nonempty]

theorem call_eq_none {f : Filled} (h : f.fill = []) : f.call = none := by
  obtain ⟨segment, value, nonempty⟩ := f
  cases segment with
  | literal => rfl
  | param =>
      rw [fill_eq_nil_iff] at h
      simp [Segment.text] at h

/-- No character that takes a target apart. -/
theorem notMem_fill (f : Filled) : slash ∉ f.fill ∧ question ∉ f.fill := by
  obtain ⟨segment, value, nonempty⟩ := f
  cases segment with
  | literal text plain => exact ⟨plain.2.2.1, plain.2.2.2⟩
  | param before name behind plainBefore isName plainBehind =>
      have hvalue : ∀ c ∈ urlEncode value, c ≠ slash ∧ c ≠ question := by
        intro c hc
        rcases of_mem_urlEncode hc with hunreserved | rfl
        · exact ⟨by rintro rfl; exact absurd hunreserved (by decide),
            by rintro rfl; exact absurd hunreserved (by decide)⟩
        · exact ⟨by decide, by decide⟩
      simp only [fill, Segment.fill, List.mem_append, not_or]
      exact ⟨⟨⟨plainBefore.2.2.1, fun h => (hvalue _ h).1 rfl⟩, plainBehind.2.2.1⟩,
        ⟨plainBefore.2.2.2, fun h => (hvalue _ h).2 rfl⟩, plainBehind.2.2.2⟩

end Filled

def target (filled : List Filled) : Bytes := join (filled.map Filled.fill)

theorem target_cons {filled : List Filled} (h : filled ≠ []) (f : Filled) :
    target (f :: filled) = f.fill ++ slash :: target filled :=
  join_cons (mt List.map_eq_nil_iff.mp h) _

theorem question_notMem_target (filled : List Filled) : question ∉ target filled := by
  induction filled with
  | nil => exact List.not_mem_nil
  | cons f filled ih =>
      by_cases hnil : filled = []
      · rw [hnil, target, join, List.map_singleton, List.intercalate_singleton]
        exact f.notMem_fill.2
      · rw [target_cons hnil, List.mem_append, List.mem_cons, not_or, not_or]
        exact ⟨f.notMem_fill.2, by decide, ih⟩

/-- The target is cut at the same place as the pattern. -/
theorem target_skip {filled : List Filled} {rest : List Segment} {n : ℕ}
    (h : Segment.skip (filled.map Filled.segment) = some (n, rest)) :
    ∃ front, ∃ filled' : List Filled, target filled = front ++ target filled' ∧
      front.length = n ∧ filled'.map Filled.segment = rest ∧
      filled'.filterMap Filled.call = filled.filterMap Filled.call := by
  induction filled generalizing n with
  | nil => cases h
  | cons f filled ih =>
      obtain ⟨segment, value, nonempty⟩ := f
      cases segment with
      | literal text plain =>
          obtain ⟨⟨n', rest'⟩, hrest, heq⟩ := Option.map_eq_some_iff.mp h
          cases heq
          obtain ⟨front, filled', htarget, hlength, hsegments, hcalls⟩ := ih hrest
          have hne : filled ≠ [] := mt (congrArg (List.map Filled.segment)) (skip_ne_nil hrest)
          refine ⟨text ++ slash :: front, filled', ?_, ?_, hsegments, hcalls⟩
          · rw [target_cons hne, htarget, List.append_assoc]
            rfl
          · rw [List.length_append, List.length_cons, hlength]
            omega
      | param before name behind plainBefore isName plainBehind =>
          cases h
          refine ⟨before, { segment := .param [] name behind (by decide) isName plainBehind
                            value, nonempty } :: filled, ?_, rfl, rfl, rfl⟩
          rw [target, target, List.map_cons, List.map_cons]
          change join ((before ++ urlEncode value ++ behind) :: _) = _
          rw [List.append_assoc, join_append]
          rfl

theorem pathParams_filled (filled : List Filled) :
    pathParams ((filled.map fun f => f.segment.text).zip (filled.map Filled.fill)) =
      (filled.filterMap Filled.call, none) := by
  induction filled with
  | nil => rfl
  | cons f filled ih =>
      obtain ⟨segment, value, nonempty⟩ := f
      rw [List.map_cons, List.map_cons, List.zip_cons_cons, pathParams]
      cases segment with
      | literal text plain =>
          rw [Segment.text, pathParam_literal plain]
          exact ih
      | param before name behind plainBefore isName plainBehind =>
          have hreport := report_fill before name behind value
          rw [Segment.text, pathParam_param plainBefore isName]
          change (match report before name behind (before ++ urlEncode value ++ behind) with
            | .error fault => ([], some fault)
            | .ok none => pathParams _
            | .ok (some call) => ((call :: (pathParams _).1), (pathParams _).2)) = _
          rw [hreport]
          dsimp only
          rw [ih]
          rfl

/-- An empty part at the end is missing in both. -/
theorem pathParams_dropEmptyLast (filled : List Filled) :
    (dropEmptyLast (filled.map fun f => f.segment.text)).length =
        (dropEmptyLast (filled.map Filled.fill)).length ∧
      pathParams ((filled.map fun f => f.segment.text).zip
          (dropEmptyLast (filled.map Filled.fill))) =
        (filled.filterMap Filled.call, none) := by
  induction filled using List.reverseRecOn with
  | nil => exact ⟨rfl, rfl⟩
  | append_singleton front f =>
      have hall := pathParams_filled (front ++ [f])
      rw [List.map_append, List.map_append, List.map_singleton, List.map_singleton] at *
      rw [dropEmptyLast_concat, dropEmptyLast_concat]
      by_cases hlast : f.fill = []
      · have hfront := pathParams_filled front
        have hlength : (front.map fun f => f.segment.text).length =
            (front.map Filled.fill).length := by
          rw [List.length_map, List.length_map]
        rw [if_pos hlast, if_pos (f.fill_eq_nil_iff.mp hlast)]
        refine ⟨hlength, ?_⟩
        rw [← List.append_nil (front.map Filled.fill), List.zip_append hlength, List.zip_nil_right,
          List.append_nil, hfront, List.filterMap_append, List.filterMap_cons,
          Filled.call_eq_none hlast, List.filterMap_nil, List.append_nil]
      · rw [if_neg hlast, if_neg (mt f.fill_eq_nil_iff.mpr hlast)]
        refine ⟨?_, hall⟩
        rw [List.length_append, List.length_append, List.length_map, List.length_map]
        rfl

theorem calls_eq_nil {filled : List Filled}
    (h : Segment.skip (filled.map Filled.segment) = none) :
    filled.filterMap Filled.call = [] := by
  induction filled with
  | nil => rfl
  | cons f filled ih =>
      obtain ⟨segment, value, nonempty⟩ := f
      cases segment with
      | literal => exact ih (Option.map_eq_none_iff.mp h)
      | param => cases h

/-- A target that was made of values gives them back, with any query behind it. -/
theorem httpPathParams_target (filled : List Filled) (query : Option Bytes) :
    httpPathParams (target filled ++ query.elim [] (question :: ·))
        (pattern (filled.map Filled.segment)) =
      (filled.filterMap Filled.call, none) := by
  cases h : Segment.skip (filled.map Filled.segment) with
  | none =>
      rw [httpPathParams, find_of_notMem (openBrace_notMem_pattern h), calls_eq_nil h]
  | some r =>
      obtain ⟨n, rest⟩ := r
      obtain ⟨front, filled', htarget, rfl, rfl, hcalls⟩ := target_skip h
      obtain ⟨hcount, hparams⟩ := pathParams_dropEmptyLast filled'
      have hquery : cutQuery (target filled' ++ query.elim [] (question :: ·)) =
          target filled' := by
        refine cutQuery_append (question_notMem_target filled') ?_
        cases query with
        | none => exact .inl rfl
        | some rest => exact .inr ⟨rest, rfl⟩
      have hparts : parts slash (target filled') = dropEmptyLast (filled'.map Filled.fill) := by
        have hne : filled' ≠ [] := mt List.map_eq_nil_iff.mpr (rest_ne_nil h)
        refine parts_join (mt List.map_eq_nil_iff.mp hne) fun text htext => ?_
        obtain ⟨f, -, rfl⟩ := List.mem_map.mp htext
        exact f.notMem_fill.1
      have hmap : (filled'.map Filled.segment).map Segment.text =
          filled'.map fun f => f.segment.text := List.map_map
      have hle : front.length ≤ (target filled ++ query.elim [] (question :: ·)).length := by
        rw [htarget, List.length_append, List.length_append]
        omega
      rw [httpPathParams_pattern h, if_pos hle, htarget, List.append_assoc, List.drop_left, hquery,
        hparts, hmap]
      dsimp only
      rw [if_pos hcount, hparams, hcalls]

example : httpPathParams (ascii "/api/v1/kv/123.json?timestamp=456")
    (ascii "/api/v1/kv/" ++ openBrace :: ascii "id" ++ closeBrace :: ascii ".json") =
      ([(ascii "id", ascii "123")], none) := by
  decide +kernel

end Stuff.ParserPathParams
