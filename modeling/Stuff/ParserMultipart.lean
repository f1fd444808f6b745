import Stuff.ParserSimple

/-!
# Multipart bodies

`Parser::multipart` reads a body line by line. It keeps where the first line of the data
begins, and cuts the data out of the body when it comes to the next boundary. A first line
that is empty is forgotten, as if there had not been one.
-/
namespace Stuff.ParserMultipart
open MachineWords ParserSimple Splitting

def newline : UInt8 := 0x0a

def semicolon : UInt8 := 0x3b

/-- `'"'` -/
def quote : UInt8 := 0x22

def sDisposition : Bytes := ascii "Content-Disposition: form-data;"

def sType : Bytes := ascii "Content-Type: "

def sDone : Bytes := ascii "--"

/-- `std::string_view::find` of a text. -/
def find (pattern : Bytes) : Bytes → Option ℕ
  | [] => if pattern = [] then some 0 else none
  | b :: s => if pattern.isPrefixOf (b :: s) then some 0 else (find pattern s).map (· + 1)

def isspace (b : UInt8) : Bool := b = 0x20 ∨ 0x09 ≤ b ∧ b ≤ 0x0d

def ltrim (s : Bytes) : Bytes := s.dropWhile isspace

def rtrim (s : Bytes) : Bytes := (s.reverse.dropWhile isspace).reverse

def trim (s : Bytes) : Bytes := rtrim (ltrim s)

structure Meta where
  name : Bytes := []
  filename : Bytes := []
  contentType : Bytes := []
deriving DecidableEq, Repr

inductive State
  | idle
  | header
  | collect
  | done
deriving DecidableEq, Repr

/-- The variables of `multipart`, and what the handler was called with. -/
structure Scan where
  sMeta : Meta := {}
  sState : State := .idle
  sData : Option View := none
  calls : List (Meta × Bytes) := []
deriving DecidableEq, Repr

/-- An exception, and the calls before it. -/
structure Thrown where
  calls : List (Meta × Bytes)
  what : String
deriving DecidableEq, Repr

/-- An item of a disposition. -/
def parseItem (sMeta : Meta) (item : View) : Meta :=
  let aItem := trim item.text
  match find (ascii "=\"") aItem with
  | none => sMeta
  | some sPos =>
      let sName := aItem.take sPos
      if sPos + 3 ≥ aItem.length then sMeta
      else
        let sValue := (aItem.drop (sPos + 2)).take (aItem.length - sPos - 3)
        if sName = ascii "name" then { sMeta with name := sValue }
        else if sName = ascii "filename" then { sMeta with filename := sValue }
        else sMeta

def parseDisposition (sMeta : Meta) (aLine : View) : Meta :=
  (simple (aLine.removePrefix sDisposition.length) semicolon).foldl parseItem sMeta

section
variable (aData aBoundary : Bytes)

/-- A line of the body. -/
def onLine (s : Scan) (aLine : View) : Except Thrown Scan :=
  match s.sState with
  | .idle => .ok (if aLine.text = aBoundary then { s with sState := .header } else s)
  | .header =>
      if aLine.text = [] then .ok { s with sState := .collect }
      else if sDisposition.isPrefixOf aLine.text then
        .ok { s with sMeta := parseDisposition s.sMeta aLine }
      else if sType.isPrefixOf aLine.text then
        .ok { s with sMeta := { s.sMeta with contentType := aLine.text.drop sType.length } }
      else .ok s
  | .collect =>
      if aBoundary.isPrefixOf aLine.text then
        match s.sData with
        | none => .error { calls := s.calls, what := "unexpected boundary" }
        | some sData =>
            let data := (aData.drop sData.pos).take (aLine.pos - sData.pos - 1)
            .ok
              { calls := s.calls ++ [(s.sMeta, data)]
                sState := if aLine.text.drop aBoundary.length = sDone then .done else .header }
      -- remember start pointer
      else if s.sData.elim [] View.text = [] then .ok { s with sData := some aLine }
      else .ok s
  | .done => .error { calls := s.calls, what := "unexpected data after end marker" }

def onLines (s : Scan) (lines : List View) : Except Thrown Scan :=
  lines.foldlM (onLine aData aBoundary) s

/-- What the handler is called with, and how `multipart` ends. -/
def multipart : List (Meta × Bytes) × Except String Unit :=
  match onLines aData aBoundary {} (simple { pos := 0, text := aData } newline) with
  | .error e => (e.calls, .error e.what)
  | .ok s =>
      match s.sState with
      | .idle => (s.calls, .error "not multipart data")
      | .collect => (s.calls, .error "incomplete data")
      | .header => (s.calls, .error "no termination marker")
      | .done => (s.calls, .ok ())

end

/-! ## Bodies -/

/-- A text that can stand in a header. -/
def Plain (text : Bytes) : Prop := quote ∉ text ∧ semicolon ∉ text ∧ newline ∉ text

structure Part where
  name : Bytes
  filename : Option Bytes
  contentType : Option Bytes
  data : Bytes
  name_plain : Plain name
  filename_plain : ∀ text ∈ filename, Plain text
  contentType_plain : ∀ text ∈ contentType, Plain text

def item (key value : Bytes) : Bytes := ascii " " ++ (key ++ (ascii "=\"" ++ (value ++ [quote])))

namespace Part

def items (p : Part) : Bytes :=
  match p.filename with
  | none => item (ascii "name") p.name
  | some filename =>
      item (ascii "name") p.name ++ semicolon :: item (ascii "filename") filename

/-- The header lines, each with its newline. -/
def headers (p : Part) : Bytes :=
  match p.contentType with
  | none => sDisposition ++ p.items ++ [newline]
  | some contentType =>
      sDisposition ++ p.items ++ [newline] ++ (sType ++ contentType ++ [newline])

/-- What stands behind the boundary of a part, up to the next one. -/
def body (p : Part) : Bytes := newline :: (p.headers ++ newline :: (p.data ++ [newline]))

/-- What the handler has to be called with. -/
def metadata (p : Part) : Meta :=
  { name := p.name, filename := p.filename.getD [], contentType := p.contentType.getD [] }

end Part

def render (aBoundary : Bytes) (parts : List Part) : Bytes :=
  parts.flatMap (fun p => aBoundary ++ p.body) ++ (aBoundary ++ sDone)


/-! ## The lines of a part -/

section
variable {aData aBoundary : Bytes} {s s' : Scan}

theorem onLines_append_cons (pos : ℕ) {line : Bytes} (hline : newline ∉ line) (rest : Bytes)
    (h : onLine aData aBoundary s { pos, text := line } = .ok s') :
    onLines aData aBoundary s (simple { pos, text := line ++ newline :: rest } newline) =
      onLines aData aBoundary s'
        (simple { pos := pos + (line.length + 1), text := rest } newline) := by
  rw [simple_append_cons pos hline, onLines, List.foldlM_cons, h]
  rfl

/-! ### Headers -/

theorem find_assign {key : Bytes} (hkey : 0x3d ∉ key) (rest : Bytes) :
    find (ascii "=\"") (key ++ (ascii "=\"" ++ rest)) = some key.length := by
  have hassign : ascii "=\"" = [0x3d, 0x22] := by decide
  rw [hassign]
  induction key with
  | nil => simp [find]
  | cons b key ih =>
      rw [List.mem_cons, not_or] at hkey
      rw [List.cons_append, find, ih hkey.2, if_neg]
      · rfl
      · simp [hkey.1]

theorem trim_item {b : UInt8} (hb : isspace b = false) (key value : Bytes) :
    trim (item (b :: key) value) = b :: key ++ (ascii "=\"" ++ (value ++ [quote])) := by
  have hspace : ascii " " = [0x20] := by decide
  have hleft : ltrim (item (b :: key) value) =
      b :: key ++ (ascii "=\"" ++ (value ++ [quote])) := by
    rw [ltrim, item, hspace, List.singleton_append, List.dropWhile_cons_of_pos (by decide),
      List.cons_append, List.dropWhile_cons_of_neg (by simp [hb])]
  have hright : ∀ front : Bytes, rtrim (front ++ [quote]) = front ++ [quote] := by
    intro front
    rw [rtrim, List.reverse_append, List.reverse_singleton, List.singleton_append,
      List.dropWhile_cons_of_neg (by decide), List.reverse_cons, List.reverse_reverse]
  rw [trim, hleft, ← List.append_assoc, ← List.append_assoc, hright]

/-- An empty value is left as it is. -/
theorem parseItem_item (sMeta : Meta) (pos : ℕ) {b : UInt8} (hb : isspace b = false)
    {key : Bytes} (hkey : 0x3d ∉ b :: key) (value : Bytes) :
    parseItem sMeta { pos, text := item (b :: key) value } =
      if value = [] then sMeta
      else if b :: key = ascii "name" then { sMeta with name := value }
      else if b :: key = ascii "filename" then { sMeta with filename := value }
      else sMeta := by
  have hassign : (ascii "=\"").length = 2 := by decide
  have hlength : (b :: key ++ (ascii "=\"" ++ (value ++ [quote]))).length =
      (b :: key).length + value.length + 3 := by
    rw [List.length_append, List.length_append, hassign, List.length_append,
      List.length_singleton]
    omega
  have hvalue : (((b :: key ++ (ascii "=\"" ++ (value ++ [quote]))).drop
      ((b :: key).length + 2)).take value.length) = value := by
    rw [← List.drop_drop, List.drop_left, ← hassign, List.drop_left, List.take_left]
  have hempty : (b :: key).length + 3 ≥ (b :: key).length + value.length + 3 ↔ value = [] := by
    rw [← List.length_eq_zero_iff]
    omega
  have hrest : (b :: key).length + value.length + 3 - (b :: key).length - 3 = value.length := by
    omega
  simp only [parseItem, trim_item hb, find_assign hkey, hlength, List.take_left, hempty, hrest,
    hvalue]

theorem parseItem_name {sMeta : Meta} (h : sMeta.name = []) (pos : ℕ) (value : Bytes) :
    parseItem sMeta { pos, text := item (ascii "name") value } = { sMeta with name := value } := by
  have hname : ascii "name" = 0x6e :: ascii "ame" := by decide
  rw [hname, parseItem_item sMeta pos (by decide) (by decide) value, ← hname, if_pos rfl]
  split_ifs with hvalue
  · rw [hvalue, ← h]
  · rfl

theorem parseItem_filename {sMeta : Meta} (h : sMeta.filename = []) (pos : ℕ) (value : Bytes) :
    parseItem sMeta { pos, text := item (ascii "filename") value } =
      { sMeta with filename := value } := by
  have hname : ascii "filename" = 0x66 :: ascii "ilename" := by decide
  have hother : ascii "filename" ≠ ascii "name" := by decide
  rw [hname, parseItem_item sMeta pos (by decide) (by decide) value, ← hname, if_neg hother,
    if_pos rfl]
  split_ifs with hvalue
  · rw [hvalue, ← h]
  · rfl

theorem semicolon_item (key : Bytes) {value : Bytes} (hkey : semicolon ∉ key)
    (hvalue : semicolon ∉ value) :
    semicolon ∉ item key value := by
  have hspace : semicolon ∉ ascii " " := by decide
  have hassign : semicolon ∉ ascii "=\"" := by decide
  have hquote : semicolon ≠ quote := by decide
  simp only [item, List.mem_append, List.mem_singleton, not_or]
  exact ⟨hspace, hkey, hassign, hvalue, hquote⟩

theorem item_ne_nil (key value : Bytes) : item key value ≠ [] := by
  simp [item]

theorem parseDisposition_part (p : Part) (pos : ℕ) :
    parseDisposition {} { pos, text := sDisposition ++ p.items } =
      { name := p.name, filename := p.filename.getD [] } := by
  have hname := semicolon_item (ascii "name") (by decide) p.name_plain.2.1
  rw [parseDisposition, View.removePrefix, List.drop_left, Part.items]
  cases hfilename : p.filename with
  | none =>
      dsimp only
      rw [simple_last _ hname (item_ne_nil _ _), List.foldl_cons, parseItem_name rfl]
      rfl
  | some filename =>
      have hsecond := semicolon_item (ascii "filename") (by decide)
        (p.filename_plain filename hfilename).2.1
      dsimp only
      rw [simple_append_cons _ hname, simple_last _ hsecond (item_ne_nil _ _), List.foldl_cons,
        parseItem_name rfl, List.foldl_cons, parseItem_filename rfl]
      rfl

theorem newline_item (key : Bytes) {value : Bytes} (hkey : newline ∉ key)
    (hvalue : newline ∉ value) :
    newline ∉ item key value := by
  have hspace : newline ∉ ascii " " := by decide
  have hassign : newline ∉ ascii "=\"" := by decide
  have hquote : newline ≠ quote := by decide
  simp only [item, List.mem_append, List.mem_singleton, not_or]
  exact ⟨hspace, hkey, hassign, hvalue, hquote⟩

theorem newline_items (p : Part) : newline ∉ p.items := by
  have hname := newline_item (ascii "name") (by decide) p.name_plain.2.2
  rw [Part.items]
  cases hfilename : p.filename with
  | none => exact hname
  | some filename =>
      have hsecond := newline_item (ascii "filename") (by decide)
        (p.filename_plain filename hfilename).2.2
      have hsep : newline ≠ semicolon := by decide
      simp only [List.mem_append, List.mem_cons, not_or]
      exact ⟨hname, hsep, hsecond⟩

theorem onLine_disposition (p : Part) (pos : ℕ) {calls : List (Meta × Bytes)} :
    onLine aData aBoundary { sState := .header, calls := calls }
        { pos, text := sDisposition ++ p.items } =
      .ok { sMeta := { name := p.name, filename := p.filename.getD [] }, sState := .header,
            calls := calls } := by
  have hne : sDisposition ++ p.items ≠ [] := by
    have hlength : sDisposition.length = 31 := by decide
    intro h
    rw [List.append_eq_nil_iff] at h
    rw [h.1] at hlength
    cases hlength
  have hfront : sDisposition.isPrefixOf (sDisposition ++ p.items) = true := by simp
  simp only [onLine, if_neg hne, hfront, if_true, parseDisposition_part]

theorem onLine_type (sMeta : Meta) (contentType : Bytes) (pos : ℕ)
    {calls : List (Meta × Bytes)} :
    onLine aData aBoundary { sMeta, sState := .header, calls := calls }
        { pos, text := sType ++ contentType } =
      .ok { sMeta := { sMeta with contentType := contentType }, sState := .header,
            calls := calls } := by
  have hne : sType ++ contentType ≠ [] := by
    have hlength : sType.length = 14 := by decide
    intro h
    rw [List.append_eq_nil_iff] at h
    rw [h.1] at hlength
    cases hlength
  have hother : sDisposition.isPrefixOf (sType ++ contentType) = false := by
    rfl
  have hfront : sType.isPrefixOf (sType ++ contentType) = true := by simp
  simp only [onLine, if_neg hne, hother, Bool.false_eq_true, if_false, hfront, if_true,
    List.drop_left]

/-- Up to the empty line. -/
theorem onLines_headers (p : Part) (pos : ℕ) (rest : Bytes) (calls : List (Meta × Bytes)) :
    onLines aData aBoundary { sState := .header, calls := calls }
        (simple { pos, text := p.headers ++ newline :: rest } newline) =
      onLines aData aBoundary { sMeta := p.metadata, sState := .collect, calls := calls }
        (simple { pos := pos + (p.headers.length + 1), text := rest } newline) := by
  have hdisposition : newline ∉ sDisposition ++ p.items := by
    have hfirst : newline ∉ sDisposition := by decide
    rw [List.mem_append, not_or]
    exact ⟨hfirst, newline_items p⟩
  have hempty : ∀ sMeta pos, onLine aData aBoundary
      { sMeta, sState := .header, calls := calls } { pos, text := [] } =
        .ok { sMeta, sState := .collect, calls := calls } := fun _ _ => rfl
  cases htype : p.contentType with
  | none =>
      have hall : p.headers ++ newline :: rest =
          (sDisposition ++ p.items) ++ newline :: ([] ++ newline :: rest) := by
        simp [Part.headers, htype]
      have hlength : p.headers.length = (sDisposition ++ p.items).length + 1 := by
        rw [Part.headers, htype, List.length_append, List.length_singleton]
      have hmeta : p.metadata = { name := p.name, filename := p.filename.getD [] } := by
        simp [Part.metadata, htype]
      rw [hall, onLines_append_cons pos hdisposition _ (onLine_disposition p pos),
        onLines_append_cons _ List.not_mem_nil _ (hempty _ _), hlength, hmeta]
      rfl
  | some contentType =>
      have htypeLine : newline ∉ sType ++ contentType := by
        have hfirst : newline ∉ sType := by decide
        rw [List.mem_append, not_or]
        exact ⟨hfirst, (p.contentType_plain contentType htype).2.2⟩
      have hall : p.headers ++ newline :: rest = (sDisposition ++ p.items) ++ newline ::
          ((sType ++ contentType) ++ newline :: ([] ++ newline :: rest)) := by
        simp [Part.headers, htype]
      have hlength : p.headers.length =
          (sDisposition ++ p.items).length + 1 + ((sType ++ contentType).length + 1) := by
        simp only [Part.headers, htype, List.length_append, List.length_singleton]
      have hmeta : p.metadata =
          { name := p.name, filename := p.filename.getD [], contentType := contentType } := by
        simp [Part.metadata, htype]
      rw [hall, onLines_append_cons pos hdisposition _ (onLine_disposition p pos),
        onLines_append_cons _ htypeLine _ (onLine_type _ contentType _),
        onLines_append_cons _ List.not_mem_nil _ (hempty _ _), hlength, hmeta]
      congr 3
      simp only [List.length_nil]
      omega

/-! ### Data -/

theorem onLine_data (hs : s.sState = .collect) (pos : ℕ) {line : Bytes}
    (hline : ¬ aBoundary <+: line) :
    onLine aData aBoundary s { pos, text := line } =
      .ok (if s.sData.elim [] View.text = [] then { s with sData := some { pos, text := line } }
        else s) := by
  have hfront : aBoundary.isPrefixOf line = false := by
    rw [Bool.eq_false_iff, ne_eq, List.isPrefixOf_iff_prefix]
    exact hline
  simp only [onLine, hs, hfront, Bool.false_eq_true, if_false]
  split_ifs <;> rfl

/-- Once there is a line that is not empty, the others are passed over. -/
theorem onLines_begun (hs : s.sState = .collect) (hbegun : s.sData.elim [] View.text ≠ [])
    {data : Bytes} (hlines : ∀ line ∈ data.splitOn newline, ¬ aBoundary <+: line) (pos : ℕ)
    (rest : Bytes) :
    onLines aData aBoundary s (simple { pos, text := data ++ newline :: rest } newline) =
      onLines aData aBoundary s
        (simple { pos := pos + (data.length + 1), text := rest } newline) := by
  have hkeep : ∀ pos line, ¬ aBoundary <+: line →
      onLine aData aBoundary s { pos, text := line } = .ok s := by
    intro pos line hline
    rw [onLine_data hs pos hline, if_neg hbegun]
  induction data using induction_lines newline generalizing pos with
  | last line hline =>
      rw [List.splitOn_eq_singleton hline] at hlines
      exact onLines_append_cons pos hline rest (hkeep pos line (hlines line List.mem_cons_self))
  | cons line data hline ih =>
      rw [List.splitOn_append_cons_self_of_not_mem hline, List.forall_mem_cons] at hlines
      have hpos : pos + (line.length + 1) + (data.length + 1) =
          pos + ((line ++ newline :: data).length + 1) := by
        rw [List.length_append, List.length_cons]
        omega
      rw [List.append_assoc, List.cons_append,
        onLines_append_cons pos hline _ (hkeep pos line hlines.1), ih hlines.2, hpos]

theorem takeWhile_newline {line : Bytes} (hline : newline ∉ line) (hne : line ≠ [])
    (rest : Bytes) : (line ++ rest).takeWhile (· == newline) = [] := by
  obtain ⟨x, line, rfl⟩ := List.exists_cons_of_ne_nil hne
  rw [List.mem_cons, not_or] at hline
  rw [List.cons_append, List.takeWhile_cons_of_neg]
  simpa using Ne.symm hline.1

/-- The line that is kept is the first one that is not empty, or the last one. -/
theorem onLines_data (aData : Bytes) (hs : s.sState = .collect)
    (hfresh : s.sData.elim [] View.text = [])
    {data : Bytes} (hlines : ∀ line ∈ data.splitOn newline, ¬ aBoundary <+: line) (pos : ℕ)
    (rest : Bytes) :
    ∃ v : View, v.pos = pos + (data.takeWhile (· == newline)).length ∧
      onLines aData aBoundary s (simple { pos, text := data ++ newline :: rest } newline) =
        onLines aData aBoundary { s with sData := some v }
          (simple { pos := pos + (data.length + 1), text := rest } newline) := by
  induction data using induction_lines newline generalizing pos s with
  | last line hline =>
      rw [List.splitOn_eq_singleton hline] at hlines
      refine ⟨{ pos, text := line }, ?_, onLines_append_cons pos hline rest ?_⟩
      · by_cases hempty : line = []
        · rw [hempty]
          rfl
        · rw [← List.append_nil line, takeWhile_newline hline hempty]
          rfl
      · rw [onLine_data hs pos (hlines line List.mem_cons_self), if_pos hfresh]
  | cons line data hline ih =>
      rw [List.splitOn_append_cons_self_of_not_mem hline, List.forall_mem_cons] at hlines
      have hfirst : onLine aData aBoundary s { pos, text := line } =
          .ok { s with sData := some { pos, text := line } } := by
        rw [onLine_data hs pos hlines.1, if_pos hfresh]
      have hpos : pos + (line.length + 1) + (data.length + 1) =
          pos + ((line ++ newline :: data).length + 1) := by
        rw [List.length_append, List.length_cons]
        omega
      rw [List.append_assoc, List.cons_append, onLines_append_cons pos hline _ hfirst, ← hpos]
      by_cases hempty : line = []
      · obtain ⟨v, hv, hrest⟩ := ih (s := { s with sData := some { pos, text := line } }) hs
          hempty hlines.2 (pos + (line.length + 1))
        refine ⟨v, ?_, hrest⟩
        rw [hv, hempty]
        simp
        omega
      · refine ⟨{ pos, text := line }, ?_, ?_⟩
        · rw [takeWhile_newline hline hempty]
          rfl
        · exact onLines_begun (s := { s with sData := some { pos, text := line } }) hs hempty
            hlines.2 _ rest

/-- The data of a part, as it is cut out of the body. -/
def delivered (data : Bytes) : Bytes := data.dropWhile (· == newline)

theorem cut_data (front data rest : Bytes) :
    ((front ++ (data ++ newline :: rest)).drop
        (front.length + (data.takeWhile (· == newline)).length)).take
      (front.length + (data.length + 1) -
        (front.length + (data.takeWhile (· == newline)).length) - 1) = delivered data := by
  have hdata : data = data.takeWhile (· == newline) ++ delivered data :=
    List.takeWhile_append_dropWhile.symm
  have hlength := congrArg List.length hdata
  rw [List.length_append] at hlength
  have htake : front.length + (data.length + 1) -
      (front.length + (data.takeWhile (· == newline)).length) - 1 = (delivered data).length := by
    omega
  have hdrop : ∀ a b : Bytes, ((a ++ b) ++ newline :: rest).drop a.length =
      b ++ newline :: rest := by
    intro a b
    rw [List.append_assoc, List.drop_left]
  have hcut := hdrop (data.takeWhile (· == newline)) (delivered data)
  rw [← hdata] at hcut
  rw [htake, ← List.drop_drop, List.drop_left, hcut, List.take_left]

/-- A part, from the line behind its boundary up to the next boundary. -/
theorem onLines_part (p : Part) (hlines : ∀ line ∈ p.data.splitOn newline, ¬ aBoundary <+: line)
    {front rest : Bytes} (haData : aData = front ++ (p.headers ++ newline ::
      (p.data ++ newline :: rest))) (calls : List (Meta × Bytes)) :
    ∃ v : View, (aData.drop v.pos).take (aData.length - rest.length - v.pos - 1) =
        delivered p.data ∧
      onLines aData aBoundary { sState := .header, calls := calls }
          (simple { pos := front.length, text := p.headers ++ newline ::
            (p.data ++ newline :: rest) } newline) =
        onLines aData aBoundary
          { sMeta := p.metadata, sState := .collect, sData := some v, calls := calls }
          (simple { pos := aData.length - rest.length, text := rest } newline) := by
  obtain ⟨v, hv, hdata⟩ := onLines_data aData rfl rfl hlines
    (front.length + (p.headers.length + 1)) rest
    (s := { sMeta := p.metadata, sState := .collect, calls := calls })
  have hfront : (front ++ (p.headers ++ [newline])).length =
      front.length + (p.headers.length + 1) := by simp
  have hall : aData = (front ++ (p.headers ++ [newline])) ++ (p.data ++ newline :: rest) := by
    rw [haData]
    simp
  have hpos : aData.length - rest.length =
      (front ++ (p.headers ++ [newline])).length + (p.data.length + 1) := by
    have hlength := congrArg List.length hall
    simp only [List.length_append, List.length_cons] at hlength ⊢
    omega
  refine ⟨v, ?_, ?_⟩
  · rw [hpos, hv, ← hfront]
    nth_rewrite 1 [hall]
    exact cut_data _ _ _
  · rw [onLines_headers, hdata, hpos, hfront]


/-- The line that ends a part. -/
theorem onLine_boundary (aData aBoundary : Bytes) (sMeta : Meta) (v : View)
    (calls : List (Meta × Bytes)) (pos : ℕ) (mark : Bytes) :
    onLine aData aBoundary { sMeta, sState := .collect, sData := some v, calls := calls }
        { pos, text := aBoundary ++ mark } =
      .ok { sState := if mark = sDone then .done else .header
            calls := calls ++ [(sMeta, (aData.drop v.pos).take (pos - v.pos - 1))] } := by
  have hfront : aBoundary.isPrefixOf (aBoundary ++ mark) = true := by simp
  simp only [onLine, hfront, if_true, List.drop_left]

/-- What `multipart` has to hand on for a part, and what it does. -/
def Part.call (p : Part) : Meta × Bytes := (p.metadata, p.data)

def Part.delivery (p : Part) : Meta × Bytes := (p.metadata, delivered p.data)

theorem body_append (p : Part) (rest : Bytes) :
    p.body ++ rest = newline :: (p.headers ++ newline :: (p.data ++ newline :: rest)) := by
  simp [Part.body]

theorem render_cons (p : Part) (parts : List Part) :
    render aBoundary (p :: parts) = aBoundary ++ (p.body ++ render aBoundary parts) := by
  simp [render]

/-- What is behind the boundary of a part is read to its end. -/
theorem onLines_body (hboundary : newline ∉ aBoundary) (p : Part) (parts : List Part)
    (hlines : ∀ p' ∈ p :: parts, ∀ line ∈ p'.data.splitOn newline, ¬ aBoundary <+: line)
    {front : Bytes} (haData : aData = front ++ (p.headers ++ newline ::
      (p.data ++ newline :: render aBoundary parts))) (calls : List (Meta × Bytes)) :
    onLines aData aBoundary { sState := .header, calls := calls }
        (simple { pos := front.length, text := p.headers ++ newline ::
          (p.data ++ newline :: render aBoundary parts) } newline) =
      .ok { sState := .done, calls := calls ++ (p :: parts).map Part.delivery } := by
  induction parts generalizing p front calls with
  | nil =>
      obtain ⟨v, hv, hpart⟩ := onLines_part p (hlines p List.mem_cons_self) haData calls
      have hlast : newline ∉ aBoundary ++ sDone := by
        rw [List.mem_append, not_or]
        exact ⟨hboundary, by decide⟩
      have hne : aBoundary ++ sDone ≠ [] := by simp [sDone, ascii]
      rw [hpart]
      change onLines _ _ _ (simple { pos := _, text := aBoundary ++ sDone } newline) = _
      rw [simple_last _ hlast hne, onLines, List.foldlM_cons, onLine_boundary, hv]
      rfl
  | cons p' parts ih =>
      obtain ⟨v, hv, hpart⟩ := onLines_part p (hlines p List.mem_cons_self) haData calls
      have hmark := onLine_boundary aData aBoundary p.metadata v calls
        (aData.length - (render aBoundary (p' :: parts)).length) []
      have hmore : ¬ ([] : Bytes) = sDone := by decide
      rw [hv, List.append_nil, if_neg hmore] at hmark
      have hrender : render aBoundary (p' :: parts) = aBoundary ++ newline :: (p'.headers ++
          newline :: (p'.data ++ newline :: render aBoundary parts)) := by
        rw [render_cons, body_append]
      have haData' : aData = (front ++ (p.headers ++ newline :: (p.data ++ newline ::
          (aBoundary ++ [newline])))) ++ (p'.headers ++ newline ::
            (p'.data ++ newline :: render aBoundary parts)) := by
        rw [haData, hrender]
        simp
      have hpos : aData.length - (render aBoundary (p' :: parts)).length +
          (aBoundary.length + 1) = (front ++ (p.headers ++ newline :: (p.data ++ newline ::
            (aBoundary ++ [newline])))).length := by
        have hlength := congrArg List.length haData
        simp only [List.length_append, List.length_cons, List.length_nil] at hlength ⊢
        omega
      have hrest := ih p' (fun q hq => hlines q (List.mem_cons_of_mem p hq)) haData'
        (calls ++ [p.delivery])
      rw [← hpos] at hrest
      rw [hpart]
      nth_rewrite 2 [hrender]
      rw [onLines_append_cons _ hboundary _ hmark]
      rw [List.append_assoc, List.singleton_append] at hrest
      exact hrest

theorem multipart_render {parts : List Part} (hboundary : newline ∉ aBoundary) (hne : parts ≠ [])
    (hlines : ∀ p ∈ parts, ∀ line ∈ p.data.splitOn newline, ¬ aBoundary <+: line) :
    multipart (render aBoundary parts) aBoundary = (parts.map Part.delivery, .ok ()) := by
  obtain ⟨p, parts, rfl⟩ := List.exists_cons_of_ne_nil hne
  have hrender : render aBoundary (p :: parts) = aBoundary ++ newline :: (p.headers ++
      newline :: (p.data ++ newline :: render aBoundary parts)) := by
    rw [render_cons, body_append]
  have hstart : onLine (render aBoundary (p :: parts)) aBoundary {}
      { pos := 0, text := aBoundary } = .ok { sState := .header } := by
    simp only [onLine, if_true]
  have hfront : render aBoundary (p :: parts) = (aBoundary ++ [newline]) ++ (p.headers ++
      newline :: (p.data ++ newline :: render aBoundary parts)) := by
    rw [hrender, List.append_assoc, List.singleton_append]
  have hlines := onLines_body hboundary p parts hlines hfront []
  rw [List.length_append, List.length_singleton] at hlines
  have hall : onLines (render aBoundary (p :: parts)) aBoundary {}
      (simple { pos := 0, text := render aBoundary (p :: parts) } newline) =
        .ok { sState := .done, calls := (p :: parts).map Part.delivery } := by
    nth_rewrite 2 [hrender]
    rw [onLines_append_cons 0 hboundary _ hstart, Nat.zero_add, hlines, List.nil_append]
  rw [multipart, hall]

end

theorem delivered_eq_self {data : Bytes} :
    delivered data = data ↔ data.head? ≠ some newline := by
  cases data with
  | nil => simp [delivered]
  | cons b data =>
      by_cases hb : b = newline
      · have hle := List.length_dropWhile_le (· == newline) data
        constructor
        · intro h
          have hlength := congrArg List.length h
          rw [hb, delivered, List.dropWhile_cons_of_pos (by simp), List.length_cons] at hlength
          omega
        · intro h
          rw [hb] at h
          exact absurd rfl h
      · rw [delivered, List.dropWhile_cons_of_neg (by simpa using hb)]
        simpa using hb

/-- The handler gets every part as it was rendered if and only if no data begins with a
newline. -/
theorem multipart_render_iff (aBoundary : Bytes) (parts : List Part)
    (hboundary : newline ∉ aBoundary) (hne : parts ≠ [])
    (hlines : ∀ p ∈ parts, ∀ line ∈ p.data.splitOn newline, ¬ aBoundary <+: line) :
    multipart (render aBoundary parts) aBoundary = (parts.map Part.call, .ok ()) ↔
      ∀ p ∈ parts, p.data.head? ≠ some newline := by
  rw [multipart_render hboundary hne hlines, Prod.mk.injEq, and_iff_left rfl, List.map_inj_left]
  apply forall₂_congr
  intro p _
  rw [Part.delivery, Part.call, Prod.mk.injEq, and_iff_right rfl, delivered_eq_self]

def keyPart : Part where
  name := ascii "key"
  filename := none
  contentType := none
  data := ascii "value\n"
  name_plain := by simp [Plain, ascii, quote, semicolon, newline]
  filename_plain := by simp
  contentType_plain := by simp

def uploadPart : Part where
  name := ascii "upload"
  filename := some (ascii "data.bin")
  contentType := some (ascii "text/plain")
  data := ascii "\nabc"
  name_plain := by simp [Plain, ascii, quote, semicolon, newline]
  filename_plain := by simp [Plain, ascii, quote, semicolon, newline]
  contentType_plain := by simp [Plain, ascii, quote, semicolon, newline]

theorem multipart_render_key :
    multipart (render (ascii "--b") [keyPart, keyPart]) (ascii "--b") =
      ([keyPart, keyPart].map Part.call, .ok ()) :=
  (multipart_render_iff (ascii "--b") [keyPart, keyPart] (by decide) (by decide) (by decide)).mpr
    (by decide)

/-- The data are an empty line and another one: the handler gets the other one. -/
theorem empty_line_lost :
    ¬ ∀ (aBoundary : Bytes) (parts : List Part), newline ∉ aBoundary → parts ≠ [] →
      (∀ p ∈ parts, ∀ line ∈ p.data.splitOn newline, ¬ aBoundary <+: line) →
      multipart (render aBoundary parts) aBoundary = (parts.map Part.call, .ok ()) := by
  intro h
  have hcalls := h (ascii "--b") [uploadPart] (by decide) (by decide) (by decide)
  rw [multipart_render (by decide) (by decide) (by decide)] at hcalls
  revert hcalls
  decide

end Stuff.ParserMultipart
