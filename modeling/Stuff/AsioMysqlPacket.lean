import Stuff.ByteReaders

/-!
# Packets of a database server

A packet has three bytes of length, one byte that counts the packets, and the payload. A result set
is a packet with the number of columns, a packet for each column, an end marker, a packet for each
row, and an end marker again. The reader is the other side of the protocol.
-/
namespace Stuff.AsioMysqlPacket
open ByteOrder ByteReaders MachineWords

/-! ## What the server writes -/

/-- `writeLenEnc(uint64_t)`. -/
def writeLenEnc (aValue : ℕ) : Bytes :=
  if aValue < 251 then littleEndian 1 aValue
  else if aValue < 2 ^ 16 then 0xFC :: littleEndian 2 aValue
  else if aValue < 2 ^ 24 then 0xFD :: littleEndian 3 aValue
  else 0xFE :: littleEndian 8 aValue

/-- `writeLenEnc(const std::string&)`. -/
def writeLenEncString (aStr : Bytes) : Bytes := writeLenEnc aStr.length ++ aStr

def write (aBuffer : Bytes) (aSequence : UInt8) : Bytes :=
  let sSize := UInt32.ofNat aBuffer.length ||| aSequence.toUInt32 <<< 24
  littleEndian 4 sSize.toNat ++ aBuffer

def MYSQL_TYPE_STRING : UInt8 := 254

structure Column where
  schema : Bytes := []
  table : Bytes := []
  name : Bytes
  character_set : UInt16 := 0x21
  column_length : UInt32 := 0
  column_type : UInt8 := MYSQL_TYPE_STRING
  column_flags : UInt16 := 0
  decimals : UInt8 := 0
deriving DecidableEq

def Column.serialize (c : Column) : Bytes :=
  writeLenEncString (ascii "def") ++ (writeLenEncString c.schema ++ (writeLenEncString c.table ++
    (writeLenEncString [] ++ (writeLenEncString c.name ++ (writeLenEncString [] ++ ([0x0c] ++
      (littleEndian 2 c.character_set.toNat ++ (littleEndian 4 c.column_length.toNat ++
        (littleEndian 1 c.column_type.toNat ++ (littleEndian 2 c.column_flags.toNat ++
          (littleEndian 1 c.decimals.toNat ++ littleEndian 2 0)))))))))))

/-- The end marker, with no warnings and no status. -/
def EofPacket.serialize : Bytes := [0xFE] ++ littleEndian 2 0 ++ littleEndian 2 0

/-- The values of a row; one that is missing is null. -/
abbrev ResultRow := List (Option Bytes)

def ResultRow.append : Option Bytes → Bytes
  | some aData => writeLenEncString aData
  | none => [0xFB]

def ResultRow.stream (row : ResultRow) : Bytes := (row.map ResultRow.append).flatten

structure ResultSet where
  columns : List Column
  rows : List ResultRow
deriving DecidableEq

/-- Each packet has the next number, which has eight bits. -/
def writeAll : UInt8 → List Bytes → Bytes
  | _, [] => []
  | sSerial, payload :: payloads => write payload sSerial ++ writeAll (sSerial + 1) payloads

def ResultSet.write (r : ResultSet) : Bytes :=
  writeAll 1 ([writeLenEnc r.columns.length] ++ r.columns.map Column.serialize ++
    [EofPacket.serialize] ++ r.rows.map ResultRow.stream ++ [EofPacket.serialize])

/-! ## How a client reads -/

namespace Protocol

/-- A length, or `none` for null. -/
def lenEnc : Reader (Option ℕ) := do
  let b ← peek
  if b < 0xFB then do
    let n ← little 1
    return some n
  else if b = 0xFB then do
    expect [0xFB]
    return none
  else if b = 0xFC then do
    expect [0xFC]
    let n ← little 2
    return some n
  else if b = 0xFD then do
    expect [0xFD]
    let n ← little 3
    return some n
  else do
    expect [0xFE]
    let n ← little 8
    return some n

def value : Reader (Option Bytes) := do
  let n ← lenEnc
  match n with
  | some n => do
      let text ← bytes n
      return some text
  | none => return none

/-- A text that is not null. -/
def string : Reader Bytes := do
  let x ← value
  match x with
  | some text => return text
  | none => failure

/-- A payload that is longer than this goes on in the next packet. -/
def maxPayload : ℕ := 2 ^ 24 - 1

/-- A packet with this number. -/
def packet (sequence : UInt8) : Reader Bytes := do
  let size ← little 3
  expect [sequence]
  guard (size < maxPayload)
  bytes size

def column : Reader Column := do
  expect (writeLenEncString (ascii "def"))
  let schema ← string
  let table ← string
  expect [0]
  let name ← string
  expect [0]
  expect [0x0c]
  let character_set ← little 2
  let column_length ← little 4
  let column_type ← little 1
  let column_flags ← little 2
  let decimals ← little 1
  expect [0, 0]
  return { schema, table, name
           character_set := UInt16.ofNat character_set
           column_length := UInt32.ofNat column_length
           column_type := UInt8.ofNat column_type
           column_flags := UInt16.ofNat column_flags
           decimals := UInt8.ofNat decimals }

/-- A payload that is all of something. -/
def payload {α : Type} (p : Reader α) (sequence : UInt8) : Reader α := do
  let text ← packet sequence
  match whole p text with
  | some a => return a
  | none => failure

def columns : ℕ → UInt8 → Reader (List Column)
  | 0, _ => return []
  | n + 1, sequence => do
      let c ← payload column sequence
      let cs ← columns n (sequence + 1)
      return c :: cs

/-- A short payload with this first byte is an end marker, and no row. -/
def isEof (text : Bytes) : Bool := text.head? = some 0xFE && text.length < 9

/-- The rows up to the end marker, at most `fuel - 1` of them. -/
def rows (n : ℕ) : ℕ → UInt8 → Reader (List ResultRow)
  | 0, _ => failure
  | fuel + 1, sequence => do
      let text ← packet sequence
      if isEof text then return []
      else
        match whole (times value n) text with
        | some row => do
            let rest ← rows n fuel (sequence + 1)
            return row :: rest
        | none => failure

def resultSet : Reader ResultSet := do
  let n ← payload lenEnc 1
  match n with
  | some (n + 1) => do
      let cs ← columns (n + 1) 2
      let text ← packet (2 + UInt8.ofNat (n + 1))
      guard (isEof text)
      let rs ← fun text => rows (n + 1) text.length (3 + UInt8.ofNat (n + 1)) text
      return { columns := cs, rows := rs }
  | _ => failure

end Protocol

/-! ## Reading back -/

open Protocol

theorem littleEndian_one {x : ℕ} : littleEndian 1 x = [UInt8.ofNat x] := rfl

theorem reads_lenEnc {x : ℕ} (hx : x < 2 ^ 64) : Reads lenEnc (writeLenEnc x) (some x) := by
  rw [writeLenEnc]
  by_cases hshort : x < 251
  · have hbyte : UInt8.ofNat x < 0xFB := by
      rw [UInt8.lt_iff_toNat_lt, UInt8.toNat_ofNat', Nat.mod_eq_of_lt (by omega)]
      exact hshort
    rw [if_pos hshort, littleEndian_one]
    apply Reads.peek
    rw [if_pos hbyte]
    exact (reads_little (n := 1) (by omega)).map some
  · rw [if_neg hshort]
    by_cases htwo : x < 2 ^ 16
    · rw [if_pos htwo]
      apply Reads.peek
      exact (reads_expect [0xFC]).bind ((reads_little (by omega)).map some)
    · rw [if_neg htwo]
      by_cases hthree : x < 2 ^ 24
      · rw [if_pos hthree]
        apply Reads.peek
        exact (reads_expect [0xFD]).bind ((reads_little (by omega)).map some)
      · rw [if_neg hthree]
        apply Reads.peek
        exact (reads_expect [0xFE]).bind ((reads_little (by omega)).map some)

theorem reads_lenEnc_null : Reads lenEnc [0xFB] none := by
  apply Reads.peek
  exact (reads_expect [0xFB]).map fun _ => none

theorem reads_value {aStr : Bytes} (hlen : aStr.length < 2 ^ 64) :
    Reads value (writeLenEncString aStr) (some aStr) :=
  (reads_lenEnc hlen).bind ((reads_bytes aStr).map some)

theorem reads_append {x : Option Bytes} (hlen : ∀ text ∈ x, text.length < 2 ^ 64) :
    Reads value (ResultRow.append x) x := by
  cases x with
  | none => exact reads_lenEnc_null.map fun _ => none
  | some aData => exact reads_value (hlen aData rfl)

theorem reads_string {aStr : Bytes} (hlen : aStr.length < 2 ^ 64) :
    Reads string (writeLenEncString aStr) aStr :=
  (reads_value hlen).bind_nil (reads_pure aStr)

/-- The highest byte is the last one. -/
theorem littleEndian_highest {size : ℕ} (hsize : size < 2 ^ 24) (b : UInt8) :
    littleEndian 4 (2 ^ 24 * b.toNat + size) = littleEndian 3 size ++ [b] := by
  have hfour (x : ℕ) : littleEndian 4 x = [UInt8.ofNat x, UInt8.ofNat (x / 256),
      UInt8.ofNat (x / 256 / 256), UInt8.ofNat (x / 256 / 256 / 256)] := rfl
  have hthree (x : ℕ) : littleEndian 3 x =
      [UInt8.ofNat x, UInt8.ofNat (x / 256), UInt8.ofNat (x / 256 / 256)] := rfl
  have hb := b.toNat_lt
  rw [hfour, hthree]
  simp only [List.cons_append, List.nil_append, List.cons.injEq, ← UInt8.toNat_inj,
    UInt8.toNat_ofNat', and_true]
  omega

theorem toNat_size_or {size : ℕ} (hsize : size < 2 ^ 24) (aSequence : UInt8) :
    (UInt32.ofNat size ||| aSequence.toUInt32 <<< 24).toNat = 2 ^ 24 * aSequence.toNat + size := by
  have hseq := aSequence.toNat_lt
  have hshift : (aSequence.toUInt32 <<< 24).toNat = 2 ^ 24 * aSequence.toNat := by
    rw [UInt32.toNat_shiftLeft, UInt8.toNat_toUInt32, Nat.shiftLeft_eq]
    change aSequence.toNat * 2 ^ 24 % 2 ^ 32 = _
    omega
  rw [UInt32.toNat_or, hshift, UInt32.toNat_ofNat', Nat.mod_eq_of_lt (by omega), Nat.or_comm,
    Nat.two_pow_add_eq_or_of_lt hsize]

/-- The four bytes before a payload are its length and its number, if the length has only three. -/
theorem write_eq {aBuffer : Bytes} (hlen : aBuffer.length < 2 ^ 24) (aSequence : UInt8) :
    write aBuffer aSequence = littleEndian 3 aBuffer.length ++ ([aSequence] ++ aBuffer) := by
  rw [write, toNat_size_or hlen, littleEndian_highest hlen, List.append_assoc]

theorem reads_packet {aBuffer : Bytes} (hlen : aBuffer.length < maxPayload) (aSequence : UInt8) :
    Reads (packet aSequence) (write aBuffer aSequence) aBuffer := by
  have hsize : aBuffer.length < 2 ^ 24 := by
    rw [maxPayload] at hlen
    omega
  rw [write_eq hsize]
  apply (reads_little (by omega)).bind
  apply (reads_expect [aSequence]).bind
  intro rest
  rw [guard, if_pos hlen]
  exact reads_bytes aBuffer rest

theorem reads_payload {α : Type} {p : Reader α} {text : Bytes} {a : α} (h : Reads p text a)
    (hlen : text.length < maxPayload) (sequence : UInt8) :
    Reads (payload p sequence) (write text sequence) a := by
  apply (reads_packet hlen sequence).bind_nil
  rw [h.whole]
  exact reads_pure a

/-- The texts of a column. -/
def Column.texts (c : Column) : List Bytes := [c.schema, c.table, c.name]

theorem reads_column {c : Column} (hlen : ∀ text ∈ c.texts, text.length < 2 ^ 64) :
    Reads column c.serialize c := by
  have hschema : c.schema.length < 2 ^ 64 := hlen _ (by simp [Column.texts])
  have htable : c.table.length < 2 ^ 64 := hlen _ (by simp [Column.texts])
  have hname : c.name.length < 2 ^ 64 := hlen _ (by simp [Column.texts])
  apply (reads_expect _).bind
  apply (reads_string hschema).bind
  apply (reads_string htable).bind
  apply (reads_expect [0]).bind
  apply (reads_string hname).bind
  apply (reads_expect [0]).bind
  apply (reads_expect [0x0c]).bind
  apply (reads_little c.character_set.toNat_lt).bind
  apply (reads_little c.column_length.toNat_lt).bind
  apply (reads_little c.column_type.toNat_lt).bind
  apply (reads_little c.column_flags.toNat_lt).bind
  apply (reads_little c.decimals.toNat_lt).bind
  apply (reads_expect [0, 0]).bind_nil
  simp only [UInt16.ofNat_toNat, UInt32.ofNat_toNat, UInt8.ofNat_toNat]
  exact reads_pure c

/-- What the packets have room for, and the rows have a value for each column. -/
structure ResultSet.Fits (r : ResultSet) : Prop where
  columns_ne : r.columns ≠ []
  columns_length : r.columns.length < 2 ^ 64
  column_short : ∀ c ∈ r.columns, c.serialize.length < maxPayload
  row_length : ∀ row ∈ r.rows, row.length = r.columns.length
  row_short : ∀ row ∈ r.rows, (ResultRow.stream row).length < maxPayload

theorem Column.text_le {c : Column} {text : Bytes} (htext : text ∈ c.texts) :
    text.length ≤ c.serialize.length := by
  simp only [Column.texts, List.mem_cons, List.not_mem_nil, or_false] at htext
  simp only [Column.serialize, writeLenEncString, List.length_append]
  rcases htext with rfl | rfl | rfl <;> omega

theorem maxPayload_lt : maxPayload < 2 ^ 24 := by decide

theorem reads_columns {cs : List Column} (hshort : ∀ c ∈ cs, c.serialize.length < maxPayload)
    (sequence : UInt8) :
    Reads (columns cs.length sequence) (writeAll sequence (cs.map Column.serialize)) cs := by
  induction cs generalizing sequence with
  | nil => exact reads_pure []
  | cons c cs ih =>
      have hc : c.serialize.length < maxPayload := hshort c List.mem_cons_self
      have htexts : ∀ text ∈ c.texts, text.length < 2 ^ 64 := by
        intro text htext
        have hle := Column.text_le htext
        have hmax := maxPayload_lt
        omega
      have hhead := reads_payload (reads_column htexts) hc sequence
      have htail := ih (fun c hmem => hshort c (List.mem_cons_of_mem _ hmem)) (sequence + 1)
      exact hhead.bind (htail.map _)

/-- The length of a text that fits does not begin with the byte of the end marker. -/
theorem head_writeLenEnc {x : ℕ} (hx : x < 2 ^ 24) (rest : Bytes) :
    (writeLenEnc x ++ rest).head? ≠ some 0xFE := by
  rw [writeLenEnc, if_pos hx]
  split
  · rw [littleEndian_one, List.singleton_append, List.head?_cons, ne_eq, Option.some.injEq,
      ← UInt8.toNat_inj, UInt8.toNat_ofNat']
    change ¬ x % 256 = 254
    omega
  · split <;> simp

theorem not_isEof_stream {row : ResultRow} (hne : row ≠ [])
    (hshort : (ResultRow.stream row).length < maxPayload) :
    isEof (ResultRow.stream row) = false := by
  have hhead : (ResultRow.stream row).head? ≠ some 0xFE := by
    cases row with
    | nil => exact absurd rfl hne
    | cons x row =>
        cases x with
        | none => simp [ResultRow.stream, ResultRow.append]
        | some aData =>
            have hmax := maxPayload_lt
            simp only [ResultRow.stream, ResultRow.append, List.map_cons, List.flatten_cons,
              writeLenEncString, List.length_append, List.append_assoc] at hshort ⊢
            exact head_writeLenEnc (by omega) _
  rw [isEof, Bool.and_eq_false_iff]
  exact .inl (decide_eq_false hhead)

theorem length_append_ge (x : Option Bytes) :
    ∀ text ∈ x, text.length ≤ (ResultRow.append x).length := by
  intro text htext
  rw [Option.mem_def] at htext
  rw [htext, ResultRow.append, writeLenEncString, List.length_append]
  exact Nat.le_add_left _ _

theorem reads_row {row : ResultRow} (hshort : (ResultRow.stream row).length < maxPayload) :
    Reads (times value row.length) (ResultRow.stream row) row := by
  apply reads_times
  rw [List.forall₂_map_left_iff, List.forall₂_same]
  intro x hmem
  apply reads_append
  intro text htext
  have hle := length_append_ge x text htext
  have hpart : (ResultRow.append x).length ≤ (ResultRow.stream row).length :=
    (List.sublist_flatten_of_mem (List.mem_map_of_mem hmem)).length_le
  have hmax := maxPayload_lt
  omega

theorem reads_rows {n : ℕ} {rs : List ResultRow} (hn : n ≠ 0) (hlength : ∀ row ∈ rs, row.length = n)
    (hshort : ∀ row ∈ rs, (ResultRow.stream row).length < maxPayload) {fuel : ℕ}
    (hfuel : rs.length < fuel) (sequence : UInt8) :
    Reads (rows n fuel sequence)
      (writeAll sequence (rs.map ResultRow.stream ++ [EofPacket.serialize])) rs := by
  induction rs generalizing fuel sequence with
  | nil =>
      cases fuel with
      | zero => exact absurd hfuel (Nat.lt_irrefl 0)
      | succ fuel =>
          have hpacket : Reads (packet sequence) (write EofPacket.serialize sequence)
              EofPacket.serialize := reads_packet (by decide) sequence
          exact hpacket.bind (reads_pure [])
  | cons row rs ih =>
      cases fuel with
      | zero => exact absurd hfuel (Nat.not_lt_zero _)
      | succ fuel =>
          have hrow : row.length = n := hlength row List.mem_cons_self
          have hne : row ≠ [] := by
            intro hnil
            rw [hnil] at hrow
            exact hn hrow.symm
          have hshort' := hshort row List.mem_cons_self
          have hvalues := reads_row hshort'
          rw [hrow] at hvalues
          have htail := ih (fun row hmem => hlength row (List.mem_cons_of_mem _ hmem))
            (fun row hmem => hshort row (List.mem_cons_of_mem _ hmem))
            (Nat.lt_of_succ_lt_succ hfuel) (sequence + 1)
          apply (reads_packet hshort' sequence).bind
          rw [not_isEof_stream hne hshort', hvalues.whole]
          exact htail.map _

theorem writeAll_append (sSerial : UInt8) (ps qs : List Bytes) :
    writeAll sSerial (ps ++ qs) =
      writeAll sSerial ps ++ writeAll (sSerial + UInt8.ofNat ps.length) qs := by
  induction ps generalizing sSerial with
  | nil => simp [writeAll]
  | cons p ps ih =>
      have hserial : sSerial + 1 + UInt8.ofNat ps.length =
          sSerial + UInt8.ofNat (ps.length + 1) := by
        rw [UInt8.ofNat_add, UInt8.add_assoc, UInt8.add_comm 1]
        rfl
      rw [List.cons_append, writeAll, writeAll, ih, hserial, List.append_assoc, List.length_cons]

/-- Every packet has at least its length, so there are no more of them than bytes. -/
theorem length_writeAll (sSerial : UInt8) (ps : List Bytes) :
    ps.length ≤ (writeAll sSerial ps).length := by
  induction ps generalizing sSerial with
  | nil => exact Nat.le_refl 0
  | cons p ps ih =>
      have hrest := ih (sSerial + 1)
      rw [writeAll, write, List.length_append, List.length_append, length_littleEndian,
        List.length_cons]
      omega

theorem ResultSet.write_eq (r : ResultSet) :
    r.write = AsioMysqlPacket.write (writeLenEnc r.columns.length) 1 ++
      (writeAll 2 (r.columns.map Column.serialize) ++
        (AsioMysqlPacket.write EofPacket.serialize (2 + UInt8.ofNat r.columns.length) ++
          writeAll (3 + UInt8.ofNat r.columns.length)
            (r.rows.map ResultRow.stream ++ [EofPacket.serialize]))) := by
  have hserial : 2 + UInt8.ofNat r.columns.length + 1 = 3 + UInt8.ofNat r.columns.length := by
    rw [UInt8.add_assoc, UInt8.add_comm _ 1, ← UInt8.add_assoc]
    rfl
  rw [ResultSet.write, List.append_assoc, List.append_assoc, List.append_assoc,
    List.singleton_append, writeAll, writeAll_append, List.singleton_append, writeAll,
    List.length_map]
  rw [show (1 : UInt8) + 1 = 2 from rfl, hserial]

theorem length_writeLenEnc (x : ℕ) : (writeLenEnc x).length ≤ 9 := by
  rw [writeLenEnc]
  split_ifs <;> simp

theorem reads_count {n : ℕ} (hn : n < 2 ^ 64) :
    Reads (payload lenEnc 1) (AsioMysqlPacket.write (writeLenEnc n) 1) (some n) := by
  apply reads_payload (reads_lenEnc hn)
  have hlen := length_writeLenEnc n
  have hmax : 9 < maxPayload := by decide
  omega

/-- There is fuel for as many rows as the text can have. -/
theorem reads_allRows {n : ℕ} {rs : List ResultRow} (hn : n ≠ 0)
    (hlength : ∀ row ∈ rs, row.length = n)
    (hshort : ∀ row ∈ rs, (ResultRow.stream row).length < maxPayload) (sequence : UInt8) :
    Reads (fun text => rows n text.length sequence text)
      (writeAll sequence (rs.map ResultRow.stream ++ [EofPacket.serialize])) rs := by
  intro rest
  have hpackets := length_writeAll sequence (rs.map ResultRow.stream ++ [EofPacket.serialize])
  rw [List.length_append, List.length_map, List.length_singleton] at hpackets
  apply reads_rows hn hlength hshort
  rw [List.length_append]
  omega

/-- The end of a result set is found, also if there are more packets than numbers for them. -/
theorem reads_resultSet (r : ResultSet) (h : r.Fits) : Reads resultSet r.write r := by
  have hne : r.columns.length ≠ 0 := fun hzero => h.columns_ne (List.length_eq_zero_iff.1 hzero)
  obtain ⟨n, hn⟩ := Nat.exists_eq_succ_of_ne_zero hne
  have hcolumns := reads_columns h.column_short 2
  have hrows := reads_allRows hne h.row_length h.row_short (3 + UInt8.ofNat r.columns.length)
  rw [ResultSet.write_eq]
  apply (reads_count h.columns_length).bind
  rw [hn] at hcolumns hrows ⊢
  apply hcolumns.bind
  exact (reads_packet (by decide) _).bind (hrows.map _)

/-- Of a connection on which the server has written one result set after the other, a client reads
these result sets, and nothing of what comes behind them. -/
theorem reads_resultSets (rs : List ResultSet) (h : ∀ r ∈ rs, r.Fits) :
    Reads (times resultSet rs.length) (rs.map ResultSet.write).flatten rs := by
  apply reads_times
  rw [List.forall₂_map_left_iff, List.forall₂_same]
  exact fun r hmem => reads_resultSet r (h r hmem)

/-- A table with a null. -/
def selectTest : ResultSet where
  columns := [{ name := ascii "id", column_type := 3 }, { name := ascii "label" }]
  rows := [[some (ascii "1"), some (ascii "one")], [some (ascii "3"), none]]

def selectUser : ResultSet where
  columns := [{ name := ascii "USER()" }]
  rows := [[some (ascii "manager")]]

theorem reads_resultSets_null :
    Reads (times resultSet 2) (selectTest.write ++ (selectUser.write ++ []))
      [selectTest, selectUser] := by
  have hfits : ∀ r ∈ [selectTest, selectUser], r.Fits := by
    intro r hmem
    simp only [List.mem_cons, List.not_mem_nil, or_false] at hmem
    rcases hmem with rfl | rfl <;> constructor <;> decide +kernel
  exact reads_resultSets [selectTest, selectUser] hfits

end Stuff.AsioMysqlPacket
