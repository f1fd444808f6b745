import Stuff.ByteOrder
import Stuff.ByteSources
import Stuff.ContainerStream
import Stuff.Loops

/-!
# Event streams

`Parser::AWS::Stream` reads frames one after the other. The length of a frame says where
its checksum is, where its headers end and where its payload ends; in a well formed frame
these are the same place. The loop ends for every input, because a frame has a prelude.
-/
namespace Stuff.ParserAws
open ByteOrder ByteSources ContainerStream Loops MachineWords

/-- The exceptions: the last one has a text that is taken from the stream. -/
inductive Error
  | what (text : String)
  | errorMessage (value : Bytes)
deriving DecidableEq, Repr

def CRC_SIZE : UInt32 := 4

/-- `substring`, and `read` of a number as its bytes in memory. -/
def take (n : ℕ) : Parser Imemstream Bytes := fun s => s.substring n

def skip (n : ℕ) : Parser Imemstream Unit := fun s => (s.skip n).map fun s => ((), s)

def be32toh (bs : Bytes) : UInt32 := UInt32.ofNat (ofBigEndian bs)

structure Prelude where
  total : UInt32
  headers : UInt32
deriving DecidableEq, Repr

structure KV where
  name : Bytes
  value : Bytes
deriving DecidableEq, Repr

def Prelude.dataSize (p : Prelude) : UInt32 := p.total - p.headers - 16

def KV.read : Parser Imemstream KV := do
  let sHSize ← take 1
  let name ← take (ofBigEndian sHSize)
  let sSeven ← take 1
  -- the character, not the number
  if sSeven = [0x37] then throw "Parser::AWS invalid kv entry"
  else
    let sVSize ← take 2
    let value ← take (ofBigEndian sVSize)
    pure { name, value }

def KV.isRecords (kv : KV) : Bool := kv.name = ascii ":event-type" ∧ kv.value = ascii "Records"

def KV.isError (kv : KV) : Bool := kv.name = ascii ":error-message"

/-- A turn of the loop over the headers; the flag is `sRecords`. -/
def headerTurn (s : Imemstream × Bool) : Turn (Imemstream × Bool) (Except Error Bool) :=
  if s.1.eof then .leave (.ok s.2)
  else
    match KV.read s.1 with
    | .error e => .leave (.error (.what e))
    | .ok (sKV, sHeader) =>
        if sKV.isError then .leave (.error (.errorMessage sKV.value))
        else .next (sHeader, s.2 || sKV.isRecords)

/-- The loop over the headers. -/
def readHeaders (n : ℕ) (sHeader : Bytes) : Option (Except Error Bool) :=
  loop (fun _ s => some (headerTurn s)) n ({ data := sHeader }, false)

/-- The payload of a frame, and its checksum that is not looked at again. -/
def closing (sPre : Prelude) : Parser Imemstream Bytes := do
  let data ← take sPre.dataSize.toNat
  skip CRC_SIZE.toNat
  pure data

/-- The stream with what was appended so far. -/
abbrev State := Imemstream × Bytes

/-- What is behind the loop over the headers. -/
def closeTurn (sPre : Prelude) (sStream : Imemstream) (sStr : Bytes) :
    Except Error Bool → Turn State (Except Error State)
  | .error e => .leave (.error e)
  | .ok sRecords =>
      match closing sPre sStream with
      | .error e => .leave (.error (.what e))
      | .ok (data, sStream) => .next (sStream, if sRecords then sStr ++ data else sStr)

section
variable (crc : Bytes → UInt32)

def Prelude.read : Parser Imemstream Prelude := do
  let total ← take 4
  let headers ← take 4
  let sRemoteCRC ← take 4
  if crc (total ++ headers) ≠ be32toh sRemoteCRC then
    throw "Parser::AWS invalid prelude checksum"
  else
    pure { total := be32toh total, headers := be32toh headers }

def checkMessage (sOffset : ℕ) (sPre : Prelude) : Parser Imemstream Unit := fun sStream => do
  let sMessage ← sStream.substrAt sOffset (sPre.total - CRC_SIZE).toNat
  let sRemoteCRC ← sStream.substrAt ((sOffset + sMessage.length) % 2 ^ 64) CRC_SIZE.toNat
  if crc sMessage ≠ be32toh sRemoteCRC then
    throw "Parser::AWS invalid message checksum"
  else
    pure ((), sStream)

/-- A frame up to the end of its headers. -/
def opening : Parser Imemstream (Prelude × Bytes) := do
  let sStream ← get
  let sPre ← Prelude.read crc
  checkMessage crc sStream.offset sPre
  let sHeader ← take sPre.headers.toNat
  pure (sPre, sHeader)

def frameTurn (n : ℕ) (s : State) : Option (Turn State (Except Error State)) :=
  if s.1.eof then some (.leave (.ok s))
  else
    match opening crc s.1 with
    | .error e => some (.leave (.error (.what e)))
    | .ok ((sPre, sHeader), sStream) =>
        (readHeaders n sHeader).map (closeTurn sPre sStream s.2)

/-- `Stream` with the state in which its loop ends. -/
def streamLoop (n : ℕ) (aData : Bytes) : Option (Except Error State) :=
  loop (frameTurn crc) n ({ data := aData }, [])

def stream (n : ℕ) (aData : Bytes) : Option (Except Error Bytes) :=
  (streamLoop crc n aData).map fun r => r.map Prod.snd

end

/-! ## Frames -/

def KV.bytes (kv : KV) : Bytes :=
  bigEndian 1 kv.name.length ++ (kv.name ++ ([7] ++ (bigEndian 2 kv.value.length ++ kv.value)))

def headerBytes (headers : List KV) : Bytes := headers.flatMap KV.bytes

structure Frame where
  headers : List KV
  data : Bytes
  fits : 16 + (headerBytes headers).length + data.length < 2 ^ 32
  kvFits : ∀ kv ∈ headers, kv.name.length < 2 ^ 8 ∧ kv.value.length < 2 ^ 16
  noError : ∀ kv ∈ headers, kv.isError = false

namespace Frame

def total (f : Frame) : ℕ := 16 + (headerBytes f.headers).length + f.data.length

def lengths (f : Frame) : Bytes :=
  bigEndian 4 f.total ++ bigEndian 4 (headerBytes f.headers).length

/-- All but the checksum behind it. -/
def message (crc : Bytes → UInt32) (f : Frame) : Bytes :=
  f.lengths ++ (bigEndian 4 (crc f.lengths).toNat ++ (headerBytes f.headers ++ f.data))

def bytes (crc : Bytes → UInt32) (f : Frame) : Bytes :=
  f.message crc ++ bigEndian 4 (crc (f.message crc)).toNat

def isRecords (f : Frame) : Bool := f.headers.any KV.isRecords

end Frame

/-- The payloads of the frames with records. -/
def payloads (frames : List Frame) : Bytes := (frames.filter Frame.isRecords).flatMap Frame.data

/-- A frame with any bytes in the place of its headers. -/
structure Envelope where
  header : Bytes
  data : Bytes
  fits : 16 + header.length + data.length < 2 ^ 32

namespace Envelope

def total (e : Envelope) : ℕ := 16 + e.header.length + e.data.length

def lengths (e : Envelope) : Bytes := bigEndian 4 e.total ++ bigEndian 4 e.header.length

/-- All but the checksum behind it. -/
def message (crc : Bytes → UInt32) (e : Envelope) : Bytes :=
  e.lengths ++ (bigEndian 4 (crc e.lengths).toNat ++ (e.header ++ e.data))

def bytes (crc : Bytes → UInt32) (e : Envelope) : Bytes :=
  e.message crc ++ bigEndian 4 (crc (e.message crc)).toNat

/-- What the lengths of a frame add up to, in its prelude. -/
def prelude (e : Envelope) : Prelude :=
  { total := be32toh (bigEndian 4 e.total)
    headers := be32toh (bigEndian 4 e.header.length) }

end Envelope

def Frame.envelope (f : Frame) : Envelope :=
  { header := headerBytes f.headers, data := f.data, fits := f.fits }

/-! ## Reading a frame -/

/-- The stream of `data` that has `rest` before it. -/
def before (data rest : Bytes) : Imemstream :=
  { data := data, offset := data.length - rest.length }

theorem before_self (data : Bytes) : before data data = { data := data } := by
  rw [before, Nat.sub_self]

section
variable {data rest : Bytes}

theorem eof_before (h : rest <:+ data) : (before data rest).eof = decide (rest = []) := by
  have hle := h.length_le
  apply decide_eq_decide.mpr
  rw [← List.length_eq_zero_iff]
  change data.length ≤ data.length - rest.length ↔ _
  omega

theorem drop_before (h : rest <:+ data) : data.drop (before data rest).offset = rest := by
  obtain ⟨front, rfl⟩ := h
  rw [before, List.length_append, Nat.add_sub_cancel, List.drop_left]

theorem offset_before (h : rest <:+ data) :
    (before data rest).offset + rest.length = data.length := by
  have hle := h.length_le
  change data.length - rest.length + rest.length = _
  omega

theorem substring_before {bs : Bytes} (h : bs ++ rest <:+ data) (hsize : data.length < 2 ^ 63) :
    (before data (bs ++ rest)).substring bs.length = .ok (bs, before data rest) := by
  have hoffset := offset_before h
  have hrest := offset_before ((List.suffix_append bs rest).trans h)
  rw [List.length_append] at hoffset
  have hfits : (before data (bs ++ rest)).offset + bs.length ≤ data.length := by omega
  have hnext : (before data (bs ++ rest)).offset + bs.length = (before data rest).offset := by
    omega
  rw [Imemstream.substring_of_le hfits (hsize.trans (by decide)), hnext]
  change Except.ok ((data.drop _).take _, before data rest) = _
  rw [drop_before h, List.take_left]

theorem take_before {bs : Bytes} {n : ℕ} (hn : bs.length = n) (h : bs ++ rest <:+ data)
    (hsize : data.length < 2 ^ 63) :
    take n (before data (bs ++ rest)) = .ok (bs, before data rest) := by
  rw [← hn]
  exact substring_before h hsize

theorem skip_before {bs : Bytes} {n : ℕ} (hn : bs.length = n) (h : bs ++ rest <:+ data)
    (hsize : data.length < 2 ^ 63) :
    skip n (before data (bs ++ rest)) = .ok ((), before data rest) := by
  rw [← hn, skip, Imemstream.skip, substring_before h hsize]
  rfl

theorem substrAt_before {bs : Bytes} {n : ℕ} (hn : bs.length = n) (h : bs ++ rest <:+ data)
    (hsize : data.length < 2 ^ 63) (s : Bytes) :
    (before data s).substrAt (before data (bs ++ rest)).offset n = .ok bs := by
  have hoffset := offset_before h
  rw [List.length_append] at hoffset
  have hfits : (before data (bs ++ rest)).offset + n ≤ data.length := by omega
  rw [Imemstream.substrAt_of_le hfits (hsize.trans (by decide))]
  change Except.ok ((data.drop _).take n) = _
  rw [drop_before h, ← hn, List.take_left]

theorem toNat_be32toh {n : ℕ} (h : n < 2 ^ 32) : (be32toh (bigEndian 4 n)).toNat = n := by
  rw [be32toh, ofBigEndian_bigEndian (by omega)]
  exact UInt32.toNat_ofNat_of_lt' h

theorem be32toh_toNat (x : UInt32) : be32toh (bigEndian 4 x.toNat) = x := by
  rw [← UInt32.toNat_inj, toNat_be32toh x.toNat_lt]

/-- The type of an entry is the number seven, which is not the character. -/
theorem read_kv {kv : KV} (hname : kv.name.length < 2 ^ 8) (hvalue : kv.value.length < 2 ^ 16)
    (h : kv.bytes ++ rest <:+ data) (hsize : data.length < 2 ^ 63) :
    KV.read (before data (kv.bytes ++ rest)) = .ok (kv, before data rest) := by
  have hassoc : kv.bytes ++ rest = bigEndian 1 kv.name.length ++ (kv.name ++ ([7] ++
      (bigEndian 2 kv.value.length ++ (kv.value ++ rest)))) := by
    simp only [KV.bytes, List.append_assoc]
  rw [hassoc] at h ⊢
  have h₁ := (List.suffix_append _ _).trans h
  have h₂ := (List.suffix_append _ _).trans h₁
  have h₃ := (List.suffix_append _ _).trans h₂
  have h₄ := (List.suffix_append _ _).trans h₃
  rw [KV.read, bind_of_ok (take_before (length_bigEndian 1 _) h hsize),
    ofBigEndian_bigEndian (by omega), bind_of_ok (take_before rfl h₁ hsize),
    bind_of_ok (take_before (n := 1) rfl h₂ hsize), if_neg (by decide),
    bind_of_ok (take_before (length_bigEndian 2 _) h₃ hsize),
    ofBigEndian_bigEndian (by omega), bind_of_ok (take_before rfl h₄ hsize)]
  rfl

end

theorem headerBytes_cons (kv : KV) (headers : List KV) :
    headerBytes (kv :: headers) = kv.bytes ++ headerBytes headers := rfl

theorem length_kv_pos (kv : KV) : 0 < kv.bytes.length := by
  simp [KV.bytes]

/-- A turn over an entry. -/
theorem headerTurn_kv {data rest : Bytes} {kv : KV} (hname : kv.name.length < 2 ^ 8)
    (hvalue : kv.value.length < 2 ^ 16) (h : kv.bytes ++ rest <:+ data)
    (hsize : data.length < 2 ^ 63) (sRecords : Bool) :
    headerTurn (before data (kv.bytes ++ rest), sRecords) =
      if kv.isError then .leave (.error (.errorMessage kv.value))
      else .next (before data rest, sRecords || kv.isRecords) := by
  have heof : (before data (kv.bytes ++ rest)).eof = false := by
    rw [eof_before h, decide_eq_false_iff_not, ← List.length_eq_zero_iff, List.length_append]
    have hpos := length_kv_pos kv
    omega
  rw [headerTurn, heof]
  simp only [Bool.false_eq_true, if_false]
  rw [read_kv hname hvalue h hsize]

/-- Entries without an error message are read, and what is behind them. -/
theorem loop_headerTurn {data rest : Bytes} (hsize : data.length < 2 ^ 63) {headers : List KV}
    (hfits : ∀ kv ∈ headers, kv.name.length < 2 ^ 8 ∧ kv.value.length < 2 ^ 16)
    (herror : ∀ kv ∈ headers, kv.isError = false) (h : headerBytes headers ++ rest <:+ data)
    {sRecords : Bool} {r : Except Error Bool}
    (hrest : Returns (fun n => loop (fun _ s => some (headerTurn s)) n
      (before data rest, sRecords || headers.any KV.isRecords)) r) :
    Returns (fun n => loop (fun _ s => some (headerTurn s)) n
      (before data (headerBytes headers ++ rest), sRecords)) r := by
  induction headers generalizing sRecords with
  | nil =>
      rw [List.any_nil, Bool.or_false] at hrest
      exact hrest
  | cons kv headers ih =>
      rw [headerBytes_cons, List.append_assoc] at h ⊢
      have hkv := hfits kv List.mem_cons_self
      have hturn := headerTurn_kv hkv.1 hkv.2 h hsize sRecords
      simp only [herror kv List.mem_cons_self, Bool.false_eq_true, if_false] at hturn
      rw [List.any_cons, ← Bool.or_assoc] at hrest
      exact loop_next_of_eq hturn (ih (fun x hx => hfits x (List.mem_cons_of_mem kv hx))
        (fun x hx => herror x (List.mem_cons_of_mem kv hx)) ((List.suffix_append _ _).trans h)
        hrest)

theorem readHeaders_frame (f : Frame) :
    Returns (fun n => readHeaders n (headerBytes f.headers)) (.ok f.isRecords) := by
  have hfits := f.fits
  have hsize : (headerBytes f.headers).length < 2 ^ 63 := by omega
  have hend : Returns (fun n => loop (fun _ s => some (headerTurn s)) n
      (before (headerBytes f.headers) [], false || f.headers.any KV.isRecords))
      (.ok f.isRecords) := by
    apply loop_leave_of_eq
    have heof : (before (headerBytes f.headers) []).eof = true := eof_before List.nil_suffix
    rw [headerTurn, heof]
    rfl
  have hloop := loop_headerTurn hsize f.kvFits f.noError
    (by rw [List.append_nil]) hend
  rw [List.append_nil, before_self] at hloop
  exact hloop

section
variable (crc : Bytes → UInt32) {data rest : Bytes}

theorem Envelope.length_lengths (e : Envelope) : e.lengths.length = 8 := by
  simp [Envelope.lengths]

theorem Envelope.length_message (e : Envelope) : (e.message crc).length + 4 = e.total := by
  simp only [Envelope.message, List.length_append, e.length_lengths, length_bigEndian,
    Envelope.total]
  omega

theorem Envelope.prelude_total (e : Envelope) :
    (e.prelude.total - CRC_SIZE).toNat + 4 = e.total := by
  have hfits : e.total < 2 ^ 32 := e.fits
  have htotal : e.prelude.total.toNat = e.total := toNat_be32toh hfits
  have hle : 16 ≤ e.total := by
    rw [Envelope.total]
    omega
  have hsub : (e.prelude.total - CRC_SIZE).toNat = e.prelude.total.toNat - 4 :=
    toNat_sub_ofNat (n := 4) (by omega)
  omega

theorem Envelope.prelude_headers (e : Envelope) :
    e.prelude.headers.toNat = e.header.length := by
  have hfits := e.fits
  exact toNat_be32toh (by omega)

theorem Envelope.prelude_dataSize (e : Envelope) : e.prelude.dataSize.toNat = e.data.length := by
  have hfits := e.fits
  have htotal : e.prelude.total.toNat = e.total := toNat_be32toh hfits
  have hheaders := e.prelude_headers
  rw [Envelope.total] at htotal
  have hsub : (e.prelude.total - e.prelude.headers).toNat =
      e.prelude.total.toNat - e.prelude.headers.toNat := by
    apply UInt32.toNat_sub_of_le
    rw [UInt32.le_iff_toNat_le]
    omega
  have hsub' : e.prelude.dataSize.toNat = (e.prelude.total - e.prelude.headers).toNat - 16 :=
    toNat_sub_ofNat (n := 16) (by omega)
  omega

theorem read_prelude (e : Envelope) (h : bigEndian 4 e.total ++
      (bigEndian 4 e.header.length ++ (bigEndian 4 (crc e.lengths).toNat ++ rest))
        <:+ data) (hsize : data.length < 2 ^ 63) :
    Prelude.read crc (before data (bigEndian 4 e.total ++
      (bigEndian 4 e.header.length ++
        (bigEndian 4 (crc e.lengths).toNat ++ rest)))) =
      .ok (e.prelude, before data rest) := by
  have h₁ := (List.suffix_append _ _).trans h
  have h₂ := (List.suffix_append _ _).trans h₁
  rw [Prelude.read, bind_of_ok (take_before (length_bigEndian 4 _) h hsize),
    bind_of_ok (take_before (length_bigEndian 4 _) h₁ hsize),
    bind_of_ok (take_before (length_bigEndian 4 _) h₂ hsize), be32toh_toNat,
    if_neg (not_not_intro (by rfl))]
  rfl

/-- The offset is the one of the frame, wherever the stream is. -/
theorem checkMessage_envelope (e : Envelope) (h : e.bytes crc ++ rest <:+ data)
    (hsize : data.length < 2 ^ 63) (s : Bytes) :
    checkMessage crc (before data (e.bytes crc ++ rest)).offset e.prelude (before data s) =
      .ok ((), before data s) := by
  have htotal := e.prelude_total
  have hlength := e.length_message crc
  rw [Envelope.bytes, List.append_assoc] at h ⊢
  have h₁ := (List.suffix_append _ _).trans h
  have hoffset := offset_before h
  have hoffset₁ := offset_before h₁
  rw [List.length_append] at hoffset
  have hnext : ((before data (e.message crc ++
      (bigEndian 4 (crc (e.message crc)).toNat ++ rest))).offset + (e.message crc).length) %
        2 ^ 64 = (before data (bigEndian 4 (crc (e.message crc)).toNat ++ rest)).offset := by
    omega
  have hmessage := substrAt_before (n := (e.prelude.total - CRC_SIZE).toNat) (by omega) h hsize s
  have hcrc := substrAt_before (n := CRC_SIZE.toNat) (length_bigEndian 4 _) h₁ hsize s
  rw [← hnext] at hcrc
  simp only [checkMessage, hmessage, hcrc, be32toh_toNat, bind, Except.bind, ne_eq,
    not_true_eq_false, if_false]
  rfl

theorem eof_envelope (e : Envelope) (h : e.bytes crc ++ rest <:+ data) :
    (before data (e.bytes crc ++ rest)).eof = false := by
  have hlength := e.length_message crc
  rw [eof_before h, decide_eq_false_iff_not, ← List.length_eq_zero_iff, Envelope.bytes,
    List.length_append, List.length_append, length_bigEndian]
  omega

theorem opening_envelope (e : Envelope) (h : e.bytes crc ++ rest <:+ data)
    (hsize : data.length < 2 ^ 63) :
    opening crc (before data (e.bytes crc ++ rest)) =
      .ok ((e.prelude, e.header), before data
        (e.data ++ (bigEndian 4 (crc (e.message crc)).toNat ++ rest))) := by
  have hmessage : e.bytes crc ++ rest =
      e.message crc ++ (bigEndian 4 (crc (e.message crc)).toNat ++ rest) := by
    rw [Envelope.bytes, List.append_assoc]
  have hassoc : e.bytes crc ++ rest = bigEndian 4 e.total ++
      (bigEndian 4 e.header.length ++ (bigEndian 4 (crc e.lengths).toNat ++
        (e.header ++
          (e.data ++ (bigEndian 4 (crc (e.message crc)).toNat ++ rest))))) := by
    rw [hmessage]
    simp only [Envelope.message, Envelope.lengths, List.append_assoc]
  have hsuffix := h
  rw [hassoc] at hsuffix
  have hbody : e.header ++
      (e.data ++ (bigEndian 4 (crc (e.message crc)).toNat ++ rest)) <:+ data :=
    (List.suffix_append _ _).trans ((List.suffix_append _ _).trans
      ((List.suffix_append _ _).trans hsuffix))
  have hget : (get : Parser Imemstream Imemstream) (before data (e.bytes crc ++ rest)) =
      .ok (before data (e.bytes crc ++ rest), before data (e.bytes crc ++ rest)) := rfl
  have hread := read_prelude crc e hsuffix hsize
  rw [← hassoc] at hread
  rw [opening, bind_of_ok hget, bind_of_ok hread,
    bind_of_ok (checkMessage_envelope crc e h hsize _),
    bind_of_ok (take_before e.prelude_headers.symm hbody hsize)]
  rfl

theorem closing_envelope (e : Envelope) {bs : Bytes} (hbs : bs.length = 4)
    (h : e.data ++ (bs ++ rest) <:+ data) (hsize : data.length < 2 ^ 63) :
    closing e.prelude (before data (e.data ++ (bs ++ rest))) =
      .ok (e.data, before data rest) := by
  have hcrc := (List.suffix_append _ _).trans h
  rw [closing, bind_of_ok (take_before e.prelude_dataSize.symm h hsize),
    bind_of_ok (skip_before (n := CRC_SIZE.toNat) hbs hcrc hsize)]
  rfl

/-- What the lengths of a frame add up to, in its prelude. -/
def Frame.prelude (f : Frame) : Prelude :=
  { total := be32toh (bigEndian 4 f.total)
    headers := be32toh (bigEndian 4 (headerBytes f.headers).length) }

theorem opening_frame (f : Frame) (h : f.bytes crc ++ rest <:+ data)
    (hsize : data.length < 2 ^ 63) :
    opening crc (before data (f.bytes crc ++ rest)) =
      .ok ((f.prelude, headerBytes f.headers), before data
        (f.data ++ (bigEndian 4 (crc (f.message crc)).toNat ++ rest))) :=
  opening_envelope crc f.envelope h hsize

theorem closing_frame (f : Frame) {bs : Bytes} (hbs : bs.length = 4)
    (h : f.data ++ (bs ++ rest) <:+ data) (hsize : data.length < 2 ^ 63) :
    closing f.prelude (before data (f.data ++ (bs ++ rest))) =
      .ok (f.data, before data rest) :=
  closing_envelope f.envelope hbs h hsize

theorem frameTurn_frame (f : Frame) (h : f.bytes crc ++ rest <:+ data)
    (hsize : data.length < 2 ^ 63) (sStr : Bytes) :
    Returns (fun n => frameTurn crc n (before data (f.bytes crc ++ rest), sStr))
      (.next (before data rest, if f.isRecords then sStr ++ f.data else sStr)) := by
  have heof : (before data (f.bytes crc ++ rest)).eof = false := eof_envelope crc f.envelope h
  have hdata : f.data ++ (bigEndian 4 (crc (f.message crc)).toNat ++ rest) <:+ data := by
    have hassoc : f.bytes crc ++ rest =
        (f.lengths ++ bigEndian 4 (crc f.lengths).toNat ++ headerBytes f.headers) ++
          (f.data ++ (bigEndian 4 (crc (f.message crc)).toNat ++ rest)) := by
      simp only [Frame.bytes, Frame.message, List.append_assoc]
    rw [hassoc] at h
    exact (List.suffix_append _ _).trans h
  have hheaders := (readHeaders_frame f).map (closeTurn f.prelude (before data
    (f.data ++ (bigEndian 4 (crc (f.message crc)).toNat ++ rest))) sStr)
  have hclose := closing_frame f (length_bigEndian 4 _) hdata hsize
  rw [closeTurn, hclose] at hheaders
  simp only [frameTurn, heof, Bool.false_eq_true, if_false, opening_frame crc f h hsize]
  exact hheaders

end

/-- Well formed frames are read, and what is behind them. -/
theorem loop_frameTurn (crc : Bytes → UInt32) {data rest : Bytes} (hsize : data.length < 2 ^ 63)
    (frames : List Frame) (h : frames.flatMap (Frame.bytes crc) ++ rest <:+ data) {sStr : Bytes}
    {r : Except Error State}
    (hrest : Returns (fun n => loop (frameTurn crc) n (before data rest, sStr ++ payloads frames))
      r) :
    Returns (fun n => loop (frameTurn crc) n
      (before data (frames.flatMap (Frame.bytes crc) ++ rest), sStr)) r := by
  induction frames generalizing sStr with
  | nil =>
      rw [show payloads [] = [] from rfl, List.append_nil] at hrest
      exact hrest
  | cons f frames ih =>
      rw [List.flatMap_cons, List.append_assoc] at h ⊢
      have hpayloads : sStr ++ payloads (f :: frames) =
          (if f.isRecords then sStr ++ f.data else sStr) ++ payloads frames := by
        cases hrecords : f.isRecords with
        | false => simp [payloads, hrecords]
        | true => simp [payloads, hrecords]
      rw [hpayloads] at hrest
      exact loop_next (frameTurn_frame crc f h hsize sStr)
        (ih ((List.suffix_append _ _).trans h) hrest)

/-- At the end of the data the loop is left. -/
theorem loop_frameTurn_end (crc : Bytes → UInt32) (data sStr : Bytes) :
    Returns (fun n => loop (frameTurn crc) n (before data [], sStr))
      (.ok (before data [], sStr)) := by
  have heof := eof_before (List.nil_suffix (l := data))
  apply loop_leave
  simp only [frameTurn, heof, decide_true, if_true]
  exact returns_some _

/-! ## Every input -/

/-- What holds of a stream between its reads. -/
def Fits (s : Imemstream) : Prop := s.offset ≤ s.data.length ∧ s.data.length < 2 ^ 63

/-- A parser that fails, or goes on by `k` bytes at least. -/
def Advances {α : Type} (k : ℕ) (p : Parser Imemstream α) : Prop :=
  ∀ s a s', Fits s → p s = .ok (a, s') → Fits s' ∧ s'.data = s.data ∧ s.offset + k ≤ s'.offset

theorem take_eq_ok {n : ℕ} {s s' : Imemstream} {bs : Bytes} (hn : n < 2 ^ 63) (hs : Fits s)
    (h : take n s = .ok (bs, s')) :
    s.offset + n ≤ s.data.length ∧ bs = (s.data.drop s.offset).take n ∧
      s' = { s with offset := s.offset + n } := by
  obtain ⟨hoffset, hsize⟩ := hs
  change s.substring n = _ at h
  by_cases hle : s.offset + n ≤ s.data.length
  · rw [Imemstream.substring_of_le hle (hsize.trans (by decide))] at h
    cases h
    exact ⟨hle, rfl, rfl⟩
  · rw [Imemstream.substring_of_lt (by omega) (by omega)] at h
    cases h

theorem advances_take {n : ℕ} (hn : n < 2 ^ 63) : Advances n (take n) := by
  rintro s bs s' hs htake
  obtain ⟨hle, rfl, rfl⟩ := take_eq_ok hn hs htake
  exact ⟨⟨hle, hs.2⟩, rfl, le_rfl⟩

theorem advances_pure {α : Type} (a : α) : Advances 0 (pure a) := by
  rintro s b s' hs hpure
  cases hpure
  exact ⟨hs, rfl, le_rfl⟩

theorem advances_throw {α : Type} (k : ℕ) (e : String) :
    Advances k (throw e : Parser Imemstream α) := by
  rintro s a s' - hthrow
  cases hthrow

/-- Both parts of a sequence that succeeds. -/
theorem bind_eq_ok {α β : Type} {p : Parser Imemstream α} {f : α → Parser Imemstream β}
    {s s' : Imemstream} {b : β} (h : (p >>= f) s = .ok (b, s')) :
    ∃ a inner, p s = .ok (a, inner) ∧ f a inner = .ok (b, s') := by
  cases hp : p s with
  | error e =>
      rw [bind_of_error hp] at h
      cases h
  | ok r =>
      rw [bind_of_ok hp] at h
      exact ⟨r.1, r.2, rfl, h⟩

theorem Advances.bind {α β : Type} {j k : ℕ} {p : Parser Imemstream α}
    {f : α → Parser Imemstream β} (hp : Advances j p) (hf : ∀ a, Advances k (f a)) :
    Advances (j + k) (p >>= f) := by
  rintro s b s' hs hbind
  obtain ⟨a, inner, hfirst, hnext⟩ := bind_eq_ok hbind
  obtain ⟨hinner, hdata, hle⟩ := hp s a inner hs hfirst
  obtain ⟨hs', hdata', hle'⟩ := hf a inner b s' hinner hnext
  exact ⟨hs', hdata'.trans hdata, by omega⟩

theorem Advances.mono {α : Type} {j k : ℕ} {p : Parser Imemstream α} (h : Advances k p)
    (hle : j ≤ k) : Advances j p := by
  rintro s a s' hs hp
  obtain ⟨hs', hdata, hk⟩ := h s a s' hs hp
  exact ⟨hs', hdata, by omega⟩

theorem advances_skip {n : ℕ} (hn : n < 2 ^ 63) : Advances n (skip n) := by
  rintro s u s' hs hskip
  cases htake : s.substring n with
  | error e =>
      rw [skip, Imemstream.skip, htake] at hskip
      cases hskip
  | ok r =>
      rw [skip, Imemstream.skip, htake] at hskip
      cases hskip
      exact advances_take hn s r.1 r.2 hs htake

/-- What is read has the length that was asked for, so a length in it is small. -/
theorem advances_take_bind {α : Type} {n k : ℕ} (hn : n < 2 ^ 63)
    {f : Bytes → Parser Imemstream α} (hf : ∀ bs, bs.length = n → Advances k (f bs)) :
    Advances (n + k) (take n >>= f) := by
  rintro s b s' hs hbind
  obtain ⟨bs, inner, htake, hnext⟩ := bind_eq_ok hbind
  obtain ⟨hle, rfl, rfl⟩ := take_eq_ok hn hs htake
  have hlength : ((s.data.drop s.offset).take n).length = n := by
    rw [List.length_take, List.length_drop]
    omega
  obtain ⟨hs', hdata, hoffset⟩ :=
    hf _ hlength { s with offset := s.offset + n } b s' ⟨hle, hs.2⟩ hnext
  exact ⟨hs', hdata, by rw [← Nat.add_assoc]; exact hoffset⟩

theorem advances_kv : Advances 4 KV.read := by
  have hvalue : ∀ name bs, bs.length = 2 → Advances 0 (take (ofBigEndian bs) >>= fun value =>
      pure { name, value : KV }) := by
    intro name bs hlength
    have hlt := ofBigEndian_lt bs
    rw [hlength] at hlt
    exact ((advances_take (by omega)).bind fun value => advances_pure _).mono (by omega)
  unfold KV.read
  apply advances_take_bind (k := 3) (by decide)
  intro sHSize hlength
  have hlt := ofBigEndian_lt sHSize
  rw [hlength] at hlt
  refine Advances.mono ((advances_take (by omega)).bind (k := 3) fun name => ?_) (by omega)
  apply advances_take_bind (k := 2) (by decide)
  intro sSeven _
  split
  · exact advances_throw 2 _
  · exact advances_take_bind (k := 0) (by decide) (hvalue name)

theorem advances_prelude (crc : Bytes → UInt32) : Advances 12 (Prelude.read crc) := by
  unfold Prelude.read
  apply (advances_take (by decide)).bind (k := 8)
  intro total
  apply (advances_take (by decide)).bind (k := 4)
  intro headers
  apply (advances_take (by decide)).bind (k := 0)
  intro sRemoteCRC
  split
  · exact advances_throw 0 _
  · exact advances_pure _

theorem advances_check (crc : Bytes → UInt32) (sOffset : ℕ) (sPre : Prelude) :
    Advances 0 (checkMessage crc sOffset sPre) := by
  rintro s u s' hs hcheck
  unfold checkMessage at hcheck
  cases hmessage : s.substrAt sOffset (sPre.total - CRC_SIZE).toNat with
  | error e =>
      simp only [hmessage, bind, Except.bind] at hcheck
      cases hcheck
  | ok sMessage =>
      cases hcrc : s.substrAt ((sOffset + sMessage.length) % 2 ^ 64) CRC_SIZE.toNat with
      | error e =>
          simp only [hmessage, hcrc, bind, Except.bind] at hcheck
          cases hcheck
      | ok sRemoteCRC =>
          simp only [hmessage, hcrc, bind, Except.bind] at hcheck
          split at hcheck
          · cases hcheck
          · cases hcheck
            exact ⟨hs, rfl, le_rfl⟩

theorem advances_opening (crc : Bytes → UInt32) : Advances 12 (opening crc) := by
  rintro s r s' hs hopening
  have hget : (get : Parser Imemstream Imemstream) s = .ok (s, s) := rfl
  have hheaders : ∀ sPre : Prelude, Advances 0
      (take sPre.headers.toNat >>= fun sHeader => pure (sPre, sHeader)) := by
    intro sPre
    have hlt : sPre.headers.toNat < 2 ^ 63 := sPre.headers.toNat_lt.trans (by decide)
    exact ((advances_take hlt).bind fun sHeader => advances_pure (sPre, sHeader)).mono
      (Nat.zero_le _)
  rw [opening, bind_of_ok hget] at hopening
  exact (advances_prelude crc).bind (k := 0)
    (fun sPre => (advances_check crc s.offset sPre).bind fun _ => hheaders sPre) s r s' hs hopening

theorem advances_closing (sPre : Prelude) : Advances 4 (closing sPre) := by
  have hdata : sPre.dataSize.toNat < 2 ^ 63 := sPre.dataSize.toNat_lt.trans (by decide)
  have hall := (advances_take hdata).bind fun data =>
    (advances_skip (n := CRC_SIZE.toNat) (by decide)).bind fun _ => advances_pure data
  exact hall.mono (by simp [CRC_SIZE])

/-- The bytes that a stream has left. -/
def left (s : Imemstream) : ℕ := s.data.length - s.offset

theorem left_lt {s s' : Imemstream} {k : ℕ} (hs' : Fits s') (hdata : s'.data = s.data)
    (hk : 0 < k) (hle : s.offset + k ≤ s'.offset) : left s' < left s := by
  have hoffset := hs'.1
  rw [hdata] at hoffset
  rw [left, left, hdata]
  omega

theorem readHeaders_returns {sHeader : Bytes} (hsize : sHeader.length < 2 ^ 63) :
    ∃ r, Returns (fun n => readHeaders n sHeader) r := by
  have hturn : ∀ s : Imemstream × Bool, Fits s.1 →
      ∃ t, Returns (fun _ => some (headerTurn s)) t ∧
        t.Ok (fun s => Fits s.1) (fun s => left s.1) (fun _ => True) (left s.1) := by
    rintro ⟨s, sRecords⟩ hs
    refine ⟨_, returns_some _, ?_⟩
    unfold headerTurn
    split
    case isTrue => trivial
    case isFalse =>
      cases hkv : KV.read s with
      | error e => trivial
      | ok r =>
          obtain ⟨hr, hdata, hle⟩ := advances_kv s r.1 r.2 hs hkv
          dsimp only
          split
          · trivial
          · exact ⟨hr, left_lt hr hdata (by decide) hle⟩
  have hstart : Fits { data := sHeader } := ⟨Nat.zero_le _, hsize⟩
  obtain ⟨r, hr, -⟩ := loop_returns (fun s : Imemstream × Bool => left s.1) hturn
    (s := ({ data := sHeader }, false)) hstart
  exact ⟨r, hr⟩

/-- The headers are part of the stream. -/
theorem opening_headers {crc : Bytes → UInt32} {s s' : Imemstream} {sPre : Prelude}
    {sHeader : Bytes} (hs : Fits s) (h : opening crc s = .ok ((sPre, sHeader), s')) :
    sHeader.length < 2 ^ 63 := by
  have hget : (get : Parser Imemstream Imemstream) s = .ok (s, s) := rfl
  rw [opening, bind_of_ok hget] at h
  obtain ⟨sPre, s₁, hread, h⟩ := bind_eq_ok h
  obtain ⟨u, s₂, hcheck, h⟩ := bind_eq_ok h
  obtain ⟨sHeader, s₃, htake, h⟩ := bind_eq_ok h
  cases h
  obtain ⟨hs₁, -, -⟩ := advances_prelude crc s sPre s₁ hs hread
  obtain ⟨hs₂, -, -⟩ := advances_check crc s.offset sPre s₁ u s₂ hs₁ hcheck
  obtain ⟨hle, rfl, -⟩ := take_eq_ok (sPre.headers.toNat_lt.trans (by decide)) hs₂ htake
  have hsize := hs₂.2
  rw [List.length_take, List.length_drop]
  omega

theorem streamLoop_returns (crc : Bytes → UInt32) {aData : Bytes} (hsize : aData.length < 2 ^ 63) :
    ∃ r, Returns (fun n => streamLoop crc n aData) r := by
  have hturn : ∀ s : State, Fits s.1 → ∃ t, Returns (fun n => frameTurn crc n s) t ∧
      t.Ok (fun s => Fits s.1) (fun s => left s.1) (fun _ => True) (left s.1) := by
    rintro ⟨s, sStr⟩ hs
    by_cases heof : s.eof
    · refine ⟨.leave (.ok (s, sStr)), ?_, trivial⟩
      simp only [frameTurn, heof, if_true]
      exact returns_some _
    · cases hopening : opening crc s with
      | error e =>
          refine ⟨.leave (.error (.what e)), ?_, trivial⟩
          simp only [frameTurn, heof, hopening, Bool.false_eq_true, if_false]
          exact returns_some _
      | ok r =>
          obtain ⟨⟨sPre, sHeader⟩, s₁⟩ := r
          obtain ⟨hs₁, hdata₁, hle₁⟩ := advances_opening crc s _ s₁ hs hopening
          obtain ⟨r, hr⟩ := readHeaders_returns (opening_headers hs hopening)
          refine ⟨closeTurn sPre s₁ sStr r, ?_, ?_⟩
          · simp only [frameTurn, heof, hopening, Bool.false_eq_true, if_false]
            exact hr.map _
          · cases r with
            | error e => trivial
            | ok sRecords =>
                cases hclosing : closing sPre s₁ with
                | error e =>
                    rw [closeTurn, hclosing]
                    trivial
                | ok t =>
                    obtain ⟨ht, hdata, hle⟩ := advances_closing sPre s₁ t.1 t.2 hs₁ hclosing
                    rw [closeTurn, hclosing]
                    have hle₂ : s.offset + 16 ≤ t.2.offset := by omega
                    exact ⟨ht, left_lt ht (hdata.trans hdata₁) (by decide) hle₂⟩
  have hstart : Fits { data := aData } := ⟨Nat.zero_le _, hsize⟩
  obtain ⟨r, hr, -⟩ := loop_returns (fun s : State => left s.1) hturn
    (s := ({ data := aData }, [])) hstart
  exact ⟨r, hr⟩

/-- Well formed frames give the payloads of those with records, and the stream is at its
end; every other input ends the loop as well, with a result or an exception. -/
theorem stream_frames (crc : Bytes → UInt32) :
    (∀ frames : List Frame, (frames.flatMap (Frame.bytes crc)).length < 2 ^ 63 →
      Returns (fun n => stream crc n (frames.flatMap (Frame.bytes crc)))
        (.ok (payloads frames)) ∧
      ∃ sStream : Imemstream,
        Returns (fun n => streamLoop crc n (frames.flatMap (Frame.bytes crc)))
          (.ok (sStream, payloads frames)) ∧
        sStream.offset = (frames.flatMap (Frame.bytes crc)).length) ∧
    ∀ aData : Bytes, aData.length < 2 ^ 63 → ∃ r, Returns (fun n => stream crc n aData) r := by
  constructor
  · intro frames hsize
    have hloop := loop_frameTurn crc hsize frames (by rw [List.append_nil])
      (loop_frameTurn_end crc _ ([] ++ payloads frames))
    rw [List.append_nil, before_self, List.nil_append] at hloop
    exact ⟨hloop.map fun r => r.map Prod.snd, _, hloop, rfl⟩
  · intro aData hsize
    obtain ⟨r, hr⟩ := streamLoop_returns crc hsize
    exact ⟨_, hr.map fun r => r.map Prod.snd⟩

/-- A frame with records, and one without headers. -/
def recordsFrame : Frame where
  headers := [{ name := ascii ":event-type", value := ascii "Records" }]
  data := [0x61, 0x62]
  fits := by decide
  kvFits := by decide
  noError := by decide

def otherFrame : Frame where
  headers := []
  data := [0x63]
  fits := by decide
  kvFits := by decide
  noError := by decide

theorem stream_frames_two :
    Returns (fun n => stream (fun bs => UInt32.ofNat bs.length) n
      ([recordsFrame, otherFrame, recordsFrame].flatMap
        (Frame.bytes fun bs => UInt32.ofNat bs.length))) (.ok [0x61, 0x62, 0x61, 0x62]) :=
  ((stream_frames fun bs => UInt32.ofNat bs.length).1 [recordsFrame, otherFrame, recordsFrame]
    (by decide)).1

end Stuff.ParserAws
