import Stuff.ContainerStream
import Stuff.Http2Frames
import Stuff.ParserUrl

/-!
# Header compression

The two wrappers around libnghttp2. The library itself is a parameter: its
compressor and its decompressor keep a state of their own and may fail. The
model covers what the wrappers do around them: which name and value pairs are
compressed, in what order, and which bytes of a frame are decompressed.
-/
namespace Stuff.Http2Hpack
open MachineWords Http2Frames ContainerStream

abbrev Pair := Bytes × Bytes

/-- What one call of `nghttp2_hd_inflate_hd2` reports. -/
structure Inflated (Inflater : Type) where
  used : ℕ
  emit : Option Pair
  final : Bool
  next : Inflater

/-- The part of libnghttp2 the wrappers call. `none` is a negative result. A
call on a non-empty block that does not fail consumes at least one byte. -/
structure Nghttp2 where
  Deflater : Type
  Inflater : Type
  deflateNew : Deflater
  inflateNew : Inflater
  deflateHd : Deflater → List Pair → Option Bytes × Deflater
  inflateHd : Inflater → Bytes → Option (Inflated Inflater)
  endHeaders : Inflater → Inflater
  used_pos : ∀ i bs r, inflateHd i bs = some r → bs ≠ [] → 0 < r.used

/-- A request as the client hands it over. The method is the text of the verb;
the headers stand in the order in which the source's map lists them. -/
structure ClientRequest where
  method : Bytes
  url : Bytes
  body : Bytes := []
  headers : List Pair := []
deriving DecidableEq, Repr

structure Response where
  resultInt : ℕ
  fields : List Pair := []
  body : Bytes := []
deriving DecidableEq, Repr

/-- `std::tolower` in the C locale. -/
def tolower (c : UInt8) : UInt8 := if 0x41 ≤ c ∧ c ≤ 0x5a then c + 0x20 else c

def assignLower (p : Pair) : Pair := (p.1.map tolower, p.2)

/-- `std::to_string` of a status code. -/
def decimal (n : ℕ) : Bytes := (Nat.toDigits 10 n).map fun c => UInt8.ofNat c.toNat

namespace Name

def method : Bytes := [0x3a, 0x6d, 0x65, 0x74, 0x68, 0x6f, 0x64]
def path : Bytes := [0x3a, 0x70, 0x61, 0x74, 0x68]
def scheme : Bytes := [0x3a, 0x73, 0x63, 0x68, 0x65, 0x6d, 0x65]
def authority : Bytes := [0x3a, 0x61, 0x75, 0x74, 0x68, 0x6f, 0x72, 0x69, 0x74, 0x79]
def status : Bytes := [0x3a, 0x73, 0x74, 0x61, 0x74, 0x75, 0x73]
def http : Bytes := [0x68, 0x74, 0x74, 0x70]

end Name

def requestPairs (aRequest : ClientRequest) (parsed : ParserUrl.Parsed) : List Pair :=
  [(Name.method, aRequest.method), (Name.path, parsed.path), (Name.scheme, Name.http),
    (Name.authority, parsed.host)] ++ aRequest.headers.map assignLower

def responsePairs (aResponse : Response) : List Pair :=
  (Name.status, decimal aResponse.resultInt) :: aResponse.fields.map assignLower

section Deflate
variable {N : Nghttp2}

def deflateFailed : String := "fail to deflate headers"

def deflate (d : N.Deflater) (pairs : List Pair) : Except String Bytes × N.Deflater :=
  match N.deflateHd d pairs with
  | (some block, d') => (.ok block, d')
  | (none, d') => (.error deflateFailed, d')

/-- A url that does not parse throws before the compressor is touched. -/
def deflateRequest (d : N.Deflater) (aRequest : ClientRequest) :
    Except String Bytes × N.Deflater :=
  match ParserUrl.url aRequest.url with
  | .error e => (.error e, d)
  | .ok parsed => deflate d (requestPairs aRequest parsed)

def deflateResponse (d : N.Deflater) (aResponse : Response) :
    Except String Bytes × N.Deflater :=
  deflate d (responsePairs aResponse)

/-- The compressor accepts every list of pairs. -/
def DeflateTotal (N : Nghttp2) : Prop := ∀ d pairs, (N.deflateHd d pairs).1.isSome

theorem deflate_ok (hN : DeflateTotal N) (d : N.Deflater) (pairs : List Pair) :
    ∃ block, (deflate d pairs).1 = .ok block := by
  obtain ⟨block, hb⟩ := Option.isSome_iff_exists.mp (hN d pairs)
  refine ⟨block, ?_⟩
  unfold deflate
  split <;> rename_i heq <;> simp_all

theorem deflateRequest_ok_iff (hN : DeflateTotal N) (d : N.Deflater) (aRequest : ClientRequest) :
    (∃ block, (deflateRequest d aRequest).1 = .ok block) ↔ ParserUrl.WellFormed aRequest.url := by
  rw [← ParserUrl.url_eq_ok]
  unfold deflateRequest
  cases ParserUrl.url aRequest.url with
  | error e => simp
  | ok parsed =>
      constructor
      · intro _
        exact ⟨parsed, rfl⟩
      · intro _
        exact deflate_ok hN d _

end Deflate

/-! ## Decompression -/

/-- How a call ends: it returns, throws, fails an assertion, or does something
the language leaves undefined. -/
inductive Exit
  | done
  | thrown (what : String)
  | aborted (assertion : String)
  | undefined
deriving DecidableEq, Repr

namespace Exit

/-- A call that returns or throws: no assertion fails and nothing undefined
happens. -/
def Reported (e : Exit) : Prop := e ≠ .undefined ∧ ∀ what, e ≠ .aborted what

theorem reported_done : Reported .done := by simp [Reported]

theorem reported_thrown (what : String) : Reported (.thrown what) := by simp [Reported]

end Exit

/-- The message interface of the parser, and the part of its API that creates
messages. -/
structure Messages (M : Type) where
  newMessage : UInt32 → M
  setHeader : M → Bytes → Bytes → Except String M
  appendBody : M → Bytes → M

section Inflate
variable {N : Nghttp2} {M : Type}

def inflateFailed : String := "fail to inflate headers"

structure InflateResult (N : Nghttp2) (M : Type) where
  exit : Exit
  inflater : N.Inflater
  message : M

/-- The loop over a header block. A call consumes at least one byte, so the
length of the block is enough fuel. -/
def inflateLoop (A : Messages M) : ℕ → N.Inflater → Bytes → M → InflateResult N M
  | 0, i, _, m => ⟨.done, i, m⟩
  | fuel + 1, i, aStr, m =>
      if aStr.isEmpty then ⟨.done, i, m⟩ else
        match N.inflateHd i aStr with
        | none => ⟨.thrown inflateFailed, i, m⟩
        | some r =>
            match (match r.emit with
              | none => .ok m
              | some p => A.setHeader m p.1 p.2 : Except String M) with
            | .error e => ⟨.thrown e, r.next, m⟩
            | .ok m' =>
                inflateLoop A fuel (if r.final then N.endHeaders r.next else r.next)
                  (aStr.drop r.used) m'

/-- What is left of a frame behind its pad length and its priority fields, and
the pad length. -/
def unpadded (h : Header) (aData : Bytes) : Except String (ℕ × Bytes) := do
  let sData : Imemstream := { data := aData }
  let (pad, sData) ←
    if h.has Flags.padded then
      let (byte, sData) ← sData.substring 1
      pure ((byte.headD 0).toNat, sData)
    else pure (0, sData)
  let sData ← if h.has Flags.priority then sData.skip 5 else pure sData
  let (rest, _) ← sData.rest
  pure (pad, rest)

/-- The bytes of a HEADERS or CONTINUATION frame that are decompressed. `none`
is a pad length larger than what remains: `remove_suffix` is undefined there. -/
def headerBlock (h : Header) (aData : Bytes) : Except String (Option Bytes) := do
  let (pad, rest) ← unpadded h aData
  if pad ≤ rest.length then pure (some (rest.take (rest.length - pad))) else pure none

/-- The bytes in front of the header block. -/
def prefixSize (h : Header) : ℕ :=
  (if h.has Flags.padded then 1 else 0) + if h.has Flags.priority then 5 else 0

/-- The pad length a frame declares. -/
def padLength (h : Header) (aData : Bytes) : ℕ :=
  if h.has Flags.padded then (aData.headD 0).toNat else 0

/-- The frame holds its fixed fields, but fewer bytes behind them than it
declares as padding. -/
def Overpadded (h : Header) (aData : Bytes) : Prop :=
  prefixSize h ≤ aData.length ∧ aData.length < prefixSize h + padLength h aData

instance (h : Header) (aData : Bytes) : Decidable (Overpadded h aData) :=
  inferInstanceAs (Decidable (_ ∧ _))

theorem unpadded_eq (h : Header) {aData : Bytes} (hlen : aData.length < 2 ^ 24) :
    unpadded h aData =
      if prefixSize h ≤ aData.length then .ok (padLength h aData, aData.drop (prefixSize h))
      else .error Imemstream.endOfBuffer := by
  have hhead : (aData.take 1).head?.getD 0 = aData.head?.getD 0 := by cases aData <;> rfl
  unfold unpadded prefixSize padLength
  cases hpad : h.has Flags.padded <;> cases hprio : h.has Flags.priority
  · simp only [Bool.false_eq_true, if_false, pure_bind]
    rw [Imemstream.rest_of_le (by simp) (by dsimp only; omega)]
    simp [bind, Except.bind, pure, Except.pure]
  · simp only [Bool.false_eq_true, if_false, if_true, pure_bind, Nat.zero_add]
    split_ifs with hle
    · rw [Imemstream.skip_of_le (by dsimp only; omega) (by dsimp only; omega)]
      simp only [bind, Except.bind]
      rw [Imemstream.rest_of_le (by dsimp only; omega) (by dsimp only; omega)]
      rfl
    · rw [Imemstream.skip_of_lt (by dsimp only; omega) (by dsimp only; omega)]
      rfl
  · simp only [Bool.false_eq_true, if_false, if_true, Nat.add_zero]
    split_ifs with hle
    · rw [Imemstream.substring_of_le (by dsimp only; omega) (by dsimp only; omega)]
      simp only [bind, Except.bind, pure, Except.pure]
      rw [Imemstream.rest_of_le (by dsimp only; omega) (by dsimp only; omega)]
      simp [hhead]
    · rw [Imemstream.substring_of_lt (by dsimp only; omega) (by dsimp only; omega)]
      rfl
  · simp only [if_true]
    by_cases hone : 1 ≤ aData.length
    · rw [Imemstream.substring_of_le (by dsimp only; omega) (by dsimp only; omega)]
      simp only [bind, Except.bind, pure, Except.pure]
      split_ifs with hle
      · rw [Imemstream.skip_of_le (by dsimp only; omega) (by dsimp only; omega)]
        dsimp only
        rw [Imemstream.rest_of_le (by dsimp only; omega) (by dsimp only; omega)]
        simp [hhead]
      · rw [Imemstream.skip_of_lt (by dsimp only; omega) (by dsimp only; omega)]
    · rw [if_neg (by omega),
        Imemstream.substring_of_lt (by dsimp only; omega) (by dsimp only; omega)]
      rfl

theorem headerBlock_eq_none_iff (h : Header) {aData : Bytes} (hlen : aData.length < 2 ^ 24) :
    headerBlock h aData = .ok none ↔ Overpadded h aData := by
  unfold headerBlock Overpadded
  rw [unpadded_eq h hlen]
  split_ifs with hle
  · simp only [bind, Except.bind, pure, Except.pure, List.length_drop]
    split_ifs <;> simp <;> omega
  · simp [bind, Except.bind, hle]

def inflateFrame (A : Messages M) (i : N.Inflater) (h : Header) (aData : Bytes) (m : M) :
    InflateResult N M :=
  match headerBlock h aData with
  | .error e => ⟨.thrown e, i, m⟩
  | .ok none => ⟨.undefined, i, m⟩
  | .ok (some block) => inflateLoop A block.length i block m

/-- Decompression itself returns or throws. -/
theorem inflateLoop_exit (A : Messages M) (fuel : ℕ) (i : N.Inflater) (aStr : Bytes) (m : M) :
    (inflateLoop A fuel i aStr m).exit = .done ∨
      ∃ e, (inflateLoop A fuel i aStr m).exit = .thrown e := by
  induction fuel generalizing i aStr m with
  | zero => exact .inl rfl
  | succ fuel ih =>
      unfold inflateLoop
      split_ifs
      · exact .inl rfl
      · split
        · exact .inr ⟨_, rfl⟩
        · split
          · exact .inr ⟨_, rfl⟩
          · exact ih _ _ _

theorem inflateFrame_undefined_iff (A : Messages M) (i : N.Inflater) (h : Header)
    (aData : Bytes) (m : M) :
    (inflateFrame A i h aData m).exit = .undefined ↔ headerBlock h aData = .ok none := by
  unfold inflateFrame
  split
  · rename_i heq
    simp [heq]
  · rename_i heq
    simp [heq]
  · rename_i block heq
    rcases inflateLoop_exit A block.length i block m with hx | ⟨e, hx⟩ <;> simp [heq, hx]

theorem inflateFrame_not_aborted (A : Messages M) (i : N.Inflater) (h : Header)
    (aData : Bytes) (m : M) (what : String) :
    (inflateFrame A i h aData m).exit ≠ .aborted what := by
  unfold inflateFrame
  split
  · simp
  · simp
  · rename_i block heq
    rcases inflateLoop_exit A block.length i block m with hx | ⟨e, hx⟩ <;> simp [hx]

end Inflate

/-! ## A library for evaluating the model

Pairs of the static table compress to their index, which is what libnghttp2
emits for them; other pairs become literals without indexing. -/

def staticTable : List (Pair × UInt8) :=
  [((Name.method, [0x47, 0x45, 0x54]), 0x82), ((Name.path, [0x2f]), 0x84),
    ((Name.scheme, Name.http), 0x86), ((Name.status, [0x32, 0x30, 0x30]), 0x88)]

def staticEncode (p : Pair) : Bytes :=
  match staticTable.lookup p with
  | some index => [index]
  | none => 0x00 :: UInt8.ofNat p.1.length :: p.1 ++ UInt8.ofNat p.2.length :: p.2

def staticNghttp2 : Nghttp2 where
  Deflater := Unit
  Inflater := Unit
  deflateNew := ()
  inflateNew := ()
  deflateHd _ pairs := (some (pairs.flatMap staticEncode), ())
  inflateHd _ bs :=
    match bs with
    | [] => none
    | b :: _ =>
        (staticTable.find? fun e => e.2 = b).map fun e => ⟨1, some e.1, false, ()⟩
  endHeaders i := i
  used_pos := by
    intro i bs r h hne
    cases bs with
    | nil => exact absurd rfl hne
    | cons b bs =>
        simp only [Option.map_eq_some_iff] at h
        obtain ⟨e, -, rfl⟩ := h
        exact Nat.one_pos

theorem staticNghttp2_total : DeflateTotal staticNghttp2 := fun _ _ => rfl

/-- Messages that keep their headers and their body. -/
def keptMessages : Messages (List Pair × Bytes) where
  newMessage _ := ([], [])
  setHeader m name value := .ok (m.1 ++ [(name, value)], m.2)
  appendBody m aData := (m.1, m.2 ++ aData)

end Stuff.Http2Hpack
