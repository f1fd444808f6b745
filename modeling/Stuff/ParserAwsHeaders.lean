import Stuff.ParserAws

/-!
# Headers of other types

An entry of the headers has a type, and the layout of what follows depends on it. The loop over
the headers knows strings only, which have the type seven. `KV::read` compares the type with
the character instead of the number: it refuses this one type, and all others are read as if
they were strings.
-/
namespace Stuff.ParserAws
open ByteOrder ByteSources ContainerStream Loops MachineWords

/-- A frame with correct checksums. The first entry of its headers that is no string stands
behind the entries of `front`, with any bytes behind its type. -/
structure ForeignFrame where
  front : List KV
  name : Bytes
  type : UInt8
  behind : Bytes
  data : Bytes
  foreign : type ≠ 7
  nameFits : name.length < 2 ^ 8
  frontFits : ∀ kv ∈ front, kv.name.length < 2 ^ 8 ∧ kv.value.length < 2 ^ 16
  fits : 16 + (headerBytes front ++ (bigEndian 1 name.length ++
    (name ++ (type :: behind)))).length + data.length < 2 ^ 32

namespace ForeignFrame

/-- The entry, and what is behind it. -/
def entry (f : ForeignFrame) : Bytes :=
  bigEndian 1 f.name.length ++ (f.name ++ (f.type :: f.behind))

def envelope (f : ForeignFrame) : Envelope :=
  { header := headerBytes f.front ++ f.entry, data := f.data, fits := f.fits }

/-- The stream of the headers with the entry before it. -/
def atEntry (f : ForeignFrame) : Imemstream := before (headerBytes f.front ++ f.entry) f.entry

/-- The character `'7'`. -/
def sevenCharacter : UInt8 := 0x37

end ForeignFrame

def invalidEntry : String := "Parser::AWS invalid kv entry"

theorem take_error {n : ℕ} {s : Imemstream} {e : String} (h : take n s = .error e) :
    e = Imemstream.endOfBuffer := by
  change s.substring n = _ at h
  rw [Imemstream.substring] at h
  split at h
  · cases h
  · cases h
    rfl

/-- What is read behind the type. -/
def readValue (name : Bytes) : Parser Imemstream KV := do
  let sVSize ← take 2
  let value ← take (ofBigEndian sVSize)
  pure { name, value }

theorem readValue_ne_invalid (name : Bytes) (s : Imemstream) :
    readValue name s ≠ .error invalidEntry := by
  intro h
  cases hsize : take 2 s with
  | error e =>
      rw [readValue, bind_of_error hsize] at h
      cases h
      exact absurd (take_error hsize) (by decide)
  | ok r =>
      rw [readValue, bind_of_ok hsize] at h
      cases hvalue : take (ofBigEndian r.1) r.2 with
      | error e =>
          rw [bind_of_error hvalue] at h
          cases h
          exact absurd (take_error hvalue) (by decide)
      | ok r' =>
          rw [bind_of_ok hvalue] at h
          cases h

section
variable (f : ForeignFrame)

theorem ForeignFrame.length_header : (headerBytes f.front ++ f.entry).length < 2 ^ 63 := by
  have hfits := f.fits
  rw [ForeignFrame.entry]
  omega

/-- The type is read, and the length behind it if it is not the character. -/
theorem read_entry :
    KV.read f.atEntry =
      if f.type = ForeignFrame.sevenCharacter then .error invalidEntry
      else readValue f.name (before (headerBytes f.front ++ f.entry) f.behind) := by
  have hsize := f.length_header
  have h₁ : f.entry <:+ headerBytes f.front ++ f.entry := List.suffix_append _ _
  have h₂ : f.name ++ ([f.type] ++ f.behind) <:+ headerBytes f.front ++ f.entry :=
    (List.suffix_append _ _).trans h₁
  have h₃ := (List.suffix_append _ _).trans h₂
  have hname := f.nameFits
  have hfirst : take 1 (before (headerBytes f.front ++ f.entry) f.entry) =
      .ok (bigEndian 1 f.name.length,
        before (headerBytes f.front ++ f.entry) (f.name ++ ([f.type] ++ f.behind))) :=
    take_before (length_bigEndian 1 _) h₁ hsize
  rw [ForeignFrame.atEntry, KV.read, bind_of_ok hfirst, ofBigEndian_bigEndian (by omega),
    bind_of_ok (take_before rfl h₂ hsize), bind_of_ok (take_before (n := 1) rfl h₃ hsize)]
  have hcharacter : ([f.type] = [0x37]) ↔ f.type = ForeignFrame.sevenCharacter := by
    rw [List.cons.injEq, and_iff_left rfl]
    rfl
  by_cases htype : f.type = ForeignFrame.sevenCharacter
  · rw [if_pos htype, if_pos (hcharacter.mpr htype)]
    rfl
  · rw [if_neg htype, if_neg (mt hcharacter.mp htype)]
    rfl

theorem read_entry_iff :
    KV.read f.atEntry = .error invalidEntry ↔ f.type = ForeignFrame.sevenCharacter := by
  rw [read_entry]
  split
  case isTrue htype => exact iff_of_true rfl htype
  case isFalse htype => exact iff_of_false (readValue_ne_invalid _ _) htype

theorem ForeignFrame.eof_atEntry : f.atEntry.eof = false := by
  have h : f.entry <:+ headerBytes f.front ++ f.entry := List.suffix_append _ _
  rw [ForeignFrame.atEntry, eof_before h, decide_eq_false_iff_not, ← List.length_eq_zero_iff,
    ForeignFrame.entry, List.length_append, length_bigEndian]
  omega

/-- An entry with an error message ends the loop. -/
theorem loop_error {data rest : Bytes} (hsize : data.length < 2 ^ 63) {headers : List KV}
    (hfits : ∀ kv ∈ headers, kv.name.length < 2 ^ 8 ∧ kv.value.length < 2 ^ 16)
    (herror : ∃ kv ∈ headers, kv.isError) (h : headerBytes headers ++ rest <:+ data)
    (sRecords : Bool) :
    ∃ e, Returns (fun n => loop (fun _ s => some (headerTurn s)) n
      (before data (headerBytes headers ++ rest), sRecords)) (.error e) := by
  induction headers generalizing sRecords with
  | nil =>
      obtain ⟨kv, hkv, -⟩ := herror
      cases hkv
  | cons kv headers ih =>
      rw [headerBytes_cons, List.append_assoc] at h ⊢
      have hkv := hfits kv List.mem_cons_self
      have hturn := headerTurn_kv hkv.1 hkv.2 h hsize sRecords
      cases hfirst : kv.isError with
      | true =>
          simp only [hfirst, if_true] at hturn
          exact ⟨_, loop_leave_of_eq hturn⟩
      | false =>
          simp only [hfirst, Bool.false_eq_true, if_false] at hturn
          have hlater : ∃ kv ∈ headers, kv.isError := by
            obtain ⟨x, hx, hxerror⟩ := herror
            rcases List.mem_cons.mp hx with rfl | hx
            · rw [hfirst] at hxerror
              cases hxerror
            · exact ⟨x, hx, hxerror⟩
          obtain ⟨e, he⟩ := ih (fun x hx => hfits x (List.mem_cons_of_mem kv hx)) hlater
            ((List.suffix_append _ _).trans h) (sRecords || kv.isRecords)
          exact ⟨e, loop_next_of_eq hturn he⟩

/-- The headers end with an exception at an error message, or at the character. -/
theorem readHeaders_foreign
    (h : (∃ kv ∈ f.front, kv.isError) ∨ f.type = ForeignFrame.sevenCharacter) :
    ∃ e, Returns (fun n => readHeaders n f.envelope.header) (.error e) := by
  have hsize := f.length_header
  have hstart : ({ data := f.envelope.header } : Imemstream) =
      before (headerBytes f.front ++ f.entry) (headerBytes f.front ++ f.entry) :=
    (before_self _).symm
  unfold readHeaders
  rw [hstart]
  by_cases herror : ∃ kv ∈ f.front, kv.isError
  · exact loop_error hsize f.frontFits herror (List.suffix_refl _) false
  · have htype := h.resolve_left herror
    have hnone : ∀ kv ∈ f.front, kv.isError = false := fun kv hkv =>
      Bool.eq_false_of_not_eq_true fun hkv' => herror ⟨kv, hkv, hkv'⟩
    have hturn : ∀ sRecords, headerTurn (f.atEntry, sRecords) =
        .leave (.error (.what invalidEntry)) := by
      intro sRecords
      rw [headerTurn, f.eof_atEntry, (read_entry_iff f).mpr htype]
      rfl
    exact ⟨_, loop_headerTurn hsize f.frontFits hnone (List.suffix_refl _)
      (loop_leave_of_eq (hturn _))⟩

end

section
variable (crc : Bytes → UInt32)

/-- Well formed frames, the frame with the entry, and anything behind it. -/
def foreignStream (frames : List Frame) (f : ForeignFrame) (rest : Bytes) : Bytes :=
  frames.flatMap (Frame.bytes crc) ++ (f.envelope.bytes crc ++ rest)

/-- An exception ends the call, and if the entry is reached it is the one that refuses its
type: the bytes behind are not read. -/
def Refuses (frames : List Frame) (f : ForeignFrame) (rest : Bytes) : Prop :=
  (∃ e, Returns (fun n => stream crc n (foreignStream crc frames f rest)) (.error e)) ∧
    ((∀ kv ∈ f.front, kv.isError = false) → KV.read f.atEntry = .error invalidEntry)

theorem stream_foreign {frames : List Frame} {f : ForeignFrame} {rest : Bytes}
    (hsize : (foreignStream crc frames f rest).length < 2 ^ 63)
    (h : (∃ kv ∈ f.front, kv.isError) ∨ f.type = ForeignFrame.sevenCharacter) :
    ∃ e, Returns (fun n => stream crc n (foreignStream crc frames f rest)) (.error e) := by
  obtain ⟨e, he⟩ := readHeaders_foreign f h
  have hsuffix : f.envelope.bytes crc ++ rest <:+ foreignStream crc frames f rest :=
    List.suffix_append _ _
  have hturn : ∀ sStr, Returns (fun n => frameTurn crc n
      (before (foreignStream crc frames f rest) (f.envelope.bytes crc ++ rest), sStr))
      (.leave (.error e)) := by
    intro sStr
    simp only [frameTurn, eof_envelope crc f.envelope hsuffix, Bool.false_eq_true, if_false,
      opening_envelope crc f.envelope hsuffix hsize]
    exact he.map _
  have hloop : Returns (fun n => streamLoop crc n (foreignStream crc frames f rest))
      (.error e) := by
    have hall := loop_frameTurn crc hsize frames (List.suffix_refl _)
      (loop_leave (hturn ([] ++ payloads frames)))
    rw [← foreignStream, before_self] at hall
    exact hall
  exact ⟨e, hloop.map fun r => r.map Prod.snd⟩

theorem refuses_iff {frames : List Frame} {f : ForeignFrame} {rest : Bytes}
    (hsize : (foreignStream crc frames f rest).length < 2 ^ 63) :
    Refuses crc frames f rest ↔
      (∃ kv ∈ f.front, kv.isError) ∨ f.type = ForeignFrame.sevenCharacter := by
  constructor
  · rintro ⟨-, hentry⟩
    by_cases herror : ∃ kv ∈ f.front, kv.isError
    · exact .inl herror
    · refine .inr ((read_entry_iff f).mp (hentry fun kv hkv => ?_))
      exact Bool.eq_false_of_not_eq_true fun hkv' => herror ⟨kv, hkv, hkv'⟩
  · intro h
    refine ⟨stream_foreign crc hsize h, fun hnone => ?_⟩
    rcases h with ⟨kv, hkv, hkv'⟩ | htype
    · rw [hnone kv hkv] at hkv'
      cases hkv'
    · exact (read_entry_iff f).mpr htype

end

def recordsHeaders : List KV := [{ name := ascii ":event-type", value := ascii "Records" }]

theorem recordsHeaders_fit :
    ∀ kv ∈ recordsHeaders, kv.name.length < 2 ^ 8 ∧ kv.value.length < 2 ^ 16 := by
  decide

/-- The character in the place of the type. -/
def characterFrame : ForeignFrame where
  front := recordsHeaders
  name := ascii "t"
  type := 0x37
  behind := [0, 0]
  data := [0x61]
  foreign := by decide
  nameFits := by decide
  frontFits := recordsHeaders_fit
  fits := by decide

theorem refuses_character :
    Refuses (fun bs => UInt32.ofNat bs.length) [recordsFrame] characterFrame [] :=
  (refuses_iff _ (by decide)).mpr (.inr rfl)

/-- A timestamp, which has eight bytes: the first two are taken for a length. -/
def timestampFrame : ForeignFrame where
  front := recordsHeaders
  name := ascii "t"
  type := 8
  behind := [0, 6, 0, 0, 0, 0, 0, 0]
  data := [0x61]
  foreign := by decide
  nameFits := by decide
  frontFits := recordsHeaders_fit
  fits := by decide

theorem not_refuses_timestamp :
    stream (fun bs => UInt32.ofNat bs.length) 5
        (foreignStream (fun bs => UInt32.ofNat bs.length) [] timestampFrame []) =
      some (.ok [0x61]) ∧
    ¬ Refuses (fun bs => UInt32.ofNat bs.length) [] timestampFrame [] := by
  constructor
  · decide +kernel
  · intro h
    have htype := (read_entry_iff timestampFrame).mp (h.2 (by decide))
    exact absurd htype (by decide)

end Stuff.ParserAws
