import Stuff.ProtobufWire

/-!
# Generated parsers

`generator.py` turns the entries of a message into the fields of a struct, and the macro
`_parse` of the template writes one `case` of `ParseFromString` for each of them. The type of a
field is resolved here: a message is its place among the structs of the file.
-/
namespace Stuff.Protobuf.Generated
open MachineWords

inductive ProtoType
  | string
  | bytes
  | int32
  | sint32
  | uint32
  | fixed32
  | int64
  | sint64
  | uint64
  | fixed64
  | float
  | double
  | bool
  | enum
  | message (struct : ℕ)
deriving DecidableEq, Repr

inductive EntryKind
  | required
  | optional
  | repeated
deriving DecidableEq, Repr

/-- The values of a field. A number is its image in memory, and a message has the values of
its own fields. -/
inductive Value
  | number (bits : ℕ)
  | text (bytes : Bytes)
  | message (m_Error : Bool) (fields : List (List Value))

/-- An entry of a message. The comment behind it may ask for a `string_view`. -/
structure Entry where
  kind : EntryKind
  type : ProtoType
  id : UInt64
  packed : Bool
  default : Option Value
  useStringView : Bool

inductive CxxType
  | pmrString
  | stringView
  | int32
  | uint32
  | int64
  | uint64
  | float
  | double
  | bool
  | named
deriving DecidableEq, Repr

structure AttrDict where
  id : UInt64
  default : Option Value
  repeated : Bool
  packed : Bool
  protoType : ProtoType
  pmr : Bool
  cxxType : CxxType
  customType : Option ℕ
  encoding : IntType
  enum : Bool

def customType : ProtoType → Option ℕ
  | .message struct => some struct
  | _ => none

def encoding : ProtoType → IntType
  | .fixed32 | .fixed64 => .fixed
  | .sint32 | .sint64 => .zigzag
  | _ => .variant

def cxxType (useStringView : Bool) : ProtoType → CxxType
  | .string | .bytes => if useStringView then .stringView else .pmrString
  | .int32 | .sint32 => .int32
  | .uint32 | .fixed32 => .uint32
  | .int64 | .sint64 => .int64
  | .uint64 | .fixed64 => .uint64
  | .float => .float
  | .double => .double
  | .bool => .bool
  | .enum | .message _ => .named

def makeEntry (i : Entry) : AttrDict :=
  let string := i.type = .string ∨ i.type = .bytes
  { id := i.id
    default := i.default
    repeated := i.kind = .repeated
    packed := i.packed
    protoType := i.type
    pmr := (string ∧ !i.useStringView) ∨ (customType i.type).isSome
    cxxType := cxxType i.useStringView i.type
    customType := customType i.type
    encoding := encoding i.type
    enum := i.type = .enum }

/-! ## The struct of a message -/

/-- `fields` has the list or the optional of every field. -/
structure Object where
  m_Error : Bool
  fields : List (List Value)

def Object.toValue (o : Object) : Value := .message o.m_Error o.fields

/-- `m_Error = true`. -/
def Object.withError (o : Object) : Object := { o with m_Error := true }

/-- The constructor. -/
def construct (fields : List AttrDict) : Object := ⟨false, fields.map (·.default.toList)⟩

/-- `emplace_back` and `push_back` of a list, `emplace` and `=` of an optional. -/
def Object.add (o : Object) (x : AttrDict) (place : ℕ) (vs : List Value) : Object :=
  { o with fields := o.fields.modify place fun old => if x.repeated then old ++ vs else vs }

def asNumber {w : ℕ} (p : Reader (BitVec w)) : Reader Value := do
  let v ← p
  return .number v.toNat

/-- `read` for a type. There is none for the name of an enum or a struct. -/
def CxxType.read (encoding : IntType) : CxxType → Reader Value
  | .pmrString | .stringView => do
      let s ← readString
      return .text s
  | .int32 | .uint32 => asNumber (readInt 32 encoding)
  | .int64 | .uint64 => asNumber (readInt 64 encoding)
  | .float => asNumber (readFixed 32)
  | .double => asNumber (readFixed 64)
  | .bool => do
      let v ← readVarBool
      return .number v.toNat
  | .named => fun _ => .error .undefined

/-- `_type`. -/
def AttrDict.type (x : AttrDict) : CxxType := if x.enum then .uint32 else x.cxxType

def AttrDict.read (x : AttrDict) : Reader Value := x.type.read x.encoding

theorem takes_asNumber {w : ℕ} {p : Reader (BitVec w)} (h : Takes 1 p) : Takes 1 (asNumber p) :=
  h.bind fun _ => takes_pure _

theorem takes_readInt {w : ℕ} (hw : 8 ≤ w) (mode : IntType) : Takes 1 (readInt w mode) := by
  cases mode with
  | variant => exact takes_readVarInt w
  | fixed => exact ((takes_take (w / 8)).weaken (by omega)).bind fun _ => takes_pure _
  | zigzag => exact (takes_readVarInt w).bind fun _ => takes_pure _

theorem takes_readFixed {w : ℕ} (hw : 8 ≤ w) : Takes 1 (readFixed w) := takes_readInt hw .fixed

theorem takes_read (encoding : IntType) (T : CxxType) : Takes 1 (T.read encoding) := by
  cases T with
  | pmrString | stringView => exact takes_readString.bind fun _ => takes_pure _
  | int32 | uint32 => exact takes_asNumber (takes_readInt (by decide) encoding)
  | int64 | uint64 => exact takes_asNumber (takes_readInt (by decide) encoding)
  | float => exact takes_asNumber (takes_readFixed (by decide))
  | double => exact takes_asNumber (takes_readFixed (by decide))
  | bool => exact (takes_varLoop 32 _ _ _).bind fun _ => takes_pure _
  | named =>
      intro buffer v rest h
      cases h

/-! ## The macro `_parse` -/

/-- What a `case` does to the object, with the answer of the callback or an exception. -/
abbrev Outcome := Object × Except Failure (Action × Bytes)

/-- The check for simple errors. -/
def AttrDict.wrongTag (x : AttrDict) (tag : UInt8) : Bool :=
  if x.protoType = .string ∨ x.protoType = .bytes ∨ x.pmr ∨ x.packed then tag ≠ tagLength
  else tag = tagLength

/-- The part of a `case` behind the check: it reads, and goes on with what was read. The object
is `failed` where the reader throws. Nothing in it looks at `m_Error`. -/
structure Case where
  {β : Type}
  read : Reader β
  failed : Object → Object
  done : Object → β → Object × Except Failure Unit
  takes : Takes 1 read
  failed_withError : ∀ o, failed o.withError = (failed o).withError
  done_withError : ∀ o b, done o.withError b = ((done o b).1.withError, (done o b).2)

def Case.run (c : Case) (buffer : Bytes) (o : Object) : Outcome :=
  match c.read buffer with
  | .error e => (c.failed o, .error e)
  | .ok (b, buffer) => ((c.done o b).1, (c.done o b).2.map fun _ => (.actUsed, buffer))

/-- `ParseFromString` of a new object of a struct. -/
abbrev Nested := ℕ → Bytes → Object × Except Failure Unit

/-- What `nested` left is in the field, also after an exception. -/
def Object.addMessage (o : Object) (x : AttrDict) (place : ℕ)
    (r : Object × Except Failure Unit) : Object × Except Failure Unit :=
  let o := o.add x place [r.1.toValue]
  match r.2 with
  | .error e => (o, .error e)
  | .ok _ => ({ o with m_Error := o.m_Error || r.1.m_Error }, .ok ())

def readMessage (nested : Nested) (x : AttrDict) (place struct : ℕ) : Case where
  read := readString
  failed o := o
  done o sTmpBuf := o.addMessage x place (nested struct sTmpBuf)
  takes := takes_readString
  failed_withError _ := rfl
  done_withError o sTmpBuf := by
    rw [Object.addMessage, Object.addMessage]
    cases (nested struct sTmpBuf).2 with
    | error e => rfl
    | ok u => rfl

/-- The string is there before it is read. -/
def readPmr (x : AttrDict) (place : ℕ) : Case where
  read := x.read
  failed o := o.add x place [.text []]
  done o v := (o.add x place [v], .ok ())
  takes := takes_read x.encoding x.type
  failed_withError _ := rfl
  done_withError _ _ := rfl

/-- The values of `sReader`, up to an exception. -/
def unpack (x : AttrDict) (sReader : Bytes) : List Value × Except Failure Unit :=
  if sReader = [] then ([], .ok ())
  else
    match _h : x.read sReader with
    | .error e => ([], .error e)
    | .ok (sTmp, rest) => (sTmp :: (unpack x rest).1, (unpack x rest).2)
termination_by sReader.length
decreasing_by
  all_goals
    have htakes := takes_read x.encoding x.type sReader sTmp rest _h
    omega

def readPacked (x : AttrDict) (place : ℕ) : Case where
  read := readString
  failed o := o
  done o sTmpBuf := (o.add x place (unpack x sTmpBuf).1, (unpack x sTmpBuf).2)
  takes := takes_readString
  failed_withError _ := rfl
  done_withError _ _ := rfl

def readSimple (x : AttrDict) (place : ℕ) : Case where
  read := x.read
  failed o := o
  done o sTmp := (o.add x place [sTmp], .ok ())
  takes := takes_read x.encoding x.type
  failed_withError _ := rfl
  done_withError _ _ := rfl

/-- The choices of the template. -/
def AttrDict.case (nested : Nested) (x : AttrDict) (place : ℕ) : Case :=
  match x.customType with
  | some struct => readMessage nested x place struct
  | none =>
      if x.pmr then readPmr x place
      else if x.repeated ∧ x.packed then readPacked x place
      else readSimple x place

def parseField (nested : Nested) (x : AttrDict) (place : ℕ) (aField : FieldInfo) (buffer : Bytes)
    (o : Object) : Outcome :=
  if x.wrongTag aField.tag then (o.withError, .ok (.actSkip, buffer))
  else (x.case nested place).run buffer o

/-- A `case` that does not throw has used what it took. -/
theorem Case.run_ok {c : Case} {buffer rest : Bytes} {o : Object} {a : Action}
    (h : (c.run buffer o).2 = .ok (a, rest)) : a = .actUsed ∧ rest.length ≤ buffer.length := by
  rw [run] at h
  cases hread : c.read buffer with
  | error e =>
      rw [hread] at h
      cases h
  | ok r =>
      have htakes := c.takes buffer r.1 r.2 hread
      rw [hread] at h
      change (c.done o r.1).2.map (fun _ => (Action.actUsed, r.2)) = _ at h
      cases hdone : (c.done o r.1).2 with
      | error e =>
          rw [hdone] at h
          cases h
      | ok u =>
          rw [hdone] at h
          cases h
          exact ⟨rfl, by omega⟩

theorem Case.run_withError (c : Case) (buffer : Bytes) (o : Object) :
    c.run buffer o.withError = ((c.run buffer o).1.withError, (c.run buffer o).2) := by
  rw [run, run]
  cases c.read buffer with
  | error e => exact congrArg (fun o => (o, Except.error e)) (c.failed_withError o)
  | ok r =>
      dsimp only
      rw [c.done_withError]

/-- The `switch` of `ParseFromString`. -/
def callback (nested : Nested) (fields : List AttrDict) : Callback Object where
  run aField buffer o :=
    match fields.zipIdx.find? (·.1.id = aField.id) with
    | some (x, place) => parseField nested x place aField buffer o
    | none => (o, .ok (.actSkip, buffer))
  shrinks aField buffer o a rest h := by
    cases hfind : fields.zipIdx.find? (·.1.id = aField.id) with
    | none =>
        rw [hfind] at h
        cases h
        exact le_refl _
    | some p =>
        rw [hfind] at h
        change (parseField nested p.1 p.2 aField buffer o).2 = _ at h
        rw [parseField] at h
        split_ifs at h
        · cases h
          exact le_refl _
        · exact (Case.run_ok h).2

/-- Nothing looks at `m_Error`. -/
theorem callback_withError (nested : Nested) (fields : List AttrDict) (aField : FieldInfo)
    (buffer : Bytes) (o : Object) : (callback nested fields).run aField buffer o.withError =
      (((callback nested fields).run aField buffer o).1.withError,
        ((callback nested fields).run aField buffer o).2) := by
  simp only [callback]
  cases fields.zipIdx.find? (·.1.id = aField.id) with
  | none => rfl
  | some p =>
      simp only [parseField]
      split_ifs
      · rfl
      · exact Case.run_withError _ buffer o

/-- The structs of the file. -/
abbrev Structs := List (List AttrDict)

/-- `ParseFromString` of a struct. A message inside is shorter than what it is in, so the length
of the string is enough. -/
def parseStruct (structs : Structs) : ℕ → ℕ → Bytes → Object → Object × Except Failure Unit
  | 0, _, _, o => (o, .ok ())
  | n + 1, struct, aString, o =>
      let nested : Nested := fun i s => parseStruct structs n i s (construct (structs.getD i []))
      let r := parse (callback nested (structs.getD struct [])) aString o
      (r.1, r.2.map fun _ => ())

def parseFromString (structs : Structs) (struct : ℕ) (aString : Bytes) (o : Object) :
    Object × Except Failure Unit := parseStruct structs (aString.length + 1) struct aString o

theorem case_message (nested : Nested) {x : AttrDict} (place : ℕ) {struct : ℕ}
    (h : x.customType = some struct) :
    x.case nested place = readMessage nested x place struct := by
  rw [AttrDict.case, h]

theorem case_none (nested : Nested) {x : AttrDict} (place : ℕ) (h : x.customType = none) :
    x.case nested place =
      if x.pmr then readPmr x place
      else if x.repeated ∧ x.packed then readPacked x place
      else readSimple x place := by
  rw [AttrDict.case, h]

theorem case_congr {nested nested' : Nested} {x : AttrDict} {place : ℕ} {buffer : Bytes}
    {o : Object} (h : ∀ struct s, s.length < buffer.length → nested struct s = nested' struct s) :
    (x.case nested place).run buffer o = (x.case nested' place).run buffer o := by
  cases hcustom : x.customType with
  | none => rw [AttrDict.case, AttrDict.case, hcustom]
  | some struct =>
      rw [case_message nested place hcustom, case_message nested' place hcustom]
      simp only [Case.run, readMessage]
      cases hread : readString buffer with
      | error e => rfl
      | ok r =>
          have hsame := h struct r.1 (readString_shorter hread)
          simp only [hsame]

theorem callback_congr {nested nested' : Nested} (fields : List AttrDict) {n : ℕ}
    (h : ∀ struct s, s.length < n → nested struct s = nested' struct s) (aField : FieldInfo)
    {buffer : Bytes} (hlen : buffer.length < n) (o : Object) :
    (callback nested fields).run aField buffer o =
      (callback nested' fields).run aField buffer o := by
  simp only [callback]
  cases fields.zipIdx.find? (·.1.id = aField.id) with
  | none => rfl
  | some p =>
      have hcase : (p.1.case nested p.2).run buffer o = (p.1.case nested' p.2).run buffer o :=
        case_congr fun struct s hs => h struct s (hs.trans hlen)
      simp only [parseField, hcase]

/-- More fuel changes nothing. -/
theorem parseStruct_of_lt (structs : Structs) {n struct : ℕ} {aString : Bytes} {o : Object}
    (hn : aString.length < n) :
    parseStruct structs n struct aString o = parseFromString structs struct aString o := by
  induction n using Nat.strong_induction_on generalizing struct aString o with
  | _ n ih =>
      obtain ⟨m, rfl⟩ : ∃ m, n = m + 1 := ⟨n - 1, by omega⟩
      rw [parseFromString, parseStruct, parseStruct]
      have hnested (i : ℕ) (s : Bytes) (hs : s.length < aString.length) :
          parseStruct structs m i s (construct (structs.getD i [])) =
            parseStruct structs aString.length i s (construct (structs.getD i [])) := by
        rw [ih m (by omega) (by omega), ih aString.length (by omega) hs]
      have hparse := parse_congr o (fun aField buffer st hlen =>
        callback_congr (structs.getD struct []) hnested aField hlen st) (le_refl aString.length)
      simp only [hparse]

/-- A new object of a struct, and what it is made of a string. -/
def parseNew (structs : Structs) : Nested := fun i s =>
  parseFromString structs i s (construct (structs.getD i []))

/-- The callback of a struct. -/
def structCallback (structs : Structs) (struct : ℕ) : Callback Object :=
  callback (parseNew structs) (structs.getD struct [])

theorem parse_withError (structs : Structs) (struct : ℕ) (buffer : Bytes) (o : Object) :
    parse (structCallback structs struct) buffer o.withError =
      ((parse (structCallback structs struct) buffer o).1.withError,
        (parse (structCallback structs struct) buffer o).2) :=
  parse_map (callback_withError _ _) buffer o

/-- `ParseFromString` without fuel. -/
theorem parseFromString_eq (structs : Structs) (struct : ℕ) (aString : Bytes) (o : Object) :
    parseFromString structs struct aString o =
      ((parse (structCallback structs struct) aString o).1,
        (parse (structCallback structs struct) aString o).2.map fun _ => ()) := by
  have hnested (i : ℕ) (s : Bytes) (hs : s.length < aString.length) :
      parseStruct structs aString.length i s (construct (structs.getD i [])) =
        parseNew structs i s :=
    parseStruct_of_lt structs hs
  have hparse := parse_congr o (fun aField buffer st hlen =>
    callback_congr (structs.getD struct []) hnested aField hlen st) (le_refl aString.length)
  simp only [parseFromString, parseStruct, structCallback, hparse]

end Stuff.Protobuf.Generated
