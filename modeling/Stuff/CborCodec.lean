import Stuff.ByteOrder
import Stuff.ByteSources
import Stuff.OrderedMap

/-!
# Reading and writing CBOR

The overloads of `cbor::read` and `cbor::write`, over all nestings of their types: name
lookup does not find every one of them, so not all of them compile. An item starts with a head:
three bits for the major type, and five for a small value or for the number of bytes that the value
takes. `read` works on every source that can give one byte back.
-/
namespace Stuff.Cbor
open MachineWords ByteOrder ByteSources

/-! ## Types and their values -/

inductive Width
  | w8
  | w16
  | w32
  | w64
deriving DecidableEq, Repr

/-- `sizeof` of the type. -/
def Width.bytes : Width → ℕ
  | .w8 => 1
  | .w16 => 2
  | .w32 => 4
  | .w64 => 8

def Width.bits (w : Width) : ℕ := 8 * w.bytes

/-- The integer types. -/
inductive Scalar
  | unsigned (width : Width)
  | signed (width : Width)
deriving DecidableEq, Repr

def Scalar.width : Scalar → Width
  | .unsigned w => w
  | .signed w => w

inductive Kind
  | type
  | elements

/-- `binary` is a `std::vector` of a trivial type, which has its own overloads; `vector`
is one of any other type. The element types of a tuple are a list of their own. -/
inductive Ty : Kind → Type
  | scalar (s : Scalar) : Ty .type
  | bool : Ty .type
  | string : Ty .type
  | list (t : Ty .type) : Ty .type
  | binary (s : Scalar) : Ty .type
  | vector (t : Ty .type) : Ty .type
  | map (k v : Ty .type) : Ty .type
  | optional (t : Ty .type) : Ty .type
  | tuple (ts : Ty .elements) : Ty .type
  | nil : Ty .elements
  | cons (t : Ty .type) (ts : Ty .elements) : Ty .elements

/-- A map is the list of its entries. -/
def Val : {k : Kind} → Ty k → Type
  | _, .scalar s => BitVec s.width.bits
  | _, .bool => Bool
  | _, .string => Bytes
  | _, .list t => List (Val t)
  | _, .binary s => List (BitVec s.width.bits)
  | _, .vector t => List (Val t)
  | _, .map k v => List (Val k × Val v)
  | _, .optional t => Option (Val t)
  | _, .tuple ts => Val ts
  | _, .nil => Unit
  | _, .cons t ts => Val t × Val ts

/-- `std::tuple_size`. -/
def Ty.size : {k : Kind} → Ty k → ℕ
  | _, .cons _ ts => ts.size + 1
  | _, _ => 0

/-- `std::lexicographical_compare`. -/
def lexLess {α : Type} (less : α → α → Bool) : List α → List α → Bool
  | _, [] => false
  | [], _ :: _ => true
  | a :: as, b :: bs => less a b || (!less b a && lexLess less as bs)

/-- An empty `std::optional` is less than any value. -/
def optionLess {α : Type} (less : α → α → Bool) : Option α → Option α → Bool
  | _, none => false
  | none, some _ => true
  | some a, some b => less a b

/-- `operator<` of the integers: for unsigned ones, and for signed ones. -/
def Scalar.less : (s : Scalar) → BitVec s.width.bits → BitVec s.width.bits → Bool
  | .unsigned _, a, b => a.ult b
  | .signed _, a, b => a.slt b

/-- `operator<`, by which a map orders its keys. -/
def less : {k : Kind} → (t : Ty k) → Val t → Val t → Bool
  | _, .scalar s, a, b => s.less a b
  | _, .bool, a, b => !a && b
  | _, .string, a, b => lexLess (fun x y => x < y) a b
  | _, .list t, a, b => lexLess (less t) a b
  | _, .binary s, a, b => lexLess s.less a b
  | _, .vector t, a, b => lexLess (less t) a b
  | _, .map k v, a, b =>
      lexLess (fun x y => less k x.1 y.1 || (!less k y.1 x.1 && less v x.2 y.2)) a b
  | _, .optional t, a, b => optionLess (less t) a b
  | _, .tuple ts, a, b => less ts a b
  | _, .nil, _, _ => false
  | _, .cons t ts, a, b => less t a.1 b.1 || (!less t b.1 a.1 && less ts a.2 b.2)

/-! ## Heads -/

abbrev cborUint : ℕ := 0
abbrev cborNint : ℕ := 1
abbrev cborBinary : ℕ := 2
abbrev cborStr : ℕ := 3
abbrev cborList : ℕ := 4
abbrev cborMap : ℕ := 5
abbrev cborTag : ℕ := 6
abbrev cborX : ℕ := 7

abbrev cborFalse : ℕ := 20
abbrev cborTrue : ℕ := 21
abbrev cborNull : ℕ := 22
abbrev cbor8 : ℕ := 24
abbrev cbor16 : ℕ := 25
abbrev cbor32 : ℕ := 26
abbrev cbor64 : ℕ := 27

structure TypeInfo where
  minor : ℕ
  major : ℕ
deriving DecidableEq, Repr

/-- The bit fields of the first byte. -/
def typeInfo (b : UInt8) : TypeInfo := ⟨(b &&& 31).toNat, (b >>> 5).toNat⟩

def headByte (major minor : ℕ) : UInt8 := UInt8.ofNat major <<< 5 ||| UInt8.ofNat minor

def writeTypeValue (major value : ℕ) : Bytes :=
  if value < cbor8 then [headByte major value]
  else if value < 2 ^ 8 then headByte major cbor8 :: bigEndian 1 value
  else if value < 2 ^ 16 then headByte major cbor16 :: bigEndian 2 value
  else if value < 2 ^ 32 then headByte major cbor32 :: bigEndian 4 value
  else headByte major cbor64 :: bigEndian 8 value

def writeSpecial (special : ℕ) : Bytes := [headByte cborX special]

section Read
variable {σ : Type} (I : Istream σ)

def readInteger (size : ℕ) : Parser σ ℕ := do
  let t ← I.read size
  return ofBigEndian t

def getUint (minorType : ℕ) : Parser σ ℕ :=
  if minorType < cbor8 then pure minorType
  else if minorType = cbor8 then readInteger I 1
  else if minorType = cbor16 then readInteger I 2
  else if minorType = cbor32 then readInteger I 4
  else if minorType = cbor64 then readInteger I 8
  else throw ("unexpected minor type: " ++ toString minorType)

def readTypeInfo : Parser σ TypeInfo := do
  let t ← I.read 1
  return typeInfo (t.headD 0)

/-- The loop over the tags. -/
def skipTags : ℕ → Parser σ TypeInfo
  | 0 => throw "more tags than bytes"
  | n + 1 => do
      let info ← readTypeInfo I
      if info.major = cborTag then
        let _ ← getUint I info.minor
        skipTags n
      else return info

/-- Every tag takes a byte at least. -/
def getType : Parser σ TypeInfo := fun s => skipTags I (I.left s + 1) s

def unexpectedMajor (major : ℕ) : String := "unexpected major type: " ++ toString major

def unexpectedSpecial (minorType : ℕ) : String := "unexpected special: " ++ toString minorType

def ensureType (needType : ℕ) : Parser σ ℕ := do
  let t ← getType I
  if t.major ≠ needType then throw (unexpectedMajor t.major) else return t.minor

/-- The value of a head of the given type. -/
def readSize (needType : ℕ) : Parser σ ℕ := do
  let minorType ← ensureType I needType
  getUint I minorType

/-! ## Read -/

def readScalar : (s : Scalar) → Parser σ (BitVec s.width.bits)
  | .unsigned _ => do
      let n ← readSize I cborUint
      return BitVec.ofNat _ n
  | .signed _ => do
      let t ← getType I
      if t.major = cborUint then
        let n ← getUint I t.minor
        return BitVec.ofNat _ n
      else if t.major = cborNint then
        let n ← getUint I t.minor
        return -1 - BitVec.ofNat _ n
      else throw (unexpectedMajor t.major)

def readBool : Parser σ Bool := do
  let minorType ← ensureType I cborX
  if minorType = cborFalse then return false
  else if minorType = cborTrue then return true
  else throw (unexpectedSpecial minorType)

/-- `resize` and `reserve` of a container that holds `max` elements at most. -/
def resize (max n : ℕ) : Parser σ Unit :=
  if n ≤ max then pure () else throw "length_error"

def readString (max : ℕ) : Parser σ Bytes := do
  let len ← readSize I cborStr
  resize max len
  I.read len

/-- The elements of a memory image. -/
def unpack (s : Scalar) : ℕ → Bytes → List (BitVec s.width.bits)
  | 0, _ => []
  | n + 1, bs =>
      BitVec.ofNat _ (ofLittleEndian (bs.take s.width.bytes)) :: unpack s n (bs.drop s.width.bytes)

def readBinary (s : Scalar) (max : ℕ) : Parser σ (List (BitVec s.width.bits)) := do
  let len ← readSize I cborBinary
  if 0 < len % s.width.bytes then
    throw ("read " ++ toString len ++ " bytes to vector of " ++ toString s.width.bytes)
  else
    resize max (len / s.width.bytes)
    if 0 < len then
      let bs ← I.read len
      return unpack s (len / s.width.bytes) bs
    else return []

def readN {α : Type} (p : Parser σ α) : ℕ → Parser σ (List α)
  | 0 => pure []
  | n + 1 => do
      let x ← p
      let l ← readN p n
      return x :: l

/-- The loop of the map, which has read `m`. -/
def readEntries {α β : Type} (less : α → α → Bool) (key : Parser σ α) (value : Parser σ β) :
    ℕ → List (α × β) → Parser σ (List (α × β))
  | 0, m => pure m
  | n + 1, m => do
      let k ← key
      let v ← value
      readEntries less key value n (OrderedMap.emplace less k v m)

/-- `maxSize` is the `max_size` of the strings and vectors. -/
def read (maxSize : Ty .type → ℕ) : {k : Kind} → (t : Ty k) → Parser σ (Val t)
  | _, .scalar s => readScalar I s
  | _, .bool => readBool I
  | _, .string => readString I (maxSize .string)
  | _, .list t => do
      let mt ← readSize I cborList
      readN (read maxSize t) mt
  | _, .binary s => readBinary I s (maxSize (.binary s))
  | _, .vector t => do
      let mt ← readSize I cborList
      resize (maxSize (.vector t)) mt
      readN (read maxSize t) mt
  | _, .map k v => do
      let mt ← readSize I cborMap
      readEntries (less k) (read maxSize k) (read maxSize v) mt []
  | _, .optional t => do
      let info ← getType I
      if info.major = cborX ∧ info.minor = cborNull then return (none : Option (Val t))
      else
        I.unget
        let v ← read maxSize t
        return some v
  | _, .tuple ts => do
      let sCount ← readSize I cborList
      if sCount ≠ ts.size then throw "bad number of elements" else read maxSize ts
  | _, .nil => pure ()
  | _, .cons t ts => do
      let x ← read maxSize t
      let xs ← read maxSize ts
      return (x, xs)

end Read

/-! ## Write -/

def writeScalar : (s : Scalar) → BitVec s.width.bits → Bytes
  | .unsigned _, v => writeTypeValue cborUint v.toNat
  | .signed _, v =>
      if v.toInt < 0 then writeTypeValue cborNint (-(v.toInt + 1)).toNat
      else writeTypeValue cborUint v.toInt.toNat

/-- The memory of an element, on a little-endian host. -/
def image (s : Scalar) (v : BitVec s.width.bits) : Bytes := littleEndian s.width.bytes v.toNat

def writeBool (v : Bool) : Bytes := writeSpecial (if v then cborTrue else cborFalse)

def writeString (str : Bytes) : Bytes := writeTypeValue cborStr str.length ++ str

def writeBinary (s : Scalar) (data : List (BitVec s.width.bits)) : Bytes :=
  writeTypeValue cborBinary (data.length * s.width.bytes) ++ data.flatMap (image s)

/-- A head with the number of elements, and the elements. -/
def writeAll {α : Type} (major : ℕ) (write : α → Bytes) (l : List α) : Bytes :=
  writeTypeValue major l.length ++ l.flatMap write

def writeOptional {α : Type} (write : α → Bytes) : Option α → Bytes
  | none => writeSpecial cborNull
  | some v => write v

def write : {k : Kind} → (t : Ty k) → Val t → Bytes
  | _, .scalar s => writeScalar s
  | _, .bool => writeBool
  | _, .string => writeString
  | _, .list t => writeAll cborList (write t)
  | _, .binary s => writeBinary s
  | _, .vector t => writeAll cborList (write t)
  | _, .map k v => writeAll cborMap fun x => write k x.1 ++ write v x.2
  | _, .optional t => writeOptional (write t)
  | _, .tuple ts => fun v => writeTypeValue cborList ts.size ++ write ts v
  | _, .nil => fun _ => []
  | _, .cons t ts => fun v => write t v.1 ++ write ts v.2

/-! ## Values of the C++ types -/

/-- A value that an object of the type can have: the sizes are of type `size_t`, a string
or a vector has at most `max_size` elements, and the keys of a map are in order. -/
def Valid (maxSize : Ty .type → ℕ) : {k : Kind} → (t : Ty k) → Val t → Prop
  | _, .scalar _ => fun _ => True
  | _, .bool => fun _ => True
  | _, .string => fun (str : Bytes) => str.length < 2 ^ 64 ∧ str.length ≤ maxSize .string
  | _, .list t => fun (l : List (Val t)) => l.length < 2 ^ 64 ∧ ∀ x ∈ l, Valid maxSize t x
  | _, .binary s => fun (data : List (BitVec s.width.bits)) =>
      data.length * s.width.bytes < 2 ^ 64 ∧ data.length ≤ maxSize (.binary s)
  | _, .vector t => fun (l : List (Val t)) =>
      l.length < 2 ^ 64 ∧ l.length ≤ maxSize (.vector t) ∧ ∀ x ∈ l, Valid maxSize t x
  | _, .map k v => fun (m : List (Val k × Val v)) =>
      m.length < 2 ^ 64 ∧ m.Pairwise (fun x y => less k x.1 y.1) ∧
        ∀ x ∈ m, Valid maxSize k x.1 ∧ Valid maxSize v x.2
  | _, .optional t => fun (v : Option (Val t)) => ∀ x ∈ v, Valid maxSize t x
  | _, .tuple ts => fun v => ts.size < 2 ^ 64 ∧ Valid maxSize ts v
  | _, .nil => fun _ => True
  | _, .cons t ts => fun v => Valid maxSize t v.1 ∧ Valid maxSize ts v.2

/-- No encoding starts like the one of an empty `std::optional`. -/
def NeverNull (maxSize : Ty .type → ℕ) (t : Ty .type) : Prop :=
  ∀ v, Valid maxSize t v → (write t v).head? ≠ some (headByte cborX cborNull)

/-- Every `std::optional` in the type is one of a type whose encodings never start with
null. -/
def Sound (maxSize : Ty .type → ℕ) : {k : Kind} → Ty k → Prop
  | _, .scalar _ => True
  | _, .bool => True
  | _, .string => True
  | _, .list t => Sound maxSize t
  | _, .binary _ => True
  | _, .vector t => Sound maxSize t
  | _, .map k v => Sound maxSize k ∧ Sound maxSize v
  | _, .optional t => Sound maxSize t ∧ NeverNull maxSize t
  | _, .tuple ts => Sound maxSize ts
  | _, .nil => True
  | _, .cons t ts => Sound maxSize t ∧ Sound maxSize ts

end Stuff.Cbor
