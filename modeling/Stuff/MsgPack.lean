import Stuff.ByteOrder
import Stuff.ByteSources
import Stuff.ContainerStream

/-!
# MessagePack

The writers append to an `omemstream`: each picks a form by the size of its value, a code
byte with a small value inside or a code byte with the value behind it. The readers of an
`imemstream` tell the forms apart by the code byte.
-/
namespace Stuff.MsgPack
open MachineWords ByteOrder ByteSources ContainerStream

def badFormat : String := "Bad msgpack format"

abbrev fixmap : ℕ := 0x80
abbrev fixarray : ℕ := 0x90
abbrev fixstr : ℕ := 0xa0
abbrev nil : ℕ := 0xc0

abbrev packUint8 : ℕ := 0xcc
abbrev packUint16 : ℕ := 0xcd
abbrev packUint32 : ℕ := 0xce
abbrev packUint64 : ℕ := 0xcf

abbrev packMap16 : ℕ := 0xde
abbrev packMap32 : ℕ := 0xdf

abbrev packArray16 : ℕ := 0xdc
abbrev packArray32 : ℕ := 0xdd

abbrev packStr8 : ℕ := 0xd9
abbrev packStr16 : ℕ := 0xda
abbrev packStr32 : ℕ := 0xdb

/-! ## Writers -/

/-- A value of `n` bytes, the most significant one first: `mp_store_u8` to `mp_store_u64`. -/
def mpStore (n value : ℕ) : Bytes := bigEndian n value

def writeUint (aValue : UInt64) : Bytes :=
  if aValue.toNat < fixmap then mpStore 1 aValue.toNat
  else if aValue.toNat ≤ 0xff then mpStore 1 packUint8 ++ mpStore 1 aValue.toNat
  else if aValue.toNat ≤ 0xffff then mpStore 1 packUint16 ++ mpStore 2 aValue.toNat
  else if aValue.toNat ≤ 0xffffffff then mpStore 1 packUint32 ++ mpStore 4 aValue.toNat
  else mpStore 1 packUint64 ++ mpStore 8 aValue.toNat

def writeSize (fix pack16 pack32 : ℕ) (aSize : UInt32) : Bytes :=
  if aSize.toNat ≤ 0x0f then mpStore 1 (fix ||| aSize.toNat)
  else if aSize.toNat ≤ 0xffff then mpStore 1 pack16 ++ mpStore 2 aSize.toNat
  else mpStore 1 pack32 ++ mpStore 4 aSize.toNat

def writeMapSize : UInt32 → Bytes := writeSize fixmap packMap16 packMap32

def writeArraySize : UInt32 → Bytes := writeSize fixarray packArray16 packArray32

/-- The size of a long string is cut to 32 bits. -/
def writeString (aString : Bytes) : Bytes :=
  (if aString.length ≤ 0x1f then mpStore 1 (fixstr ||| aString.length)
  else if aString.length ≤ 0xff then mpStore 1 packStr8 ++ mpStore 1 aString.length
  else if aString.length ≤ 0xffff then mpStore 1 packStr16 ++ mpStore 2 aString.length
  else mpStore 1 packStr32 ++ mpStore 4 aString.length) ++ aString

/-! ## Readers -/

abbrev Reader (α : Type) := Parser Imemstream α

/-- `mp_load_u8` to `mp_load_u64`. -/
def mpLoad (n : ℕ) : Reader ℕ := do
  let bs ← fun s => s.substring n
  return ofBigEndian bs

/-- `cast` is the conversion to the type that is read. -/
def readUint {T : Type} (cast : ℕ → T) : Reader T := do
  let sCode ← mpLoad 1
  if sCode = packUint8 then
    let res ← mpLoad 1
    return cast res
  else if sCode = packUint16 then
    let res ← mpLoad 2
    return cast res
  else if sCode = packUint32 then
    let res ← mpLoad 4
    return cast res
  else if sCode = packUint64 then
    let res ← mpLoad 8
    return cast res
  else if fixmap ≤ sCode then throw badFormat
  else return cast sCode

/-- `read_map_size` and `read_array_size`: two codes with the size behind them, and the codes
from `low` on, below `high`, with the size inside. -/
def readSize (pack16 pack32 low high : ℕ) : Reader UInt32 := do
  let sCode ← mpLoad 1
  if sCode = pack16 then
    let n ← mpLoad 2
    return UInt32.ofNat n
  else if sCode = pack32 then
    let n ← mpLoad 4
    return UInt32.ofNat n
  else if sCode < low ∨ high ≤ sCode then throw badFormat
  else return UInt32.ofNat (sCode &&& 0x0f)

def readMapSize : Reader UInt32 := readSize packMap16 packMap32 fixmap fixarray

def readArraySize : Reader UInt32 := readSize packArray16 packArray32 fixarray fixstr

def readStringSize : Reader ℕ := do
  let sCode ← mpLoad 1
  if sCode = packStr8 then mpLoad 1
  else if sCode = packStr16 then mpLoad 2
  else if sCode = packStr32 then mpLoad 4
  else if sCode < fixstr ∨ nil ≤ sCode then throw badFormat
  else return sCode &&& 0x1f

def readString : Reader Bytes := do
  let sStringSize ← readStringSize
  fun s => s.substring sStringSize

/-! ## Items -/

inductive Item
  | uint (v : UInt64)
  | string (str : Bytes)
  | arraySize (n : UInt32)
  | mapSize (n : UInt32)
deriving DecidableEq, Repr

def Item.write : Item → Bytes
  | .uint v => writeUint v
  | .string str => writeString str
  | .arraySize n => writeArraySize n
  | .mapSize n => writeMapSize n

inductive Kind
  | uint
  | string
  | arraySize
  | mapSize
deriving DecidableEq, Repr

def Item.kind : Item → Kind
  | .uint _ => .uint
  | .string _ => .string
  | .arraySize _ => .arraySize
  | .mapSize _ => .mapSize

def Kind.read : Kind → Reader Item
  | .uint => do return .uint (← readUint UInt64.ofNat)
  | .string => do return .string (← readString)
  | .arraySize => do return .arraySize (← readArraySize)
  | .mapSize => do return .mapSize (← readMapSize)

def readAll : List Kind → Reader (List Item)
  | [] => pure []
  | kind :: kinds => do
      let item ← kind.read
      let items ← readAll kinds
      return item :: items

/-- The forms that an item can take. -/
inductive Form : Item → Bytes → Prop
  | fixint {v : UInt64} : v.toNat < 0x80 → Form (.uint v) [UInt8.ofNat v.toNat]
  | uint8 {v : UInt64} : v.toNat < 2 ^ 8 → Form (.uint v) (0xcc :: bigEndian 1 v.toNat)
  | uint16 {v : UInt64} : v.toNat < 2 ^ 16 → Form (.uint v) (0xcd :: bigEndian 2 v.toNat)
  | uint32 {v : UInt64} : v.toNat < 2 ^ 32 → Form (.uint v) (0xce :: bigEndian 4 v.toNat)
  | uint64 {v : UInt64} : Form (.uint v) (0xcf :: bigEndian 8 v.toNat)
  | fixstr {s : Bytes} : s.length < 0x20 → Form (.string s) (UInt8.ofNat (0xa0 + s.length) :: s)
  | str8 {s : Bytes} : s.length < 2 ^ 8 → Form (.string s) (0xd9 :: bigEndian 1 s.length ++ s)
  | str16 {s : Bytes} : s.length < 2 ^ 16 → Form (.string s) (0xda :: bigEndian 2 s.length ++ s)
  | str32 {s : Bytes} : s.length < 2 ^ 32 → Form (.string s) (0xdb :: bigEndian 4 s.length ++ s)
  | fixarray {n : UInt32} : n.toNat < 0x10 → Form (.arraySize n) [UInt8.ofNat (0x90 + n.toNat)]
  | array16 {n : UInt32} : n.toNat < 2 ^ 16 → Form (.arraySize n) (0xdc :: bigEndian 2 n.toNat)
  | array32 {n : UInt32} : Form (.arraySize n) (0xdd :: bigEndian 4 n.toNat)
  | fixmap {n : UInt32} : n.toNat < 0x10 → Form (.mapSize n) [UInt8.ofNat (0x80 + n.toNat)]
  | map16 {n : UInt32} : n.toNat < 2 ^ 16 → Form (.mapSize n) (0xde :: bigEndian 2 n.toNat)
  | map32 {n : UInt32} : Form (.mapSize n) (0xdf :: bigEndian 4 n.toNat)

/-! ## Reading the bytes of a value -/

variable {α β : Type}

/-- Wherever the bytes stand in a buffer, the reader takes exactly these and returns `a`. -/
def Consumes (p : Reader α) (bs : Bytes) (a : α) : Prop :=
  ∀ data front rest : Bytes, data = front ++ bs ++ rest → data.length < 2 ^ 64 →
    p { data := data, offset := front.length } =
      .ok (a, { data := data, offset := (front ++ bs).length })

theorem consumes_pure (a : α) : Consumes (pure a) [] a := by
  intro data front rest _ _
  rw [List.append_nil]
  rfl

theorem Consumes.bind {p : Reader α} {k : α → Reader β} {bs bs' : Bytes} {a : α} {b : β}
    (h : Consumes p bs a) (hk : Consumes (k a) bs' b) : Consumes (p >>= k) (bs ++ bs') b := by
  intro data front rest hdata hsize
  have hfirst := h data front (bs' ++ rest) (by simp [hdata]) hsize
  rw [bind_of_ok hfirst, hk data (front ++ bs) rest (by simp [hdata]) hsize, List.append_assoc]

theorem Consumes.map {p : Reader α} {bs : Bytes} {a : α} (h : Consumes p bs a) (f : α → β) :
    Consumes (p >>= fun x => pure (f x)) bs (f a) := by
  have hbind := h.bind (k := fun x => pure (f x)) (consumes_pure (f a))
  rwa [List.append_nil] at hbind

theorem consumes_substring (bs : Bytes) :
    Consumes (fun s => s.substring bs.length) bs bs := by
  intro data front rest hdata hsize
  have hlen : data.length = front.length + bs.length + rest.length := by
    rw [hdata, List.length_append, List.length_append]
  change Imemstream.substring _ _ = _
  rw [Imemstream.substring_of_le (by simp only; omega) hsize, List.length_append]
  simp [hdata]

theorem consumes_mpLoad {n value : ℕ} (h : value < 256 ^ n) :
    Consumes (mpLoad n) (bigEndian n value) value := by
  have hread := (consumes_substring (bigEndian n value)).map ofBigEndian
  rwa [length_bigEndian, ofBigEndian_bigEndian h] at hread

/-- After the code of a form. -/
theorem Consumes.code {b : UInt8} {k : ℕ → Reader α} {bs : Bytes} {a : α}
    (h : Consumes (k b.toNat) bs a) : Consumes (mpLoad 1 >>= k) (b :: bs) a := by
  have hbyte : Consumes (mpLoad 1) [b] b.toNat := by
    have hload : Consumes (mpLoad 1) (bigEndian 1 b.toNat) b.toNat := consumes_mpLoad b.toNat_lt
    have heq : bigEndian 1 b.toNat = [b] := by simp [bigEndian]
    rwa [heq] at hload
  exact hbyte.bind h

theorem consumes_string (head : Bytes) {size : Reader ℕ} {str : Bytes}
    (h : Consumes size head str.length) :
    Consumes (size >>= fun n s => s.substring n) (head ++ str) str :=
  h.bind (consumes_substring str)

/-- A reader takes one value at most from the front of a message. -/
theorem Consumes.unique {p : Reader α} {bs bs' message : Bytes} {a a' : α} (h : Consumes p bs a)
    (h' : Consumes p bs' a') (hbs : bs <+: message) (hbs' : bs' <+: message)
    (hlen : bs.length + bs'.length < 2 ^ 64) : a = a' := by
  have hfront : ∀ {cs : Bytes}, cs <+: message → cs.length ≤ bs.length + bs'.length →
      ∃ rest, message.take (bs.length + bs'.length) = [] ++ cs ++ rest := by
    rintro cs ⟨rest, rfl⟩ hcs
    exact ⟨_, by rw [List.take_append, List.take_of_length_le hcs, List.nil_append]⟩
  have htake : (message.take (bs.length + bs'.length)).length < 2 ^ 64 :=
    (List.length_take_le _ _).trans_lt hlen
  obtain ⟨rest, hrest⟩ := hfront hbs (Nat.le_add_right _ _)
  obtain ⟨rest', hrest'⟩ := hfront hbs' (Nat.le_add_left _ _)
  have hread := (h _ [] rest hrest htake).symm.trans (h' _ [] rest' hrest' htake)
  exact congrArg Prod.fst (Except.ok.inj hread)

/-! ## Every form is read -/

theorem toNat_code {code n : ℕ} (h : code + n < 256) :
    (UInt8.ofNat (code + n)).toNat = code + n := by
  rw [UInt8.toNat_ofNat']
  omega

/-- The number is converted to the type that is read, whatever that is. -/
theorem consumes_readUint_cast {T : Type} (cast : ℕ → T) {v : UInt64} {bs : Bytes}
    (h : Form (.uint v) bs) : Consumes (readUint cast) bs (cast v.toNat) := by
  have hlt := v.toNat_lt
  have hload : ∀ {n}, v.toNat < 256 ^ n →
      Consumes (mpLoad n >>= fun res => pure (cast res)) (bigEndian n v.toNat) (cast v.toNat) :=
    fun hn => (consumes_mpLoad hn).map cast
  cases h with
  | fixint hv =>
      have hcode : (UInt8.ofNat v.toNat).toNat = v.toNat := by
        rw [UInt8.toNat_ofNat']
        omega
      apply Consumes.code
      rw [hcode, if_neg (show v.toNat ≠ 0xcc by omega), if_neg (show v.toNat ≠ 0xcd by omega),
        if_neg (show v.toNat ≠ 0xce by omega), if_neg (show v.toNat ≠ 0xcf by omega),
        if_neg (show ¬ 0x80 ≤ v.toNat by omega)]
      exact consumes_pure (cast v.toNat)
  | uint8 hv =>
      apply Consumes.code
      exact hload (by omega)
  | uint16 hv =>
      apply Consumes.code
      exact hload (by omega)
  | uint32 hv =>
      apply Consumes.code
      exact hload (by omega)
  | uint64 =>
      apply Consumes.code
      exact hload (by omega)

theorem consumes_readUint {v : UInt64} {bs : Bytes} (h : Form (.uint v) bs) :
    Consumes (readUint UInt64.ofNat) bs v := by
  have hread := consumes_readUint_cast UInt64.ofNat h
  rwa [UInt64.ofNat_toNat] at hread

/-- The codes with a small size inside. -/
theorem consumes_readSize_small {pack16 pack32 low high : ℕ} {n : UInt32} (hn : n.toNat < 16)
    (hlow : low % 16 = 0) (hhigh : high = low + 16) (hbyte : high ≤ 256)
    (h₁₆ : pack16 < low ∨ high ≤ pack16) (h₃₂ : pack32 < low ∨ high ≤ pack32) :
    Consumes (readSize pack16 pack32 low high) [UInt8.ofNat (low + n.toNat)] n := by
  have hcode : (UInt8.ofNat (low + n.toNat)).toNat = low + n.toNat := toNat_code (by omega)
  have hmask : (low + n.toNat) &&& 0x0f = n.toNat := by
    have hmod : (low + n.toNat) &&& 0x0f = (low + n.toNat) % 2 ^ 4 :=
      Nat.and_two_pow_sub_one_eq_mod _ 4
    omega
  apply Consumes.code
  rw [hcode, if_neg (by omega), if_neg (by omega), if_neg (by omega), hmask, UInt32.ofNat_toNat]
  exact consumes_pure n

/-- The codes with a size of `k` bytes behind them. -/
theorem consumes_load_size {k : ℕ} {n : UInt32} (hk : n.toNat < 256 ^ k) :
    Consumes (mpLoad k >>= fun n => pure (UInt32.ofNat n)) (bigEndian k n.toNat) n := by
  have hread := (consumes_mpLoad hk).map UInt32.ofNat
  rwa [UInt32.ofNat_toNat] at hread

theorem consumes_readArraySize {n : UInt32} {bs : Bytes} (h : Form (.arraySize n) bs) :
    Consumes readArraySize bs n := by
  have hlt := n.toNat_lt
  cases h with
  | fixarray hn =>
      exact consumes_readSize_small hn rfl rfl (by decide) (by decide) (by decide)
  | array16 hn =>
      apply Consumes.code
      exact consumes_load_size (by omega)
  | array32 =>
      apply Consumes.code
      exact consumes_load_size (by omega)

theorem consumes_readMapSize {n : UInt32} {bs : Bytes} (h : Form (.mapSize n) bs) :
    Consumes readMapSize bs n := by
  have hlt := n.toNat_lt
  cases h with
  | fixmap hn =>
      exact consumes_readSize_small hn rfl rfl (by decide) (by decide) (by decide)
  | map16 hn =>
      apply Consumes.code
      exact consumes_load_size (by omega)
  | map32 =>
      apply Consumes.code
      exact consumes_load_size (by omega)

theorem consumes_readString {str bs : Bytes} (h : Form (.string str) bs) :
    Consumes readString bs str := by
  cases h with
  | fixstr hn =>
      have hcode : (UInt8.ofNat (0xa0 + str.length)).toNat = 0xa0 + str.length :=
        toNat_code (by omega)
      have hmask : (0xa0 + str.length) &&& 0x1f = str.length := by
        have hmod : (0xa0 + str.length) &&& 0x1f = (0xa0 + str.length) % 2 ^ 5 :=
          Nat.and_two_pow_sub_one_eq_mod _ 5
        omega
      refine consumes_string [_] ?_
      apply Consumes.code
      rw [hcode, if_neg (show 0xa0 + str.length ≠ 0xd9 by omega),
        if_neg (show 0xa0 + str.length ≠ 0xda by omega),
        if_neg (show 0xa0 + str.length ≠ 0xdb by omega),
        if_neg (show ¬ (0xa0 + str.length < 0xa0 ∨ 0xc0 ≤ 0xa0 + str.length) by omega), hmask]
      exact consumes_pure str.length
  | str8 hn =>
      refine consumes_string (_ :: _) ?_
      apply Consumes.code
      exact consumes_mpLoad (by omega)
  | str16 hn =>
      refine consumes_string (_ :: _) ?_
      apply Consumes.code
      exact consumes_mpLoad (by omega)
  | str32 hn =>
      refine consumes_string (_ :: _) ?_
      apply Consumes.code
      exact consumes_mpLoad (by omega)

theorem consumes_item {item : Item} {bs : Bytes} (h : Form item bs) :
    Consumes item.kind.read bs item := by
  cases item with
  | uint v => exact (consumes_readUint h).map Item.uint
  | string str => exact (consumes_readString h).map Item.string
  | arraySize n => exact (consumes_readArraySize h).map Item.arraySize
  | mapSize n => exact (consumes_readMapSize h).map Item.mapSize

/-! ## The writers pick a form, and the shortest one -/

theorem mpStore_one (n : ℕ) : mpStore 1 n = [UInt8.ofNat n] := by
  simp [mpStore, bigEndian]

/-- A small value inside a code whose low bits are zero. -/
theorem or_eq_add {code n k : ℕ} (hcode : code % 2 ^ k = 0) (hn : n < 2 ^ k) :
    code ||| n = code + n := by
  have hdiv : 2 ^ k * (code / 2 ^ k) = code := by
    have hmod := Nat.div_add_mod code (2 ^ k)
    omega
  have hadd := Nat.two_pow_add_eq_or_of_lt hn (code / 2 ^ k)
  rw [hdiv] at hadd
  exact hadd.symm

theorem form_write {item : Item} (h : ∀ str, item = .string str → str.length < 2 ^ 32) :
    Form item item.write := by
  cases item with
  | uint v =>
      simp only [Item.write, writeUint, mpStore_one]
      split_ifs with h₁ h₂ h₃ h₄
      · exact .fixint h₁
      · exact .uint8 (by omega)
      · exact .uint16 (by omega)
      · exact .uint32 (by omega)
      · exact .uint64
  | string str =>
      have hlt := h str rfl
      simp only [Item.write, writeString, mpStore_one]
      split_ifs with h₁ h₂ h₃
      · rw [or_eq_add (k := 5) rfl (by omega)]
        exact .fixstr (by omega)
      · exact .str8 (by omega)
      · exact .str16 (by omega)
      · exact .str32 hlt
  | arraySize n =>
      simp only [Item.write, writeArraySize, writeSize, mpStore_one]
      split_ifs with h₁ h₂
      · rw [or_eq_add (k := 4) rfl (by omega)]
        exact .fixarray (by omega)
      · exact .array16 (by omega)
      · exact .array32
  | mapSize n =>
      simp only [Item.write, writeMapSize, writeSize, mpStore_one]
      split_ifs with h₁ h₂
      · rw [or_eq_add (k := 4) rfl (by omega)]
        exact .fixmap (by omega)
      · exact .map16 (by omega)
      · exact .map32

theorem length_form_uint_le {v : UInt64} {bs : Bytes} (h : Form (.uint v) bs) :
    bs.length ≤ 9 := by
  cases h <;> simp [length_bigEndian]

theorem length_form_mapSize_le {n : UInt32} {bs : Bytes} (h : Form (.mapSize n) bs) :
    bs.length ≤ 5 := by
  cases h <;> simp [length_bigEndian]

theorem length_writeUint (v : UInt64) : (writeUint v).length =
    if v.toNat < 0x80 then 1 else if v.toNat ≤ 0xff then 2 else if v.toNat ≤ 0xffff then 3
    else if v.toNat ≤ 0xffffffff then 5 else 9 := by
  simp only [writeUint, fixmap, mpStore, apply_ite List.length, List.length_append,
    length_bigEndian]

theorem length_writeSize (fix pack16 pack32 : ℕ) (n : UInt32) :
    (writeSize fix pack16 pack32 n).length =
      if n.toNat ≤ 0x0f then 1 else if n.toNat ≤ 0xffff then 3 else 5 := by
  simp only [writeSize, mpStore, apply_ite List.length, List.length_append, length_bigEndian]

theorem length_writeString (s : Bytes) : (writeString s).length =
    (if s.length ≤ 0x1f then 1 else if s.length ≤ 0xff then 2 else if s.length ≤ 0xffff then 3
    else 5) + s.length := by
  simp only [writeString, mpStore, apply_ite List.length, List.length_append, length_bigEndian]

theorem length_write_le {item : Item} {bs : Bytes} (h : Form item bs) :
    item.write.length ≤ bs.length := by
  cases h
  all_goals
    simp only [Item.write, writeArraySize, writeMapSize, length_writeUint, length_writeSize,
      length_writeString, List.length_cons, List.length_append, List.length_nil,
      length_bigEndian]
    split_ifs <;> omega

theorem consumes_readAll {items : List Item} (h : ∀ item ∈ items, Form item item.write) :
    Consumes (readAll (items.map Item.kind)) (items.flatMap Item.write) items := by
  induction items with
  | nil => exact consumes_pure []
  | cons item items ih =>
      have hrest := ih fun x hx => h x (List.mem_cons_of_mem item hx)
      exact (consumes_item (h item List.mem_cons_self)).bind (hrest.map fun xs => item :: xs)

/-- Items that are written one after the other are read back in this order, up to the end of
what was written, and every one is in the shortest of its forms. -/
theorem msgpack_roundtrip (items : List Item)
    (hstring : ∀ str, Item.string str ∈ items → str.length < 2 ^ 32) (rest : Bytes)
    (hsize : (items.flatMap Item.write ++ rest).length < 2 ^ 64) :
    readAll (items.map Item.kind) { data := items.flatMap Item.write ++ rest } =
        .ok (items, Imemstream.mk (items.flatMap Item.write ++ rest)
          (items.flatMap Item.write).length) ∧
      ∀ item ∈ items, Form item item.write ∧
        ∀ bs, Form item bs → item.write.length ≤ bs.length := by
  have hform : ∀ item ∈ items, Form item item.write := by
    intro item hitem
    apply form_write
    rintro str rfl
    exact hstring str hitem
  refine ⟨consumes_readAll hform _ [] rest rfl hsize, ?_⟩
  intro item hitem
  exact ⟨hform item hitem, fun bs hbs => length_write_le hbs⟩

/-- Five bytes of a number, a string, and sizes on both sides of a border. -/
theorem msgpack_roundtrip_items :
    let items : List Item :=
      [.uint 65536, .string [0x61, 0x62], .arraySize 15, .arraySize 16, .mapSize 70000]
    readAll (items.map Item.kind) { data := items.flatMap Item.write ++ [0xff] } =
        .ok (items, { data := items.flatMap Item.write ++ [0xff], offset := 17 }) ∧
      ∀ item ∈ items, Form item item.write ∧
        ∀ bs, Form item bs → item.write.length ≤ bs.length := by
  refine msgpack_roundtrip _ ?_ [0xff] (by decide)
  intro str hstr
  simp only [List.mem_cons, Item.string.injEq, reduceCtorEq, List.not_mem_nil, or_false,
    false_or] at hstr
  subst hstr
  decide

end Stuff.MsgPack
