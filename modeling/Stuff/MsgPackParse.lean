import Mathlib.Data.List.Forall2
import Stuff.MsgPack
import Stuff.OrderedMap

/-!
# Parsing values of a type

The overloads of `MsgPack::parse`. A number is assigned to the destination, whatever its width
is, the count of a container passes through an `int`, and the elements are parsed by the overload
for their type.
-/
namespace Stuff.MsgPack
open MachineWords ByteOrder ByteSources ContainerStream OrderedMap

/-! ## Types -/

inductive Ty
  | uint32
  | time
  | uint64
  | string
  | vector (t : Ty)
  | map (k v : Ty)
deriving DecidableEq, Repr

/-- A map is the list of its entries in the order of their keys. -/
def Ty.Val : Ty → Type
  | .uint32 => UInt32
  | .time => Int64
  | .uint64 => UInt64
  | .string => Bytes
  | .vector t => List t.Val
  | .map k v => List (k.Val × v.Val)

/-- What is encoded for such a value: the numbers have 64 bits, and the entries of a map are in
the order in which they come. -/
def Ty.Data : Ty → Type
  | .uint32 | .time | .uint64 => UInt64
  | .string => Bytes
  | .vector t => List t.Data
  | .map k v => List (k.Data × v.Data)

/-- `T{}`. -/
def Ty.fresh : (t : Ty) → t.Val
  | .uint32 => (0 : UInt32)
  | .time => (0 : Int64)
  | .uint64 => (0 : UInt64)
  | .string => ([] : Bytes)
  | .vector _ => []
  | .map _ _ => []

/-- `operator<`, by which a map orders its keys. -/
def Ty.less : (t : Ty) → t.Val → t.Val → Bool
  | .uint32 => fun (a b : UInt32) => a < b
  | .time => fun (a b : Int64) => a < b
  | .uint64 => fun (a b : UInt64) => a < b
  | .string => OrderedMap.less
  | .vector t => lexLess t.less
  | .map k v => lexLess (pairLess k.less v.less)

/-! ## Parse -/

section Loops
variable {α β : Type}

def lengthError : String := "vector::_M_default_append"

/-- `resize` to `n` elements, the new ones equal to `a`. -/
def resize (l : List α) (n : ℕ) (a : α) : List α := l.take n ++ List.replicate (n - l.length) a

/-- The loop over a vector, each of whose elements is parsed where it is. -/
def parseEach (p : α → Reader α) : List α → Reader (List α)
  | [] => pure []
  | x :: l => do
      let y ← p x
      let l' ← parseEach p l
      return y :: l'

/-- The loop of a map, which holds `m`. -/
def parseEntries (lt : α → α → Bool) (key : Reader α) (value : Reader β) :
    ℕ → List (α × β) → Reader (List (α × β))
  | 0, m => pure m
  | i + 1, m => do
      let k ← key
      let v ← value
      parseEntries lt key value i (emplace lt k v m)

/-- A negative size is too large for a vector. -/
def parseVector (p : α → Reader α) (fresh : α) (aValue : List α) : Reader (List α) := do
  let size ← readArraySize
  if size.toInt32.toInt < 0 then throw lengthError
  else parseEach p (resize aValue size.toInt32.toInt.toNat fresh)

/-- With a negative size the loop has no turn. -/
def parseMap (lt : α → α → Bool) (key : Reader α) (value : Reader β) (aValue : List (α × β)) :
    Reader (List (α × β)) := do
  let size ← readMapSize
  parseEntries lt key value size.toInt32.toInt.toNat aValue

end Loops

/-- `aValue` is what the destination holds before. -/
def parse : (t : Ty) → t.Val → Reader t.Val
  | .uint32 => fun _ => readUint UInt32.ofNat
  | .time => fun _ => readUint Int64.ofNat
  | .uint64 => fun _ => readUint UInt64.ofNat
  | .string => fun _ => readString
  | .vector t => parseVector (parse t) t.fresh
  | .map k v => parseMap k.less (parse k k.fresh) (parse v v.fresh)

/-! ## Encodings -/

/-- The bytes of a list, those of one element behind those of the other. -/
inductive Row {α : Type} (R : α → Bytes → Prop) : List α → Bytes → Prop
  | nil : Row R [] []
  | cons {x : α} {l : List α} {bs bs' : Bytes} : R x bs → Row R l bs' → Row R (x :: l) (bs ++ bs')

/-- The bytes of a pair. -/
def Couple {α β : Type} (R : α → Bytes → Prop) (S : β → Bytes → Prop) (x : α × β) (bs : Bytes) :
    Prop :=
  ∃ first second, bs = first ++ second ∧ R x.1 first ∧ S x.2 second

/-- A head with a count, and behind it as many elements as `count` makes of it, if any. -/
def Counted {α : Type} (head : UInt32 → Item) (count : UInt32 → Option ℕ)
    (R : α → Bytes → Prop) (l : List α) (bs : Bytes) : Prop :=
  ∃ n front body, bs = front ++ body ∧ Form (head n) front ∧ count n = some l.length ∧ Row R l body

/-- The items of a value of the type, in any of their forms. -/
def Laid (array map : UInt32 → Option ℕ) : (t : Ty) → t.Data → Bytes → Prop
  | .uint32 => fun (w : UInt64) => Form (.uint w)
  | .time => fun (w : UInt64) => Form (.uint w)
  | .uint64 => fun (w : UInt64) => Form (.uint w)
  | .string => fun (w : Bytes) => Form (.string w)
  | .vector t => Counted .arraySize array (Laid array map t)
  | .map k v => Counted .mapSize map (Couple (Laid array map k) (Laid array map v))

/-- The bytes are an encoding of the value: each container has as many elements as its head
says. -/
def Encodes : (t : Ty) → t.Data → Bytes → Prop :=
  Laid (fun n => some n.toNat) (fun n => some n.toNat)

/-- What an `int` makes of the count of an array. -/
def arrayTurns (n : UInt32) : Option ℕ := if n.toNat < 2 ^ 31 then some n.toNat else none

/-- What an `int` makes of the count of a map. -/
def mapTurns (n : UInt32) : Option ℕ := some (if n.toNat < 2 ^ 31 then n.toNat else 0)

/-- The items come as the type asks for them, when an array of 2^31 elements or more is refused
and such a map has no entries. -/
def Asked : (t : Ty) → t.Data → Bytes → Prop := Laid arrayTurns mapTurns

/-- The value has the encoded numbers and all the encoded elements. -/
def Same : (t : Ty) → t.Data → t.Val → Prop
  | .uint32 => fun (w : UInt64) (v : UInt32) => v.toNat = w.toNat
  | .time => fun (w : UInt64) (v : Int64) => v.toInt = w.toNat
  | .uint64 => fun (w v : UInt64) => v = w
  | .string => fun (w v : Bytes) => v = w
  | .vector t => fun (l : List t.Data) (m : List t.Val) => List.Forall₂ (Same t) l m
  | .map k v => fun (l : List (k.Data × v.Data)) (m : List (k.Val × v.Val)) =>
      ∃ m', m'.Perm m ∧ List.Forall₂ (fun x y => Same k x.1 y.1 ∧ Same v x.2 y.2) l m'

/-- What the destination gets. -/
def value : (t : Ty) → t.Data → t.Val
  | .uint32 => fun (w : UInt64) => UInt32.ofNat w.toNat
  | .time => fun (w : UInt64) => Int64.ofNat w.toNat
  | .uint64 => fun (w : UInt64) => w
  | .string => fun (w : Bytes) => w
  | .vector t => List.map (value t)
  | .map k v => fun (l : List (k.Data × v.Data)) =>
      emplaceAll k.less [] (l.map fun x => (value k x.1, value v x.2))

/-- The numbers fit into the destination, the counts into an `int`, and the keys of a map are
different. -/
def Fits : (t : Ty) → t.Data → Prop
  | .uint32 => fun (w : UInt64) => w.toNat < 2 ^ 32
  | .time => fun (w : UInt64) => w.toNat < 2 ^ 63
  | .uint64 => fun _ => True
  | .string => fun _ => True
  | .vector t => fun (l : List t.Data) => l.length < 2 ^ 31 ∧ ∀ w ∈ l, Fits t w
  | .map k v => fun (l : List (k.Data × v.Data)) => l.length < 2 ^ 31 ∧
      (∀ w ∈ l, Fits k w.1 ∧ Fits v w.2) ∧ (l.map fun w => value k w.1).Nodup

/-- No map in the destination has an entry. -/
def Bare : (t : Ty) → t.Val → Prop
  | .uint32 | .time | .uint64 | .string => fun _ => True
  | .vector t => fun (l : List t.Val) => ∀ x ∈ l, Bare t x
  | .map k v => fun (m : List (k.Val × v.Val)) => m = []

/-- Where the parse succeeds, the input begins with an encoding of what it returns. -/
def Kept (t : Ty) (old : t.Val) (bs : Bytes) : Prop :=
  ∀ v s, parse t old { data := bs } = .ok (v, s) →
    ∃ w front, front <+: bs ∧ Encodes t w front ∧ Same t w v

/-- What a container can hold after a parse. -/
def Valid : (t : Ty) → t.Val → Prop
  | .uint32 | .time | .uint64 | .string => fun _ => True
  | .vector t => fun (l : List t.Val) => l.length < 2 ^ 31 ∧ ∀ x ∈ l, Valid t x
  | .map k v => fun (m : List (k.Val × v.Val)) => m.length < 2 ^ 31 ∧ Sorted k.less m ∧
      ∀ x ∈ m, Valid k x.1 ∧ Valid v x.2

/-! ## What a reader takes -/

section Took
variable {α β : Type} {R : α → Bytes → Prop} {S : β → Bytes → Prop}

/-- Where the reader succeeds, it has taken bytes as `R` says from the front of what is left. -/
def Took (p : Reader α) (R : α → Bytes → Prop) : Prop :=
  ∀ front bs a s, (front ++ bs).length < 2 ^ 63 →
    p { data := front ++ bs, offset := front.length } = .ok (a, s) →
      ∃ cs rest, bs = cs ++ rest ∧
        s = { data := front ++ bs, offset := (front ++ cs).length } ∧ R a cs

theorem took_pure {a : α} (h : R a []) : Took (pure a) R := by
  intro front bs b s _ hpure
  cases hpure
  exact ⟨[], bs, rfl, by rw [List.append_nil], h⟩

theorem took_throw (e : String) (R : α → Bytes → Prop) : Took (throw e) R := by
  intro front bs b s _ hthrow
  cases hthrow

theorem Took.mono {p : Reader α} {R' : α → Bytes → Prop} (h : Took p R)
    (hR : ∀ a bs, R a bs → R' a bs) : Took p R' := by
  intro front bs a s hsize hp
  obtain ⟨cs, rest, hbs, hs, ha⟩ := h front bs a s hsize hp
  exact ⟨cs, rest, hbs, hs, hR a cs ha⟩

theorem Took.bind {p : Reader α} {k : α → Reader β} (hp : Took p R)
    (hk : ∀ a cs, R a cs → Took (k a) fun b bs => S b (cs ++ bs)) : Took (p >>= k) S := by
  intro front bs b s hsize h
  cases hfirst : p { data := front ++ bs, offset := front.length } with
  | error e =>
      rw [bind_of_error hfirst] at h
      cases h
  | ok r =>
      obtain ⟨a, s'⟩ := r
      obtain ⟨cs, rest, rfl, rfl, ha⟩ := hp front bs a s' hsize hfirst
      rw [bind_of_ok hfirst] at h
      rw [← List.append_assoc] at hsize h ⊢
      obtain ⟨cs', rest', rfl, rfl, hb⟩ := hk a cs ha (front ++ cs) rest b s hsize h
      exact ⟨cs ++ cs', rest', (List.append_assoc _ _ _).symm, by simp only [List.append_assoc], hb⟩

theorem took_substring {n : ℕ} (hn : n < 2 ^ 63) :
    Took (fun s => s.substring n) fun bs cs => bs = cs ∧ cs.length = n := by
  intro front bs a s hsize h
  change Imemstream.substring _ _ = _ at h
  rw [List.length_append] at hsize
  by_cases hle : n ≤ bs.length
  · rw [Imemstream.substring_of_le (by simp only [List.length_append]; omega)
      (by simp only [List.length_append]; omega)] at h
    cases h
    rw [List.drop_left]
    refine ⟨bs.take n, bs.drop n, (List.take_append_drop n bs).symm, ?_, rfl, by simp [hle]⟩
    simp [hle]
  · rw [Imemstream.substring_of_lt (by simp only [List.length_append]; omega)
      (by simp only; omega)] at h
    cases h

theorem Took.load {n : ℕ} (hn : n < 2 ^ 63) {k : ℕ → Reader α}
    (h : ∀ value, value < 256 ^ n → Took (k value) fun a bs => R a (bigEndian n value ++ bs)) :
    Took (mpLoad n >>= k) R := by
  have hload : Took (mpLoad n) fun value cs => value < 256 ^ n ∧ cs = bigEndian n value := by
    refine (took_substring hn).bind fun bs cs hcs => took_pure ?_
    obtain ⟨rfl, rfl⟩ := hcs
    rw [List.append_nil]
    exact ⟨ofBigEndian_lt bs, (bigEndian_ofBigEndian bs).symm⟩
  refine hload.bind fun value cs hcs => ?_
  obtain ⟨hvalue, rfl⟩ := hcs
  exact h value hvalue

theorem Took.code {k : ℕ → Reader α}
    (h : ∀ b : UInt8, Took (k b.toNat) fun a bs => R a (b :: bs)) : Took (mpLoad 1 >>= k) R := by
  refine Took.load (by decide) fun value hvalue => ?_
  have hbyte : (UInt8.ofNat value).toNat = value := by
    rw [UInt8.toNat_ofNat']
    omega
  have hcode := h (UInt8.ofNat value)
  rw [hbyte] at hcode
  have hbytes : bigEndian 1 value = [UInt8.ofNat value] := by simp [bigEndian]
  rw [hbytes]
  exact hcode

end Took

theorem took_readUint {T : Type} (cast : ℕ → T) :
    Took (readUint cast) fun _ bs => ∃ v, Form (.uint v) bs := by
  have hlong : ∀ {n : ℕ} {b : UInt8}, n ≤ 8 →
      (∀ v : UInt64, v.toNat < 256 ^ n → Form (.uint v) (b :: bigEndian n v.toNat)) →
        Took (mpLoad n >>= fun res => pure (cast res)) fun _ bs =>
          ∃ v, Form (.uint v) (b :: bs) := by
    intro n b hn hform
    refine Took.load (by omega) fun value hvalue => took_pure ?_
    have hlt : value < 2 ^ 64 := hvalue.trans_le (Nat.pow_le_pow_right (n := 256) (by decide) hn)
    have hnat : (UInt64.ofNat value).toNat = value := by
      rw [UInt64.toNat_ofNat']
      omega
    have hv := hform (UInt64.ofNat value)
    rw [hnat] at hv
    rw [List.append_nil]
    exact ⟨UInt64.ofNat value, hv hvalue⟩
  have hcode : ∀ {b : UInt8} {n : ℕ}, b.toNat = n → n < 256 → b = UInt8.ofNat n := by
    intro b n hb hn
    rw [← hb, UInt8.ofNat_toNat]
  refine Took.code fun b => ?_
  split_ifs with h₁ h₂ h₃ h₄ h₅
  · rw [hcode h₁ (by decide)]
    exact hlong (by decide) fun v hv => .uint8 hv
  · rw [hcode h₂ (by decide)]
    exact hlong (by decide) fun v hv => .uint16 hv
  · rw [hcode h₃ (by decide)]
    exact hlong (by decide) fun v hv => .uint32 hv
  · rw [hcode h₄ (by decide)]
    exact hlong (by decide) fun v _ => .uint64
  · exact took_throw badFormat _
  · have hsmall : b.toNat < 0x80 := Nat.lt_of_not_le h₅
    have hnat : (UInt64.ofNat b.toNat).toNat = b.toNat := by
      rw [UInt64.toNat_ofNat']
      omega
    have hform : Form (.uint (UInt64.ofNat b.toNat)) [UInt8.ofNat (UInt64.ofNat b.toNat).toNat] :=
      .fixint (hnat.trans_lt hsmall)
    rw [hnat, UInt8.ofNat_toNat] at hform
    exact took_pure ⟨UInt64.ofNat b.toNat, hform⟩

/-- The size of a container, behind its code or inside it. -/
theorem took_readSize {pack16 pack32 low high : ℕ} (hlow : low % 16 = 0)
    (hhigh : high = low + 16) :
    Took (readSize pack16 pack32 low high) fun n bs =>
      n.toNat < 2 ^ 16 ∧ bs = UInt8.ofNat pack16 :: bigEndian 2 n.toNat ∨
        bs = UInt8.ofNat pack32 :: bigEndian 4 n.toNat ∨
          n.toNat < 16 ∧ bs = [UInt8.ofNat (low + n.toNat)] := by
  have hnat : ∀ {value : ℕ}, value < 2 ^ 32 → (UInt32.ofNat value).toNat = value := by
    intro value hvalue
    rw [UInt32.toNat_ofNat']
    omega
  refine Took.code fun b => ?_
  split_ifs with h₁ h₂ h₃
  · refine Took.load (by decide) fun value hvalue => took_pure (.inl ?_)
    rw [hnat (by omega), List.append_nil, ← h₁, UInt8.ofNat_toNat]
    exact ⟨hvalue, rfl⟩
  · refine Took.load (by decide) fun value hvalue => took_pure (.inr (.inl ?_))
    rw [hnat (by omega), List.append_nil, ← h₂, UInt8.ofNat_toNat]
  · exact took_throw badFormat _
  · have hmask : b.toNat &&& 0x0f = b.toNat % 2 ^ 4 := Nat.and_two_pow_sub_one_eq_mod _ 4
    have hsum : low + b.toNat % 2 ^ 4 = b.toNat := by omega
    refine took_pure (.inr (.inr ?_))
    rw [hmask, hnat (by omega), hsum, UInt8.ofNat_toNat]
    exact ⟨Nat.mod_lt _ (by decide), rfl⟩

theorem took_readArraySize : Took readArraySize fun n bs => Form (.arraySize n) bs := by
  refine (took_readSize rfl rfl).mono ?_
  rintro n bs (⟨hn, rfl⟩ | rfl | ⟨hn, rfl⟩)
  · exact .array16 hn
  · exact .array32
  · exact .fixarray hn

theorem took_readMapSize : Took readMapSize fun n bs => Form (.mapSize n) bs := by
  refine (took_readSize rfl rfl).mono ?_
  rintro n bs (⟨hn, rfl⟩ | rfl | ⟨hn, rfl⟩)
  · exact .map16 hn
  · exact .map32
  · exact .fixmap hn

theorem took_readStringSize :
    Took readStringSize fun n bs => n < 2 ^ 32 ∧
      ∀ str : Bytes, str.length = n → Form (.string str) (bs ++ str) := by
  have hlong : ∀ {n : ℕ} {b : UInt8}, n ≤ 4 →
      (∀ str : Bytes, str.length < 256 ^ n →
        Form (.string str) (b :: bigEndian n str.length ++ str)) →
          Took (mpLoad n) fun size bs => size < 2 ^ 32 ∧
            ∀ str : Bytes, str.length = size → Form (.string str) (b :: bs ++ str) := by
    intro n b hn hform
    rw [← bind_pure (mpLoad n)]
    refine Took.load (by omega) fun value hvalue => took_pure ⟨?_, ?_⟩
    · exact hvalue.trans_le (Nat.pow_le_pow_right (n := 256) (by decide) hn)
    · rintro str rfl
      rw [List.append_nil]
      exact hform str hvalue
  refine Took.code fun b => ?_
  split_ifs with h₁ h₂ h₃ h₄
  · have hb : b = 0xd9 := UInt8.toNat_inj.mp h₁
    rw [hb]
    exact hlong (by decide) fun str hstr => .str8 hstr
  · have hb : b = 0xda := UInt8.toNat_inj.mp h₂
    rw [hb]
    exact hlong (by decide) fun str hstr => .str16 hstr
  · have hb : b = 0xdb := UInt8.toNat_inj.mp h₃
    rw [hb]
    exact hlong (by decide) fun str hstr => .str32 hstr
  · exact took_throw badFormat _
  · have hcode : 0xa0 ≤ b.toNat ∧ b.toNat < 0xc0 := by simpa using h₄
    have hmask : b.toNat &&& 0x1f = b.toNat % 2 ^ 5 := Nat.and_two_pow_sub_one_eq_mod _ 5
    have hsum : 0xa0 + b.toNat % 2 ^ 5 = b.toNat := by omega
    refine took_pure ⟨?_, ?_⟩
    · rw [hmask]
      omega
    · intro str hstr
      have hform : Form (.string str) (UInt8.ofNat (0xa0 + str.length) :: str) :=
        .fixstr (by rw [hstr, hmask]; omega)
      rwa [hstr, hmask, hsum, UInt8.ofNat_toNat] at hform

theorem took_readString : Took readString fun _ bs => ∃ str, Form (.string str) bs := by
  refine took_readStringSize.bind fun n bs hn => ?_
  refine (took_substring (hn.1.trans (by decide))).mono ?_
  rintro _ str ⟨-, hstr⟩
  exact ⟨str, hn.2 str hstr⟩

/-! ## What a parse takes -/

section Loops
variable {α β γ δ : Type} {R : γ → Bytes → Prop} {S : δ → Bytes → Prop}

theorem took_parseEach {p : α → Reader α} (hp : ∀ a, Took (p a) fun _ bs => ∃ w, R w bs)
    (l : List α) :
    Took (parseEach p l) fun _ bs => ∃ ws : List γ, ws.length = l.length ∧ Row R ws bs := by
  induction l with
  | nil => exact took_pure ⟨[], rfl, .nil⟩
  | cons a l ih =>
      refine (hp a).bind fun b bs hb => ih.bind fun m bs' hm => took_pure ?_
      obtain ⟨w, hw⟩ := hb
      obtain ⟨ws, hlen, hws⟩ := hm
      rw [List.append_nil]
      exact ⟨w :: ws, congrArg (· + 1) hlen, .cons hw hws⟩

theorem took_parseEntries (lt : α → α → Bool) {key : Reader α} {val : Reader β}
    (hkey : Took key fun _ bs => ∃ w, R w bs) (hval : Took val fun _ bs => ∃ w, S w bs) (n : ℕ)
    (m : List (α × β)) :
    Took (parseEntries lt key val n m) fun _ bs =>
      ∃ ws : List (γ × δ), ws.length = n ∧ Row (Couple R S) ws bs := by
  induction n generalizing m with
  | zero => exact took_pure ⟨[], rfl, .nil⟩
  | succ n ih =>
      refine hkey.bind fun k bs hk => hval.bind fun v bs' hv => (ih _).mono fun m' bs'' hm => ?_
      obtain ⟨kw, hkw⟩ := hk
      obtain ⟨vw, hvw⟩ := hv
      obtain ⟨ws, hlen, hws⟩ := hm
      rw [← List.append_assoc]
      exact ⟨(kw, vw) :: ws, congrArg (· + 1) hlen, .cons ⟨bs, bs', rfl, hkw, hvw⟩ hws⟩

/-- A count as an `int`. -/
theorem toInt_count (n : UInt32) :
    n.toInt32.toInt = if n.toNat < 2 ^ 31 then (n.toNat : ℤ) else (n.toNat : ℤ) - 2 ^ 32 := by
  have hn := n.toNat_lt
  change n.toBitVec.toInt = _
  rw [BitVec.toInt_eq_toNat_cond]
  change (if 2 * n.toNat < 2 ^ 32 then (n.toNat : ℤ) else (n.toNat : ℤ) - (2 ^ 32 : ℕ)) = _
  split_ifs <;> omega

theorem turns_count (n : UInt32) :
    n.toInt32.toInt.toNat = if n.toNat < 2 ^ 31 then n.toNat else 0 := by
  have hn := n.toNat_lt
  rw [toInt_count]
  split_ifs <;> omega

theorem toInt_count_neg_iff (n : UInt32) : n.toInt32.toInt < 0 ↔ 2 ^ 31 ≤ n.toNat := by
  have hn := n.toNat_lt
  rw [toInt_count]
  split_ifs <;> omega

theorem length_resize (l : List α) (n : ℕ) (a : α) : (resize l n a).length = n := by
  rw [resize, List.length_append, List.length_take, List.length_replicate]
  omega

theorem took_parseVector {p : α → Reader α} (hp : ∀ a, Took (p a) fun _ bs => ∃ w, R w bs)
    (a : α) (old : List α) :
    Took (parseVector p a old) fun _ bs =>
      ∃ ws : List γ, Counted .arraySize arrayTurns R ws bs := by
  refine took_readArraySize.bind fun n head hhead => ?_
  by_cases hn : n.toInt32.toInt < 0
  · rw [if_pos hn]
    exact took_throw lengthError _
  · rw [if_neg hn]
    rw [toInt_count_neg_iff, not_le] at hn
    refine (took_parseEach hp _).mono fun l body hbody => ?_
    obtain ⟨ws, hlen, hws⟩ := hbody
    rw [length_resize, turns_count, if_pos hn] at hlen
    exact ⟨ws, n, head, body, rfl, hhead, by rw [arrayTurns, if_pos hn, hlen], hws⟩

theorem took_parseMap (lt : α → α → Bool) {key : Reader α} {val : Reader β}
    (hkey : Took key fun _ bs => ∃ w, R w bs) (hval : Took val fun _ bs => ∃ w, S w bs)
    (m : List (α × β)) :
    Took (parseMap lt key val m) fun _ bs =>
      ∃ ws : List (γ × δ), Counted .mapSize mapTurns (Couple R S) ws bs := by
  refine took_readMapSize.bind fun n head hhead => ?_
  refine (took_parseEntries lt hkey hval _ m).mono fun m' body hbody => ?_
  obtain ⟨ws, hlen, hws⟩ := hbody
  rw [turns_count] at hlen
  exact ⟨ws, n, head, body, rfl, hhead, by rw [mapTurns, hlen], hws⟩

end Loops

/-- What a parse does not refuse comes as the type asks. -/
theorem took_parse (t : Ty) (old : t.Val) : Took (parse t old) fun _ bs => ∃ w, Asked t w bs := by
  induction t with
  | uint32 => exact took_readUint _
  | time => exact took_readUint _
  | uint64 => exact took_readUint _
  | string => exact took_readString
  | vector t ih => exact took_parseVector ih t.fresh old
  | map k v ihk ihv => exact took_parseMap k.less (ihk k.fresh) (ihv v.fresh) old

/-! ## What a parse returns -/

section Rows
variable {α β γ δ : Type} {R R' : γ → Bytes → Prop} {S S' : δ → Bytes → Prop} {l : List γ}
  {bs : Bytes}

theorem Row.imp (h : Row R l bs) (hR : ∀ w ∈ l, ∀ bs, R w bs → R' w bs) : Row R' l bs := by
  induction h with
  | nil => exact .nil
  | cons hx _ ih =>
      rw [List.forall_mem_cons] at hR
      exact .cons (hR.1 _ hx) (ih hR.2)

theorem Row.exists (h : Row R l bs) {w : γ} (hw : w ∈ l) : ∃ bs, R w bs := by
  induction h with
  | nil => cases hw
  | cons hx _ ih =>
      rcases List.mem_cons.mp hw with rfl | hmem
      · exact ⟨_, hx⟩
      · exact ih hmem

theorem Couple.imp {x : γ × δ} (h : Couple R S x bs) (hR : ∀ bs, R x.1 bs → R' x.1 bs)
    (hS : ∀ bs, S x.2 bs → S' x.2 bs) : Couple R' S' x bs := by
  obtain ⟨first, second, rfl, hfirst, hsecond⟩ := h
  exact ⟨first, second, rfl, hR first hfirst, hS second hsecond⟩

theorem consumes_parseEach {p : α → Reader α} {f : γ → α} {olds : List α} (h : Row R l bs)
    (hlen : olds.length = l.length)
    (hp : ∀ a ∈ olds, ∀ w bs, R w bs → Consumes (p a) bs (f w)) :
    Consumes (parseEach p olds) bs (l.map f) := by
  induction h generalizing olds with
  | nil =>
      rw [List.length_nil, List.length_eq_zero_iff] at hlen
      rw [hlen]
      exact consumes_pure []
  | cons hx _ ih =>
      cases olds with
      | nil => cases hlen
      | cons a olds =>
          rw [List.forall_mem_cons] at hp
          have hrest := ih (Nat.succ.inj hlen) hp.2
          exact (hp.1 _ _ hx).bind (hrest.map fun m => f _ :: m)

theorem consumes_parseEntries (lt : α → α → Bool) {key : Reader α} {val : Reader β} {f : γ → α}
    {g : δ → β} (hkey : ∀ w bs, R w bs → Consumes key bs (f w))
    (hval : ∀ w bs, S w bs → Consumes val bs (g w)) {l : List (γ × δ)} (h : Row (Couple R S) l bs)
    (m : List (α × β)) :
    Consumes (parseEntries lt key val l.length m) bs
      (emplaceAll lt m (l.map fun x => (f x.1, g x.2))) := by
  induction h generalizing m with
  | nil => exact consumes_pure m
  | cons hx _ ih =>
      obtain ⟨first, second, rfl, hfirst, hsecond⟩ := hx
      rw [List.append_assoc]
      exact (hkey _ _ hfirst).bind ((hval _ _ hsecond).bind (ih _))

theorem consumes_parseVector {p : α → Reader α} {f : γ → α} {a : α} {olds : List α}
    (h : Counted .arraySize arrayTurns R l bs)
    (hp : ∀ x, x ∈ olds ∨ x = a → ∀ w bs, R w bs → Consumes (p x) bs (f w)) :
    Consumes (parseVector p a olds) bs (l.map f) := by
  obtain ⟨n, front, body, rfl, hfront, hcount, hbody⟩ := h
  have hn : n.toNat < 2 ^ 31 := by
    by_contra hn
    rw [arrayTurns, if_neg hn] at hcount
    cases hcount
  rw [arrayTurns, if_pos hn, Option.some.injEq] at hcount
  refine (consumes_readArraySize hfront).bind ?_
  rw [if_neg (by rw [toInt_count_neg_iff]; omega), turns_count, if_pos hn]
  refine consumes_parseEach hbody (by rw [length_resize, hcount]) fun x hx => hp x ?_
  rcases List.mem_append.mp hx with hx | hx
  · exact .inl (List.mem_of_mem_take hx)
  · exact .inr (List.eq_of_mem_replicate hx)

theorem consumes_parseMap (lt : α → α → Bool) {key : Reader α} {val : Reader β} {f : γ → α}
    {g : δ → β} (hkey : ∀ w bs, R w bs → Consumes key bs (f w))
    (hval : ∀ w bs, S w bs → Consumes val bs (g w)) {l : List (γ × δ)}
    (h : Counted .mapSize mapTurns (Couple R S) l bs) (m : List (α × β)) :
    Consumes (parseMap lt key val m) bs (emplaceAll lt m (l.map fun x => (f x.1, g x.2))) := by
  obtain ⟨n, front, body, rfl, hfront, hcount, hbody⟩ := h
  rw [mapTurns, Option.some.injEq] at hcount
  refine (consumes_readMapSize hfront).bind ?_
  rw [turns_count, hcount]
  exact consumes_parseEntries lt hkey hval hbody m

theorem entries_perm {lt : α → α → Bool} (hlt : StrictTotal lt) {f : γ → α} {g : δ → β}
    {l : List (γ × δ)} (h : (l.map fun x => f x.1).Nodup) :
    (emplaceAll lt [] (l.map fun x => (f x.1, g x.2))).Perm (l.map fun x => (f x.1, g x.2)) := by
  apply emplaceAll_nil_perm hlt
  rwa [List.map_map]

end Rows

theorem bare_fresh (t : Ty) : Bare t t.fresh := by
  cases t with
  | uint32 => trivial
  | time => trivial
  | uint64 => trivial
  | string => trivial
  | vector t => exact fun x hx => absurd hx List.not_mem_nil
  | map k v => exact rfl

theorem consumes_parse {t : Ty} {old : t.Val} (hold : Bare t old) {w : t.Data} {bs : Bytes}
    (h : Asked t w bs) : Consumes (parse t old) bs (value t w) := by
  induction t generalizing bs with
  | uint32 => exact consumes_readUint_cast UInt32.ofNat h
  | time => exact consumes_readUint_cast Int64.ofNat h
  | uint64 => exact consumes_readUint h
  | string => exact consumes_readString h
  | vector t ih =>
      refine consumes_parseVector h fun x hx w bs hw => ih ?_ hw
      rcases hx with hx | rfl
      · exact hold x hx
      · exact bare_fresh t
  | map k v ihk ihv =>
      obtain rfl : old = [] := hold
      exact consumes_parseMap k.less (fun _ _ hw => ihk (bare_fresh k) hw)
        (fun _ _ hw => ihv (bare_fresh v) hw) h []

/-- The order of integers. -/
theorem strictTotal_int {α : Type} [LT α] [DecidableLT α] (f : α → ℤ)
    (hinj : ∀ {a b}, f a = f b → a = b) (hlt : ∀ {a b}, a < b ↔ f a < f b) :
    StrictTotal fun a b : α => decide (a < b) where
  irrefl a := by simp [hlt]
  trans := by
    intro a b c hab hbc
    rw [decide_eq_true_eq, hlt] at *
    exact hab.trans hbc
  total := by
    intro a b hab hba
    rw [decide_eq_false_iff_not, hlt, not_lt] at *
    exact hinj (le_antisymm hba hab)

theorem Ty.less_strict (t : Ty) : StrictTotal t.less := by
  induction t with
  | uint32 =>
      exact strictTotal_int (α := UInt32) (fun a => (a.toNat : ℤ))
        (fun h => UInt32.toNat_inj.mp (Int.ofNat_inj.mp h))
        (UInt32.lt_iff_toNat_lt.trans Int.ofNat_lt.symm)
  | time => exact strictTotal_int (α := Int64) Int64.toInt Int64.toInt_inj.mp Int64.lt_iff_toInt_lt
  | uint64 =>
      exact strictTotal_int (α := UInt64) (fun a => (a.toNat : ℤ))
        (fun h => UInt64.toNat_inj.mp (Int.ofNat_inj.mp h))
        (UInt64.lt_iff_toNat_lt.trans Int.ofNat_lt.symm)
  | string => exact OrderedMap.less_strict
  | vector t ih => exact ih.lex
  | map k v ihk ihv => exact (ihk.pair ihv).lex

theorem valid_value {t : Ty} {w : t.Data} {bs : Bytes} (h : Asked t w bs) :
    Valid t (value t w) := by
  induction t generalizing bs with
  | uint32 => trivial
  | time => trivial
  | uint64 => trivial
  | string => trivial
  | vector t ih =>
      obtain ⟨n, front, body, -, -, hcount, hbody⟩ := h
      have hlen : List.length w < 2 ^ 31 := by
        rw [arrayTurns] at hcount
        split_ifs at hcount with hn
        exact Option.some.inj hcount ▸ hn
      refine ⟨(List.length_map _).trans_lt hlen, fun x hx => ?_⟩
      obtain ⟨y, hy, rfl⟩ := List.mem_map.mp hx
      obtain ⟨bs, hbs⟩ := hbody.exists hy
      exact ih hbs
  | map k v ihk ihv =>
      obtain ⟨n, front, body, -, -, hcount, hbody⟩ := h
      have hlen : List.length w < 2 ^ 31 := by
        rw [mapTurns, Option.some.injEq] at hcount
        rw [← hcount]
        split_ifs with hn
        · exact hn
        · decide
      refine ⟨?_, sorted_emplaceAll k.less_strict _ List.Pairwise.nil, fun x hx => ?_⟩
      · refine (length_emplaceAll_le _ _).trans_lt ((Nat.zero_add _).trans_lt ?_)
        exact (List.length_map _).trans_lt hlen
      · obtain ⟨y, hy, rfl⟩ := List.mem_map.mp ((mem_emplaceAll hx).resolve_right List.not_mem_nil)
        obtain ⟨bs, first, second, -, hfirst, hsecond⟩ := hbody.exists hy
        exact ⟨ihk hfirst, ihv hsecond⟩

/-! ## What is kept -/

theorem asked_of_fits {t : Ty} {w : t.Data} {bs : Bytes} (h : Encodes t w bs) (hfits : Fits t w) :
    Asked t w bs := by
  induction t generalizing bs with
  | uint32 => exact h
  | time => exact h
  | uint64 => exact h
  | string => exact h
  | vector t ih =>
      obtain ⟨n, front, body, rfl, hfront, hcount, hbody⟩ := h
      rw [Option.some.injEq] at hcount
      refine ⟨n, front, body, rfl, hfront, ?_, hbody.imp fun x hx bs hbs => ih hbs (hfits.2 x hx)⟩
      rw [arrayTurns, if_pos (hcount ▸ hfits.1), hcount]
  | map k v ihk ihv =>
      obtain ⟨n, front, body, rfl, hfront, hcount, hbody⟩ := h
      rw [Option.some.injEq] at hcount
      refine ⟨n, front, body, rfl, hfront, ?_, hbody.imp fun x hx bs hbs => ?_⟩
      · rw [mapTurns, if_pos (hcount ▸ hfits.1), hcount]
      · exact hbs.imp (fun _ hk => ihk hk (hfits.2.1 x hx).1) fun _ hv => ihv hv (hfits.2.1 x hx).2

theorem same_value {t : Ty} {w : t.Data} (h : Fits t w) : Same t w (value t w) := by
  induction t with
  | uint32 => exact UInt32.toNat_ofNat'.trans (Nat.mod_eq_of_lt h)
  | time => exact Int64.toInt_ofNat_of_lt h
  | uint64 => exact rfl
  | string => exact rfl
  | vector t ih =>
      refine List.forall₂_map_right_iff.mpr (List.forall₂_same.mpr fun x hx => ?_)
      exact ih (h.2 x hx)
  | map k v ihk ihv =>
      obtain ⟨-, hall, hnodup⟩ := h
      refine ⟨_, (entries_perm k.less_strict hnodup).symm, ?_⟩
      refine List.forall₂_map_right_iff.mpr (List.forall₂_same.mpr fun x hx => ?_)
      exact ⟨ihk (hall x hx).1, ihv (hall x hx).2⟩

theorem forall₂_image {α γ : Type} {R : γ → α → Prop} {P : α → Prop} {Q : γ → Prop} {f : γ → α}
    {l : List γ} {m : List α} (h : List.Forall₂ R l m)
    (hR : ∀ w v, R w v → P v → Q w ∧ f w = v) (hm : ∀ v ∈ m, P v) :
    (∀ w ∈ l, Q w) ∧ l.map f = m := by
  induction h with
  | nil => exact ⟨fun w hw => absurd hw List.not_mem_nil, rfl⟩
  | cons hx _ ih =>
      rw [List.forall_mem_cons] at hm
      obtain ⟨hw, rfl⟩ := hR _ _ hx hm.1
      obtain ⟨hl, rfl⟩ := ih hm.2
      exact ⟨List.forall_mem_cons.mpr ⟨hw, hl⟩, rfl⟩

theorem keys_nodup {α β γ δ : Type} {lt : α → α → Bool} (hlt : StrictTotal lt) {f : γ → α}
    {g : δ → β} {l : List (γ × δ)} {m : List (α × β)} (hm : Sorted lt m)
    (hperm : (l.map fun x => (f x.1, g x.2)).Perm m) : (l.map fun x => f x.1).Nodup := by
  have hkeys := (hperm.map Prod.fst).nodup_iff.mpr (nodup_keys hlt hm)
  rwa [List.map_map] at hkeys

/-- A value that is the same is the one that the destination gets, and nothing was too large. -/
theorem fits_of_same {t : Ty} {w : t.Data} {v : t.Val} (h : Same t w v) (hv : Valid t v) :
    Fits t w ∧ value t w = v := by
  induction t with
  | uint32 =>
      have hlt := UInt32.toNat_lt v
      have hw : UInt64.toNat w < 2 ^ 32 := h ▸ hlt
      exact ⟨hw, UInt32.toNat_inj.mp ((UInt32.toNat_ofNat_of_lt' hw).trans h.symm)⟩
  | time =>
      have hlt := Int64.toInt_lt v
      have hw : UInt64.toNat w < 2 ^ 63 := by
        rw [h] at hlt
        exact_mod_cast hlt
      exact ⟨hw, Int64.toInt_inj.mp ((Int64.toInt_ofNat_of_lt hw).trans h.symm)⟩
  | uint64 => exact ⟨trivial, h.symm⟩
  | string => exact ⟨trivial, h.symm⟩
  | vector t ih =>
      have himage := forall₂_image h (fun w v hw hv => ih hw hv) hv.2
      exact ⟨⟨h.length_eq.trans_lt hv.1, himage.1⟩, himage.2⟩
  | map k u ihk ihu =>
      obtain ⟨m', hperm, hall⟩ := h
      obtain ⟨hlen, hsorted, hvalid⟩ := hv
      have himage := forall₂_image (Q := fun x => Fits k x.1 ∧ Fits u x.2)
        (f := fun x => (value k x.1, value u x.2)) hall
        (fun x y hx hy => ⟨⟨(ihk hx.1 hy.1).1, (ihu hx.2 hy.2).1⟩,
          Prod.ext (ihk hx.1 hy.1).2 (ihu hx.2 hy.2).2⟩)
        fun y hy => hvalid y (hperm.mem_iff.mp hy)
      obtain ⟨hfits, rfl⟩ := himage
      refine ⟨⟨?_, hfits, keys_nodup k.less_strict hsorted hperm⟩,
        (eq_emplaceAll k.less_strict hsorted hperm).symm⟩
      exact (hall.length_eq.trans hperm.length_eq).trans_lt hlen

theorem parse_of_asked {t : Ty} {old : t.Val} (hold : Bare t old) {w : t.Data} {front bs : Bytes}
    (hsize : bs.length < 2 ^ 63) (hfront : front <+: bs) (h : Asked t w front) :
    parse t old { data := bs } = .ok (value t w, { data := bs, offset := front.length }) := by
  obtain ⟨rest, rfl⟩ := hfront
  exact consumes_parse hold h _ [] rest rfl (hsize.trans (by decide))

theorem asked_of_parse {t : Ty} {old v : t.Val} {bs : Bytes} {s : Imemstream}
    (hsize : bs.length < 2 ^ 63) (h : parse t old { data := bs } = .ok (v, s)) :
    ∃ w front, front <+: bs ∧ Asked t w front := by
  obtain ⟨front, rest, hbs, -, w, hw⟩ := took_parse t old [] bs v s hsize h
  exact ⟨w, front, ⟨rest, hbs.symm⟩, hw⟩

/-- A parse changes nothing silently if and only if it refuses the input, or the input begins
with the encoding of a value whose numbers, counts and keys fit. -/
theorem parse_keeps_iff {t : Ty} {old : t.Val} (hold : Bare t old) {bs : Bytes}
    (hsize : bs.length < 2 ^ 63) :
    Kept t old bs ↔ (∀ w front, front <+: bs → ¬ Asked t w front) ∨
      ∃ w front, front <+: bs ∧ Encodes t w front ∧ Fits t w := by
  constructor
  · intro hkept
    by_cases hasked : ∃ w front, front <+: bs ∧ Asked t w front
    · obtain ⟨w, front, hfront, h⟩ := hasked
      obtain ⟨w', front', hfront', henc, hsame⟩ :=
        hkept _ _ (parse_of_asked hold hsize hfront h)
      exact .inr ⟨w', front', hfront', henc, (fits_of_same hsame (valid_value h)).1⟩
    · exact .inl fun w front hfront h => hasked ⟨w, front, hfront, h⟩
  · rintro (hrefused | ⟨w, front, hfront, henc, hfits⟩) v s hparse
    · obtain ⟨w, front, hfront, h⟩ := asked_of_parse hsize hparse
      exact absurd h (hrefused w front hfront)
    · rw [parse_of_asked hold hsize hfront (asked_of_fits henc hfits)] at hparse
      cases hparse
      exact ⟨w, front, hfront, henc, same_value hfits⟩

/-- A vector with the largest number that fits, behind a destination with another one. -/
theorem parse_keeps_max :
    Kept (.vector .uint32) [(7 : UInt32)] [0x91, 0xce, 0xff, 0xff, 0xff, 0xff] := by
  have hold : Bare (.vector .uint32) [(7 : UInt32)] := fun _ _ => trivial
  refine (parse_keeps_iff hold (by decide)).mpr (.inr ?_)
  refine ⟨[(0xffffffff : UInt64)], _, List.prefix_refl _, ?_, by decide, ?_⟩
  · have hnumber : Laid (fun n => some n.toNat) (fun n => some n.toNat) .uint32
        (0xffffffff : UInt64) [0xce, 0xff, 0xff, 0xff, 0xff] := Form.uint32 (by decide)
    exact ⟨1, [0x91], _, rfl, .fixarray (by decide), rfl, .cons hnumber .nil⟩
  · intro w hw
    rw [List.mem_singleton.mp hw]
    exact show (0xffffffff : UInt64).toNat < 2 ^ 32 by decide

/-- 2^32 is parsed as zero. -/
theorem parse_uint32_wraps :
    ¬ Kept .uint32 (0 : UInt32) [0xcf, 0x00, 0x00, 0x00, 0x01, 0x00, 0x00, 0x00, 0x00] := by
  intro hkept
  have hform : Form (.uint 0x100000000)
      [0xcf, 0x00, 0x00, 0x00, 0x01, 0x00, 0x00, 0x00, 0x00] := .uint64
  have hold : Bare .uint32 (0 : UInt32) := trivial
  have hparse := parse_of_asked hold (by decide) (List.prefix_refl _) hform
  obtain ⟨w, front, hfront, henc, hsame⟩ := hkept _ _ hparse
  have hlen := length_form_uint_le henc
  have hw := (consumes_readUint henc).unique (consumes_readUint hform) hfront
    (List.prefix_refl _) (by simp only [List.length_cons, List.length_nil]; omega)
  rw [hw] at hsame
  exact absurd hsame (show ¬ (0 : UInt32).toNat = (0x100000000 : UInt64).toNat by decide)

end Stuff.MsgPack
