import Stuff.ProtobufWire
import Mathlib.Algebra.GroupWithZero.Nat
import Mathlib.Algebra.Order.BigOperators.Group.List

/-!
# Writing Protobuf and reading it again

`writeVarInt<T>` shifts a number in its own type and goes on while something positive is
left. A negative number keeps its sign, so that it stops after one byte.
-/
namespace Stuff.Protobuf
open MachineWords Base128

/-- The integral types that are written. -/
inductive Integral
  | int32
  | uint32
  | int64
  | uint64
deriving DecidableEq, Repr

def Integral.width : Integral → ℕ
  | .int32 | .uint32 => 32
  | .int64 | .uint64 => 64

def Integral.isSigned : Integral → Bool
  | .int32 | .int64 => true
  | .uint32 | .uint64 => false

def Integral.toInt (t : Integral) (v : BitVec t.width) : ℤ :=
  if t.isSigned then v.toInt else v.toNat

/-! ## Writer -/

theorem shiftRight_seven (aVar : ℤ) : aVar >>> (7 : ℕ) = aVar / 128 :=
  Int.shiftRight_eq_div_pow aVar 7

def writeVarInt (aVar : ℤ) : Bytes :=
  let sByte := UInt8.ofNat (aVar % 128).toNat
  let sRest := aVar >>> (7 : ℕ)
  (if sRest ≠ 0 then sByte ||| 0x80 else sByte) :: if 0 < sRest then writeVarInt sRest else []
termination_by aVar.toNat
decreasing_by
  have hshift := shiftRight_seven aVar
  omega

def writeTag (aInfo : FieldInfo) : Bytes :=
  writeVarInt (aInfo.tag.toUInt64 ||| aInfo.id <<< 3).toNat

/-- The exceptions are `std::invalid_argument`. -/
def writeInt (aId : UInt64) (aVal : ℤ) (mode : IntType) (m_Buffer : Bytes) :
    Except String Bytes :=
  match mode with
  | .variant => .ok (m_Buffer ++ writeTag ⟨tagVariant, aId⟩ ++ writeVarInt aVal)
  | .fixed => .error "fixed not implemented"
  | .zigzag => .error "zigzag not implemented"

def writeString (aId : UInt64) (aStr : Bytes) (m_Buffer : Bytes) : Bytes :=
  m_Buffer ++ writeTag ⟨tagLength, aId⟩ ++ writeVarInt aStr.length ++ aStr

/-! ## What is written and read -/

inductive Kind
  | integral (t : Integral)
  | string
deriving DecidableEq, Repr

inductive Value
  | integral (t : Integral) (v : BitVec t.width)
  | string (s : Bytes)
deriving DecidableEq, Repr

def Value.kind : Value → Kind
  | .integral t _ => .integral t
  | .string _ => .string

structure Written where
  id : UInt64
  value : Value
deriving DecidableEq, Repr

def Written.write (f : Written) (m_Buffer : Bytes) : Except String Bytes :=
  match f.value with
  | .integral t v => writeInt f.id (t.toInt v) .variant m_Buffer
  | .string s => .ok (writeString f.id s m_Buffer)

def writeAll (fields : List Written) : Except String Bytes :=
  fields.foldlM (fun m_Buffer f => f.write m_Buffer) []

def Kind.read : Kind → Reader Value
  | .integral t => do
      let v ← readInt t.width .variant
      return .integral t v
  | .string => do
      let s ← readString
      return .string s

theorem takes_kind_read (k : Kind) : Takes 1 k.read := by
  cases k with
  | integral t => exact (takes_readVarInt t.width).bind fun _ => takes_pure _
  | string => exact takes_readString.bind fun _ => takes_pure _

/-- Reads one field after the other with the kinds in turn, and skips what comes after. -/
def readAs : Callback (List Kind × List (UInt64 × Option Value)) where
  run aField buffer
    | ([], sList) => (([], sList ++ [(aField.id, none)]), .ok (.actSkip, buffer))
    | (k :: kinds, sList) =>
        match k.read buffer with
        | .ok (v, buffer) => ((kinds, sList ++ [(aField.id, some v)]), .ok (.actUsed, buffer))
        | .error e => ((k :: kinds, sList), .error e)
  shrinks aField buffer st a rest h := by
    obtain ⟨_ | ⟨k, kinds⟩, sList⟩ := st
    · cases h
      exact le_refl _
    · cases hread : k.read buffer with
      | error e =>
          simp only [hread] at h
          cases h
      | ok r =>
          have htakes := takes_kind_read k buffer r.1 r.2 hread
          simp only [hread] at h
          cases h
          omega

/-- What was written is read, and nothing else. -/
def RoundTrips (fields : List Written) : Prop :=
  ∃ m_Buffer, writeAll fields = .ok m_Buffer ∧
    parse readAs m_Buffer (fields.map (·.value.kind), []) =
      (([], fields.map fun f => (f.id, some f.value)), .ok [])

def Value.Negative : Value → Prop
  | .integral t v => t.toInt v < 0
  | .string _ => False

instance : DecidablePred Value.Negative
  | .integral t v => inferInstanceAs (Decidable (t.toInt v < 0))
  | .string _ => inferInstanceAs (Decidable False)

/-! ## The bytes of a field -/

def Value.tag : Value → UInt8
  | .integral _ _ => tagVariant
  | .string _ => tagLength

def Value.bytes : Value → Bytes
  | .integral t v => writeVarInt (t.toInt v)
  | .string s => writeVarInt s.length ++ s

def Written.bytes (f : Written) : Bytes := writeTag ⟨f.value.tag, f.id⟩ ++ f.value.bytes

theorem write_eq (f : Written) (m_Buffer : Bytes) :
    f.write m_Buffer = .ok (m_Buffer ++ f.bytes) := by
  obtain ⟨id, value⟩ := f
  cases value with
  | integral t v =>
      rw [Written.bytes, ← List.append_assoc]
      rfl
  | string s =>
      rw [Written.bytes, Value.bytes, ← List.append_assoc, ← List.append_assoc]
      rfl

theorem writeAll_eq (fields : List Written) :
    writeAll fields = .ok (fields.flatMap Written.bytes) := by
  have hfold : ∀ m_Buffer, fields.foldlM (fun m_Buffer f => f.write m_Buffer) m_Buffer =
      (.ok (m_Buffer ++ fields.flatMap Written.bytes) : Except String Bytes) := by
    induction fields with
    | nil =>
        intro m_Buffer
        rw [List.flatMap_nil, List.append_nil]
        rfl
    | cons f fields ih =>
        intro m_Buffer
        rw [List.foldlM_cons, write_eq]
        change fields.foldlM _ (m_Buffer ++ f.bytes) = _
        rw [ih, List.flatMap_cons, List.append_assoc]
  exact hfold []

theorem writeVarInt_natCast (n : ℕ) : writeVarInt n = shortest n := by
  induction n using shortest.induct with
  | case1 n hn =>
      have hrest : (n : ℤ) >>> (7 : ℕ) = 0 := by
        rw [shiftRight_seven]
        omega
      rw [writeVarInt, shortest_of_lt hn]
      simp only [hrest, ne_eq, not_true_eq_false, if_false, lt_irrefl]
      congr 2
      omega
  | case2 n hn ih =>
      have hrest : (n : ℤ) >>> (7 : ℕ) = (n / 128 : ℕ) := by
        rw [shiftRight_seven]
        rfl
      have hpos : 0 < n / 128 := by omega
      rw [writeVarInt, shortest_of_le (by omega), ← ih, hrest]
      rw [if_pos (by omega), if_pos (by omega), ← or_80 (Nat.mod_lt n (by decide))]
      rfl

theorem length_writeVarInt_of_neg {aVar : ℤ} (h : aVar < 0) : (writeVarInt aVar).length = 1 := by
  have hrest : ¬ (0 : ℤ) < aVar >>> (7 : ℕ) := by
    rw [shiftRight_seven]
    omega
  rw [writeVarInt]
  simp only [if_neg hrest, List.length_singleton]

theorem Value.tag_lt (v : Value) : v.tag.toNat < 8 := by
  cases v with
  | integral t v => exact (by decide : tagVariant.toNat < 8)
  | string s => exact (by decide : tagLength.toNat < 8)

theorem writeTag_eq {id : UInt64} {tag : UInt8} (hid : id.toNat < 2 ^ 61) (htag : tag.toNat < 8) :
    writeTag ⟨tag, id⟩ = shortest (tagNumber id tag) := by
  have hnumber : (tag.toUInt64 ||| id <<< 3).toNat = tagNumber id tag := by
    rw [UInt64.toNat_or, UInt8.toNat_toUInt64, UInt64.toNat_shiftLeft]
    change tag.toNat ||| id.toNat <<< 3 % 2 ^ 64 = _
    rw [Nat.shiftLeft_eq, Nat.mod_eq_of_lt (by omega), ← Nat.shiftLeft_eq, Nat.or_comm,
      ← Nat.shiftLeft_add_eq_or_of_lt (by omega), Nat.shiftLeft_eq, tagNumber]
  rw [writeTag, hnumber, writeVarInt_natCast]

theorem Integral.toInt_of_nonneg {t : Integral} {v : BitVec t.width} (h : ¬ t.toInt v < 0) :
    t.toInt v = v.toNat := by
  rw [toInt] at h ⊢
  split_ifs at h ⊢ with hsigned
  · rw [BitVec.toInt_eq_toNat_cond] at h ⊢
    split_ifs at h ⊢ with hhalf
    · rfl
    · have hlt := v.isLt
      omega
  · rfl

theorem Integral.length_shortest (t : Integral) (v : BitVec t.width) :
    7 * ((shortest v.toNat).length - 1) < t.width := by
  have hlt := v.isLt
  cases t with
  | int32 | uint32 =>
      have hlen := length_shortest_le (k := 5) (by decide) (hlt.trans (by decide))
      change _ < 32
      omega
  | int64 | uint64 =>
      have hlen := length_shortest_le (k := 10) (by decide) (hlt.trans (by decide))
      change _ < 64
      omega

theorem Integral.width_le (t : Integral) : t.width ≤ 64 := by
  cases t <;> decide

/-! ## Numbers that are not negative come back -/

theorem read_bytes {v : Value} (hv : ¬ v.Negative) (hlen : ∀ s, v = .string s → s.length < 2 ^ 64)
    (rest : Bytes) : v.kind.read (v.bytes ++ rest) = .ok (v, rest) := by
  cases v with
  | integral t v =>
      change Except.bind (readVarInt t.width _) _ = _
      rw [Value.bytes, Integral.toInt_of_nonneg hv, writeVarInt_natCast,
        readVarInt_form t.width_le (form_shortest _) (t.length_shortest v), BitVec.ofNat_toNat,
        BitVec.setWidth_eq]
      rfl
  | string s =>
      have hs := hlen s rfl
      change Except.bind (readString _) _ = _
      rw [Value.bytes, writeVarInt_natCast, readString_length (form_shortest _)
        (length_shortest_le (by decide) (by omega)) (Nat.mod_eq_of_lt hs).symm]
      rfl

theorem payload_bytes {v : Value} (hv : ¬ v.Negative)
    (hlen : ∀ s, v = .string s → s.length < 2 ^ 64) : Payload v.tag v.bytes := by
  cases v with
  | integral t v =>
      rw [Value.bytes, Integral.toInt_of_nonneg hv, writeVarInt_natCast]
      exact .shortest_variant v.toNat
        (v.isLt.trans_le (Nat.pow_le_pow_right (by decide) t.width_le))
  | string s =>
      rw [Value.bytes, writeVarInt_natCast]
      exact .shortest_length s (hlen s rfl)

theorem parse_written {fields : List Written} (hid : ∀ f ∈ fields, f.id.toNat < 2 ^ 61)
    (hlen : ∀ f ∈ fields, ∀ s, f.value = .string s → s.length < 2 ^ 64)
    (h : ∀ f ∈ fields, ¬ f.value.Negative) (sList : List (UInt64 × Option Value)) :
    parse readAs (fields.flatMap Written.bytes) (fields.map (·.value.kind), sList) =
      (([], sList ++ fields.map fun f => (f.id, some f.value)), .ok []) := by
  induction fields generalizing sList with
  | nil =>
      rw [List.map_nil, List.map_nil, List.append_nil]
      rfl
  | cons f fields ih =>
      rw [List.forall_mem_cons] at hid hlen h
      let field := Field.shortest f.id hid.1 (payload_bytes h.1 hlen.1)
      have hbytes : f.bytes = field.head ++ field.payload := by
        rw [Written.bytes, writeTag_eq hid.1 f.value.tag_lt]
        rfl
      have hrun : readAs.run field.info (field.payload ++ fields.flatMap Written.bytes)
          ((f :: fields).map (·.value.kind), sList) =
            ((fields.map (·.value.kind), sList ++ [(f.id, some f.value)]),
              .ok (.actUsed, fields.flatMap Written.bytes)) := by
        have hread := read_bytes h.1 hlen.1 (fields.flatMap Written.bytes)
        simp only [readAs, List.map_cons]
        change (match f.value.kind.read (f.value.bytes ++ _) with
          | .ok (v, buffer) => _
          | .error e => _) = _
        rw [hread]
        rfl
      rw [List.flatMap_cons, hbytes, List.append_assoc, parse_field_used hrun,
        ih hid.2 hlen.2 h.2, List.map_cons, List.append_assoc, List.singleton_append]

/-! ## What reading a field takes -/

def Value.need : Value → ℕ
  | .integral _ v => (shortest v.toNat).length
  | .string s => (shortest s.length).length + s.length

/-- The bytes without which the field is not read. -/
def Written.need (f : Written) : ℕ := (shortest (tagNumber f.id 0)).length + f.value.need

theorem takes_number {w m : ℕ} (hw : w ≤ 64) {v : BitVec w} {buffer rest : Bytes}
    (h : readVarInt w buffer = .ok (v, rest)) (hm : m ≤ v.toNat) :
    rest.length + (shortest m).length ≤ buffer.length := by
  obtain ⟨bs, n, rfl, hform, rfl⟩ := readVarInt_sound hw h
  rw [BitVec.toNat_ofNat] at hm
  have hle := hform.shortest_le (hm.trans (Nat.mod_le n _))
  rw [List.length_append]
  omega

theorem takes_tag {info : FieldInfo} {buffer rest : Bytes}
    (h : readTag buffer = .ok (info, rest)) :
    rest.length + (shortest (tagNumber info.id 0)).length ≤ buffer.length := by
  obtain ⟨tag, inner, hread, hpure⟩ := bind_ok h
  cases hpure
  refine takes_number (le_refl _) hread ?_
  have hid : (FieldInfo.ofTag ⟨tag⟩).id.toNat = tag.toNat / 8 := by
    change ((⟨tag⟩ : UInt64) >>> 3).toNat = _
    rw [UInt64.toNat_shiftRight]
    exact Nat.shiftRight_eq_div_pow _ 3
  rw [tagNumber, hid]
  change tag.toNat / 8 * 8 + 0 ≤ tag.toNat
  omega

theorem takes_value {k : Kind} {v : Value} {buffer rest : Bytes}
    (h : k.read buffer = .ok (v, rest)) : rest.length + v.need ≤ buffer.length := by
  cases k with
  | integral t =>
      obtain ⟨n, inner, hread, hpure⟩ := bind_ok h
      cases hpure
      exact takes_number t.width_le hread (le_refl _)
  | string =>
      obtain ⟨s, inner, hread, hpure⟩ := bind_ok h
      cases hpure
      obtain ⟨n, content, hsize, htake⟩ := bind_ok hread
      have htakes := takes_take n.toNat content s rest htake
      have hlen := length_of_take htake
      have hnumber := takes_number (le_refl _) hsize (le_of_eq hlen)
      rw [Value.need]
      omega

/-- The list that `readAs` makes only grows. -/
theorem parse_readAs_prefix (buffer : Bytes) (kinds : List Kind)
    (sList : List (UInt64 × Option Value)) :
    sList <+: (parse readAs buffer (kinds, sList)).1.2 := by
  refine parse_preserves readAs (P := fun st => sList <+: st.2) ?_ buffer (kinds, sList)
    (List.prefix_refl _)
  intro aField buffer st h
  obtain ⟨_ | ⟨k, kinds⟩, sRead⟩ := st
  · exact h.trans (List.prefix_append _ _)
  · simp only [readAs]
    cases k.read buffer with
    | error e => exact h
    | ok r => exact h.trans (List.prefix_append _ _)

/-- What the list grows by comes next in it. -/
theorem parse_readAs_next {buffer : Bytes} {kinds : List Kind}
    {sList sTail : List (UInt64 × Option Value)} {x y : UInt64 × Option Value}
    {r : List Kind × Except Failure Bytes}
    (h : parse readAs buffer (kinds, sList ++ [x]) = ((r.1, sList ++ y :: sTail), r.2)) :
    x = y := by
  have hgrow := parse_readAs_prefix buffer kinds (sList ++ [x])
  rw [h, List.prefix_append_right_inj] at hgrow
  exact (List.cons_prefix_cons.mp hgrow).1

/-- Reading a list of fields takes what each of them needs. -/
theorem parse_readAs_need (sList : List (UInt64 × Option Value)) {buffer rest : Bytes}
    {kinds kinds' : List Kind} {fields : List Written}
    (h : parse readAs buffer (kinds, sList) =
      ((kinds', sList ++ fields.map fun f => (f.id, some f.value)), .ok rest)) :
    (fields.map Written.need).sum ≤ buffer.length := by
  induction fields generalizing buffer kinds sList with
  | nil => exact Nat.zero_le _
  | cons f fields ih =>
      rw [List.map_cons] at h
      have hne : buffer ≠ [] := by
        rintro rfl
        have hlists := congrArg (fun r => r.1.2.length) h
        simp [parse_nil] at hlists
      obtain ⟨info, inner, htag, hact⟩ := parse_ok hne h
      cases kinds with
      | nil =>
          -- Nothing is read any more.
          cases hskip : skip info inner with
          | error e =>
              simp only [readAs, act, hskip] at hact
              cases congrArg Prod.snd hact
          | ok r =>
              simp only [readAs, act, hskip] at hact
              have hnone := parse_readAs_next (r := (kinds', .ok rest)) hact
              cases (Prod.mk.inj hnone).2
      | cons k kinds =>
          cases hread : k.read inner with
          | error e =>
              simp only [readAs, act, hread] at hact
              cases congrArg Prod.snd hact
          | ok r =>
              simp only [readAs, act, hread] at hact
              change parse readAs r.2 (kinds, sList ++ [(info.id, some r.1)]) = _ at hact
              obtain ⟨hid, hvalue⟩ := Prod.mk.inj (parse_readAs_next (r := (kinds', .ok rest)) hact)
              rw [hid, hvalue, List.append_cons sList _ (fields.map _)] at hact
              have hrest := ih _ hact
              have hinfo := takes_tag htag
              have hread' := takes_value hread
              rw [hid] at hinfo
              rw [Option.some.inj hvalue] at hread'
              rw [List.map_cons, List.sum_cons, Written.need]
              omega

/-! ## Negative numbers do not come back -/

theorem Value.two_le_need {v : Value} (h : v.Negative) : 2 ≤ v.need := by
  cases v with
  | integral t v =>
      have hwidth : 256 ≤ 2 ^ t.width := by cases t <;> decide
      have hlarge : 128 ≤ v.toNat := by
        change t.toInt v < 0 at h
        rw [Integral.toInt] at h
        split_ifs at h
        · rw [BitVec.toInt_eq_toNat_cond] at h
          split_ifs at h <;> omega
        · omega
      rw [need, shortest_of_le hlarge, List.length_cons]
      have hpos := (form_shortest (v.toNat / 128)).length_pos
      omega
  | string s => exact absurd h not_false

theorem Value.length_bytes_of_negative {v : Value} (h : v.Negative) : v.bytes.length = 1 := by
  cases v with
  | integral t v => exact length_writeVarInt_of_neg h
  | string s => exact absurd h not_false

theorem Value.length_bytes {v : Value} (h : ¬ v.Negative) : v.bytes.length = v.need := by
  cases v with
  | integral t v => rw [bytes, Integral.toInt_of_nonneg h, writeVarInt_natCast, need]
  | string s => rw [bytes, List.length_append, writeVarInt_natCast, need]

theorem Written.length_bytes {f : Written} (hid : f.id.toNat < 2 ^ 61) :
    f.bytes.length + f.value.need = f.need + f.value.bytes.length := by
  have htag := f.value.tag_lt
  have hhead : (shortest (tagNumber f.id f.value.tag)).length =
      (shortest (tagNumber f.id 0)).length := by
    refine length_shortest_congr ?_
    rw [tagNumber, tagNumber]
    change _ = (f.id.toNat * 8 + 0) / 128
    omega
  rw [bytes, List.length_append, writeTag_eq hid htag, hhead, need]
  omega

theorem not_roundTrips {fields : List Written} (hid : ∀ f ∈ fields, f.id.toNat < 2 ^ 61)
    {f : Written} (hf : f ∈ fields) (hneg : f.value.Negative) : ¬ RoundTrips fields := by
  rintro ⟨m_Buffer, hwrite, hparse⟩
  rw [writeAll_eq] at hwrite
  cases hwrite
  have hneed := parse_readAs_need [] hparse
  have hle : ∀ g ∈ fields, g.bytes.length ≤ g.need := by
    intro g hg
    have hlen := g.length_bytes (hid g hg)
    by_cases hg' : g.value.Negative
    · have htwo := Value.two_le_need hg'
      have hone := Value.length_bytes_of_negative hg'
      omega
    · have hsame := Value.length_bytes hg'
      omega
  have hlt : f.bytes.length < f.need := by
    have hlen := f.length_bytes (hid f hf)
    have htwo := Value.two_le_need hneg
    have hone := Value.length_bytes_of_negative hneg
    omega
  have hsum := List.sum_lt_sum (fun g => g.bytes.length) Written.need hle ⟨f, hf, hlt⟩
  rw [List.length_flatMap] at hneed
  omega

/-- The reader gets the fields back when no number is negative, and only then. -/
theorem fields_roundTrip_iff {fields : List Written} (hid : ∀ f ∈ fields, f.id.toNat < 2 ^ 61)
    (hlen : ∀ f ∈ fields, ∀ s, f.value = .string s → s.length < 2 ^ 64) :
    RoundTrips fields ↔ ∀ f ∈ fields, ¬ f.value.Negative := by
  constructor
  · intro h f hf hneg
    exact not_roundTrips hid hf hneg h
  · intro h
    exact ⟨_, writeAll_eq fields, parse_written hid hlen h []⟩

theorem fields_roundTrip_three : RoundTrips
    [⟨1, .integral .int32 300⟩, ⟨2042, .string [0x68, 0x69]⟩, ⟨2, .integral .uint64 (-1)⟩] := by
  exact (fields_roundTrip_iff (by decide) (by simp)).mpr (by decide)

/-- `write(1, -1)` is the bytes `08 FF`. -/
theorem minus_one_lost : ¬ ∀ fields : List Written, (∀ f ∈ fields, f.id.toNat < 2 ^ 61) →
    (∀ f ∈ fields, ∀ s, f.value = .string s → s.length < 2 ^ 64) → RoundTrips fields := by
  intro h
  have hid : ∀ f ∈ [(⟨1, .integral .int32 (-1)⟩ : Written)], f.id.toNat < 2 ^ 61 := by decide
  refine not_roundTrips hid List.mem_cons_self ?_ (h _ hid (by simp))
  change Integral.toInt .int32 (-1) < 0
  decide

end Stuff.Protobuf
