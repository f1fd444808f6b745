import Stuff.CborSources

/-!
# What is written is read back

`Reads p bs a`: on the feed, `p` takes exactly the bytes `bs`, whatever follows them,
and returns `a`. Every `read` takes exactly what its `write` has written.
-/
namespace Stuff.Cbor
open MachineWords ByteOrder ByteSources ContainerStream

variable {α β : Type}

def Reads (p : Parser Feed α) (bs : Bytes) (a : α) : Prop :=
  ∀ rest last, ∃ last', p { rest := bs ++ rest, last := last } =
    .ok (a, { rest := rest, last := last' })

theorem Reads.bind {p : Parser Feed α} {k : α → Parser Feed β} {bs bs' : Bytes} {a : α} {b : β}
    (h : Reads p bs a) (hk : Reads (k a) bs' b) : Reads (p >>= k) (bs ++ bs') b := by
  intro rest last
  obtain ⟨last', hp⟩ := h (bs' ++ rest) last
  rw [List.append_assoc, bind_of_ok hp]
  exact hk rest last'

theorem Reads.bind_cons {p : Parser Feed α} {k : α → Parser Feed β} {b : UInt8} {bs : Bytes} {a : α}
    {c : β} (h : Reads p [b] a) (hk : Reads (k a) bs c) : Reads (p >>= k) (b :: bs) c := h.bind hk

theorem Reads.bind_nil {p : Parser Feed α} {k : α → Parser Feed β} {bs : Bytes} {a : α} {c : β}
    (h : Reads p [] a) (hk : Reads (k a) bs c) : Reads (p >>= k) bs c := h.bind hk

theorem reads_pure (a : α) : Reads (pure a : Parser Feed α) [] a := fun _ last => ⟨last, rfl⟩

/-- A value made of what was read. -/
theorem Reads.map {p : Parser Feed α} {bs : Bytes} {a : α} (h : Reads p bs a) (f : α → β) :
    Reads (p >>= fun x => pure (f x)) bs (f a) := by
  have hbind := h.bind (k := fun x => pure (f x)) (reads_pure (f a))
  rwa [List.append_nil] at hbind

theorem reads_read (bs : Bytes) : Reads (feed.read bs.length) bs bs := by
  intro rest last
  refine ⟨(bs.take bs.length).getLast?, ?_⟩
  simp [feed]

theorem reads_readInteger {n x : ℕ} (hx : x < 256 ^ n) :
    Reads (readInteger feed n) (bigEndian n x) x := by
  have hread := (reads_read (bigEndian n x)).map ofBigEndian
  rwa [length_bigEndian, ofBigEndian_bigEndian hx] at hread

/-! ## Heads -/

theorem typeInfo_headByte {major minor : ℕ} (hmajor : major < 8) (hminor : minor < 32) :
    typeInfo (headByte major minor) = ⟨minor, major⟩ := by
  have hall : ∀ a : Fin 8, ∀ b : Fin 32, typeInfo (headByte a b) = ⟨b, a⟩ := by decide
  exact hall ⟨major, hmajor⟩ ⟨minor, hminor⟩

/-- The first byte of an item that is not a tag. -/
structure IsHead (b : UInt8) (major minor : ℕ) : Prop where
  byte : b = headByte major minor
  info : typeInfo b = ⟨minor, major⟩
  notTag : major ≠ cborTag

theorem isHead_headByte {major minor : ℕ} (hmajor : major < 6) (hminor : minor < 32) :
    IsHead (headByte major minor) major minor :=
  ⟨rfl, typeInfo_headByte (by omega) hminor, by unfold cborTag; omega⟩

theorem isHead_special (minor : ℕ) (hminor : minor < 32) :
    IsHead (headByte cborX minor) cborX minor :=
  ⟨rfl, typeInfo_headByte (by decide) hminor, by decide⟩

theorem readTypeInfo_cons (b : UInt8) (rest : Bytes) (last : Option UInt8) :
    readTypeInfo feed { rest := b :: rest, last := last } =
      .ok (typeInfo b, { rest := rest, last := some b }) := by
  have hbyte : feed.read 1 { rest := b :: rest, last := last } =
      .ok ([b], { rest := rest, last := some b }) := by simp [feed]
  rw [readTypeInfo, bind_of_ok hbyte, List.headD_cons]
  rfl

/-- After a head that is no tag the loop over the tags ends, with this byte to give back. -/
theorem getType_head {b : UInt8} {major minor : ℕ} (h : IsHead b major minor) (rest : Bytes)
    (last : Option UInt8) :
    getType feed { rest := b :: rest, last := last } =
      .ok (⟨minor, major⟩, { rest := rest, last := some b }) := by
  have hread := readTypeInfo_cons b rest last
  rw [h.info] at hread
  rw [getType, skipTags, bind_of_ok hread, if_neg h.notTag]
  rfl

theorem reads_getType {b : UInt8} {major minor : ℕ} (h : IsHead b major minor) :
    Reads (getType feed) [b] ⟨minor, major⟩ :=
  fun rest last => ⟨some b, getType_head h rest last⟩

theorem reads_ensureType {b : UInt8} {major minor : ℕ} (h : IsHead b major minor) :
    Reads (ensureType feed major) [b] minor := by
  apply (reads_getType h).bind_cons
  rw [if_neg (not_not.mpr rfl)]
  exact reads_pure minor

/-- The byte of a head, and the bytes of its value. -/
theorem writeTypeValue_split (major : ℕ) {value : ℕ} (hvalue : value < 2 ^ 64) :
    ∃ minor bs, writeTypeValue major value = headByte major minor :: bs ∧ minor < 32 ∧
      Reads (getUint feed minor) bs value := by
  unfold writeTypeValue
  split_ifs with h₀ h₁ h₂ h₃
  · refine ⟨value, [], rfl, h₀.trans (by decide), ?_⟩
    rw [getUint, if_pos h₀]
    exact reads_pure value
  · exact ⟨cbor8, _, rfl, by decide, reads_readInteger (by omega)⟩
  · exact ⟨cbor16, _, rfl, by decide, reads_readInteger (by omega)⟩
  · exact ⟨cbor32, _, rfl, by decide, reads_readInteger (by omega)⟩
  · exact ⟨cbor64, _, rfl, by decide, reads_readInteger (by omega)⟩

theorem reads_readSize (major : ℕ) {value : ℕ} (hmajor : major < 6) (hvalue : value < 2 ^ 64) :
    Reads (readSize feed major) (writeTypeValue major value) value := by
  obtain ⟨minor, bs, heq, hminor, hbs⟩ := writeTypeValue_split major hvalue
  rw [heq]
  exact (reads_ensureType (isHead_headByte hmajor hminor)).bind hbs

/-! ## Integers -/

theorem Width.pow_bytes (w : Width) : 256 ^ w.bytes = 2 ^ w.bits := by
  cases w <;> rfl

theorem Width.bits_le (w : Width) : w.bits ≤ 64 := by
  cases w <;> decide

theorem Scalar.toNat_lt (s : Scalar) (v : BitVec s.width.bits) : v.toNat < 2 ^ 64 :=
  Nat.lt_of_lt_of_le v.isLt (Nat.pow_le_pow_right (by decide) s.width.bits_le)

theorem toNat_of_nonneg {w : ℕ} {v : BitVec w} (h : ¬ v.toInt < 0) : v.toInt.toNat = v.toNat := by
  rw [BitVec.toInt_neg_iff] at h
  rw [BitVec.toInt_eq_toNat_of_lt (by omega), Int.toNat_natCast]

theorem toNat_of_neg {w : ℕ} {v : BitVec w} (h : v.toInt < 0) :
    (-(v.toInt + 1)).toNat = 2 ^ w - 1 - v.toNat := by
  have hlt := v.isLt
  rw [BitVec.toInt_neg_iff] at h
  have hv : v.toInt = (v.toNat : ℤ) - (2 ^ w : ℕ) := by
    rw [BitVec.toInt_eq_toNat_cond, if_neg (by omega)]
  omega

/-- A negative number from the distance to `-1` that is written. -/
theorem neg_one_sub {w : ℕ} {v : BitVec w} (h : v.toInt < 0) :
    -1 - BitVec.ofNat w (-(v.toInt + 1)).toNat = v := by
  have hlt := v.isLt
  have hones : (-1 : BitVec w) = BitVec.allOnes w := BitVec.neg_one_eq_allOnes
  rw [toNat_of_neg h, hones, BitVec.allOnes_sub_eq_not]
  apply BitVec.eq_of_toNat_eq
  rw [BitVec.toNat_not, BitVec.toNat_ofNat, Nat.mod_eq_of_lt (by omega)]
  omega

theorem reads_readScalar (s : Scalar) (v : BitVec s.width.bits) :
    Reads (readScalar feed s) (writeScalar s v) v := by
  have hlt := s.toNat_lt v
  cases s with
  | unsigned w =>
      have hread := (reads_readSize cborUint (by decide) hlt).map
        (fun n => BitVec.ofNat (Scalar.unsigned w).width.bits n)
      rwa [BitVec.ofNat_toNat, BitVec.setWidth_eq] at hread
  | signed w =>
      simp only [writeScalar, readScalar]
      split_ifs with hneg
      · have hsmall : (-(v.toInt + 1)).toNat < 2 ^ 64 := by
          have hbits := Nat.pow_le_pow_right (n := 2) (by decide) (Scalar.signed w).width.bits_le
          rw [toNat_of_neg hneg]
          omega
        obtain ⟨minor, bs, heq, hminor, hbs⟩ := writeTypeValue_split cborNint hsmall
        rw [heq]
        apply (reads_getType (isHead_headByte (by decide) hminor)).bind_cons
        rw [if_neg (show cborNint ≠ cborUint by decide), if_pos rfl]
        have hread := hbs.map fun n => -1 - BitVec.ofNat (Scalar.signed w).width.bits n
        rwa [neg_one_sub hneg] at hread
      · rw [toNat_of_nonneg hneg]
        obtain ⟨minor, bs, heq, hminor, hbs⟩ := writeTypeValue_split cborUint hlt
        rw [heq]
        apply (reads_getType (isHead_headByte (by decide) hminor)).bind_cons
        rw [if_pos rfl]
        have hread := hbs.map fun n => BitVec.ofNat (Scalar.signed w).width.bits n
        rwa [BitVec.ofNat_toNat, BitVec.setWidth_eq] at hread

/-! ## Strings and containers -/

theorem reads_readBool (v : Bool) : Reads (readBool feed) (writeBool v) v := by
  cases v with
  | false =>
      apply (reads_ensureType (isHead_special cborFalse (by decide))).bind_cons
      exact reads_pure false
  | true =>
      apply (reads_ensureType (isHead_special cborTrue (by decide))).bind_cons
      exact reads_pure true

theorem reads_resize {max n : ℕ} (h : n ≤ max) : Reads (resize max n) [] () := by
  rw [resize, if_pos h]
  exact reads_pure ()

theorem reads_readString {max : ℕ} {str : Bytes} (hlt : str.length < 2 ^ 64)
    (hmax : str.length ≤ max) : Reads (readString feed max) (writeString str) str := by
  apply (reads_readSize _ (by decide) hlt).bind
  exact (reads_resize hmax).bind (reads_read str)

theorem unpack_image (s : Scalar) (data : List (BitVec s.width.bits)) :
    unpack s data.length (data.flatMap (image s)) = data := by
  induction data with
  | nil => rfl
  | cons v data ih =>
      have hlen : (image s v).length = s.width.bytes := length_littleEndian _ _
      have hv : v.toNat < 256 ^ s.width.bytes := s.width.pow_bytes ▸ v.isLt
      rw [List.length_cons, unpack, List.flatMap_cons, List.take_left' hlen, List.drop_left' hlen,
        ih, image, ofLittleEndian_littleEndian hv, BitVec.ofNat_toNat, BitVec.setWidth_eq]

theorem length_image (s : Scalar) (data : List (BitVec s.width.bits)) :
    (data.flatMap (image s)).length = data.length * s.width.bytes := by
  induction data with
  | nil => simp
  | cons v data ih =>
      rw [List.flatMap_cons, List.length_append, ih, image, length_littleEndian, List.length_cons,
        Nat.succ_mul, Nat.add_comm]

theorem Width.bytes_pos (w : Width) : 0 < w.bytes := by
  cases w <;> decide

/-- After any head that says the size of the memory image. -/
theorem reads_readBinary {s : Scalar} {max : ℕ} {data : List (BitVec s.width.bits)} {head : Bytes}
    (hhead : Reads (readSize feed cborBinary) head (data.length * s.width.bytes))
    (hmax : data.length ≤ max) :
    Reads (readBinary feed s max) (head ++ data.flatMap (image s)) data := by
  have hpos := s.width.bytes_pos
  apply hhead.bind
  rw [if_neg (by simp), Nat.mul_div_cancel _ hpos]
  apply (reads_resize hmax).bind_nil
  cases data with
  | nil =>
      rw [if_neg (by simp)]
      exact reads_pure []
  | cons v data =>
      have hlen : 0 < (v :: data).length * s.width.bytes :=
        Nat.mul_pos (List.length_pos_of_ne_nil (List.cons_ne_nil v data)) hpos
      rw [if_pos hlen, ← length_image]
      have hread := (reads_read ((v :: data).flatMap (image s))).map
        (fun bs => unpack s (v :: data).length bs)
      rwa [unpack_image] at hread

theorem reads_readN {p : Parser Feed α} {w : α → Bytes} {l : List α}
    (h : ∀ x ∈ l, Reads p (w x) x) : Reads (readN p l.length) (l.flatMap w) l := by
  induction l with
  | nil => exact reads_pure []
  | cons x l ih =>
      have hrest := ih fun y hy => h y (List.mem_cons_of_mem x hy)
      exact (h x List.mem_cons_self).bind (hrest.map fun l => x :: l)

/-- The entries come in order, so every one is put at the end. -/
theorem reads_readEntries {less : α → α → Bool} {pk : Parser Feed α} {pv : Parser Feed β}
    {wk : α → Bytes} {wv : β → Bytes} {l : List (α × β)} (m : List (α × β))
    (hk : ∀ x ∈ l, Reads pk (wk x.1) x.1) (hv : ∀ x ∈ l, Reads pv (wv x.2) x.2)
    (hless : (m ++ l).Pairwise fun x y => less x.1 y.1) :
    Reads (readEntries less pk pv l.length m) (l.flatMap fun x => wk x.1 ++ wv x.2) (m ++ l) := by
  induction l generalizing m with
  | nil =>
      rw [List.append_nil]
      exact reads_pure m
  | cons x l ih =>
      have hbelow : ∀ y ∈ m, less y.1 x.1 = true := by
        intro y hy
        exact (List.pairwise_append.mp hless).2.2 y hy x List.mem_cons_self
      rw [List.append_cons] at hless ⊢
      have hrest := ih (m ++ [x]) (fun y hy => hk y (List.mem_cons_of_mem x hy))
        (fun y hy => hv y (List.mem_cons_of_mem x hy)) hless
      rw [← OrderedMap.emplace_append hbelow] at hrest
      rw [List.flatMap_cons, List.append_assoc]
      rw [← OrderedMap.emplace_append hbelow]
      exact (hk x List.mem_cons_self).bind ((hv x List.mem_cons_self).bind hrest)

/-! ## All types -/

/-- The first byte is that of a head, and no tag. -/
def Headed (bs : Bytes) : Prop :=
  ∃ b tail major minor, bs = b :: tail ∧ IsHead b major minor

theorem headed_writeTypeValue {major : ℕ} (hmajor : major < 6) (value : ℕ) (bs : Bytes) :
    Headed (writeTypeValue major value ++ bs) := by
  unfold writeTypeValue
  split_ifs with h₀ h₁ h₂ h₃
  · exact ⟨_, _, _, _, rfl, isHead_headByte hmajor (h₀.trans (by decide))⟩
  · exact ⟨_, _, _, _, rfl, isHead_headByte hmajor (by decide)⟩
  · exact ⟨_, _, _, _, rfl, isHead_headByte hmajor (by decide)⟩
  · exact ⟨_, _, _, _, rfl, isHead_headByte hmajor (by decide)⟩
  · exact ⟨_, _, _, _, rfl, isHead_headByte hmajor (by decide)⟩

theorem headed_writeScalar (s : Scalar) (v : BitVec s.width.bits) : Headed (writeScalar s v) := by
  rw [← List.append_nil (writeScalar s v)]
  cases s with
  | unsigned w => exact headed_writeTypeValue (by decide) _ []
  | signed w =>
      simp only [writeScalar]
      split_ifs
      · exact headed_writeTypeValue (by decide) _ []
      · exact headed_writeTypeValue (by decide) _ []

theorem headed_writeOptional {w : α → Bytes} (h : ∀ v, Headed (w v)) (v : Option α) :
    Headed (writeOptional w v) := by
  cases v with
  | none => exact ⟨_, [], _, _, rfl, isHead_special _ (by decide)⟩
  | some v => exact h v

theorem headed_write : (t : Ty .type) → (v : Val t) → Headed (write t v)
  | .scalar s, v => headed_writeScalar s v
  | .bool, false => ⟨_, [], _, _, rfl, isHead_special _ (by decide)⟩
  | .bool, true => ⟨_, [], _, _, rfl, isHead_special _ (by decide)⟩
  | .string, _ => headed_writeTypeValue (by decide) _ _
  | .list _, _ => headed_writeTypeValue (by decide) _ _
  | .binary _, _ => headed_writeTypeValue (by decide) _ _
  | .vector _, _ => headed_writeTypeValue (by decide) _ _
  | .map _ _, _ => headed_writeTypeValue (by decide) _ _
  | .optional t, v => headed_writeOptional (headed_write t) v
  | .tuple _, _ => headed_writeTypeValue (by decide) _ _

theorem reads_count {p : Parser Feed α} {bs : Bytes} {a : α} (h : Reads p bs a) (n : ℕ)
    (e : String) : Reads (if n ≠ n then throw e else p) bs a := by
  rw [if_neg (not_not.mpr rfl)]
  exact h

/-- The head that `getType` has read is given back, unless it is null. -/
theorem reads_optional {p : Parser Feed α} {b : UInt8} {tail : Bytes} {major minor : ℕ} {a : α}
    (hhead : IsHead b major minor) (hnull : ¬ (major = cborX ∧ minor = cborNull))
    (h : Reads p (b :: tail) a) :
    Reads (getType feed >>= fun info =>
      if info.major = cborX ∧ info.minor = cborNull then pure none
      else feed.unget >>= fun _ => p >>= fun v => pure (some v)) (b :: tail) (some a) := by
  intro rest last
  have hunget : feed.unget { rest := tail ++ rest, last := some b } =
      .ok ((), { rest := b :: tail ++ rest }) := rfl
  rw [List.cons_append, bind_of_ok (getType_head hhead (tail ++ rest) last), if_neg hnull,
    bind_of_ok hunget]
  exact h.map some rest none

theorem reads_read_write {maxSize : Ty .type → ℕ} {k : Kind} (t : Ty k) (ht : Sound maxSize t)
    (v : Val t) (hv : Valid maxSize t v) : Reads (read feed maxSize t) (write t v) v := by
  induction t with
  | scalar s => exact reads_readScalar s v
  | bool => exact reads_readBool v
  | string => exact reads_readString hv.1 hv.2
  | list t ih =>
      apply (reads_readSize _ (by decide) hv.1).bind
      exact reads_readN fun x hx => ih ht x (hv.2 x hx)
  | binary s => exact reads_readBinary (reads_readSize _ (by decide) hv.1) hv.2
  | vector t ih =>
      apply (reads_readSize _ (by decide) hv.1).bind
      apply (reads_resize hv.2.1).bind_nil
      exact reads_readN fun x hx => ih ht x (hv.2.2 x hx)
  | map k w ihk ihw =>
      apply (reads_readSize _ (by decide) hv.1).bind
      exact reads_readEntries [] (fun x hx => ihk ht.1 x.1 (hv.2.2 x hx).1)
        (fun x hx => ihw ht.2 x.2 (hv.2.2 x hx).2) hv.2.1
  | optional t ih =>
      cases v with
      | none =>
          apply (reads_getType (isHead_special cborNull (by decide))).bind_cons
          exact reads_pure none
      | some v =>
          have hread := ih ht.1 v (hv v rfl)
          have hne := ht.2 v (hv v rfl)
          obtain ⟨b, tail, major, minor, heq, hhead⟩ := headed_write t v
          rw [heq] at hread hne
          change Reads _ (write t v) _
          rw [heq]
          refine reads_optional hhead ?_ hread
          rintro ⟨rfl, rfl⟩
          exact hne (congrArg some hhead.byte)
  | tuple ts ih =>
      apply (reads_readSize _ (by decide) hv.1).bind
      exact reads_count (ih ht v hv.2) ts.size _
  | nil => exact reads_pure ()
  | cons t ts iht ihts =>
      have hrest := (ihts ht.2 v.2 hv.2).map fun xs => (v.1, xs)
      exact (iht ht.1 v.1 hv.1).bind hrest

/-! ## Encodings that start with null -/

theorem head_ne_null {major : ℕ} (hmajor : major < 6) (value : ℕ) (bs : Bytes) :
    (writeTypeValue major value ++ bs).head? ≠ some (headByte cborX cborNull) := by
  have hbyte : ∀ minor < 32, headByte major minor ≠ headByte cborX cborNull := by
    intro minor hminor heq
    have hinfo := congrArg typeInfo heq
    rw [typeInfo_headByte (by omega) hminor, typeInfo_headByte (by decide) (by decide)] at hinfo
    have hseven : major = 7 := congrArg TypeInfo.major hinfo
    omega
  unfold writeTypeValue
  split_ifs with h₀ h₁ h₂ h₃
  · exact fun heq => hbyte value (h₀.trans (by decide)) (Option.some.inj heq)
  · exact fun heq => hbyte cbor8 (by decide) (Option.some.inj heq)
  · exact fun heq => hbyte cbor16 (by decide) (Option.some.inj heq)
  · exact fun heq => hbyte cbor32 (by decide) (Option.some.inj heq)
  · exact fun heq => hbyte cbor64 (by decide) (Option.some.inj heq)

/-- Only an `std::optional` may be written as null. -/
theorem neverNull {maxSize : Ty .type → ℕ} {t : Ty .type} (ht : ∀ u, t ≠ .optional u) :
    NeverNull maxSize t := by
  intro v _
  cases t with
  | scalar s =>
      rw [← List.append_nil (write (.scalar s) v)]
      cases s with
      | unsigned w => exact head_ne_null (by decide) _ []
      | signed w =>
          simp only [write, writeScalar]
          split_ifs
          · exact head_ne_null (by decide) _ []
          · exact head_ne_null (by decide) _ []
  | bool =>
      cases v with
      | false => decide
      | true => decide
  | string => exact head_ne_null (by decide) _ _
  | list t => exact head_ne_null (by decide) _ _
  | binary s => exact head_ne_null (by decide) _ _
  | vector t => exact head_ne_null (by decide) _ _
  | map k w => exact head_ne_null (by decide) _ _
  | optional t => exact absurd rfl (ht t)
  | tuple ts => exact head_ne_null (by decide) _ _

/-! ## Round trip -/

/-- What is read on the feed is read from memory. -/
theorem Reads.imemstream {maxSize : Ty .type → ℕ} {t : Ty .type} {bs : Bytes} {v : Val t}
    (h : Reads (read feed maxSize t) bs v) (rest : Bytes) (hsize : (bs ++ rest).length < 2 ^ 64) :
    read imemstream maxSize t { data := bs ++ rest } =
      .ok (v, { data := bs ++ rest, offset := bs.length }) := by
  have hsim := imemstream_simulates hsize False 0 False.elim
  have hsame := same_read hsim maxSize False.elim t _ _ (InMemory.start _) trivial
  obtain ⟨last, hread⟩ := h rest none
  rw [hread] at hsame
  obtain ⟨-, s, hs, hdata, front, hpart, hoffset⟩ := hsame
  obtain rfl := List.append_cancel_right hpart.1
  rw [hs]
  cases s
  simp_all

/-- What was written is read back from memory, whatever follows it, and the offset is
then at what follows. -/
theorem cbor_read_write (maxSize : Ty .type → ℕ) (t : Ty .type) (ht : Sound maxSize t) (v : Val t)
    (hv : Valid maxSize t v) (rest : Bytes) (hsize : (write t v ++ rest).length < 2 ^ 64) :
    read imemstream maxSize t { data := write t v ++ rest } =
      .ok (v, { data := write t v ++ rest, offset := (write t v).length }) :=
  (reads_read_write t ht v hv).imemstream rest hsize

/-- `std::tuple<int8_t, std::optional<std::string>, std::map<uint64_t, std::list<bool>>,
std::vector<uint16_t>>`. -/
def recordTy : Ty .type :=
  .tuple (.cons (.scalar (.signed .w8)) (.cons (.optional .string)
    (.cons (.map (.scalar (.unsigned .w64)) (.list .bool))
      (.cons (.binary (.unsigned .w16)) .nil))))

def record : Val recordTy :=
  ((-128 : BitVec 8), some [104, 105], [((3 : BitVec 64), [true]), ((70000 : BitVec 64), [])],
    [(513 : BitVec 16)], ())

/-- The buffer has a byte more than the record. -/
theorem cbor_read_write_record :
    let s : Imemstream := { data := write recordTy record ++ [255] }
    read imemstream (fun _ => 1000) recordTy s = .ok (record, { s with offset := 19 }) := by
  have hsound : Sound (fun _ => 1000) recordTy :=
    ⟨trivial, ⟨trivial, neverNull fun _ h => by cases h⟩, ⟨trivial, trivial⟩, trivial, trivial⟩
  have hstring : Valid (fun _ => 1000) (.optional .string) (some [104, 105] : Option Bytes) := by
    intro str hstr
    cases hstr
    exact ⟨by decide, by decide⟩
  have hmap : Valid (fun _ => 1000) (.map (.scalar (.unsigned .w64)) (.list .bool))
      [((3 : BitVec 64), [true]), ((70000 : BitVec 64), [])] := by
    refine ⟨by decide, by decide, ?_⟩
    intro x hx
    rcases List.mem_pair.mp hx with rfl | rfl
    · exact ⟨trivial, by decide, fun _ _ => trivial⟩
    · exact ⟨trivial, by decide, fun _ _ => trivial⟩
  have hvalid : Valid (fun _ => 1000) recordTy record :=
    ⟨by decide, trivial, hstring, hmap, ⟨by decide, by decide⟩, trivial⟩
  exact cbor_read_write _ recordTy hsound record hvalid [255] (by decide)

end Stuff.Cbor
