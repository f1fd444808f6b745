import Stuff.CborRoundTrip

/-!
# Tags before the items

An encoding gives the value of each head in any width that is large enough for it, and
the entries of a map in any order. Tags may stand before every item: before a key, a
value or an element, and before the null or the value of an `std::optional`.
-/
namespace Stuff.Cbor
open MachineWords ByteOrder ByteSources ContainerStream

/-! ## Encodings -/

/-- A head of a major type, in any of the widths that its value fits in. -/
inductive Head (major : ℕ) : ℕ → Bytes → Prop
  | small {n : ℕ} : n < cbor8 → Head major n [headByte major n]
  | w8 {n : ℕ} : n < 2 ^ 8 → Head major n (headByte major cbor8 :: bigEndian 1 n)
  | w16 {n : ℕ} : n < 2 ^ 16 → Head major n (headByte major cbor16 :: bigEndian 2 n)
  | w32 {n : ℕ} : n < 2 ^ 32 → Head major n (headByte major cbor32 :: bigEndian 4 n)
  | w64 {n : ℕ} : n < 2 ^ 64 → Head major n (headByte major cbor64 :: bigEndian 8 n)

inductive Tags : Bytes → Prop
  | nil : Tags []
  | cons {tag : ℕ} {head ts : Bytes} : Head cborTag tag head → Tags ts → Tags (head ++ ts)

/-! Relations between an encoding without tags and the same one with tags. -/

/-- Bytes with no item inside. -/
def Bare (P : Bytes → Prop) (plain tagged : Bytes) : Prop := P plain ∧ tagged = plain

/-- One behind the other. -/
def Pair (R S : Bytes → Bytes → Prop) (plain tagged : Bytes) : Prop :=
  ∃ p p' t t', R p t ∧ S p' t' ∧ plain = p ++ p' ∧ tagged = t ++ t'

/-- With tags in front. -/
def Tagged (R : Bytes → Bytes → Prop) (plain tagged : Bytes) : Prop :=
  ∃ ts core, Tags ts ∧ R plain core ∧ tagged = ts ++ core

inductive Sequence {α : Type} (R : α → Bytes → Bytes → Prop) : List α → Bytes → Bytes → Prop
  | nil : Sequence R [] [] []
  | cons {x : α} {l : List α} {p p' t t' : Bytes} :
      R x p t → Sequence R l p' t' → Sequence R (x :: l) (p ++ p') (t ++ t')

/-- The heads of an integer. As in the source, the type keeps the low bits of the value. -/
def IsScalar : (s : Scalar) → BitVec s.width.bits → Bytes → Prop
  | .unsigned _, v, bs => ∃ n, Head cborUint n bs ∧ v = BitVec.ofNat _ n
  | .signed _, v, bs => ∃ n, Head cborUint n bs ∧ v = BitVec.ofNat _ n ∨
      Head cborNint n bs ∧ v = -1 - BitVec.ofNat _ n

def IsString (str bs : Bytes) : Prop := ∃ head, Head cborStr str.length head ∧ bs = head ++ str

def IsBinary (s : Scalar) (data : List (BitVec s.width.bits)) (bs : Bytes) : Prop :=
  ∃ head, Head cborBinary (data.length * s.width.bytes) head ∧ bs = head ++ data.flatMap (image s)

/-- What entries in any order make of a map. -/
def collect {α β : Type} (less : α → α → Bool) (entries m : List (α × β)) : List (α × β) :=
  entries.foldl (fun m x => OrderedMap.emplace less x.1 x.2 m) m

/-- `plain` is an encoding of the value, and `tagged` the same one with tags before any
of the items inside. -/
def Encodes (maxSize : Ty .type → ℕ) : {k : Kind} → (t : Ty k) → Val t → Bytes → Bytes → Prop
  | _, .scalar s => fun v => Bare (IsScalar s v)
  | _, .bool => fun v => Bare (· = writeBool v)
  | _, .string => fun (str : Bytes) => Bare fun bs => str.length ≤ maxSize .string ∧ IsString str bs
  | _, .list t => fun (l : List (Val t)) =>
      Pair (Bare (Head cborList l.length)) (Sequence (fun x => Tagged (Encodes maxSize t x)) l)
  | _, .binary s => fun (data : List (BitVec s.width.bits)) => Bare fun bs =>
      data.length ≤ maxSize (.binary s) ∧ IsBinary s data bs
  | _, .vector t => fun (l : List (Val t)) =>
      Pair (Bare fun bs => l.length ≤ maxSize (.vector t) ∧ Head cborList l.length bs)
        (Sequence (fun x => Tagged (Encodes maxSize t x)) l)
  | _, .map k v => fun (m : List (Val k × Val v)) plain tagged =>
      ∃ entries : List (Val k × Val v), collect (less k) entries [] = m ∧
        Pair (Bare (Head cborMap entries.length))
          (Sequence (fun x =>
            Pair (Tagged (Encodes maxSize k x.1)) (Tagged (Encodes maxSize v x.2))) entries)
          plain tagged
  | _, .optional t => fun (v : Option (Val t)) =>
      match v with
      | none => Bare (· = writeSpecial cborNull)
      | some v => Encodes maxSize t v
  | _, .tuple ts => fun v => Pair (Bare (Head cborList ts.size)) (Encodes maxSize ts v)
  | _, .nil => fun _ => Bare (· = [])
  | _, .cons t ts => fun v => Pair (Tagged (Encodes maxSize t v.1)) (Encodes maxSize ts v.2)

/-! ## Heads and tags -/

theorem Head.split {major n : ℕ} {bs : Bytes} (h : Head major n bs) :
    ∃ minor tail, bs = headByte major minor :: tail ∧ minor < 32 ∧
      Reads (getUint feed minor) tail n := by
  cases h with
  | small hn =>
      refine ⟨n, [], rfl, hn.trans (by decide), ?_⟩
      rw [getUint, if_pos hn]
      exact reads_pure n
  | w8 hn => exact ⟨cbor8, _, rfl, by decide, reads_readInteger (by omega)⟩
  | w16 hn => exact ⟨cbor16, _, rfl, by decide, reads_readInteger (by omega)⟩
  | w32 hn => exact ⟨cbor32, _, rfl, by decide, reads_readInteger (by omega)⟩
  | w64 hn => exact ⟨cbor64, _, rfl, by decide, reads_readInteger (by omega)⟩

theorem Head.reads {major n : ℕ} {bs : Bytes} (hmajor : major < 6) (h : Head major n bs) :
    Reads (readSize feed major) bs n := by
  obtain ⟨minor, tail, rfl, hminor, htail⟩ := h.split
  exact (reads_ensureType (isHead_headByte hmajor hminor)).bind htail

/-- The writer takes the narrowest of the widths. -/
theorem head_writeTypeValue (major : ℕ) {n : ℕ} (hn : n < 2 ^ 64) :
    Head major n (writeTypeValue major n) := by
  unfold writeTypeValue
  split_ifs with h₀ h₁ h₂ h₃
  · exact .small h₀
  · exact .w8 h₁
  · exact .w16 h₂
  · exact .w32 h₃
  · exact .w64 hn

/-- A tag is gone before the loop goes on. -/
theorem getType_tag {tag : ℕ} {head : Bytes} (h : Head cborTag tag head) (rest : Bytes)
    (last : Option UInt8) :
    ∃ last', getType feed { rest := head ++ rest, last := last } =
      getType feed { rest := rest, last := last' } := by
  obtain ⟨minor, tail, rfl, hminor, htail⟩ := h.split
  obtain ⟨last', huint⟩ := htail rest (some (headByte cborTag minor))
  have hinfo := readTypeInfo_cons (headByte cborTag minor) (tail ++ rest) last
  rw [typeInfo_headByte (by decide) hminor] at hinfo
  refine ⟨last', ?_⟩
  rw [getType_loop, List.cons_append, bind_of_ok hinfo, if_pos rfl, bind_of_ok huint]

/-- The parser takes the type of an item first. -/
def Starts {α : Type} (p : Parser Feed α) : Prop := ∃ k, p = getType feed >>= k

theorem Starts.bind {α β : Type} {p : Parser Feed α} (h : Starts p) (k : α → Parser Feed β) :
    Starts (p >>= k) := by
  obtain ⟨k', rfl⟩ := h
  exact ⟨_, bind_assoc _ _ _⟩

theorem starts_ensureType (major : ℕ) : Starts (ensureType feed major) := ⟨_, rfl⟩

theorem starts_readSize (major : ℕ) : Starts (readSize feed major) :=
  (starts_ensureType major).bind _

theorem starts_read (maxSize : Ty .type → ℕ) : (t : Ty .type) → Starts (read feed maxSize t)
  | .scalar (.unsigned _) => (starts_readSize cborUint).bind _
  | .scalar (.signed _) => ⟨_, rfl⟩
  | .bool => (starts_ensureType cborX).bind _
  | .string => (starts_readSize cborStr).bind _
  | .list _ => (starts_readSize cborList).bind _
  | .binary _ => (starts_readSize cborBinary).bind _
  | .vector _ => (starts_readSize cborList).bind _
  | .map _ _ => (starts_readSize cborMap).bind _
  | .optional _ => ⟨_, rfl⟩
  | .tuple _ => (starts_readSize cborList).bind _

/-- Tags before what starts with the type change nothing. -/
theorem Reads.tags {α : Type} {p : Parser Feed α} {ts bs : Bytes} {a : α} (hp : Starts p)
    (hts : Tags ts) (h : Reads p bs a) : Reads p (ts ++ bs) a := by
  obtain ⟨k, rfl⟩ := hp
  induction hts with
  | nil => exact h
  | @cons tag head ts htag _ ih =>
      intro rest last
      obtain ⟨last', htype⟩ := getType_tag htag (ts ++ bs ++ rest) last
      obtain ⟨last'', hread⟩ := ih rest last'
      refine ⟨last'', ?_⟩
      rw [List.append_assoc, List.append_assoc, ← List.append_assoc ts, ← hread]
      exact congrArg (fun r => r >>= fun x => k x.1 x.2) htype

/-! ## All types -/

/-- The first byte starts an item, neither a tag nor null. -/
def Present (bs : Bytes) : Prop :=
  ∃ b tail major minor, bs = b :: tail ∧ IsHead b major minor ∧
    ¬ (major = cborX ∧ minor = cborNull)

theorem Head.present {major n : ℕ} {bs : Bytes} (h : Head major n bs) (hmajor : major < 6)
    (rest : Bytes) : Present (bs ++ rest) := by
  obtain ⟨minor, tail, rfl, hminor, -⟩ := h.split
  refine ⟨_, tail ++ rest, major, minor, rfl, isHead_headByte hmajor hminor, ?_⟩
  rintro ⟨rfl, -⟩
  exact absurd hmajor (by decide)

theorem IsScalar.present {s : Scalar} {v : BitVec s.width.bits} {bs : Bytes}
    (h : IsScalar s v bs) : Present bs := by
  rw [← List.append_nil bs]
  cases s with
  | unsigned w =>
      obtain ⟨n, hhead, -⟩ := h
      exact hhead.present (by decide) []
  | signed w =>
      obtain ⟨n, ⟨hhead, -⟩ | ⟨hhead, -⟩⟩ := h
      · exact hhead.present (by decide) []
      · exact hhead.present (by decide) []

theorem Encodes.present {maxSize : Ty .type → ℕ} {t : Ty .type} {v : Val t} {plain core : Bytes}
    (h : Encodes maxSize t v plain core) (ht : ∀ u, t ≠ .optional u) : Present core := by
  cases t with
  | scalar s =>
      obtain ⟨hscalar, rfl⟩ := h
      exact hscalar.present
  | bool =>
      obtain ⟨rfl, rfl⟩ := h
      cases v with
      | false => exact ⟨_, [], _, _, rfl, isHead_special cborFalse (by decide), by decide⟩
      | true => exact ⟨_, [], _, _, rfl, isHead_special cborTrue (by decide), by decide⟩
  | string =>
      obtain ⟨⟨-, head, hhead, rfl⟩, rfl⟩ := h
      exact hhead.present (by decide) _
  | list t =>
      obtain ⟨p, p', t, t', ⟨hhead, rfl⟩, -, rfl, rfl⟩ := h
      exact hhead.present (by decide) _
  | binary s =>
      obtain ⟨⟨-, head, hhead, rfl⟩, rfl⟩ := h
      exact hhead.present (by decide) _
  | vector t =>
      obtain ⟨p, p', t, t', ⟨⟨-, hhead⟩, rfl⟩, -, rfl, rfl⟩ := h
      exact hhead.present (by decide) _
  | map k w =>
      obtain ⟨entries, -, p, p', t, t', ⟨hhead, rfl⟩, -, rfl, rfl⟩ := h
      exact hhead.present (by decide) _
  | optional t => exact absurd rfl (ht t)
  | tuple ts =>
      obtain ⟨p, p', t, t', ⟨hhead, rfl⟩, -, rfl, rfl⟩ := h
      exact hhead.present (by decide) _

theorem not_optional {maxSize : Ty .type → ℕ} {t : Ty .type} (h : NeverNull maxSize t) :
    ∀ u, t ≠ .optional u := by
  rintro u rfl
  exact h (none : Option (Val u)) (by intro x hx; cases hx) rfl

theorem reads_isScalar {s : Scalar} {v : BitVec s.width.bits} {bs : Bytes} (h : IsScalar s v bs) :
    Reads (readScalar feed s) bs v := by
  cases s with
  | unsigned w =>
      obtain ⟨n, hhead, rfl⟩ := h
      exact (hhead.reads (by decide)).map _
  | signed w =>
      obtain ⟨n, ⟨hhead, rfl⟩ | ⟨hhead, rfl⟩⟩ := h
      · obtain ⟨minor, tail, rfl, hminor, htail⟩ := hhead.split
        apply (reads_getType (isHead_headByte (by decide) hminor)).bind_cons
        rw [if_pos rfl]
        exact htail.map _
      · obtain ⟨minor, tail, rfl, hminor, htail⟩ := hhead.split
        apply (reads_getType (isHead_headByte (by decide) hminor)).bind_cons
        rw [if_neg (show cborNint ≠ cborUint by decide), if_pos rfl]
        exact htail.map _

theorem reads_isBinary {s : Scalar} {max : ℕ} {data : List (BitVec s.width.bits)} {bs : Bytes}
    (hmax : data.length ≤ max) (h : IsBinary s data bs) :
    Reads (readBinary feed s max) bs data := by
  obtain ⟨head, hhead, rfl⟩ := h
  exact reads_readBinary (hhead.reads (by decide)) hmax

section Containers
variable {α β : Type}

theorem reads_sequence {p : Parser Feed α} {R : α → Bytes → Bytes → Prop} {l : List α}
    {plain tagged : Bytes} (h : Sequence R l plain tagged)
    (hR : ∀ x plain tagged, R x plain tagged → Reads p tagged x) :
    Reads (readN p l.length) tagged l := by
  induction h with
  | nil => exact reads_pure []
  | cons hx _ ih => exact (hR _ _ _ hx).bind (ih.map fun l => _ :: l)

theorem reads_entries {less : α → α → Bool} {pk : Parser Feed α} {pv : Parser Feed β}
    {R : α × β → Bytes → Bytes → Prop} {entries : List (α × β)} {plain tagged : Bytes}
    (h : Sequence R entries plain tagged)
    (hR : ∀ x plain tagged, R x plain tagged →
      ∃ t t', Reads pk t x.1 ∧ Reads pv t' x.2 ∧ tagged = t ++ t') (m : List (α × β)) :
    Reads (readEntries less pk pv entries.length m) tagged (collect less entries m) := by
  induction h generalizing m with
  | nil => exact reads_pure m
  | cons hx _ ih =>
      obtain ⟨t, t', hk, hv, rfl⟩ := hR _ _ _ hx
      rw [List.append_assoc]
      exact hk.bind (hv.bind (ih _))

end Containers

theorem reads_encodes {maxSize : Ty .type → ℕ} {k : Kind} (t : Ty k) (ht : Sound maxSize t)
    (v : Val t) {plain core : Bytes} (h : Encodes maxSize t v plain core) :
    Reads (read feed maxSize t) core v := by
  induction t generalizing plain core with
  | scalar s =>
      obtain ⟨hscalar, rfl⟩ := h
      exact reads_isScalar hscalar
  | bool =>
      obtain ⟨rfl, rfl⟩ := h
      exact reads_readBool v
  | string =>
      obtain ⟨⟨hmax, head, hhead, rfl⟩, rfl⟩ := h
      apply (hhead.reads (by decide)).bind
      exact (reads_resize hmax).bind_nil (reads_read _)
  | list t ih =>
      obtain ⟨p, p', head, tagged, ⟨hhead, rfl⟩, hitems, rfl, rfl⟩ := h
      apply (hhead.reads (by decide)).bind
      exact reads_sequence hitems fun x _ _ ⟨_, _, hts, hx, heq⟩ =>
        heq ▸ (ih ht x hx).tags (starts_read maxSize t) hts
  | binary s =>
      obtain ⟨⟨hmax, hbinary⟩, rfl⟩ := h
      exact reads_isBinary hmax hbinary
  | vector t ih =>
      obtain ⟨p, p', head, tagged, ⟨⟨hmax, hhead⟩, rfl⟩, hitems, rfl, rfl⟩ := h
      apply (hhead.reads (by decide)).bind
      apply (reads_resize hmax).bind_nil
      exact reads_sequence hitems fun x _ _ ⟨_, _, hts, hx, heq⟩ =>
        heq ▸ (ih ht x hx).tags (starts_read maxSize t) hts
  | map k w ihk ihw =>
      obtain ⟨entries, rfl, p, p', head, tagged, ⟨hhead, rfl⟩, hitems, rfl, rfl⟩ := h
      apply (hhead.reads (by decide)).bind
      refine reads_entries hitems ?_ []
      rintro x plain tagged ⟨_, _, t, t', ⟨ts, c, hts, hk, rfl⟩, ⟨ts', c', hts', hw, rfl⟩, -, rfl⟩
      exact ⟨_, _, (ihk ht.1 x.1 hk).tags (starts_read maxSize k) hts,
        (ihw ht.2 x.2 hw).tags (starts_read maxSize w) hts', rfl⟩
  | optional t ih =>
      cases v with
      | none =>
          obtain ⟨rfl, rfl⟩ := h
          apply (reads_getType (isHead_special cborNull (by decide))).bind_cons
          exact reads_pure none
      | some v =>
          have hread := ih ht.1 v h
          have hpresent : Present core := Encodes.present (v := v) h (not_optional ht.2)
          obtain ⟨b, tail, major, minor, rfl, hhead, hnull⟩ := hpresent
          exact reads_optional hhead hnull hread
  | tuple ts ih =>
      obtain ⟨p, p', head, tagged, ⟨hhead, rfl⟩, hitems, rfl, rfl⟩ := h
      apply (hhead.reads (by decide)).bind
      exact reads_count (ih ht v hitems) ts.size _
  | nil =>
      obtain ⟨rfl, rfl⟩ := h
      exact reads_pure ()
  | cons t ts iht ihts =>
      obtain ⟨p, p', tagged, taggeds, ⟨tags, core, htags, hx, rfl⟩, hxs, rfl, rfl⟩ := h
      apply ((iht ht.1 v.1 hx).tags (starts_read maxSize t) htags).bind
      exact (ihts ht.2 v.2 hxs).map _

/-! ## What the writer writes -/

section Writer
variable {α β : Type}

theorem Tagged.untagged {R : Bytes → Bytes → Prop} {bs : Bytes} (h : R bs bs) : Tagged R bs bs :=
  ⟨[], bs, .nil, h, rfl⟩

theorem sequence_flatMap {R : α → Bytes → Bytes → Prop} {w : α → Bytes} {l : List α}
    (h : ∀ x ∈ l, R x (w x) (w x)) : Sequence R l (l.flatMap w) (l.flatMap w) := by
  induction l with
  | nil => exact .nil
  | cons x l ih =>
      rw [List.flatMap_cons]
      exact .cons (h x List.mem_cons_self) (ih fun y hy => h y (List.mem_cons_of_mem x hy))

/-- The entries of a map come in order. -/
theorem collect_sorted {less : α → α → Bool} (l m : List (α × β))
    (h : (m ++ l).Pairwise fun x y => less x.1 y.1) : collect less l m = m ++ l :=
  OrderedMap.emplaceAll_sorted h

end Writer

theorem isScalar_writeScalar (s : Scalar) (v : BitVec s.width.bits) :
    IsScalar s v (writeScalar s v) := by
  have hlt := s.toNat_lt v
  have hsame : v = BitVec.ofNat _ v.toNat := by rw [BitVec.ofNat_toNat, BitVec.setWidth_eq]
  cases s with
  | unsigned w => exact ⟨v.toNat, head_writeTypeValue _ hlt, hsame⟩
  | signed w =>
      simp only [writeScalar]
      split_ifs with hneg
      · have hsmall : (-(v.toInt + 1)).toNat < 2 ^ 64 := by
          have hbits := Nat.pow_le_pow_right (n := 2) (by decide) (Scalar.signed w).width.bits_le
          rw [toNat_of_neg hneg]
          omega
        exact ⟨_, .inr ⟨head_writeTypeValue _ hsmall, (neg_one_sub hneg).symm⟩⟩
      · rw [toNat_of_nonneg hneg]
        exact ⟨_, .inl ⟨head_writeTypeValue _ hlt, hsame⟩⟩

theorem encodes_write {maxSize : Ty .type → ℕ} {k : Kind} (t : Ty k) (v : Val t)
    (hv : Valid maxSize t v) : Encodes maxSize t v (write t v) (write t v) := by
  induction t with
  | scalar s => exact ⟨isScalar_writeScalar s v, rfl⟩
  | bool => exact ⟨rfl, rfl⟩
  | string => exact ⟨⟨hv.2, _, head_writeTypeValue _ hv.1, rfl⟩, rfl⟩
  | list t ih =>
      exact ⟨_, _, _, _, ⟨head_writeTypeValue _ hv.1, rfl⟩,
        sequence_flatMap fun x hx => .untagged (ih x (hv.2 x hx)), rfl, rfl⟩
  | binary s => exact ⟨⟨hv.2, _, head_writeTypeValue _ hv.1, rfl⟩, rfl⟩
  | vector t ih =>
      exact ⟨_, _, _, _, ⟨⟨hv.2.1, head_writeTypeValue _ hv.1⟩, rfl⟩,
        sequence_flatMap fun x hx => .untagged (ih x (hv.2.2 x hx)), rfl, rfl⟩
  | map k w ihk ihw =>
      refine ⟨v, collect_sorted v [] hv.2.1, _, _, _, _, ⟨head_writeTypeValue _ hv.1, rfl⟩,
        sequence_flatMap fun x hx => ?_, rfl, rfl⟩
      obtain ⟨hk, hw⟩ := hv.2.2 x hx
      exact ⟨_, _, _, _, .untagged (ihk x.1 hk), .untagged (ihw x.2 hw), rfl, rfl⟩
  | optional t ih =>
      cases v with
      | none => exact ⟨rfl, rfl⟩
      | some v => exact ih v (hv v rfl)
  | tuple ts ih => exact ⟨_, _, _, _, ⟨head_writeTypeValue _ hv.1, rfl⟩, ih v hv.2, rfl, rfl⟩
  | nil => exact ⟨rfl, rfl⟩
  | cons t ts iht ihts => exact ⟨_, _, _, _, .untagged (iht v.1 hv.1), ihts v.2 hv.2, rfl, rfl⟩

/-! ## The encoding without the tags -/

theorem Tagged.erase {R : Bytes → Bytes → Prop} (hR : ∀ p t, R p t → R p p ∧ p.length ≤ t.length)
    {plain tagged : Bytes} (h : Tagged R plain tagged) :
    Tagged R plain plain ∧ plain.length ≤ tagged.length := by
  obtain ⟨ts, core, -, hcore, rfl⟩ := h
  obtain ⟨hplain, hle⟩ := hR _ _ hcore
  refine ⟨⟨[], plain, .nil, hplain, rfl⟩, ?_⟩
  rw [List.length_append]
  omega

theorem Bare.erase {P : Bytes → Prop} {plain tagged : Bytes} (h : Bare P plain tagged) :
    Bare P plain plain ∧ plain.length ≤ tagged.length := by
  obtain ⟨hplain, rfl⟩ := h
  exact ⟨⟨hplain, rfl⟩, le_refl _⟩

theorem Pair.erase {R S : Bytes → Bytes → Prop} (hR : ∀ p t, R p t → R p p ∧ p.length ≤ t.length)
    (hS : ∀ p t, S p t → S p p ∧ p.length ≤ t.length) {plain tagged : Bytes}
    (h : Pair R S plain tagged) : Pair R S plain plain ∧ plain.length ≤ tagged.length := by
  obtain ⟨p, p', t, t', hp, hp', rfl, rfl⟩ := h
  obtain ⟨hplain, hle⟩ := hR _ _ hp
  obtain ⟨hplain', hle'⟩ := hS _ _ hp'
  refine ⟨⟨p, p', p, p', hplain, hplain', rfl, rfl⟩, ?_⟩
  simp only [List.length_append]
  omega

theorem Sequence.erase {α : Type} {R : α → Bytes → Bytes → Prop}
    (hR : ∀ x p t, R x p t → R x p p ∧ p.length ≤ t.length) {l : List α} {plain tagged : Bytes}
    (h : Sequence R l plain tagged) : Sequence R l plain plain ∧ plain.length ≤ tagged.length := by
  induction h with
  | nil => exact ⟨.nil, le_refl _⟩
  | cons hx _ ih =>
      obtain ⟨hplain, hle⟩ := hR _ _ _ hx
      refine ⟨.cons hplain ih.1, ?_⟩
      simp only [List.length_append]
      omega

theorem Encodes.erase {maxSize : Ty .type → ℕ} {k : Kind} (t : Ty k) (v : Val t)
    (plain core : Bytes) (h : Encodes maxSize t v plain core) :
    Encodes maxSize t v plain plain ∧ plain.length ≤ core.length := by
  induction t generalizing plain core with
  | scalar s => exact Bare.erase h
  | bool =>
      obtain ⟨hplain, rfl⟩ := h
      exact ⟨⟨hplain, rfl⟩, le_refl _⟩
  | string =>
      obtain ⟨hplain, rfl⟩ := h
      exact ⟨⟨hplain, rfl⟩, le_refl _⟩
  | list t ih =>
      exact Pair.erase (fun _ _ => Bare.erase)
        (fun _ _ => Sequence.erase fun x _ _ => Tagged.erase (ih x)) h
  | binary s =>
      obtain ⟨hplain, rfl⟩ := h
      exact ⟨⟨hplain, rfl⟩, le_refl _⟩
  | vector t ih =>
      exact Pair.erase (fun _ _ => Bare.erase)
        (fun _ _ => Sequence.erase fun x _ _ => Tagged.erase (ih x)) h
  | map k w ihk ihw =>
      obtain ⟨entries, hcollect, hpair⟩ := h
      obtain ⟨hplain, hle⟩ := Pair.erase (fun _ _ => Bare.erase) (fun _ _ => Sequence.erase
        fun x _ _ => Pair.erase (fun _ _ => Tagged.erase (ihk x.1))
          (fun _ _ => Tagged.erase (ihw x.2))) hpair
      exact ⟨⟨entries, hcollect, hplain⟩, hle⟩
  | optional t ih =>
      cases v with
      | none =>
          obtain ⟨hplain, rfl⟩ := h
          exact ⟨⟨hplain, rfl⟩, le_refl _⟩
      | some v => exact ih v plain core h
  | tuple ts ih => exact Pair.erase (fun _ _ => Bare.erase) (ih v) h
  | nil =>
      obtain ⟨hplain, rfl⟩ := h
      exact ⟨⟨hplain, rfl⟩, le_refl _⟩
  | cons t ts iht ihts =>
      exact Pair.erase (fun _ _ => Tagged.erase (iht v.1)) (ihts v.2) h

/-! ## Transparency -/

/-- An encoding without tags and the same one with tags before any of its items are read
as the same value, each to its end. -/
theorem cbor_tags_transparent (maxSize : Ty .type → ℕ) (t : Ty .type) (ht : Sound maxSize t)
    (v : Val t) (plain tagged : Bytes) (h : Tagged (Encodes maxSize t v) plain tagged)
    (rest : Bytes) (hsize : (tagged ++ rest).length < 2 ^ 64) :
    read imemstream maxSize t { data := plain ++ rest } =
        .ok (v, { data := plain ++ rest, offset := plain.length }) ∧
      read imemstream maxSize t { data := tagged ++ rest } =
        .ok (v, { data := tagged ++ rest, offset := tagged.length }) := by
  obtain ⟨-, hle⟩ := Tagged.erase (Encodes.erase t v) h
  obtain ⟨ts, core, hts, hcore, rfl⟩ := h
  have hplain := reads_encodes t ht v (Encodes.erase t v plain core hcore).1
  have htagged := (reads_encodes t ht v hcore).tags (starts_read maxSize t) hts
  refine ⟨hplain.imemstream rest ?_, htagged.imemstream rest hsize⟩
  rw [List.length_append] at hsize ⊢
  omega

/-- An `std::optional<std::list<uint8_t>>` whose list and element have heads that are wider
than needed: tag 1 before the list, tag 256 before the element. -/
theorem cbor_tags_transparent_list :
    let t : Ty .type := .optional (.list (.scalar (.unsigned .w8)))
    let plain : Bytes := [0x98, 0x01, 0x18, 0x07]
    let tagged : Bytes := [0xc1, 0x98, 0x01, 0xd9, 0x01, 0x00, 0x18, 0x07]
    read imemstream (fun _ => 1000) t { data := plain ++ [0xff] } =
        .ok (some [(7 : BitVec 8)], { data := plain ++ [0xff], offset := 4 }) ∧
      read imemstream (fun _ => 1000) t { data := tagged ++ [0xff] } =
        .ok (some [(7 : BitVec 8)], { data := tagged ++ [0xff], offset := 8 }) := by
  have helement : Tagged (Encodes (fun _ => 1000) (.scalar (.unsigned .w8)) (7 : BitVec 8))
      [0x18, 0x07] [0xd9, 0x01, 0x00, 0x18, 0x07] :=
    ⟨_, _, .cons (.w16 (n := 256) (by decide)) .nil, ⟨⟨7, .w8 (by decide), rfl⟩, rfl⟩, rfl⟩
  have hlist : Tagged (Encodes (fun _ => 1000) (.optional (.list (.scalar (.unsigned .w8))))
      (some [(7 : BitVec 8)])) [0x98, 0x01, 0x18, 0x07]
      [0xc1, 0x98, 0x01, 0xd9, 0x01, 0x00, 0x18, 0x07] :=
    ⟨_, _, .cons (.small (n := 1) (by decide)) .nil,
      ⟨_, _, _, _, ⟨.w8 (n := 1) (by decide), rfl⟩, .cons helement .nil, rfl, rfl⟩, rfl⟩
  exact cbor_tags_transparent (fun _ => 1000) (.optional (.list (.scalar (.unsigned .w8))))
    ⟨trivial, neverNull fun _ h => by cases h⟩ _ _ _ hlist [0xff] (by decide)

end Stuff.Cbor
