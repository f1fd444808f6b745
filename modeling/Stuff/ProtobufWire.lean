import Stuff.ProtobufReader

/-!
# The fields of a message

A well formed message is a sequence of fields. A field is a form of its tag and a payload,
and the wire type in the tag says where the payload ends.
-/
namespace Stuff.Protobuf
open MachineWords Base128

/-- The payloads of a wire type. Numbers need not have their shortest form. -/
inductive Payload : UInt8 → Bytes → Prop
  | variant {bs : Bytes} {n : ℕ} : Form bs n → bs.length ≤ 10 → Payload tagVariant bs
  | fixed64 {bs : Bytes} : bs.length = 8 → Payload tagFixed64 bs
  | fixed32 {bs : Bytes} : bs.length = 4 → Payload tagFixed32 bs
  | length {bs content : Bytes} {n : ℕ} : Form bs n → bs.length ≤ 10 →
      content.length = n % 2 ^ 64 → Payload tagLength (bs ++ content)

structure Field where
  info : FieldInfo
  head : Bytes
  payload : Bytes
  isHead : ∃ n, Form head n ∧ head.length ≤ 10 ∧ FieldInfo.ofTag (UInt64.ofNat n) = info
  isPayload : Payload info.tag payload

def Field.bytes (f : Field) : Bytes := f.head ++ f.payload

def encode (message : List Field) : Bytes := message.flatMap Field.bytes

theorem encode_cons (f : Field) (message : List Field) :
    encode (f :: message) = f.head ++ (f.payload ++ encode message) := by
  rw [encode, List.flatMap_cons, Field.bytes, List.append_assoc]
  rfl

theorem Field.head_ne_nil (f : Field) : f.head ≠ [] := by
  obtain ⟨n, hform, -⟩ := f.isHead
  exact hform.ne_nil

theorem readTag_head (f : Field) (rest : Bytes) :
    readTag (f.head ++ rest) = .ok (f.info, rest) := by
  obtain ⟨n, hform, hlen, hinfo⟩ := f.isHead
  change Except.bind (readVarInt 64 (f.head ++ rest)) _ = _
  rw [readVarInt_form (le_refl _) hform (by omega), ← hinfo]
  rfl

theorem readString_length {bs content : Bytes} {n : ℕ} (h : Form bs n) (hlen : bs.length ≤ 10)
    (hcontent : content.length = n % 2 ^ 64) (rest : Bytes) :
    readString (bs ++ content ++ rest) = .ok (content, rest) := by
  change Except.bind (readVarInt 64 (bs ++ content ++ rest)) _ = _
  rw [List.append_assoc, readVarInt_form (le_refl _) h (by omega)]
  exact take_append (hcontent.trans (BitVec.toNat_ofNat n 64).symm) rest

/-- `skip` takes the payload and no more. -/
theorem skip_payload {aField : FieldInfo} {payload : Bytes} (h : Payload aField.tag payload)
    (rest : Bytes) : skip aField (payload ++ rest) = .ok ((), rest) := by
  obtain ⟨tag, id⟩ := aField
  cases h with
  | variant hform hlen =>
      change Except.bind (readVarInt 64 _) _ = _
      rw [readVarInt_form (le_refl _) hform (by omega)]
      rfl
  | fixed64 hlen =>
      change Except.bind (take 8 _) _ = _
      rw [take_append hlen]
      rfl
  | fixed32 hlen =>
      change Except.bind (take 4 _) _ = _
      rw [take_append hlen]
      rfl
  | length hform hlen hcontent =>
      change Except.bind (readString _) _ = _
      rw [readString_length hform hlen hcontent]
      rfl

/-! ## Readers that take a payload -/

/-- The reader comes to the end of the payload, or throws, whatever follows. -/
def Exact {α : Type} (p : Reader α) (payload : Bytes) : Prop :=
  ∃ r : Except Failure α, ∀ rest, p (payload ++ rest) = r.map fun a => (a, rest)

theorem Exact.map {α β : Type} {p : Reader α} {payload : Bytes} (h : Exact p payload)
    (g : α → β) : Exact (p >>= fun a => pure (g a)) payload := by
  obtain ⟨r, hr⟩ := h
  refine ⟨r.map g, fun rest => ?_⟩
  change Except.bind (p (payload ++ rest)) _ = _
  rw [hr]
  cases r <;> rfl

theorem exact_varLoop {α : Type} {payload : Bytes} (h : Payload tagVariant payload) (width : ℕ)
    (join : α → UInt8 → ℕ → α) (sValue : α) (sShift : ℕ) :
    Exact (varLoop width join sValue sShift) payload := by
  generalize htag : tagVariant = tag at h
  cases h with
  | variant hform _ => exact varLoop_form hform width join sValue sShift
  | fixed64 _ | fixed32 _ | length _ _ _ => exact absurd htag (by decide)

theorem exact_take {payload : Bytes} {n : ℕ} (h : payload.length = n) : Exact (take n) payload :=
  ⟨.ok payload, fun rest => take_append h rest⟩

theorem exact_readFixed32 {payload : Bytes} (h : Payload tagFixed32 payload) :
    Exact (readFixed 32) payload := by
  generalize htag : tagFixed32 = tag at h
  cases h with
  | fixed32 hlen => exact (exact_take hlen).map _
  | fixed64 _ | variant _ _ | length _ _ _ => exact absurd htag (by decide)

theorem exact_readFixed64 {payload : Bytes} (h : Payload tagFixed64 payload) :
    Exact (readFixed 64) payload := by
  generalize htag : tagFixed64 = tag at h
  cases h with
  | fixed64 hlen => exact (exact_take hlen).map _
  | fixed32 _ | variant _ _ | length _ _ _ => exact absurd htag (by decide)

theorem exact_readString {payload : Bytes} (h : Payload tagLength payload) :
    Exact readString payload := by
  generalize htag : tagLength = tag at h
  cases h with
  | length hform hlen hcontent =>
      exact ⟨.ok _, fun rest => readString_length hform hlen hcontent rest⟩
  | fixed64 _ | fixed32 _ | variant _ _ => exact absurd htag (by decide)

variable {σ : Type}

/-- One field at the front of the buffer. -/
theorem parse_field (aCallback : Callback σ) (f : Field) (rest : Bytes) (st : σ) :
    parse aCallback (f.head ++ (f.payload ++ rest)) st =
      match act f.info (aCallback.run f.info (f.payload ++ rest) st) with
      | .next st buffer => parse aCallback buffer st
      | .stop st r => (st, r) := by
  have hne := List.append_ne_nil_of_left_ne_nil f.head_ne_nil (f.payload ++ rest)
  have hparse := @parse_of_ne_nil σ aCallback _ st hne
  rw [turn, readTag_head] at hparse
  exact hparse

theorem parse_field_used {aCallback : Callback σ} {f : Field} {rest buffer : Bytes} {st st' : σ}
    (h : aCallback.run f.info (f.payload ++ rest) st = (st', .ok (.actUsed, buffer))) :
    parse aCallback (f.head ++ (f.payload ++ rest)) st = parse aCallback buffer st' := by
  rw [parse_field, h]
  rfl

theorem parse_field_break {aCallback : Callback σ} {f : Field} {rest buffer : Bytes} {st st' : σ}
    (h : aCallback.run f.info (f.payload ++ rest) st = (st', .ok (.actBreak, buffer))) :
    parse aCallback (f.head ++ (f.payload ++ rest)) st = (st', .ok buffer) := by
  rw [parse_field, h]
  rfl

theorem parse_field_skip {aCallback : Callback σ} {f : Field} {rest : Bytes} {st st' : σ}
    (h : aCallback.run f.info (f.payload ++ rest) st =
      (st', .ok (.actSkip, f.payload ++ rest))) :
    parse aCallback (f.head ++ (f.payload ++ rest)) st = parse aCallback rest st' := by
  rw [parse_field, h, act, skip_payload f.isPayload]

theorem parse_field_error {aCallback : Callback σ} {f : Field} {rest : Bytes} {st st' : σ}
    {e : Failure} (h : aCallback.run f.info (f.payload ++ rest) st = (st', .error e)) :
    parse aCallback (f.head ++ (f.payload ++ rest)) st = (st', .error e) := by
  rw [parse_field, h]
  rfl

/-! ## Fields with the shortest forms -/

/-- What `writeTag` puts together. -/
def tagNumber (id : UInt64) (tag : UInt8) : ℕ := id.toNat * 8 + tag.toNat

theorem ofTag_tagNumber {id : UInt64} {tag : UInt8} (hid : id.toNat < 2 ^ 61)
    (htag : tag.toNat < 8) : FieldInfo.ofTag (UInt64.ofNat (tagNumber id tag)) = ⟨tag, id⟩ := by
  have hnumber : (UInt64.ofNat (tagNumber id tag)).toNat = id.toNat * 8 + tag.toNat := by
    rw [UInt64.toNat_ofNat', Nat.mod_eq_of_lt (by rw [tagNumber]; omega), tagNumber]
  have hlow : ((UInt64.ofNat (tagNumber id tag) &&& 0x07).toUInt8) = tag := by
    apply UInt8.toNat_inj.mp
    rw [UInt64.toNat_toUInt8, UInt64.toNat_and, hnumber]
    change ((id.toNat * 8 + tag.toNat) &&& (2 ^ 3 - 1)) % 2 ^ 8 = _
    rw [Nat.and_two_pow_sub_one_eq_mod]
    omega
  have hhigh : UInt64.ofNat (tagNumber id tag) >>> 3 = id := by
    apply UInt64.toNat_inj.mp
    rw [UInt64.toNat_shiftRight, hnumber]
    change (id.toNat * 8 + tag.toNat) >>> 3 = _
    rw [Nat.shiftRight_eq_div_pow]
    omega
  rw [FieldInfo.ofTag, hlow, hhigh]

theorem Payload.tag_lt {tag : UInt8} {payload : Bytes} (h : Payload tag payload) :
    tag.toNat < 8 := by
  cases h <;> decide

def Field.shortest {tag : UInt8} {payload : Bytes} (id : UInt64) (hid : id.toNat < 2 ^ 61)
    (h : Payload tag payload) : Field where
  info := ⟨tag, id⟩
  head := Base128.shortest (tagNumber id tag)
  payload := payload
  isHead := by
    have htag := h.tag_lt
    refine ⟨_, form_shortest _, length_shortest_le (by decide) ?_, ofTag_tagNumber hid htag⟩
    rw [tagNumber]
    omega
  isPayload := h

theorem Payload.shortest_variant (n : ℕ) (hn : n < 2 ^ 64) :
    Payload tagVariant (Base128.shortest n) :=
  .variant (form_shortest n) (length_shortest_le (by decide) (by omega))

theorem Payload.shortest_length (content : Bytes) (h : content.length < 2 ^ 64) :
    Payload tagLength (Base128.shortest content.length ++ content) :=
  .length (form_shortest _) (length_shortest_le (by decide) (by omega)) (Nat.mod_eq_of_lt h).symm

/-! ## Fields that the callback does not know -/

/-- The callback answers `ACT_SKIP` for the ids outside `K`, with the reader where it was, and
reads the fields of the message with an id in `K` to their end. The value that it reads, and
whether it goes on, depend on the field and on what it has seen; `seen` is that part of its
state. -/
structure ReadsOwn {V : Type} (K : Set UInt64) (message : List Field)
    (seen : σ → List (UInt64 × V)) (value : List (UInt64 × V) → Field → V)
    (goesOn : List (UInt64 × V) → Field → Bool) (aCallback : Callback σ) : Prop where
  skips : ∀ aField buffer st, aField.id ∉ K → ∃ st',
    aCallback.run aField buffer st = (st', .ok (.actSkip, buffer)) ∧ seen st' = seen st
  reads : ∀ f ∈ message, f.info.id ∈ K → ∀ rest st, ∃ st',
    aCallback.run f.info (f.payload ++ rest) st =
      (st', .ok (if goesOn (seen st) f then .actUsed else .actBreak, rest)) ∧
    seen st' = seen st ++ [(f.info.id, value (seen st) f)]

variable {V : Type} {K : Set UInt64} {message : List Field} {seen : σ → List (UInt64 × V)}
  {value : List (UInt64 × V) → Field → V} {goesOn : List (UInt64 × V) → Field → Bool}
  {aCallback : Callback σ}

theorem ReadsOwn.tail {f : Field} (h : ReadsOwn K (f :: message) seen value goesOn aCallback) :
    ReadsOwn K message seen value goesOn aCallback :=
  ⟨h.skips, fun g hg => h.reads g (List.mem_cons_of_mem _ hg)⟩

/-- Runs from states that have seen the same see the same. -/
theorem ReadsOwn.parse_filter [DecidablePred (· ∈ K)]
    (h : ReadsOwn K message seen value goesOn aCallback) {st st' : σ} (hst : seen st = seen st') :
    (∃ rest, (parse aCallback (encode message) st).2 = .ok rest) ∧
    (∃ rest, (parse aCallback (encode (message.filter (·.info.id ∈ K))) st').2 = .ok rest) ∧
    seen (parse aCallback (encode message) st).1 =
      seen (parse aCallback (encode (message.filter (·.info.id ∈ K))) st').1 := by
  induction message generalizing st st' with
  | nil => exact ⟨⟨[], rfl⟩, ⟨[], rfl⟩, hst⟩
  | cons f message ih =>
      rw [encode_cons]
      by_cases hid : f.info.id ∈ K
      · rw [List.filter_cons_of_pos (by simpa using hid), encode_cons]
        obtain ⟨st₁, hrun, hseen⟩ := h.reads f List.mem_cons_self hid (encode message) st
        obtain ⟨st₂, hrun', hseen'⟩ := h.reads f List.mem_cons_self hid
          (encode (message.filter (·.info.id ∈ K))) st'
        have hsame : seen st₁ = seen st₂ := by rw [hseen, hseen', hst]
        cases hgoes : goesOn (seen st) f with
        | true =>
            rw [hgoes, if_pos rfl] at hrun
            rw [← hst, hgoes, if_pos rfl] at hrun'
            rw [parse_field_used hrun, parse_field_used hrun']
            exact ih h.tail hsame
        | false =>
            rw [hgoes, if_neg Bool.false_ne_true] at hrun
            rw [← hst, hgoes, if_neg Bool.false_ne_true] at hrun'
            rw [parse_field_break hrun, parse_field_break hrun']
            exact ⟨⟨_, rfl⟩, ⟨_, rfl⟩, hsame⟩
      · rw [List.filter_cons_of_neg (by simpa using hid)]
        obtain ⟨st₁, hrun, hseen⟩ := h.skips f.info (f.payload ++ encode message) st hid
        rw [parse_field_skip hrun]
        exact ih h.tail (hseen.trans hst)

/-- The callback sees of a message what it sees of the fields with an id in `K`. -/
theorem skip_transparent [DecidablePred (· ∈ K)]
    (h : ReadsOwn K message seen value goesOn aCallback) (st : σ) :
    (∃ rest, (parse aCallback (encode message) st).2 = .ok rest) ∧
    (∃ rest, (parse aCallback (encode (message.filter (·.info.id ∈ K))) st).2 = .ok rest) ∧
    seen (parse aCallback (encode message) st).1 =
      seen (parse aCallback (encode (message.filter (·.info.id ∈ K))) st).1 :=
  h.parse_filter rfl

/-- A callback that reads the strings with one id. -/
def strings (aId : UInt64) : Callback (List (UInt64 × Bytes)) where
  run aField buffer sList :=
    if aField.id = aId then
      match readString buffer with
      | .ok (sValue, buffer) => (sList ++ [(aId, sValue)], .ok (.actUsed, buffer))
      | .error e => (sList, .error e)
    else (sList, .ok (.actSkip, buffer))
  shrinks aField buffer sList a rest h := by
    split_ifs at h
    · cases hread : readString buffer with
      | error e =>
          rw [hread] at h
          cases h
      | ok r =>
          have htakes := takes_readString buffer r.1 r.2 hread
          rw [hread] at h
          cases h
          omega
    · cases h
      exact le_refl _

/-- The strings are read to their end where the fields with the id are strings. -/
theorem readsOwn_strings {message : List Field} {aId : UInt64} (content : Field → Bytes)
    (h : ∀ f ∈ message, f.info.id = aId → (content f).length < 2 ^ 64 ∧
      f.payload = Base128.shortest (content f).length ++ content f) :
    ReadsOwn {aId} message id (fun _ f => content f) (fun _ _ => true) (strings aId) where
  skips aField buffer sList hid := ⟨sList, if_neg hid, rfl⟩
  reads := by
    intro f hf hid rest sList
    have hid' : f.info.id = aId := hid
    obtain ⟨hlen, hpayload⟩ := h f hf hid'
    have hread : readString (f.payload ++ rest) = .ok (content f, rest) := by
      rw [hpayload]
      exact readString_length (form_shortest _) (length_shortest_le (by decide) (by omega))
        (Nat.mod_eq_of_lt hlen).symm rest
    refine ⟨sList ++ [(aId, content f)], ?_, by rw [hid']; rfl⟩
    simp only [strings]
    rw [if_pos hid', hread]
    rfl

/-- A string between a number and a string that the callback does not know. -/
def mixed : List Field :=
  [.shortest 2 (by decide) (.shortest_variant 300 (by decide)),
    .shortest 3 (by decide) (.shortest_length [0x68, 0x69] (by decide)),
    .shortest 4 (by decide) (.shortest_length [0x1A] (by decide))]

theorem skip_transparent_mixed :
    (∃ rest, (parse (strings 3) (encode mixed) []).2 = .ok rest) ∧
    (∃ rest, (parse (strings 3) (encode (mixed.filter (·.info.id ∈ ({3} : Set UInt64)))) []).2 =
      .ok rest) ∧
    (parse (strings 3) (encode mixed) []).1 =
      (parse (strings 3) (encode (mixed.filter (·.info.id ∈ ({3} : Set UInt64)))) []).1 := by
  refine skip_transparent (readsOwn_strings (fun _ => [0x68, 0x69]) ?_) []
  intro f hf hid
  refine ⟨by decide, ?_⟩
  simp only [mixed, List.mem_cons, List.not_mem_nil, or_false] at hf
  obtain rfl | rfl | rfl := hf
  · exact absurd hid (by decide)
  · rfl
  · exact absurd hid (by decide)

end Stuff.Protobuf
