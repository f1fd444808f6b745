import Stuff.ProtobufGenerated

/-!
# Fields with another wire type

The template has one check for the wire type of a field: text, messages and what is packed must
come as `TAG_LENGTH`, and a number must not. So a number that comes in the form of another kind
of number passes.
-/
namespace Stuff.Protobuf.Generated
open MachineWords

/-- The wire type that a type uses. -/
def ProtoType.wireType : ProtoType → UInt8
  | .string | .bytes | .message _ => tagLength
  | .fixed32 | .float => tagFixed32
  | .fixed64 | .double => tagFixed64
  | .int32 | .sint32 | .uint32 | .int64 | .sint64 | .uint64 | .bool | .enum => tagVariant

/-- The wire type that a field uses as it is declared. -/
def Entry.wireType (e : Entry) : UInt8 :=
  if e.kind = .repeated ∧ e.packed then tagLength else e.type.wireType

def entryOf (entries : List Entry) (f : Field) : Option Entry :=
  entries.find? (·.id = f.info.id)

/-- The id is known, and the wire type is not the declared one. -/
def mismatched (entries : List Entry) (f : Field) : Bool :=
  match entryOf entries f with
  | some e => f.info.tag ≠ e.wireType
  | none => false

/-- The message without its mismatched fields. -/
def others (entries : List Entry) (message : List Field) : List Field :=
  message.filter (!mismatched entries ·)

/-- A number that comes as a number of another wire type, or the packed declaration of a number
that is not repeated, which comes as `TAG_LENGTH`. -/
def Entry.Confused (e : Entry) (tag : UInt8) : Prop :=
  e.type.wireType ≠ tagLength ∧ tag ≠ e.wireType ∧
    if e.packed then e.kind ≠ .repeated ∧ tag = tagLength else tag ≠ tagLength

/-- The structs of a file with the entries of its messages. -/
def generate (doc : List (List Entry)) : Structs := doc.map (·.map makeEntry)

/-- A field with another wire type than the declared one sets `m_Error` and is skipped. The rest
of the message decodes as if it were absent. -/
structure SurvivesMismatch (doc : List (List Entry)) (struct : ℕ) (message : List Field) :
    Prop where
  skipped : ∀ f ∈ message, mismatched (doc.getD struct []) f → ∀ rest o,
    (structCallback (generate doc) struct).run f.info (f.payload ++ rest) o =
      (o.withError, .ok (.actSkip, f.payload ++ rest))
  absent : ∀ o,
    let r := parseFromString (generate doc) struct (encode message) o
    let r' := parseFromString (generate doc) struct (encode (others (doc.getD struct []) message)) o
    r.2 = r'.2 ∧ r.1.fields = r'.1.fields ∧
      (r.2 = .ok () →
        r.1.m_Error = (r'.1.m_Error || message.any (mismatched (doc.getD struct []))))

/-! ## The check -/

theorem wireType_of_text {e : Entry} (h : e.type.wireType = tagLength) :
    e.wireType = tagLength := by
  rw [Entry.wireType, h, ite_self]

theorem text_of_pmr {e : Entry} (h : (makeEntry e).pmr = true) : e.type.wireType = tagLength := by
  obtain ⟨kind, type, id, packed, default, useStringView⟩ := e
  cases type with
  | string | bytes | message => rfl
  | _ => cases h

/-- Text, messages and what is packed must come as `TAG_LENGTH`. -/
theorem wrongTag_iff (e : Entry) (tag : UInt8) : (makeEntry e).wrongTag tag = true ↔
    if e.type.wireType = tagLength ∨ e.packed then tag ≠ tagLength else tag = tagLength := by
  obtain ⟨kind, type, id, packed, default, useStringView⟩ := e
  have hcheck : (type = .string ∨ type = .bytes ∨
      (makeEntry ⟨kind, type, id, packed, default, useStringView⟩).pmr ∨ packed) ↔
        (type.wireType = tagLength ∨ packed) := by
    cases type <;>
      simp [makeEntry, customType, ProtoType.wireType, tagLength, tagVariant, tagFixed32,
        tagFixed64]
  change (if type = .string ∨ type = .bytes ∨
      (makeEntry ⟨kind, type, id, packed, default, useStringView⟩).pmr ∨ packed then
        decide (tag ≠ tagLength) else decide (tag = tagLength)) = true ↔ _
  by_cases hlength : type.wireType = tagLength ∨ packed
  · rw [if_pos (hcheck.mpr hlength), if_pos hlength, decide_eq_true_iff]
  · rw [if_neg (mt hcheck.mp hlength), if_neg hlength, decide_eq_true_iff]

/-- A wire type that is not the declared one passes when it is confused with it. -/
theorem wrongTag_of_mismatch {e : Entry} {tag : UInt8} (h : tag ≠ e.wireType) :
    (makeEntry e).wrongTag tag = true ↔ ¬ e.Confused tag := by
  rw [wrongTag_iff, Entry.Confused]
  by_cases htext : e.type.wireType = tagLength
  · rw [if_pos (Or.inl htext)]
    exact iff_of_true (wireType_of_text htext ▸ h) fun hconfused => hconfused.1 htext
  by_cases hpacked : e.packed = true
  · rw [if_pos (Or.inr hpacked), if_pos hpacked]
    by_cases hkind : e.kind = .repeated
    · have hlength : e.wireType = tagLength := if_pos ⟨hkind, hpacked⟩
      exact iff_of_true (hlength ▸ h) fun hconfused => hconfused.2.2.1 hkind
    · exact ⟨fun htag hconfused => htag hconfused.2.2.2,
        fun hconfused htag => hconfused ⟨htext, h, hkind, htag⟩⟩
  · rw [if_neg (by tauto), if_neg hpacked]
    exact ⟨fun htag hconfused => hconfused.2.2 htag,
      fun hconfused => not_not.mp fun htag => hconfused ⟨htext, h, htag⟩⟩

theorem read_exact (e : Entry) {payload : Bytes} (h : Payload e.type.wireType payload) :
    Exact (makeEntry e).read payload := by
  obtain ⟨kind, type, id, packed, default, useStringView⟩ := e
  cases type with
  | string | bytes =>
      cases useStringView <;> exact (exact_readString h).map _
  | int32 | uint32 | int64 | uint64 | enum => exact (exact_varLoop h _ _ _ _).map _
  | sint32 | sint64 => exact ((exact_varLoop h _ _ _ _).map _).map _
  | fixed32 | float => exact (exact_readFixed32 h).map _
  | fixed64 | double => exact (exact_readFixed64 h).map _
  | bool => exact (exact_varLoop h _ _ _ _).map _
  | message struct => exact ⟨.error .undefined, fun rest => rfl⟩

/-- What the `case` of a field reads is the payload. -/
theorem case_exact (nested : Nested) (e : Entry) (place : ℕ) {payload : Bytes}
    (h : Payload e.wireType payload) : Exact ((makeEntry e).case nested place).read payload := by
  cases hcustom : (makeEntry e).customType with
  | some struct =>
      have hpmr : (makeEntry e).pmr = true := by
        have hsome : (customType e.type).isSome := by
          change customType e.type = _ at hcustom
          rw [hcustom]
          rfl
        simp [makeEntry, hsome]
      rw [wireType_of_text (text_of_pmr hpmr)] at h
      rw [case_message nested place hcustom]
      exact exact_readString h
  | none =>
      rw [case_none nested place hcustom]
      by_cases hpmr : (makeEntry e).pmr = true
      · have htext := text_of_pmr hpmr
        rw [wireType_of_text htext, ← htext] at h
        rw [if_pos hpmr]
        exact read_exact e h
      rw [if_neg hpmr]
      by_cases hpacked : (makeEntry e).repeated ∧ (makeEntry e).packed
      · have hlength : e.wireType = tagLength := if_pos (by simpa [makeEntry] using hpacked)
        rw [hlength] at h
        rw [if_pos hpacked]
        exact exact_readString h
      · have hown : e.wireType = e.type.wireType := if_neg (by simpa [makeEntry] using hpacked)
        rw [hown] at h
        rw [if_neg hpacked]
        exact read_exact e h

/-! ## The fields of a struct -/

theorem find_generated (entries : List Entry) (f : Field) (offset : ℕ) :
    ∃ place, ((entries.map makeEntry).zipIdx offset).find? (·.1.id = f.info.id) =
      (entryOf entries f).map fun e => (makeEntry e, place) := by
  induction entries generalizing offset with
  | nil => exact ⟨0, rfl⟩
  | cons e entries ih =>
      rw [List.map_cons, List.zipIdx_cons, entryOf]
      by_cases hid : e.id = f.info.id
      · have hmade : (makeEntry e).id = f.info.id := hid
        refine ⟨offset, ?_⟩
        rw [List.find?_cons_of_pos (by simpa using hmade),
          List.find?_cons_of_pos (by simpa using hid)]
        rfl
      · obtain ⟨place, hplace⟩ := ih (offset + 1)
        refine ⟨place, ?_⟩
        have hmade : (makeEntry e).id ≠ f.info.id := hid
        rw [List.find?_cons_of_neg (by simpa using hmade),
          List.find?_cons_of_neg (by simpa using hid)]
        exact hplace

theorem generate_getD (doc : List (List Entry)) (struct : ℕ) :
    (generate doc).getD struct [] = (doc.getD struct []).map makeEntry := by
  rw [generate, List.getD_eq_getElem?_getD, List.getD_eq_getElem?_getD, List.getElem?_map]
  cases doc[struct]? <;> rfl

theorem mismatched_some {entries : List Entry} {f : Field} {e : Entry}
    (h : entryOf entries f = some e) : mismatched entries f = decide (f.info.tag ≠ e.wireType) := by
  rw [mismatched, h]

theorem run_unknown {doc : List (List Entry)} {struct : ℕ} {f : Field}
    (h : entryOf (doc.getD struct []) f = none) (buffer : Bytes) (o : Object) :
    (structCallback (generate doc) struct).run f.info buffer o = (o, .ok (.actSkip, buffer)) := by
  obtain ⟨place, hfind⟩ := find_generated (doc.getD struct []) f 0
  rw [h] at hfind
  simp only [structCallback, callback, generate_getD]
  rw [hfind]
  rfl

theorem run_known {doc : List (List Entry)} {struct : ℕ} {f : Field} {e : Entry}
    (h : entryOf (doc.getD struct []) f = some e) :
    ∃ place, ∀ buffer o, (structCallback (generate doc) struct).run f.info buffer o =
      parseField (parseNew (generate doc)) (makeEntry e) place f.info buffer o := by
  obtain ⟨place, hfind⟩ := find_generated (doc.getD struct []) f 0
  rw [h] at hfind
  refine ⟨place, fun buffer o => ?_⟩
  simp only [structCallback, callback, generate_getD]
  rw [hfind]
  rfl

theorem Case.run_exact {c : Case} {payload : Bytes} (h : Exact c.read payload) (o : Object) :
    (∃ o', ∀ rest, c.run (payload ++ rest) o = (o', .ok (.actUsed, rest))) ∨
      ∃ o' e, ∀ rest, c.run (payload ++ rest) o = (o', .error e) := by
  obtain ⟨r, hr⟩ := h
  cases r with
  | error e => exact .inr ⟨c.failed o, e, fun rest => by rw [run, hr]; rfl⟩
  | ok b =>
      cases hdone : (c.done o b).2 with
      | error e =>
          refine .inr ⟨(c.done o b).1, e, fun rest => ?_⟩
          rw [run, hr]
          exact congrArg (fun r => ((c.done o b).1, r.map fun _ => (Action.actUsed, rest))) hdone
      | ok u =>
          refine .inl ⟨(c.done o b).1, fun rest => ?_⟩
          rw [run, hr]
          exact congrArg (fun r => ((c.done o b).1, r.map fun _ => (Action.actUsed, rest))) hdone

/-- A field that is not mismatched is skipped, used to its end or thrown at, whatever
follows. -/
theorem run_matched {doc : List (List Entry)} {struct : ℕ} {f : Field}
    (h : mismatched (doc.getD struct []) f = false) (o : Object) :
    (∃ o', ∀ rest, (structCallback (generate doc) struct).run f.info (f.payload ++ rest) o =
      (o', .ok (.actSkip, f.payload ++ rest))) ∨
    (∃ o', ∀ rest, (structCallback (generate doc) struct).run f.info (f.payload ++ rest) o =
      (o', .ok (.actUsed, rest))) ∨
    ∃ o' e, ∀ rest, (structCallback (generate doc) struct).run f.info (f.payload ++ rest) o =
      (o', .error e) := by
  cases hentry : entryOf (doc.getD struct []) f with
  | none => exact .inl ⟨o, fun rest => run_unknown hentry _ o⟩
  | some e =>
      obtain ⟨place, hrun⟩ := run_known hentry
      simp only [hrun, parseField]
      cases hwrong : (makeEntry e).wrongTag f.info.tag with
      | true => exact .inl ⟨o.withError, fun rest => if_pos rfl⟩
      | false =>
          have htag : f.info.tag = e.wireType := by
            rw [mismatched_some hentry] at h
            simpa using h
          have hpayload := f.isPayload
          rw [htag] at hpayload
          exact .inr (Case.run_exact (case_exact _ e place hpayload) o)

/-- A mismatched field that is not confused with its declaration. -/
theorem run_mismatched {doc : List (List Entry)} {struct : ℕ} {f : Field}
    (h : mismatched (doc.getD struct []) f = true)
    (hclear : ∀ e, entryOf (doc.getD struct []) f = some e → ¬ e.Confused f.info.tag)
    (buffer : Bytes) (o : Object) :
    (structCallback (generate doc) struct).run f.info buffer o =
      (o.withError, .ok (.actSkip, buffer)) := by
  cases hentry : entryOf (doc.getD struct []) f with
  | none =>
      rw [mismatched, hentry] at h
      cases h
  | some e =>
      have htag : f.info.tag ≠ e.wireType := by
        rw [mismatched_some hentry] at h
        simpa using h
      obtain ⟨place, hrun⟩ := run_known hentry
      rw [hrun, parseField, if_pos ((wrongTag_of_mismatch htag).mpr (hclear e hentry))]

/-! ## The whole message -/

theorem others_cons_of_mismatch {entries : List Entry} {f : Field} (message : List Field)
    (h : mismatched entries f = true) : others entries (f :: message) = others entries message :=
  List.filter_cons_of_neg (by rw [h]; decide)

theorem others_cons_of_match {entries : List Entry} {f : Field} (message : List Field)
    (h : mismatched entries f = false) :
    others entries (f :: message) = f :: others entries message :=
  List.filter_cons_of_pos (by rw [h]; rfl)

/-- Without confused fields, the mismatched ones only set `m_Error`. -/
theorem parse_absent {doc : List (List Entry)} {struct : ℕ} {message : List Field}
    (hclear : ∀ f ∈ message, ∀ e, entryOf (doc.getD struct []) f = some e →
      ¬ e.Confused f.info.tag) (o : Object) :
    let r := parse (structCallback (generate doc) struct) (encode message) o
    let r' := parse (structCallback (generate doc) struct)
      (encode (others (doc.getD struct []) message)) o
    r.2 = r'.2 ∧ r.1.fields = r'.1.fields ∧ ∀ rest, r.2 = .ok rest →
      r.1.m_Error = (r'.1.m_Error || message.any (mismatched (doc.getD struct []))) := by
  induction message generalizing o with
  | nil => exact ⟨rfl, rfl, fun rest _ => (Bool.or_false _).symm⟩
  | cons f message ih =>
      rw [List.forall_mem_cons] at hclear
      cases hmismatch : mismatched (doc.getD struct []) f with
      | true =>
          have hrun := run_mismatched hmismatch hclear.1 (f.payload ++ encode message) o
          obtain ⟨hresult, hfields, -⟩ := ih hclear.2 o
          rw [others_cons_of_mismatch message hmismatch, encode_cons, parse_field_skip hrun,
            parse_withError, List.any_cons, hmismatch, Bool.true_or]
          exact ⟨hresult, hfields, fun rest _ => (Bool.or_true _).symm⟩
      | false =>
          rw [others_cons_of_match message hmismatch, encode_cons, encode_cons, List.any_cons,
            hmismatch, Bool.false_or]
          obtain ⟨o', hrun⟩ | ⟨o', hrun⟩ | ⟨o', e, hrun⟩ := run_matched hmismatch o
          · rw [parse_field_skip (hrun _), parse_field_skip (hrun _)]
            exact ih hclear.2 o'
          · rw [parse_field_used (hrun _), parse_field_used (hrun _)]
            exact ih hclear.2 o'
          · rw [parse_field_error (hrun _), parse_field_error (hrun _)]
            refine ⟨rfl, rfl, fun rest h => ?_⟩
            cases h

/-- A confused field is not skipped. -/
theorem not_survivesMismatch {doc : List (List Entry)} {struct : ℕ} {message : List Field}
    {f : Field} {e : Entry} (hf : f ∈ message)
    (hentry : entryOf (doc.getD struct []) f = some e) (hconfused : e.Confused f.info.tag) :
    ¬ SurvivesMismatch doc struct message := by
  intro h
  have htag : f.info.tag ≠ e.wireType := hconfused.2.1
  have hmismatch : mismatched (doc.getD struct []) f = true := by
    rw [mismatched_some hentry, decide_eq_true htag]
  have hskipped := h.skipped f hf hmismatch [] (construct [])
  obtain ⟨place, hrun⟩ := run_known hentry
  have hpasses : ¬ (makeEntry e).wrongTag f.info.tag = true := fun hwrong =>
    (wrongTag_of_mismatch htag).mp hwrong hconfused
  rw [hrun, parseField, if_neg hpasses] at hskipped
  have hused := (Case.run_ok (congrArg Prod.snd hskipped)).1
  cases hused

/-- A parser survives the mismatched fields of a message when none of them is confused with its
declaration, and only then. -/
theorem survivesMismatch_iff (doc : List (List Entry)) (struct : ℕ) (message : List Field) :
    SurvivesMismatch doc struct message ↔ ∀ f ∈ message, ∀ e,
      entryOf (doc.getD struct []) f = some e → ¬ e.Confused f.info.tag := by
  constructor
  · intro h f hf e hentry hconfused
    exact not_survivesMismatch hf hentry hconfused h
  · intro h
    refine ⟨fun f hf hmismatch rest o => run_mismatched hmismatch (h f hf) _ o, fun o => ?_⟩
    obtain ⟨hresult, hfields, herror⟩ := parse_absent h o
    dsimp only
    rw [parseFromString_eq, parseFromString_eq]
    refine ⟨congrArg (Except.map fun _ => ()) hresult, hfields, fun hok => ?_⟩
    cases hparse : (parse (structCallback (generate doc) struct) (encode message) o).2 with
    | error e =>
        rw [hparse] at hok
        cases hok
    | ok rest => exact herror rest hparse

/-- `optional int32 id = 1` gets the bytes `0D 07 00 00 00`. -/
theorem fixed32_for_int32 : ¬ ∀ doc struct message, SurvivesMismatch doc struct message := by
  intro h
  let entry : Entry := ⟨.optional, .int32, 1, false, none, false⟩
  have hpayload : Payload tagFixed32 [7, 0, 0, 0] := .fixed32 rfl
  let field : Field := .shortest 1 (by decide) hpayload
  have hconfused : entry.Confused field.info.tag := by
    change tagVariant ≠ tagLength ∧ tagFixed32 ≠ tagVariant ∧ tagFixed32 ≠ tagLength
    decide
  exact not_survivesMismatch List.mem_cons_self rfl hconfused (h [[entry]] 0 [field])

end Stuff.Protobuf.Generated
