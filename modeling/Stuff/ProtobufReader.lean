import Stuff.Base128
import Stuff.ByteOrder

/-!
# Reading Protobuf

`Protobuf::Reader` holds the bytes that are left of a buffer. `parse` reads the tag of a
field, calls back with the reader at its payload, and skips the payload when the answer is
`ACT_SKIP`. A shift that is not smaller than the width of the type is undefined.
-/
namespace Stuff.Protobuf
open MachineWords ByteOrder Base128

/-- The exceptions of the reader, and what C++ gives no meaning to. -/
inductive Failure
  | endOfBuffer
  | badTag
  | badInput
  | undefined
deriving DecidableEq, Repr

def Failure.what : Failure → String
  | .endOfBuffer => "End of buffer"
  | .badTag => "Bad tag"
  | .badInput => "Bad input"
  | .undefined => "shift past the width of the type"

inductive Action
  | actUsed
  | actSkip
  | actBreak
deriving DecidableEq, Repr

abbrev tagVariant : UInt8 := 0
abbrev tagFixed64 : UInt8 := 1
abbrev tagFixed32 : UInt8 := 5
abbrev tagLength : UInt8 := 2

structure FieldInfo where
  tag : UInt8
  id : UInt64
deriving DecidableEq, Repr

def FieldInfo.ofTag (aTag : UInt64) : FieldInfo := ⟨(aTag &&& 0x07).toUInt8, aTag >>> 3⟩

def FieldInfo.decodeSize (f : FieldInfo) : Except Failure ℕ :=
  if f.tag = tagVariant then .ok 1
  else if f.tag = tagFixed32 then .ok 4
  else if f.tag = tagFixed64 then .ok 8
  else if f.tag = tagLength then .ok 0
  else .error .badTag

/-! ## Reader -/

/-- The bytes left in the buffer are the state. -/
abbrev Reader (α : Type) := StateT Bytes (Except Failure) α

/-- The loop of `readVarInt<T>`. A group of seven bits is shifted in a type of `width` bits and
joined to what there is. -/
def varLoop {α : Type} (width : ℕ) (join : α → UInt8 → ℕ → α) (sValue : α) (sShift : ℕ) : Reader α
  | [] => .error (if 63 < sShift then .badInput else .endOfBuffer)
  | sByte :: buffer =>
      if 63 < sShift then .error .badInput
      else if width ≤ sShift then .error .undefined
      else if 0x80 ≤ sByte then varLoop width join (join sValue sByte sShift) (sShift + 7) buffer
      else .ok (join sValue sByte sShift, buffer)

def joinGroup (w : ℕ) (sValue : BitVec w) (sByte : UInt8) (sShift : ℕ) : BitVec w :=
  sValue ||| BitVec.ofNat w (sByte &&& 0x7F).toNat <<< sShift

def readVarInt (w : ℕ) : Reader (BitVec w) := varLoop w (joinGroup w) 0 0

/-- `(bool)sByte` is one bit, which `int` shifts. -/
def readVarBool : Reader Bool :=
  varLoop 32 (fun sValue sByte _ => sValue || sByte != 0) false 0

def readTag : Reader FieldInfo := do
  let tag ← readVarInt 64
  return .ofTag ⟨tag⟩

/-- Bytes at the front of the buffer. -/
def take (n : ℕ) : Reader Bytes := fun buffer =>
  if buffer.length < n then .error .badInput else .ok (buffer.take n, buffer.drop n)

/-- A length and as many bytes: `read` of a string. -/
def readString : Reader Bytes := do
  let sSize ← readVarInt 64
  take sSize.toNat

/-- The image of a number in memory. -/
def readFixed (w : ℕ) : Reader (BitVec w) := do
  let image ← take (w / 8)
  return BitVec.ofNat w (ofLittleEndian image)

def zigZagDecode {w : ℕ} (n : BitVec w) : BitVec w := (n >>> 1) ^^^ -(n &&& 1)

inductive IntType
  | variant
  | fixed
  | zigzag
deriving DecidableEq, Repr

/-- `read` of an integer of `w` bits; the bits of a signed and an unsigned one are the same. -/
def readInt (w : ℕ) : IntType → Reader (BitVec w)
  | .variant => readVarInt w
  | .fixed => readFixed w
  | .zigzag => do
      let n ← readVarInt w
      return zigZagDecode n

def skip (aField : FieldInfo) : Reader Unit := fun buffer => do
  let sSize ← aField.decodeSize
  if sSize = 4 ∨ sSize = 8 then
    let (_, buffer) ← take sSize buffer
    return ((), buffer)
  else if sSize = 1 then
    let (_, buffer) ← readVarInt 64 buffer
    return ((), buffer)
  else
    let (_, buffer) ← readString buffer
    return ((), buffer)

/-! ## What the readers take -/

/-- Every form of a number is read to its end, with one result whatever follows. -/
theorem varLoop_form {α : Type} {bs : Bytes} {n : ℕ} (h : Form bs n) (width : ℕ)
    (join : α → UInt8 → ℕ → α) (sValue : α) (sShift : ℕ) :
    ∃ r : Except Failure α, ∀ rest,
      varLoop width join sValue sShift (bs ++ rest) = r.map fun v => (v, rest) := by
  induction h generalizing sValue sShift with
  | @last b hb =>
      have hlow : ¬ 0x80 ≤ b := by
        rw [UInt8.le_iff_toNat_le]
        exact not_le.mpr hb
      by_cases hlate : 63 < sShift
      · exact ⟨.error .badInput, fun rest => if_pos hlate⟩
      by_cases hwide : width ≤ sShift
      · exact ⟨.error .undefined, fun rest => (if_neg hlate).trans (if_pos hwide)⟩
      refine ⟨.ok (join sValue b sShift), fun rest => ?_⟩
      rw [List.singleton_append, varLoop, if_neg hlate, if_neg hwide, if_neg hlow]
      rfl
  | @more b bs n hb hform ih =>
      have hhigh : 0x80 ≤ b := by
        rw [UInt8.le_iff_toNat_le]
        exact hb
      by_cases hlate : 63 < sShift
      · exact ⟨.error .badInput, fun rest => if_pos hlate⟩
      by_cases hwide : width ≤ sShift
      · exact ⟨.error .undefined, fun rest => (if_neg hlate).trans (if_pos hwide)⟩
      obtain ⟨r, hr⟩ := ih (join sValue b sShift) (sShift + 7)
      refine ⟨r, fun rest => ?_⟩
      rw [List.cons_append, varLoop, if_neg hlate, if_neg hwide, if_pos hhigh, hr]

/-- What is read is a form of a number that the width has room for. -/
theorem varLoop_sound {α : Type} {width : ℕ} {join : α → UInt8 → ℕ → α} {sValue v : α}
    {sShift : ℕ} {buffer rest : Bytes}
    (h : varLoop width join sValue sShift buffer = .ok (v, rest)) :
    ∃ bs n, buffer = bs ++ rest ∧ Form bs n ∧ sShift + 7 * (bs.length - 1) < width := by
  induction buffer generalizing sValue sShift with
  | nil => cases h
  | cons b buffer ih =>
      rw [varLoop] at h
      split_ifs at h with hlate hwide hb
      all_goals rw [UInt8.le_iff_toNat_le] at hb
      · obtain ⟨bs, n, rfl, hform, hlen⟩ := ih h
        have hpos := hform.length_pos
        refine ⟨b :: bs, _, rfl, .more hb hform, ?_⟩
        rw [List.length_cons]
        omega
      · cases h
        exact ⟨[b], _, rfl, .last (not_le.mp hb), not_le.mp hwide⟩

/-- As far as the width goes, the number is the one that the bytes are a form of. -/
theorem varLoop_number {w : ℕ} (hw : w ≤ 64) {bs : Bytes} {n : ℕ} (h : Form bs n) {sShift : ℕ}
    (hshift : sShift + 7 * (bs.length - 1) < w) (sValue : BitVec w) (rest : Bytes) :
    varLoop w (joinGroup w) sValue sShift (bs ++ rest) =
      .ok (sValue ||| BitVec.ofNat w n <<< sShift, rest) := by
  induction h generalizing sShift sValue with
  | last hb =>
      rw [List.singleton_append, varLoop, if_neg (by omega), if_neg (by omega)]
      simp only [UInt8.le_iff_toNat_le, UInt8.reduceToNat, joinGroup, toNat_and_7f,
        Nat.mod_eq_of_lt hb]
      rw [if_neg (by omega)]
  | @more b bs n hb hform ih =>
      have hpos := hform.length_pos
      rw [List.length_cons] at hshift
      rw [List.cons_append, varLoop, if_neg (by omega), if_neg (by omega)]
      simp only [UInt8.le_iff_toNat_le, UInt8.reduceToNat, joinGroup, toNat_and_7f]
      rw [if_pos hb, ih (by omega), BitVec.or_assoc,
        ofNat_groups w n sShift (Nat.mod_lt _ (by decide))]

theorem or_shift_zero {w : ℕ} (x : BitVec w) : (0 : BitVec w) ||| x <<< 0 = x := by
  rw [BitVec.shiftLeft_zero]
  exact BitVec.zero_or

theorem readVarInt_form {w : ℕ} (hw : w ≤ 64) {bs : Bytes} {n : ℕ} (h : Form bs n)
    (hlen : 7 * (bs.length - 1) < w) (rest : Bytes) :
    readVarInt w (bs ++ rest) = .ok (BitVec.ofNat w n, rest) := by
  rw [readVarInt, varLoop_number hw h (by omega)]
  exact congrArg (fun v => Except.ok (v, rest)) (or_shift_zero _)

theorem readVarInt_sound {w : ℕ} (hw : w ≤ 64) {v : BitVec w} {buffer rest : Bytes}
    (h : readVarInt w buffer = .ok (v, rest)) :
    ∃ bs n, buffer = bs ++ rest ∧ Form bs n ∧ v = BitVec.ofNat w n := by
  obtain ⟨bs, n, rfl, hform, hlen⟩ := varLoop_sound h
  rw [readVarInt_form hw hform (by omega)] at h
  cases h
  exact ⟨bs, n, rfl, hform, rfl⟩

theorem take_append {bs : Bytes} {n : ℕ} (h : bs.length = n) (rest : Bytes) :
    take n (bs ++ rest) = .ok (bs, rest) := by
  subst h
  rw [take, if_neg (by simp)]
  simp

theorem length_of_take {n : ℕ} {buffer bs rest : Bytes} (h : take n buffer = .ok (bs, rest)) :
    bs.length = n := by
  unfold take at h
  split_ifs at h with hlt
  cases h
  rw [List.length_take]
  omega

theorem bind_ok {α β : Type} {p : Reader α} {k : α → Reader β} {buffer rest : Bytes} {b : β}
    (h : (p >>= k) buffer = .ok (b, rest)) :
    ∃ a inner, p buffer = .ok (a, inner) ∧ k a inner = .ok (b, rest) := by
  change Except.bind (p buffer) _ = _ at h
  cases hp : p buffer with
  | error e =>
      rw [hp] at h
      cases h
  | ok r =>
      rw [hp] at h
      exact ⟨r.1, r.2, rfl, h⟩

/-- A reader takes `n` bytes at least. -/
def Takes {α : Type} (n : ℕ) (p : Reader α) : Prop :=
  ∀ buffer a rest, p buffer = .ok (a, rest) → rest.length + n ≤ buffer.length

theorem takes_pure {α : Type} (a : α) : Takes 0 (pure a : Reader α) := by
  intro buffer b rest h
  cases h
  exact le_refl _

theorem Takes.bind {α β : Type} {m n : ℕ} {p : Reader α} {k : α → Reader β} (h : Takes m p)
    (hk : ∀ a, Takes n (k a)) : Takes (m + n) (p >>= k) := by
  intro buffer b rest hbind
  obtain ⟨a, inner, hp, hka⟩ := bind_ok hbind
  have hfirst := h buffer a inner hp
  have hnext := hk a inner b rest hka
  omega

theorem takes_varLoop {α : Type} (width : ℕ) (join : α → UInt8 → ℕ → α) (sValue : α)
    (sShift : ℕ) : Takes 1 (varLoop width join sValue sShift) := by
  intro buffer v rest h
  obtain ⟨bs, n, rfl, hform, -⟩ := varLoop_sound h
  have hpos := hform.length_pos
  rw [List.length_append]
  omega

theorem takes_readVarInt (w : ℕ) : Takes 1 (readVarInt w) := takes_varLoop w _ _ _

theorem takes_take (n : ℕ) : Takes n (take n) := by
  intro buffer bs rest h
  unfold take at h
  split_ifs at h with hlt
  cases h
  rw [List.length_drop]
  omega

theorem takes_readTag : Takes 1 readTag := (takes_readVarInt 64).bind fun _ => takes_pure _

theorem Takes.weaken {α : Type} {m n : ℕ} {p : Reader α} (h : Takes n p) (hle : m ≤ n) :
    Takes m p := by
  intro buffer a rest hp
  have htakes := h buffer a rest hp
  omega

theorem takes_readString : Takes 1 readString :=
  (takes_readVarInt 64).bind fun n => (takes_take n.toNat).weaken (Nat.zero_le _)

theorem readString_shorter {buffer s rest : Bytes} (h : readString buffer = .ok (s, rest)) :
    s.length < buffer.length := by
  obtain ⟨n, inner, hsize, htake⟩ := bind_ok h
  have hlen := length_of_take htake
  have htakes := takes_take n.toNat inner s rest htake
  have hbefore := takes_readVarInt 64 buffer n inner hsize
  omega

theorem takes_skip (aField : FieldInfo) : Takes 0 (skip aField) := by
  intro buffer u rest h
  have hnothing {α : Type} {n : ℕ} {p : Reader α} (hp : Takes n p)
      (h : (do let (_, buffer) ← p buffer; return ((), buffer)) = Except.ok (u, rest)) :
      rest.length + 0 ≤ buffer.length := by
    cases hread : p buffer with
    | error e =>
        rw [hread] at h
        cases h
    | ok r =>
        have htakes := hp buffer r.1 r.2 hread
        rw [hread] at h
        cases h
        omega
  rw [skip] at h
  cases hsize : aField.decodeSize with
  | error e =>
      rw [hsize] at h
      cases h
  | ok sSize =>
      rw [hsize] at h
      change ite _ _ _ = _ at h
      split_ifs at h
      · exact hnothing (takes_take sSize) h
      · exact hnothing (takes_readVarInt 64) h
      · exact hnothing takes_readString h

/-! ## The loop of `parse` -/

/-- A callback with a state `σ` of its own, which an exception does not undo. It can only take
bytes from the reader. -/
structure Callback (σ : Type) where
  run : FieldInfo → Bytes → σ → σ × Except Failure (Action × Bytes)
  shrinks : ∀ aField buffer st act rest,
    (run aField buffer st).2 = .ok (act, rest) → rest.length ≤ buffer.length

/-- How a turn of the loop ends: with the bytes that are left, or with the loop. -/
inductive Turn (σ : Type)
  | next (st : σ) (buffer : Bytes)
  | stop (st : σ) (r : Except Failure Bytes)

def act (aField : FieldInfo) {σ : Type} : σ × Except Failure (Action × Bytes) → Turn σ
  | (st, .error e) => .stop st (.error e)
  | (st, .ok (.actUsed, buffer)) => .next st buffer
  | (st, .ok (.actSkip, buffer)) =>
      match skip aField buffer with
      | .error e => .stop st (.error e)
      | .ok (_, buffer) => .next st buffer
  | (st, .ok (.actBreak, buffer)) => .stop st (.ok buffer)

def turn {σ : Type} (aCallback : Callback σ) (buffer : Bytes) (st : σ) : Turn σ :=
  match readTag buffer with
  | .error e => .stop st (.error e)
  | .ok (sField, buffer) => act sField (aCallback.run sField buffer st)

/-- Every turn takes a byte at least, so as many turns as there are bytes are enough. -/
def parseLoop {σ : Type} (aCallback : Callback σ) : ℕ → Bytes → σ → σ × Except Failure Bytes
  | 0, buffer, st => (st, .ok buffer)
  | n + 1, buffer, st =>
      if buffer = [] then (st, .ok [])
      else
        match turn aCallback buffer st with
        | .next st buffer => parseLoop aCallback n buffer st
        | .stop st r => (st, r)

/-- The state of the callback afterwards, and the bytes that are left or an exception. -/
def parse {σ : Type} (aCallback : Callback σ) (buffer : Bytes) (st : σ) :
    σ × Except Failure Bytes := parseLoop aCallback buffer.length buffer st

variable {σ : Type}

def Turn.state : Turn σ → σ
  | .next st _ => st
  | .stop st _ => st

theorem act_state (aField : FieldInfo) (r : σ × Except Failure (Action × Bytes)) :
    (act aField r).state = r.1 := by
  obtain ⟨st, e | ⟨a, buffer⟩⟩ := r
  · rfl
  · cases a with
    | actUsed => rfl
    | actSkip =>
        rw [act]
        cases skip aField buffer <;> rfl
    | actBreak => rfl

theorem act_next {aField : FieldInfo} {r : σ × Except Failure (Action × Bytes)} {st : σ}
    {rest : Bytes} (h : act aField r = .next st rest) :
    ∃ a buffer, r.2 = .ok (a, buffer) ∧ rest.length ≤ buffer.length := by
  obtain ⟨st', e | ⟨a, buffer⟩⟩ := r
  · cases h
  · refine ⟨a, buffer, rfl, ?_⟩
    cases a with
    | actUsed =>
        cases h
        exact le_refl _
    | actSkip =>
        rw [act] at h
        cases hskip : skip aField buffer with
        | error e =>
            rw [hskip] at h
            cases h
        | ok p =>
            have htakes := takes_skip aField buffer p.1 p.2 hskip
            rw [hskip] at h
            cases h
            omega
    | actBreak => cases h

theorem turn_shrinks (aCallback : Callback σ) {buffer rest : Bytes} {st st' : σ}
    (h : turn aCallback buffer st = .next st' rest) : rest.length < buffer.length := by
  rw [turn] at h
  cases htag : readTag buffer with
  | error e =>
      rw [htag] at h
      cases h
  | ok p =>
      rw [htag] at h
      obtain ⟨a, inner, hrun, hle⟩ := act_next h
      have htakes := takes_readTag buffer p.1 p.2 htag
      have hshrinks := aCallback.shrinks p.1 p.2 st a inner hrun
      omega

/-- More fuel changes nothing. -/
theorem parseLoop_of_le (aCallback : Callback σ) {n : ℕ} {buffer : Bytes} {st : σ}
    (hn : buffer.length ≤ n) : parseLoop aCallback n buffer st = parse aCallback buffer st := by
  rw [parse]
  induction n using Nat.strong_induction_on generalizing buffer st with
  | _ n ih =>
      cases buffer with
      | nil => cases n <;> rfl
      | cons b bs =>
          obtain ⟨m, rfl⟩ : ∃ m, n = m + 1 := ⟨n - 1, by rw [List.length_cons] at hn; omega⟩
          rw [List.length_cons] at hn ⊢
          rw [parseLoop, parseLoop, if_neg (by simp), if_neg (by simp)]
          cases hturn : turn aCallback (b :: bs) st with
          | stop st' r => rfl
          | next st' rest =>
              have hshrinks := turn_shrinks aCallback hturn
              rw [List.length_cons] at hshrinks
              change parseLoop aCallback m rest st' = parseLoop aCallback bs.length rest st'
              rw [ih m (by omega) (by omega)]
              by_cases hbs : bs.length = m
              · rw [hbs, ih m (by omega) (by omega)]
              · rw [ih bs.length (by omega) (by omega)]

theorem parse_nil (aCallback : Callback σ) (st : σ) : parse aCallback [] st = (st, .ok []) := rfl

/-- The loop without fuel. -/
theorem parse_of_ne_nil (aCallback : Callback σ) {buffer : Bytes} {st : σ} (h : buffer ≠ []) :
    parse aCallback buffer st =
      match turn aCallback buffer st with
      | .next st buffer => parse aCallback buffer st
      | .stop st r => (st, r) := by
  obtain ⟨b, bs, rfl⟩ := List.exists_cons_of_ne_nil h
  rw [parse, List.length_cons, parseLoop, if_neg (by simp)]
  cases hturn : turn aCallback (b :: bs) st with
  | stop st' r => rfl
  | next st' rest =>
      have hshrinks := turn_shrinks aCallback hturn
      rw [List.length_cons] at hshrinks
      exact parseLoop_of_le aCallback (by omega)

/-- A loop that ends well begins with a tag. -/
theorem parse_ok {aCallback : Callback σ} {buffer rest : Bytes} {st st' : σ} (hne : buffer ≠ [])
    (h : parse aCallback buffer st = (st', .ok rest)) :
    ∃ aField inner, readTag buffer = .ok (aField, inner) ∧
      (match act aField (aCallback.run aField inner st) with
      | .next st buffer => parse aCallback buffer st
      | .stop st r => (st, r)) = (st', .ok rest) := by
  rw [parse_of_ne_nil aCallback hne, turn] at h
  cases htag : readTag buffer with
  | error e =>
      rw [htag] at h
      cases h
  | ok p =>
      rw [htag] at h
      exact ⟨p.1, p.2, rfl, h⟩

/-- Induction on the turns of the loop. -/
theorem parse_induction (aCallback : Callback σ) {motive : Bytes → σ → Prop}
    (nil : ∀ st, motive [] st)
    (step : ∀ buffer st, buffer ≠ [] →
      (∀ st' rest, turn aCallback buffer st = .next st' rest → motive rest st') →
      motive buffer st) (buffer : Bytes) (st : σ) : motive buffer st := by
  induction hlen : buffer.length using Nat.strong_induction_on generalizing buffer st with
  | _ n ih =>
      by_cases hbuffer : buffer = []
      · rw [hbuffer]
        exact nil st
      · refine step buffer st hbuffer fun st' rest hturn => ?_
        exact ih rest.length (hlen ▸ turn_shrinks aCallback hturn) rest st' rfl

/-- What every call preserves holds after the loop. -/
theorem parse_preserves (aCallback : Callback σ) {P : σ → Prop}
    (hcall : ∀ aField buffer st, P st → P (aCallback.run aField buffer st).1)
    (buffer : Bytes) (st : σ) (h : P st) : P (parse aCallback buffer st).1 := by
  induction buffer, st using parse_induction aCallback with
  | nil st => exact h
  | step buffer st hbuffer ih =>
      rw [parse_of_ne_nil aCallback hbuffer]
      cases htag : readTag buffer with
      | error e =>
          rw [turn, htag]
          exact h
      | ok p =>
          have hrun := hcall p.1 p.2 st h
          rw [← act_state p.1] at hrun
          rw [turn, htag] at ih ⊢
          change ∀ st' rest, act p.1 (aCallback.run p.1 p.2 st) = _ → _ at ih
          change P (match act p.1 (aCallback.run p.1 p.2 st) with
            | .next st buffer => parse aCallback buffer st
            | .stop st r => (st, r)).1
          cases hact : act p.1 (aCallback.run p.1 p.2 st) with
          | next st' rest =>
              rw [hact] at hrun
              exact ih st' rest hact hrun
          | stop st' r =>
              rw [hact] at hrun
              exact hrun

/-- Callbacks that agree on what is left behind a tag. -/
theorem parse_congr {aCallback aCallback' : Callback σ} {n : ℕ} (st : σ)
    (hrun : ∀ aField buffer st, buffer.length < n →
      aCallback.run aField buffer st = aCallback'.run aField buffer st)
    {buffer : Bytes} (hn : buffer.length ≤ n) :
    parse aCallback buffer st = parse aCallback' buffer st := by
  induction buffer, st using parse_induction aCallback with
  | nil st => rfl
  | step buffer st hbuffer ih =>
      have hturn : turn aCallback buffer st = turn aCallback' buffer st := by
        rw [turn, turn]
        cases htag : readTag buffer with
        | error e => rfl
        | ok p =>
            have htakes := takes_readTag buffer p.1 p.2 htag
            exact congrArg (act p.1) (hrun p.1 p.2 st (by omega))
      rw [parse_of_ne_nil aCallback hbuffer, parse_of_ne_nil aCallback' hbuffer, ← hturn]
      cases hnext : turn aCallback buffer st with
      | stop st' r => rfl
      | next st' rest =>
          have hshrinks := turn_shrinks aCallback hnext
          exact ih st' rest hnext (by omega)

def Turn.map (g : σ → σ) : Turn σ → Turn σ
  | .next st buffer => .next (g st) buffer
  | .stop st r => .stop (g st) r

theorem act_map (g : σ → σ) (aField : FieldInfo) (r : σ × Except Failure (Action × Bytes)) :
    act aField (g r.1, r.2) = (act aField r).map g := by
  obtain ⟨st, e | ⟨a, inner⟩⟩ := r
  · rfl
  · cases a with
    | actUsed => rfl
    | actSkip =>
        rw [act, act]
        cases skip aField inner <;> rfl
    | actBreak => rfl

/-- A change of the state that every call commutes with. -/
theorem parse_map {aCallback : Callback σ} {g : σ → σ}
    (hrun : ∀ aField buffer st, aCallback.run aField buffer (g st) =
      (g (aCallback.run aField buffer st).1, (aCallback.run aField buffer st).2))
    (buffer : Bytes) (st : σ) : parse aCallback buffer (g st) =
      (g (parse aCallback buffer st).1, (parse aCallback buffer st).2) := by
  induction buffer, st using parse_induction aCallback with
  | nil st => rfl
  | step buffer st hbuffer ih =>
      have hturn : turn aCallback buffer (g st) = (turn aCallback buffer st).map g := by
        rw [turn, turn]
        cases readTag buffer with
        | error e => rfl
        | ok p =>
            dsimp only
            rw [hrun, act_map]
      rw [parse_of_ne_nil aCallback hbuffer, parse_of_ne_nil aCallback hbuffer, hturn]
      cases hnext : turn aCallback buffer st with
      | stop st' r => rfl
      | next st' rest => exact ih st' rest hnext

end Stuff.Protobuf
