import Stuff.MachineWords

/-!
# Decoding UTF-8

`CharDecoder` goes over a text one character at a time. Its iterator holds the text that is
left, the character, and how many bytes of it are still to come; it is at the end when it
equals the iterator of an empty text.
-/
namespace Stuff.Utf8
open MachineWords

def badCharacter : String := "invalid utf-8 character"

def trailSize (c : UInt8) : Except String UInt8 :=
  if c ≤ 0x7F then .ok 0
  else if c ≤ 0xBF then .error badCharacter
  else if c ≤ 0xDF then .ok 1
  else if c ≤ 0xEF then .ok 2
  else if c ≤ 0xF7 then .ok 3
  else .error badCharacter

def checkTrail (c : UInt8) : Except String Unit :=
  if c &&& 0b11000000 ≠ 0b10000000 then .error badCharacter else .ok ()

structure Iterator where
  str : Bytes
  char : UInt32 := 0
  trailSize : UInt8 := 0
  xSize : UInt8 := 0
  eol : Bool := false
deriving DecidableEq, Repr

namespace Iterator

def leadBits (c : UInt8) : UInt32 :=
  if c ≤ 0x7F then c.toUInt32
  else if c ≤ 0xDF then (c &&& 0x1F).toUInt32
  else if c ≤ 0xEF then (c &&& 0x0F).toUInt32
  else if c ≤ 0xF7 then (c &&& 0x07).toUInt32
  else 0

def init (it : Iterator) (c : UInt8) : Except String Iterator := do
  let n ← Utf8.trailSize c
  return { it with char := leadBits c, trailSize := n, xSize := n }

def append (it : Iterator) (c : UInt8) : Except String Iterator := do
  checkTrail c
  return { it with char := it.char <<< 6 ||| (c &&& 0x3F).toUInt32 }

def check (it : Iterator) : Except String Unit :=
  if 0 < it.trailSize ∧ it.char ≤ 0x7F then .error badCharacter
  else if 1 < it.trailSize ∧ it.char ≤ 0x7FF then .error badCharacter
  else if 2 < it.trailSize ∧ it.char ≤ 0xFFFF then .error badCharacter
  else if 0x1FFFFF < it.char then .error badCharacter
  else if 0xD800 ≤ it.char ∧ it.char ≤ 0xDFFF then .error badCharacter
  else .ok ()

/-- A byte of the character, or the first byte of the next one. -/
def consume (it : Iterator) (c : UInt8) : Except String Iterator :=
  if 0 < it.xSize then append { it with xSize := it.xSize - 1 } c else it.init c

/-- The loop of `step`, over the text that is left. -/
def steps : Bytes → Iterator → Except String Iterator
  | [], _ => .error badCharacter
  | c :: str, it => do
      let it ← it.consume c
      if it.xSize = 0 then
        it.check
        return { it with str := str }
      else steps str { it with str := str }

def step (it : Iterator) : Except String Iterator :=
  if it.str = [] then .ok { it with char := 0, eol := true } else steps it.str it

def make (aStr : Bytes) : Except String Iterator := step { str := aStr }

/-- `operator==` -/
def equal (a b : Iterator) : Bool := a.str = b.str && a.char = b.char && a.eol = b.eol

/-- The iterator of the empty text. -/
def ending : Iterator := { str := [], eol := true }

theorem make_nil : make [] = .ok ending := rfl

theorem steps_cons {c : UInt8} {str : Bytes} {it it' : Iterator} :
    steps (c :: str) it = .ok it' ↔ ∃ next, it.consume c = .ok next ∧
      (next.xSize = 0 ∧ next.check = .ok () ∧ it' = { next with str := str } ∨
        next.xSize ≠ 0 ∧ steps str { next with str := str } = .ok it') := by
  rw [steps]
  cases it.consume c with
  | error e => simp [bind, Except.bind]
  | ok next =>
      simp only [bind, Except.bind, Except.ok.injEq, exists_eq_left']
      by_cases hdone : next.xSize = 0
      · cases next.check with
        | error e => simp [hdone]
        | ok u => simp [hdone, pure, Except.pure, eq_comm]
      · simp [hdone]

theorem length_steps {str : Bytes} {it it' : Iterator} (h : steps str it = .ok it') :
    it'.str.length < str.length := by
  induction str generalizing it with
  | nil => cases h
  | cons c str ih =>
      obtain ⟨next, -, ⟨-, -, rfl⟩ | ⟨-, hrest⟩⟩ := steps_cons.mp h
      · exact Nat.lt_succ_self _
      · exact (ih hrest).trans (Nat.lt_succ_self _)

/-- The text becomes shorter, and after it comes the end. -/
def remaining (it : Iterator) : ℕ := 2 * it.str.length + if it.equal ending then 0 else 1

theorem remaining_step {it it' : Iterator} (hne : it.equal ending = false)
    (h : it.step = .ok it') : it'.remaining < it.remaining := by
  unfold step at h
  split_ifs at h with hstr
  · cases h
    have hend : equal { it with char := 0, eol := true } ending = true := by
      simp [equal, ending, hstr]
    unfold remaining
    rw [if_pos hend, hne, if_neg Bool.false_ne_true]
    exact Nat.lt_succ_self _
  · have hlen := length_steps h
    unfold remaining
    split_ifs <;> omega

/-- `for (auto x : CharDecoder(aStr))` from an iterator on: the characters, and the exception
that ends the loop. -/
def run (it : Iterator) : List UInt32 × Option String :=
  if hend : it.equal ending then ([], none)
  else
    match h : it.step with
    | .error e => ([it.char], some e)
    | .ok it' =>
        have : it'.remaining < it.remaining := remaining_step (by simpa using hend) h
        let r := run it'
        (it.char :: r.1, r.2)
termination_by it.remaining

end Iterator

/-- The loop over the characters of a text. -/
def chars (aStr : Bytes) : List UInt32 × Option String :=
  match Iterator.make aStr with
  | .error e => ([], some e)
  | .ok it => it.run

def decode (aStr : Bytes) : Except String UInt32 := do
  let it ← Iterator.make aStr
  if it.equal Iterator.ending then throw "utf8 decode: string is empty"
  let next ← it.step
  if next.equal Iterator.ending then return it.char
  else throw "utf8 decode: not a single character"

def validate (aStr : Bytes) : Except String Unit :=
  match (chars aStr).2 with
  | some e => .error e
  | none => .ok ()

/-- The counter is an `uint32_t`. -/
def length (aStr : Bytes) : Except String UInt32 :=
  match (chars aStr).2 with
  | some e => .error e
  | none => .ok ((chars aStr).1.foldl (fun n _ => n + 1) 0)

/-! ## The encoding -/

/-- One to four bytes, for every number below `2 ^ 21`. -/
def encode (v : ℕ) : Bytes :=
  if v ≤ 0x7f then [UInt8.ofNat v]
  else if v ≤ 0x7ff then [UInt8.ofNat (v / 64 % 0x20 + 0xc0), UInt8.ofNat (v % 0x40 + 0x80)]
  else if v ≤ 0xffff then
    [UInt8.ofNat (v / 4096 % 0x10 + 0xe0), UInt8.ofNat (v / 64 % 0x40 + 0x80),
      UInt8.ofNat (v % 0x40 + 0x80)]
  else
    [UInt8.ofNat (v / 262144 % 0x08 + 0xf0), UInt8.ofNat (v / 4096 % 0x40 + 0x80),
      UInt8.ofNat (v / 64 % 0x40 + 0x80), UInt8.ofNat (v % 0x40 + 0x80)]

/-- The encoding of a Unicode scalar value is the standard one. -/
theorem utf8EncodeChar_eq (c : Char) : String.utf8EncodeChar c = encode c.val.toNat := rfl

/-- The numbers that `check` lets through, in their shortest form. -/
def Allowed (v : ℕ) : Prop := v ≤ 0x1FFFFF ∧ ¬ (0xD800 ≤ v ∧ v ≤ 0xDFFF)

/-! ## One character -/

namespace Iterator

theorem check_iff (it : Iterator) : it.check = .ok () ↔
    (0 < it.trailSize.toNat → 0x7F < it.char.toNat) ∧
    (1 < it.trailSize.toNat → 0x7FF < it.char.toNat) ∧
    (2 < it.trailSize.toNat → 0xFFFF < it.char.toNat) ∧ Allowed it.char.toNat := by
  simp only [check, UInt32.le_iff_toNat_le, UInt32.lt_iff_toNat_lt, UInt8.lt_iff_toNat_lt,
    UInt32.reduceToNat, UInt8.reduceToNat, Allowed]
  split_ifs with h₁ h₂ h₃ h₄ h₅
  · exact iff_of_false (by simp) (by omega)
  · exact iff_of_false (by simp) (by omega)
  · exact iff_of_false (by simp) (by omega)
  · exact iff_of_false (by simp) (by omega)
  · exact iff_of_false (by simp) (by omega)
  · exact iff_of_true rfl (by omega)

/-- A byte of the form `10xxxxxx`. -/
def IsTrail (c : UInt8) : Prop := 0x80 ≤ c.toNat ∧ c.toNat < 0xC0

theorem checkTrail_iff (c : UInt8) : checkTrail c = .ok () ↔ IsTrail c := by
  have hall : ∀ n < 256, checkTrail (UInt8.ofNat n) = .ok () ↔ 0x80 ≤ n ∧ n < 0xC0 := by
    decide +kernel
  have hc := hall c.toNat c.toNat_lt
  rwa [UInt8.ofNat_toNat] at hc

/-- Six more bits. -/
def push (char : UInt32) (c : UInt8) : UInt32 := char <<< 6 ||| (c &&& 0x3F).toUInt32

theorem toNat_push (char : UInt32) (c : UInt8) :
    (push char c).toNat = char.toNat % 2 ^ 26 * 64 + c.toNat % 64 := by
  have hmask : (c &&& 0x3F).toUInt32.toNat = c.toNat % 64 := by
    rw [UInt8.toNat_toUInt32]
    exact Nat.and_two_pow_sub_one_eq_mod _ 6
  rw [push, toNat_shift6_or _ (by omega), hmask]

theorem consume_trail {it next : Iterator} {c : UInt8} (hx : 0 < it.xSize) :
    it.consume c = .ok next ↔
      IsTrail c ∧ next = { it with char := push it.char c, xSize := it.xSize - 1 } := by
  rw [consume, if_pos hx, append, ← checkTrail_iff]
  cases checkTrail c with
  | error e => simp [bind, Except.bind]
  | ok u => simp [bind, Except.bind, pure, Except.pure, push, eq_comm]

theorem toNat_pred {x : UInt8} {n : ℕ} (h : x.toNat = n + 1) : (x - 1).toNat = n := by
  rw [UInt8.toNat_sub_of_le _ _ (UInt8.le_iff_toNat_le.mpr (by rw [h]; exact Nat.succ_pos n)), h]
  rfl

theorem eq_zero_iff {x : UInt8} : x = 0 ↔ x.toNat = 0 := by
  rw [← UInt8.toNat_inj, UInt8.toNat_zero]

/-- The bytes that were still to come complete the character, which has passed the check. -/
theorem trail_of_steps {n : ℕ} {it it' : Iterator} {str : Bytes} (hn : it.xSize.toNat = n + 1)
    (h : steps str it = .ok it') :
    ∃ ts, ts.length = n + 1 ∧ (∀ b ∈ ts, IsTrail b) ∧ str = ts ++ it'.str ∧
      it' = { it with str := it'.str, char := ts.foldl push it.char, xSize := 0 } ∧
      it'.check = .ok () := by
  induction str generalizing n it with
  | nil => cases h
  | cons c str ih =>
      have hpos : 0 < it.xSize := UInt8.lt_iff_toNat_lt.mpr (by rw [hn]; exact Nat.succ_pos n)
      have hpred := toNat_pred hn
      obtain ⟨next, hc, hnext⟩ := steps_cons.mp h
      obtain ⟨htrail, rfl⟩ := (consume_trail hpos).mp hc
      obtain ⟨hzero, hcheck, rfl⟩ | ⟨hne, hrest⟩ := hnext
      · have hx : it.xSize - 1 = 0 := hzero
        obtain rfl : n = 0 := by rw [← hpred, hx, UInt8.toNat_zero]
        refine ⟨[c], rfl, by simpa using htrail, rfl, ?_, hcheck⟩
        rw [hx]
        rfl
      · obtain ⟨m, rfl⟩ : ∃ m, n = m + 1 := by
          refine ⟨n - 1, ?_⟩
          have hn₀ : n ≠ 0 := fun hzero => hne (eq_zero_iff.mpr (hpred.trans hzero))
          omega
        obtain ⟨ts, hlen, hts, hstr, heq, hcheck⟩ := ih (by exact hpred) hrest
        refine ⟨c :: ts, by rw [List.length_cons, hlen], ?_, by rw [hstr]; rfl, ?_, hcheck⟩
        · intro b hb
          obtain rfl | hb := List.mem_cons.mp hb
          · exact htrail
          · exact hts b hb
        · rw [heq]
          rfl

theorem steps_of_trail {it : Iterator} {ts : Bytes} (hts : ∀ b ∈ ts, IsTrail b) (hne : ts ≠ [])
    (hn : it.xSize.toNat = ts.length)
    (hcheck : check { it with char := ts.foldl push it.char } = .ok ()) (rest : Bytes) :
    steps (ts ++ rest) it =
      .ok { it with str := rest, char := ts.foldl push it.char, xSize := 0 } := by
  induction ts generalizing it with
  | nil => exact absurd rfl hne
  | cons c ts ih =>
      have hpos : 0 < it.xSize := UInt8.lt_iff_toNat_lt.mpr (by rw [hn]; exact Nat.succ_pos _)
      have hpred := toNat_pred hn
      have hc : it.consume c = .ok { it with char := push it.char c, xSize := it.xSize - 1 } :=
        (consume_trail hpos).mpr ⟨hts c List.mem_cons_self, rfl⟩
      refine steps_cons.mpr ⟨_, hc, ?_⟩
      cases ts with
      | nil =>
          have hx : it.xSize - 1 = 0 := eq_zero_iff.mpr hpred
          refine .inl ⟨hx, hcheck, ?_⟩
          simp [hx]
      | cons d ts =>
          refine .inr ⟨fun hzero => ?_, ?_⟩
          · rw [eq_zero_iff, hpred] at hzero
            cases hzero
          · rw [List.foldl_cons] at hcheck ⊢
            exact ih (fun b hb => hts b (List.mem_cons_of_mem c hb)) (List.cons_ne_nil d ts)
              (by exact hpred) (by exact hcheck)

/-- The first byte of a character with `n` more bytes, and the bits that it brings. -/
inductive Lead (c : ℕ) : ℕ → ℕ → Prop
  | one : c ≤ 0x7F → Lead c 0 c
  | two : 0xC0 ≤ c → c ≤ 0xDF → Lead c 1 (c % 0x20)
  | three : 0xE0 ≤ c → c ≤ 0xEF → Lead c 2 (c % 0x10)
  | four : 0xF0 ≤ c → c ≤ 0xF7 → Lead c 3 (c % 0x08)

theorem toUInt32_mask {c mask : UInt8} {k : ℕ} (hmask : mask.toNat = 2 ^ k - 1) :
    (c &&& mask).toUInt32 = UInt32.ofNat (c.toNat % 2 ^ k) := by
  have hlt : c.toNat % 2 ^ k ≤ c.toNat := Nat.mod_le _ _
  have hc := c.toNat_lt
  rw [← UInt32.toNat_inj, UInt8.toNat_toUInt32, UInt8.toNat_and, hmask,
    Nat.and_two_pow_sub_one_eq_mod, UInt32.toNat_ofNat']
  exact (Nat.mod_eq_of_lt (by omega)).symm

theorem Lead.eq {c : UInt8} {n bits : ℕ} (h : Lead c.toNat n bits) :
    Utf8.trailSize c = .ok (UInt8.ofNat n) ∧ leadBits c = UInt32.ofNat bits := by
  simp only [Utf8.trailSize, leadBits, UInt8.le_iff_toNat_le, UInt8.reduceToNat]
  cases h with
  | one h =>
      rw [if_pos h, if_pos h]
      exact ⟨rfl, UInt32.toNat_inj.mp (by simp)⟩
  | two h₁ h₂ =>
      rw [if_neg (by omega), if_neg (by omega), if_pos h₂, if_neg (by omega), if_pos h₂]
      exact ⟨rfl, toUInt32_mask (k := 5) rfl⟩
  | three h₁ h₂ =>
      rw [if_neg (by omega), if_neg (by omega), if_neg (by omega), if_pos h₂, if_neg (by omega),
        if_neg (by omega), if_pos h₂]
      exact ⟨rfl, toUInt32_mask (k := 4) rfl⟩
  | four h₁ h₂ =>
      rw [if_neg (by omega), if_neg (by omega), if_neg (by omega), if_neg (by omega), if_pos h₂,
        if_neg (by omega), if_neg (by omega), if_neg (by omega), if_pos h₂]
      exact ⟨rfl, toUInt32_mask (k := 3) rfl⟩

theorem lead_of_trailSize {c m : UInt8} (h : Utf8.trailSize c = .ok m) :
    ∃ n bits, Lead c.toNat n bits := by
  simp only [Utf8.trailSize, UInt8.le_iff_toNat_le, UInt8.reduceToNat] at h
  split_ifs at h with h₁ h₂ h₃ h₄ h₅
  · exact ⟨_, _, .one h₁⟩
  · exact ⟨_, _, .two (by omega) h₃⟩
  · exact ⟨_, _, .three (by omega) h₄⟩
  · exact ⟨_, _, .four (by omega) h₅⟩

/-- With the first byte of a character. -/
def started (it : Iterator) (n bits : ℕ) : Iterator :=
  { it with char := UInt32.ofNat bits, trailSize := UInt8.ofNat n, xSize := UInt8.ofNat n }

theorem consume_lead {it next : Iterator} {c : UInt8} (hx : it.xSize = 0) :
    it.consume c = .ok next ↔ ∃ n bits, Lead c.toNat n bits ∧ next = started it n bits := by
  have hx' : ¬ 0 < it.xSize := by
    rw [hx]
    decide
  rw [consume, if_neg hx', init]
  constructor
  · intro h
    cases htrail : Utf8.trailSize c with
    | error e =>
        rw [htrail] at h
        cases h
    | ok m =>
        obtain ⟨n, bits, hlead⟩ := lead_of_trailSize htrail
        rw [hlead.eq.1, hlead.eq.2] at h
        cases h
        exact ⟨n, bits, hlead, rfl⟩
  · rintro ⟨n, bits, hlead, rfl⟩
    rw [hlead.eq.1, hlead.eq.2]
    rfl

/-- The number that the bytes behind the first one complete. -/
def collect (bits : ℕ) (ts : Bytes) : ℕ := ts.foldl (fun v b => v * 64 + b.toNat % 64) bits

theorem foldl_push {char : UInt32} {ts : Bytes} (h : (char.toNat + 1) * 64 ^ ts.length ≤ 2 ^ 32) :
    (ts.foldl push char).toNat = collect char.toNat ts := by
  induction ts generalizing char with
  | nil => rfl
  | cons b ts ih =>
      have hpush := toNat_push char b
      have hpow : 1 ≤ 64 ^ ts.length := Nat.one_le_pow _ _ (by decide)
      have hsmall : (char.toNat + 1) * 64 ≤ 2 ^ 32 := by
        calc (char.toNat + 1) * 64 ≤ (char.toNat + 1) * 64 * 64 ^ ts.length :=
              Nat.le_mul_of_pos_right _ hpow
          _ = (char.toNat + 1) * 64 ^ (ts.length + 1) := by rw [Nat.pow_succ', Nat.mul_assoc]
          _ ≤ 2 ^ 32 := h
      rw [Nat.mod_eq_of_lt (by omega)] at hpush
      have hnext : ((push char b).toNat + 1) * 64 ^ ts.length ≤ 2 ^ 32 := by
        calc ((push char b).toNat + 1) * 64 ^ ts.length
            ≤ (char.toNat + 1) * 64 * 64 ^ ts.length := Nat.mul_le_mul_right _ (by omega)
          _ = (char.toNat + 1) * 64 ^ (ts.length + 1) := by rw [Nat.pow_succ', Nat.mul_assoc]
          _ ≤ 2 ^ 32 := h
      rw [List.foldl_cons, ih hnext, hpush]
      rfl

theorem push_div (x : ℕ) (b : UInt8) : (x * 64 + b.toNat % 64) / 64 = x := by omega

theorem ofNat_push {b : UInt8} (hb : IsTrail b) (x : ℕ) :
    UInt8.ofNat ((x * 64 + b.toNat % 64) % 0x40 + 0x80) = b := by
  obtain ⟨hlow, hhigh⟩ := hb
  rw [← UInt8.toNat_inj, UInt8.toNat_ofNat']
  omega

theorem div_4096 (v : ℕ) : v / 4096 = v / 64 / 64 := by omega

theorem div_262144 (v : ℕ) : v / 262144 = v / 64 / 64 / 64 := by omega

theorem encode_collect {c : UInt8} {n bits : ℕ} (h : Lead c.toNat n bits) {ts : Bytes}
    (hlen : ts.length = n) (hts : ∀ b ∈ ts, IsTrail b) (h₀ : 0 < n → 0x7F < collect bits ts)
    (h₁ : 1 < n → 0x7FF < collect bits ts) (h₂ : 2 < n → 0xFFFF < collect bits ts) :
    encode (collect bits ts) = c :: ts := by
  cases h with
  | one h =>
      obtain rfl := List.eq_nil_of_length_eq_zero hlen
      rw [collect, List.foldl_nil, encode, if_pos h, UInt8.ofNat_toNat]
  | two hlow hhigh =>
      obtain ⟨b, rfl⟩ := List.length_eq_one_iff.mp hlen
      simp only [List.forall_mem_singleton] at hts
      simp only [collect, List.foldl_cons, List.foldl_nil] at h₀ ⊢
      have hc : UInt8.ofNat (c.toNat % 0x20 % 0x20 + 0xc0) = c := by
        rw [← UInt8.toNat_inj, UInt8.toNat_ofNat']
        omega
      rw [encode, if_neg (by omega), if_pos (by omega), push_div, ofNat_push hts, hc]
  | three hlow hhigh =>
      obtain ⟨b₁, b₂, rfl⟩ := List.length_eq_two.mp hlen
      simp only [List.forall_mem_cons] at hts
      simp only [collect, List.foldl_cons, List.foldl_nil] at h₁ ⊢
      have hc : UInt8.ofNat (c.toNat % 0x10 % 0x10 + 0xe0) = c := by
        rw [← UInt8.toNat_inj, UInt8.toNat_ofNat']
        omega
      rw [encode, if_neg (by omega), if_neg (by omega), if_pos (by omega), div_4096, push_div,
        push_div, ofNat_push hts.1, ofNat_push hts.2.1, hc]
  | four hlow hhigh =>
      obtain ⟨b₁, b₂, b₃, rfl⟩ := List.length_eq_three.mp hlen
      simp only [List.forall_mem_cons] at hts
      simp only [collect, List.foldl_cons, List.foldl_nil] at h₂ ⊢
      have hc : UInt8.ofNat (c.toNat % 0x08 % 0x08 + 0xf0) = c := by
        rw [← UInt8.toNat_inj, UInt8.toNat_ofNat']
        omega
      rw [encode, if_neg (by omega), if_neg (by omega), if_neg (by omega), div_262144, div_4096,
        push_div, push_div, push_div, ofNat_push hts.1, ofNat_push hts.2.1, ofNat_push hts.2.2.1,
        hc]

/-- The first byte and the others of an encoding, which stand for the number. -/
theorem encode_split {v : ℕ} (hv : v ≤ 0x1FFFFF) :
    ∃ c n bits ts, encode v = c :: ts ∧ Lead c.toNat n bits ∧ ts.length = n ∧
      (∀ b ∈ ts, IsTrail b) ∧ collect bits ts = v ∧ (0 < n → 0x7F < v) ∧ (1 < n → 0x7FF < v) ∧
      (2 < n → 0xFFFF < v) := by
  have htrail : ∀ w, IsTrail (UInt8.ofNat (w % 0x40 + 0x80)) := by
    intro w
    rw [IsTrail, UInt8.toNat_ofNat']
    omega
  have hdigit : ∀ w, (UInt8.ofNat (w % 0x40 + 0x80)).toNat % 64 = w % 64 := by
    intro w
    rw [UInt8.toNat_ofNat']
    omega
  unfold encode
  split_ifs with h₁ h₂ h₃
  · have hc : (UInt8.ofNat v).toNat = v := by
      rw [UInt8.toNat_ofNat']
      omega
    refine ⟨_, 0, v, [], rfl, ?_, rfl, by simp, rfl, by omega, by omega, by omega⟩
    rw [hc]
    exact .one h₁
  · have hc : (UInt8.ofNat (v / 64 % 0x20 + 0xc0)).toNat = v / 64 + 0xc0 := by
      rw [UInt8.toNat_ofNat']
      omega
    have hlead := Lead.two (c := v / 64 + 0xc0) (by omega) (by omega)
    rw [← hc] at hlead
    refine ⟨_, 1, _, _, rfl, hlead, rfl, by simpa using htrail v, ?_, by omega, by omega, by omega⟩
    have hbits : (v / 64 + 0xc0) % 0x20 = v / 64 := by omega
    rw [hc, hbits]
    simp only [collect, List.foldl_cons, List.foldl_nil, hdigit]
    rw [Nat.div_add_mod']
  · have hc : (UInt8.ofNat (v / 4096 % 0x10 + 0xe0)).toNat = v / 4096 + 0xe0 := by
      rw [UInt8.toNat_ofNat']
      omega
    have hlead := Lead.three (c := v / 4096 + 0xe0) (by omega) (by omega)
    rw [← hc] at hlead
    refine ⟨_, 2, _, _, rfl, hlead, rfl, ?_, ?_, by omega, by omega, by omega⟩
    · simp only [List.forall_mem_cons]
      exact ⟨htrail _, htrail _, by simp⟩
    · have hbits : (v / 4096 + 0xe0) % 0x10 = v / 64 / 64 := by omega
      rw [hc, hbits]
      simp only [collect, List.foldl_cons, List.foldl_nil, hdigit]
      rw [Nat.div_add_mod', Nat.div_add_mod']
  · have hc : (UInt8.ofNat (v / 262144 % 0x08 + 0xf0)).toNat = v / 262144 + 0xf0 := by
      rw [UInt8.toNat_ofNat']
      omega
    have hlead := Lead.four (c := v / 262144 + 0xf0) (by omega) (by omega)
    rw [← hc] at hlead
    refine ⟨_, 3, _, _, rfl, hlead, rfl, ?_, ?_, by omega, by omega, by omega⟩
    · simp only [List.forall_mem_cons]
      exact ⟨htrail _, htrail _, htrail _, by simp⟩
    · have hbits : (v / 262144 + 0xf0) % 0x08 = v / 64 / 64 / 64 := by omega
      rw [hc, hbits]
      simp only [collect, List.foldl_cons, List.foldl_nil, hdigit]
      rw [div_4096, Nat.div_add_mod', Nat.div_add_mod', Nat.div_add_mod']

theorem Lead.lt {c n bits : ℕ} (h : Lead c n bits) : n ≤ 3 ∧ bits < 128 ∧ (0 < n → bits < 32) := by
  cases h <;> omega

theorem toNat_collected {c : UInt8} {n bits : ℕ} (h : Lead c.toNat n bits) {ts : Bytes}
    (hlen : ts.length = n) : (ts.foldl push (UInt32.ofNat bits)).toNat = collect bits ts := by
  obtain ⟨hn, hbits, hsmall⟩ := h.lt
  have hof : (UInt32.ofNat bits).toNat = bits := by
    rw [UInt32.toNat_ofNat']
    omega
  have hpow : 64 ^ ts.length ≤ 64 ^ 3 := Nat.pow_le_pow_right (by decide) (by omega)
  have hroom : ((UInt32.ofNat bits).toNat + 1) * 64 ^ ts.length ≤ 2 ^ 32 := by
    rw [hof]
    calc (bits + 1) * 64 ^ ts.length ≤ 128 * 64 ^ 3 := Nat.mul_le_mul hbits hpow
      _ ≤ 2 ^ 32 := by decide
  rw [foldl_push hroom, hof]

/-- At a character, with the text behind it. -/
structure At (it : Iterator) (v : ℕ) (rest : Bytes) : Prop where
  str : it.str = rest
  char : it.char = UInt32.ofNat v
  xSize : it.xSize = 0
  eol : it.eol = false

/-- Between two characters. -/
def Between (it : Iterator) : Prop := it.xSize = 0 ∧ it.eol = false

theorem At.between {it : Iterator} {v : ℕ} {rest : Bytes} (h : At it v rest) : it.Between :=
  ⟨h.xSize, h.eol⟩

theorem toNat_trail {n : ℕ} (hn : n ≤ 3) : (UInt8.ofNat n).toNat = n := by
  rw [UInt8.toNat_ofNat']
  omega

theorem toNat_allowed {v : ℕ} (h : Allowed v) : (UInt32.ofNat v).toNat = v := by
  have hle := h.1
  rw [UInt32.toNat_ofNat']
  omega

/-- An encoding is read as its number. -/
theorem steps_encode {it : Iterator} (hit : it.Between) {v : ℕ} (hv : Allowed v) (rest : Bytes) :
    ∃ it', steps (encode v ++ rest) it = .ok it' ∧ At it' v rest := by
  obtain ⟨c, n, bits, ts, hcode, hlead, hlen, hts, hcollect, h₀, h₁, h₂⟩ := encode_split hv.1
  have hn := toNat_trail hlead.lt.1
  have hfold : ts.foldl push (UInt32.ofNat bits) = UInt32.ofNat v := by
    rw [← UInt32.toNat_inj, toNat_collected hlead hlen, hcollect, toNat_allowed hv]
  have hconsume := (consume_lead hit.1).mpr ⟨n, bits, hlead, rfl⟩
  have hcheck : check { started it n bits with char := UInt32.ofNat v } = .ok () := by
    rw [check_iff]
    simp only [started, hn, toNat_allowed hv]
    exact ⟨h₀, h₁, h₂, hv⟩
  rw [hcode, List.cons_append]
  by_cases hzero : n = 0
  · subst hzero
    obtain rfl := List.eq_nil_of_length_eq_zero hlen
    have hbits : UInt32.ofNat bits = UInt32.ofNat v := hfold
    refine ⟨{ started it 0 bits with str := rest }, ?_, rfl, hbits, rfl, hit.2⟩
    refine steps_cons.mpr ⟨_, hconsume, .inl ⟨rfl, ?_, rfl⟩⟩
    rwa [← hbits] at hcheck
  · have hne : ts ≠ [] := by
      rintro rfl
      exact hzero hlen.symm
    rw [← hfold] at hcheck
    have hsteps : steps (ts ++ rest) { started it n bits with str := ts ++ rest } =
        .ok { started it n bits with
          str := rest, char := ts.foldl push (UInt32.ofNat bits), xSize := 0 } :=
      steps_of_trail hts hne (by exact hn.trans hlen.symm) (by exact hcheck) rest
    refine ⟨_, steps_cons.mpr ⟨_, hconsume, .inr ⟨?_, hsteps⟩⟩, rfl, hfold, rfl, hit.2⟩
    intro hx
    rw [eq_zero_iff] at hx
    exact hzero (hn.symm.trans hx)

/-- Only an encoding of a number that `check` lets through is read. -/
theorem encode_of_steps {it it' : Iterator} (hit : it.Between) {str : Bytes}
    (h : steps str it = .ok it') :
    ∃ v, Allowed v ∧ str = encode v ++ it'.str ∧ At it' v it'.str := by
  cases str with
  | nil => cases h
  | cons c str =>
      obtain ⟨next, hc, hnext⟩ := steps_cons.mp h
      obtain ⟨n, bits, hlead, rfl⟩ := (consume_lead hit.1).mp hc
      have hn := toNat_trail hlead.lt.1
      -- the bytes behind the first one, and what the check has seen
      obtain ⟨ts, hlen, hts, hstr, heq, hcheck⟩ : ∃ ts, ts.length = n ∧ (∀ b ∈ ts, IsTrail b) ∧
          str = ts ++ it'.str ∧
          it' = { started it n bits with
            str := it'.str, char := ts.foldl push (UInt32.ofNat bits), xSize := 0 } ∧
          it'.check = .ok () := by
        obtain ⟨hzero, hcheck, rfl⟩ | ⟨hne, hrest⟩ := hnext
        · have hn₀ : n = 0 := hn.symm.trans (eq_zero_iff.mp hzero)
          subst hn₀
          exact ⟨[], rfl, by simp, rfl, rfl, hcheck⟩
        · obtain ⟨m, rfl⟩ : ∃ m, n = m + 1 := by
            refine ⟨n - 1, ?_⟩
            have hn₀ : n ≠ 0 := fun hzero => hne (eq_zero_iff.mpr (hn.trans hzero))
            omega
          exact trail_of_steps (by exact hn) hrest
      have hchar : it'.char.toNat = collect bits ts := by
        rw [heq]
        exact toNat_collected hlead hlen
      have htrail : it'.trailSize.toNat = n := by
        rw [heq]
        exact hn
      rw [check_iff, hchar, htrail] at hcheck
      obtain ⟨h₀, h₁, h₂, hallowed⟩ := hcheck
      refine ⟨collect bits ts, hallowed, ?_, rfl, ?_, ?_, ?_⟩
      · rw [encode_collect hlead hlen hts h₀ h₁ h₂, List.cons_append, ← hstr]
      · rw [← UInt32.toNat_inj, hchar, toNat_allowed hallowed]
      · rw [heq]
      · rw [heq]
        exact hit.2

/-! ## All characters -/

theorem At.not_ending {it : Iterator} {v : ℕ} {rest : Bytes} (h : At it v rest) :
    it.equal ending = false := by
  simp [equal, ending, h.eol]

theorem run_ending {it : Iterator} (h : it.equal ending = true) : it.run = ([], none) := by
  rw [run, dif_pos h]

theorem run_ok {it it' : Iterator} (hne : it.equal ending = false) (h : it.step = .ok it') :
    it.run = (it.char :: it'.run.1, it'.run.2) := by
  rw [run, dif_neg (by simp [hne])]
  split
  · rename_i heq
    rw [h] at heq
    cases heq
  · rename_i heq
    rw [h] at heq
    cases heq
    rfl

theorem run_error {it : Iterator} {e : String} (hne : it.equal ending = false)
    (h : it.step = .error e) : it.run = ([it.char], some e) := by
  rw [run, dif_neg (by simp [hne])]
  split
  · rename_i heq
    rw [h] at heq
    cases heq
    rfl
  · rename_i heq
    rw [h] at heq
    cases heq

theorem encode_ne_nil (v : ℕ) (rest : Bytes) : encode v ++ rest ≠ [] := by
  unfold encode
  split_ifs <;> exact List.cons_ne_nil _ _

theorem step_of_ne_nil {it : Iterator} (h : it.str ≠ []) : it.step = steps it.str it := by
  rw [step, if_neg h]

theorem run_nil {it : Iterator} {v : ℕ} (h : At it v []) : it.run = ([it.char], none) := by
  have hstep : it.step = .ok { it with char := 0, eol := true } := by rw [step, if_pos h.str]
  rw [run_ok h.not_ending hstep, run_ending (by simp [equal, ending, h.str])]

theorem run_encode {it : Iterator} {v : ℕ} {vs : List ℕ} (hvs : ∀ w ∈ vs, Allowed w)
    (h : At it v (vs.flatMap encode)) : it.run = ((v :: vs).map UInt32.ofNat, none) := by
  induction vs generalizing it v with
  | nil =>
      rw [run_nil h, h.char]
      rfl
  | cons w vs ih =>
      have hne : it.str ≠ [] := by
        rw [h.str, List.flatMap_cons]
        exact encode_ne_nil _ _
      obtain ⟨it', hsteps, hat⟩ := steps_encode h.between (hvs w List.mem_cons_self)
        (vs.flatMap encode)
      rw [← List.flatMap_cons, ← h.str, ← step_of_ne_nil hne] at hsteps
      have hrest := ih (fun x hx => hvs x (List.mem_cons_of_mem w hx)) hat
      rw [run_ok h.not_ending hsteps, hrest, h.char]
      rfl

/-- A loop that no exception ends has gone over encodings only. -/
theorem encode_of_run (n : ℕ) {it : Iterator} {v : ℕ} {rest : Bytes} (hn : rest.length = n)
    (h : At it v rest) (hrun : it.run.2 = none) :
    ∃ vs : List ℕ, (∀ w ∈ vs, Allowed w) ∧ rest = vs.flatMap encode := by
  induction n using Nat.strong_induction_on generalizing it v rest with
  | _ n ih =>
      by_cases hrest : rest = []
      · exact ⟨[], by simp, hrest⟩
      · have hstep : it.step = steps rest it := by
          rw [← h.str] at hrest ⊢
          exact step_of_ne_nil hrest
        cases hsteps : steps rest it with
        | error e =>
            rw [run_error h.not_ending (hstep.trans hsteps)] at hrun
            cases hrun
        | ok it' =>
            rw [run_ok h.not_ending (hstep.trans hsteps)] at hrun
            obtain ⟨w, hw, hsplit, hat⟩ := encode_of_steps h.between hsteps
            have hlt : it'.str.length < n := hn ▸ length_steps hsteps
            obtain ⟨vs, hvs, htail⟩ := ih _ hlt rfl hat hrun
            refine ⟨w :: vs, ?_, ?_⟩
            · intro x hx
              obtain rfl | hx := List.mem_cons.mp hx
              · exact hw
              · exact hvs x hx
            · rw [hsplit, List.flatMap_cons, ← htail]

end Iterator

open Iterator

/-- Encodings are decoded to their numbers. -/
theorem chars_encode {vs : List ℕ} (hvs : ∀ v ∈ vs, Allowed v) :
    chars (vs.flatMap encode) = (vs.map UInt32.ofNat, none) := by
  cases vs with
  | nil =>
      rw [chars, List.flatMap_nil, make_nil]
      exact run_ending rfl
  | cons v vs =>
      have hbetween : Between { str := (v :: vs).flatMap encode } := ⟨rfl, rfl⟩
      obtain ⟨it, hsteps, hat⟩ := steps_encode hbetween (hvs v List.mem_cons_self)
        (vs.flatMap encode)
      rw [← List.flatMap_cons] at hsteps
      have hmake : make ((v :: vs).flatMap encode) = .ok it :=
        (step_of_ne_nil (encode_ne_nil v _)).trans hsteps
      rw [chars, hmake]
      exact run_encode (fun w hw => hvs w (List.mem_cons_of_mem v hw)) hat

/-- Only encodings are gone over without an exception. -/
theorem encode_of_chars {aStr : Bytes} (h : (chars aStr).2 = none) :
    ∃ vs : List ℕ, (∀ v ∈ vs, Allowed v) ∧ aStr = vs.flatMap encode := by
  by_cases hnil : aStr = []
  · exact ⟨[], by simp, hnil⟩
  · have hmake : make aStr = steps aStr { str := aStr } := step_of_ne_nil hnil
    cases hsteps : steps aStr { str := aStr } with
    | error e =>
        rw [chars, hmake, hsteps] at h
        cases h
    | ok it =>
        rw [chars, hmake, hsteps] at h
        have hbetween : Between { str := aStr } := ⟨rfl, rfl⟩
        obtain ⟨v, hv, hsplit, hat⟩ := encode_of_steps hbetween hsteps
        obtain ⟨vs, hvs, hrest⟩ := encode_of_run _ rfl hat h
        refine ⟨v :: vs, ?_, ?_⟩
        · intro w hw
          obtain rfl | hw := List.mem_cons.mp hw
          · exact hv
          · exact hvs w hw
        · rw [hsplit, List.flatMap_cons, ← hrest]

theorem validate_iff (aStr : Bytes) : validate aStr = .ok () ↔
    ∃ vs : List ℕ, (∀ v ∈ vs, Allowed v) ∧ aStr = vs.flatMap encode := by
  constructor
  · intro h
    apply encode_of_chars
    unfold validate at h
    split at h
    · cases h
    · assumption
  · rintro ⟨vs, hvs, rfl⟩
    rw [validate, chars_encode hvs]

theorem foldl_count (cs : List UInt32) (n : UInt32) :
    cs.foldl (fun n _ => n + 1) n = n + UInt32.ofNat cs.length := by
  induction cs generalizing n with
  | nil => simp
  | cons c cs ih =>
      rw [List.foldl_cons, ih, List.length_cons, UInt32.ofNat_add, add_assoc, add_comm 1]
      rfl

/-! ## Unicode scalar values -/

/-- The standard encoding of a text. -/
def utf8 (cs : List Char) : Bytes := cs.flatMap String.utf8EncodeChar

theorem utf8_eq (cs : List Char) : utf8 cs = (cs.map fun c => c.val.toNat).flatMap encode := by
  rw [List.flatMap_map]
  rfl

theorem allowed_char (c : Char) : Allowed c.val.toNat := by
  have hvalid : c.val.toNat < 0xd800 ∨ 0xdfff < c.val.toNat ∧ c.val.toNat < 0x110000 := c.valid
  unfold Allowed
  omega

theorem map_val (cs : List Char) :
    (cs.map fun c => c.val.toNat).map UInt32.ofNat = cs.map Char.val := by
  rw [List.map_map]
  exact List.map_congr_left fun c _ => UInt32.ofNat_toNat

theorem chars_utf8 (cs : List Char) : chars (utf8 cs) = (cs.map Char.val, none) := by
  rw [utf8_eq, chars_encode, map_val]
  intro v hv
  obtain ⟨c, -, rfl⟩ := List.mem_map.mp hv
  exact allowed_char c

/-- Going over the encoding of a text gives its characters, without an exception, and `Length`
counts them as far as an `uint32_t` can. -/
theorem iterate_utf8 (cs : List Char) :
    chars (utf8 cs) = (cs.map Char.val, none) ∧
      ∃ n, length (utf8 cs) = .ok n ∧ n.toNat = cs.length % 2 ^ 32 := by
  refine ⟨chars_utf8 cs, UInt32.ofNat cs.length, ?_, UInt32.toNat_ofNat'⟩
  rw [length, chars_utf8]
  change Except.ok ((cs.map Char.val).foldl (fun n _ => n + 1) 0) = _
  rw [foldl_count, List.length_map, zero_add]

/-- The encoding, in the scheme of up to four bytes, of a sequence with a number above
`0x10FFFF`. -/
def BeyondUnicode (aStr : Bytes) : Prop :=
  ∃ vs : List ℕ, (∀ v ∈ vs, Allowed v) ∧ (∃ v ∈ vs, 0x10FFFF < v) ∧ aStr = vs.flatMap encode

theorem isScalar {v : ℕ} (hv : Allowed v) (hle : v ≤ 0x10FFFF) : ∃ c : Char, c.val.toNat = v := by
  have hval := toNat_allowed hv
  have hvalid : (UInt32.ofNat v).isValidChar := by
    unfold Allowed at hv
    unfold UInt32.isValidChar Nat.isValidChar
    omega
  exact ⟨⟨UInt32.ofNat v, hvalid⟩, hval⟩

theorem utf8_of_scalars {vs : List ℕ} (hvs : ∀ v ∈ vs, Allowed v) (hle : ∀ v ∈ vs, v ≤ 0x10FFFF) :
    ∃ cs, vs.flatMap encode = utf8 cs := by
  induction vs with
  | nil => exact ⟨[], rfl⟩
  | cons v vs ih =>
      obtain ⟨c, hc⟩ := isScalar (hvs v List.mem_cons_self) (hle v List.mem_cons_self)
      obtain ⟨cs, hcs⟩ := ih (fun w hw => hvs w (List.mem_cons_of_mem v hw))
        (fun w hw => hle w (List.mem_cons_of_mem v hw))
      refine ⟨c :: cs, ?_⟩
      rw [List.flatMap_cons, hcs, ← hc]
      rfl

theorem BeyondUnicode.not_utf8 {aStr : Bytes} (h : BeyondUnicode aStr) (cs : List Char) :
    aStr ≠ utf8 cs := by
  obtain ⟨vs, hvs, ⟨v, hv, hlarge⟩, rfl⟩ := h
  intro heq
  have hchars := chars_encode hvs
  rw [heq, chars_utf8] at hchars
  have hmem : UInt32.ofNat v ∈ vs.map UInt32.ofNat := List.mem_map_of_mem hv
  rw [← (Prod.mk.inj hchars).1] at hmem
  obtain ⟨c, -, hc⟩ := List.mem_map.mp hmem
  have hval : c.val.toNat = v := by rw [hc, toNat_allowed (hvs v hv)]
  have hvalid : c.val.toNat < 0xd800 ∨ 0xdfff < c.val.toNat ∧ c.val.toNat < 0x110000 := c.valid
  omega

/-- What `Validate` lets through is the encoding of a text unless it encodes, in the same
scheme, a number above `0x10FFFF`: the check compares with `0x1FFFFF`. -/
theorem validate_sound_iff (aStr : Bytes) :
    (validate aStr = .ok () → ∃ cs, aStr = utf8 cs) ↔ ¬ BeyondUnicode aStr := by
  constructor
  · intro h hbeyond
    have hnot := hbeyond.not_utf8
    obtain ⟨vs, hvs, -, heq⟩ := hbeyond
    obtain ⟨cs, hcs⟩ := h ((validate_iff aStr).mpr ⟨vs, hvs, heq⟩)
    exact hnot cs hcs
  · intro h hvalid
    obtain ⟨vs, hvs, rfl⟩ := (validate_iff aStr).mp hvalid
    apply utf8_of_scalars hvs
    intro v hv
    by_contra hlarge
    exact h ⟨vs, hvs, ⟨v, hv, not_le.mp hlarge⟩, rfl⟩

/-- `F4 90 80 80`, which would be the number `0x110000`. -/
theorem validate_beyond_unicode :
    ¬ ∀ aStr, validate aStr = .ok () → ∃ cs, aStr = utf8 cs := by
  intro h
  have hallowed : ∀ v ∈ [0x110000], Allowed v := by
    intro v hv
    obtain rfl := List.mem_singleton.mp hv
    exact ⟨by decide, by decide⟩
  obtain ⟨cs, hcs⟩ := h [0xf4, 0x90, 0x80, 0x80]
    ((validate_iff _).mpr ⟨[0x110000], hallowed, by decide⟩)
  exact BeyondUnicode.not_utf8 ⟨[0x110000], hallowed, ⟨_, List.mem_singleton_self _, by decide⟩,
    by decide⟩ cs hcs

end Stuff.Utf8
