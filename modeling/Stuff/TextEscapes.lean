import Stuff.Loops
import Stuff.MachineWords

/-!
# Escapes in texts

Bytes as hexadecimal digits: `Format::to_hex`, `to_hex_c_string` and `url_encode`, with
`Parser::from_hex`, `from_hex_mixed` and `url_decode`. The last two look at one character
after the other and keep a state between them. Only `from_hex_mixed` looks at this state at
the end of the text.
-/
namespace Stuff.TextEscapes
open Loops MachineWords

/-! ## Digits -/

def sDict : Bytes := ascii "0123456789abcdef"

def backslash : UInt8 := 0x5c
def percent : UInt8 := 0x25

/-- `'x'`. -/
def xLetter : UInt8 := 0x78

/-- `std::invalid_argument("bad hex value")`. -/
def badHex : Bytes := ascii "bad hex value"

def restore (a : UInt8) : Except Bytes UInt8 :=
  if 0x30 ≤ a ∧ a ≤ 0x39 then .ok (a - 0x30)
  else if 0x61 ≤ a ∧ a ≤ 0x66 then .ok (a - 0x61 + 10)
  else if 0x41 ≤ a ∧ a ≤ 0x46 then .ok (a - 0x41 + 10)
  else .error badHex

/-- The two digits of a byte. -/
def digits (i : UInt8) : Bytes := [sDict.getD (i >>> 4).toNat 0, sDict.getD (i &&& 0x0f).toNat 0]

def toHex (x : Bytes) : Bytes := x.flatMap digits

def toHexCString (aData : Bytes) : Bytes := aData.flatMap fun i => backslash :: xLetter :: digits i

def unreserved (c : UInt8) : Bool :=
  (0x41 ≤ c && c ≤ 0x5a) || (0x61 ≤ c && c ≤ 0x7a) || (0x30 ≤ c && c ≤ 0x39) || c = 0x2d ||
    c = 0x5f || c = 0x2e || c = 0x7e

def urlEncode (aData : Bytes) : Bytes :=
  aData.flatMap fun i => if unreserved i then [i] else percent :: digits i

/-- The byte of two digits. -/
def restoreByte (a1 a2 : UInt8) : Except Bytes UInt8 := do
  let high ← restore a1
  let low ← restore a2
  return (high <<< 4) + low

theorem toNat_high (i : UInt8) : (i >>> 4).toNat = i.toNat / 16 := by
  rw [UInt8.toNat_shiftRight, Nat.shiftRight_eq_div_pow]
  rfl

theorem toNat_low (i : UInt8) : (i &&& 0x0f).toNat = i.toNat % 16 := by
  rw [UInt8.toNat_and]
  exact Nat.and_two_pow_sub_one_eq_mod _ 4

theorem high_add_low (i : UInt8) : ((i >>> 4) <<< 4) + (i &&& 0x0f) = i := by
  have hshift : ((i >>> 4) <<< 4).toNat = i.toNat / 16 * 16 % 256 := by
    rw [UInt8.toNat_shiftLeft, Nat.shiftLeft_eq, toNat_high]
    rfl
  have hlt := i.toNat_lt
  rw [← UInt8.toNat_inj, UInt8.toNat_add, hshift, toNat_low]
  omega

theorem restore_sDict : ∀ n < 16, restore (sDict.getD n 0) = .ok (UInt8.ofNat n) := by
  decide

theorem restore_high (i : UInt8) : restore (sDict.getD (i >>> 4).toNat 0) = .ok (i >>> 4) := by
  have hlt := i.toNat_lt
  rw [restore_sDict _ (by rw [toNat_high]; omega), UInt8.ofNat_toNat]

theorem restore_low (i : UInt8) :
    restore (sDict.getD (i &&& 0x0f).toNat 0) = .ok (i &&& 0x0f) := by
  rw [restore_sDict _ (by rw [toNat_low]; omega), UInt8.ofNat_toNat]

theorem restoreByte_digits (i : UInt8) :
    restoreByte (sDict.getD (i >>> 4).toNat 0) (sDict.getD (i &&& 0x0f).toNat 0) = .ok i := by
  rw [restoreByte, restore_high, restore_low]
  change Except.ok (((i >>> 4) <<< 4) + (i &&& 0x0f)) = _
  rw [high_add_low]

/-- A decoder that undoes the text of one byte, and is idle again then, undoes all texts. -/
theorem foldlM_flatMap {σ : Type} {step : σ → UInt8 → Except Bytes σ} {Idle : σ → Bytes → Prop}
    {encode : UInt8 → Bytes}
    (h : ∀ s r i, Idle s r → ∃ s', (encode i).foldlM step s = .ok s' ∧ Idle s' (r ++ [i]))
    (text : Bytes) {s : σ} {r : Bytes} (hs : Idle s r) :
    ∃ s', (text.flatMap encode).foldlM step s = .ok s' ∧ Idle s' (r ++ text) := by
  induction text generalizing s r with
  | nil => exact ⟨s, rfl, by rw [List.append_nil]; exact hs⟩
  | cons i text ih =>
      obtain ⟨s₁, hfirst, hs₁⟩ := h s r i hs
      obtain ⟨s₂, hrest, hs₂⟩ := ih hs₁
      rw [List.append_assoc] at hs₂
      refine ⟨s₂, ?_, hs₂⟩
      rw [List.flatMap_cons, List.foldlM_append, hfirst]
      exact hrest

/-! ## Digits in a row -/

/-- `std::invalid_argument("Parser::from_hex")`. -/
def badLength : Bytes := ascii "Parser::from_hex"

structure HexLoop where
  i : UInt32
  sResult : Bytes
deriving DecidableEq, Repr

/-- The index is of type `unsigned`, and so is its double. -/
def hexTurn (x : Bytes) (s : HexLoop) : Turn HexLoop (Except Bytes Bytes) :=
  if s.i.toNat < x.length / 2 then
    let a1 := x.getD (s.i * 2).toNat 0
    let a2 := x.getD (s.i * 2 + 1).toNat 0
    match restoreByte a1 a2 with
    | .error what => .leave (.error what)
    | .ok byte => .next { i := s.i + 1, sResult := s.sResult ++ [byte] }
  else .leave (.ok s.sResult)

def fromHex (x : Bytes) (turns : ℕ) : Option (Except Bytes Bytes) :=
  if x.length % 2 ≠ 0 then some (.error badLength)
  else loop (fun _ s => some (hexTurn x s)) turns { i := 0, sResult := [] }

theorem length_toHex (s : Bytes) : (toHex s).length = 2 * s.length := by
  induction s with
  | nil => rfl
  | cons i s ih =>
      rw [toHex, List.flatMap_cons, List.length_append, ← toHex, ih, List.length_cons]
      change 2 + _ = _
      omega

theorem getD_toHex (s : Bytes) {k : ℕ} {i : UInt8} (hi : s[k]? = some i) :
    (toHex s).getD (2 * k) 0 = sDict.getD (i >>> 4).toNat 0 ∧
      (toHex s).getD (2 * k + 1) 0 = sDict.getD (i &&& 0x0f).toNat 0 := by
  induction s generalizing k with
  | nil => cases hi
  | cons c s ih =>
      cases k with
      | zero =>
          cases hi
          exact ⟨rfl, rfl⟩
      | succ k => exact ih hi

/-- The doubled index wraps at half of its range. -/
theorem double_index (i : UInt32) :
    (i * 2).toNat = 2 * (i.toNat % 2 ^ 31) ∧ (i * 2 + 1).toNat = 2 * (i.toNat % 2 ^ 31) + 1 := by
  have hmul : (i * 2).toNat = i.toNat * 2 % 2 ^ 32 := UInt32.toNat_mul i 2
  have hadd : (i * 2 + 1).toNat = ((i * 2).toNat + 1) % 2 ^ 32 := UInt32.toNat_add _ 1
  omega

/-- What `from_hex` makes of the digits of a text. -/
def wrapped (s : Bytes) : Bytes := (List.range s.length).map fun i => s.getD (i % 2 ^ 31) 0

theorem hexTurn_toHex {s : Bytes} {i : UInt32} (hi : i.toNat < s.length) (sResult : Bytes) :
    hexTurn (toHex s) { i, sResult } =
      .next { i := i + 1, sResult := sResult ++ [s.getD (i.toNat % 2 ^ 31) 0] } := by
  have hhalf : i.toNat < (toHex s).length / 2 := by
    rw [length_toHex]
    omega
  have hlt : i.toNat % 2 ^ 31 < s.length := (Nat.mod_le _ _).trans_lt hi
  obtain ⟨hfirst, hsecond⟩ := double_index i
  obtain ⟨hhigh, hlow⟩ := getD_toHex s (List.getElem?_eq_getElem hlt)
  rw [hexTurn, if_pos hhalf]
  dsimp only
  rw [hfirst, hsecond, hhigh, hlow, restoreByte_digits, List.getD_eq_getElem?_getD,
    List.getElem?_eq_getElem hlt]
  rfl

/-- The loop has read the bytes in front of `i`. -/
def HexLoop.Read (s : Bytes) (t : HexLoop) : Prop :=
  t.i.toNat ≤ s.length ∧
    t.sResult = (List.range t.i.toNat).map fun i => s.getD (i % 2 ^ 31) 0

theorem HexLoop.Read.turn {s : Bytes} (hs : s.length < 2 ^ 32) {t : HexLoop} (h : t.Read s) :
    (hexTurn (toHex s) t).Ok (Read s) (fun t => s.length - t.i.toNat) (· = .ok (wrapped s))
      (s.length - t.i.toNat) := by
  obtain ⟨i, sResult⟩ := t
  obtain ⟨hle, hresult⟩ := h
  dsimp only at hle hresult
  by_cases hi : i.toNat < s.length
  · have hsucc : (i + 1).toNat = i.toNat + 1 := by
      rw [UInt32.toNat_add, UInt32.toNat_one]
      omega
    rw [hexTurn_toHex hi]
    refine ⟨⟨?_, ?_⟩, ?_⟩
    · dsimp only
      omega
    · dsimp only
      rw [hsucc, List.range_succ, List.map_append, hresult]
      rfl
    · dsimp only
      omega
  · have hend : ¬ i.toNat < (toHex s).length / 2 := by
      rw [length_toHex]
      omega
    rw [hexTurn, if_neg hend, hresult, show i.toNat = s.length by omega]
    rfl

theorem returns_fromHex {s : Bytes} (hs : s.length < 2 ^ 32) :
    Returns (fromHex (toHex s)) (.ok (wrapped s)) := by
  have hstart : HexLoop.Read s { i := 0, sResult := [] } := ⟨Nat.zero_le _, rfl⟩
  obtain ⟨r, hreturns, rfl⟩ := loop_returns (fun t : HexLoop => s.length - t.i.toNat)
    (fun t ht => ⟨hexTurn (toHex s) t, returns_some _, ht.turn hs⟩) hstart
  have heven : ¬ (toHex s).length % 2 ≠ 0 := by
    rw [length_toHex]
    omega
  have heq : fromHex (toHex s) =
      fun n => loop (fun _ s' => some (hexTurn (toHex s) s')) n { i := 0, sResult := [] } := by
    funext n
    rw [fromHex, if_neg heven]
  rw [heq]
  exact hreturns

theorem getElem?_wrapped {s : Bytes} {i : ℕ} (hi : i < s.length) :
    (wrapped s)[i]? = s[i % 2 ^ 31]? := by
  have hlt : i % 2 ^ 31 < s.length := (Nat.mod_le _ _).trans_lt hi
  rw [wrapped, List.getElem?_map, List.getElem?_range hi, Option.map_some,
    List.getD_eq_getElem?_getD, List.getElem?_eq_getElem hlt, Option.getD_some]

/-- A text comes back if what is behind the wrap repeats what is in front of it. -/
theorem wrapped_eq_iff {s : Bytes} (hs : s.length < 2 ^ 32) :
    wrapped s = s ↔ ∀ i < s.length, 2 ^ 31 ≤ i → s[i]? = s[i - 2 ^ 31]? := by
  constructor
  · intro h i hi hwrap
    have hget := getElem?_wrapped hi
    rw [h, show i % 2 ^ 31 = i - 2 ^ 31 by omega] at hget
    exact hget
  · intro h
    have hlength : (wrapped s).length = s.length := by
      rw [wrapped, List.length_map, List.length_range]
    refine List.ext_getElem? fun i => ?_
    by_cases hi : i < s.length
    · rw [getElem?_wrapped hi]
      by_cases hwrap : 2 ^ 31 ≤ i
      · rw [h i hi hwrap, show i % 2 ^ 31 = i - 2 ^ 31 by omega]
      · rw [Nat.mod_eq_of_lt (by omega)]
    · rw [List.getElem?_eq_none (by omega), List.getElem?_eq_none (by omega)]

theorem returns_fromHex_iff {s : Bytes} (hs : s.length < 2 ^ 32) :
    Returns (fromHex (toHex s)) (.ok s) ↔
      ∀ i < s.length, 2 ^ 31 ≤ i → s[i]? = s[i - 2 ^ 31]? := by
  have hreturns := returns_fromHex hs
  rw [← wrapped_eq_iff hs]
  constructor
  · exact fun h => Except.ok.inj (hreturns.unique h)
  · intro h
    rw [h] at hreturns
    exact hreturns

theorem loop_toHex {s : Bytes} (hs : s.length < 2 ^ 31) (n : ℕ) (i : UInt32)
    (hi : i.toNat ≤ s.length) (hn : s.length < i.toNat + n) (sResult : Bytes) :
    loop (fun _ t => some (hexTurn (toHex s) t)) n { i, sResult } =
      some (.ok (sResult ++ s.drop i.toNat)) := by
  induction n generalizing i sResult with
  | zero => omega
  | succ n ih =>
      rw [loop]
      by_cases hlt : i.toNat < s.length
      · have hsucc : (i + 1).toNat = i.toNat + 1 := by
          rw [UInt32.toNat_add, UInt32.toNat_one]
          omega
        rw [hexTurn_toHex hlt, Nat.mod_eq_of_lt (by omega)]
        change loop _ n _ = _
        rw [ih (i + 1) (by omega) (by omega), hsucc, List.append_assoc,
          List.drop_eq_getElem_cons hlt, List.getD_eq_getElem?_getD, List.getElem?_eq_getElem hlt]
        rfl
      · have hend : ¬ i.toNat < (toHex s).length / 2 := by
          rw [length_toHex]
          omega
        rw [hexTurn, if_neg hend, List.drop_eq_nil_of_le (by omega), List.append_nil]

/-- A text that is not too long for the index comes back. -/
theorem fromHex_toHex {s : Bytes} (hs : s.length < 2 ^ 31) {turns : ℕ} (hturns : s.length < turns) :
    fromHex (toHex s) turns = some (.ok s) := by
  have heven : ¬ (toHex s).length % 2 ≠ 0 := by
    rw [length_toHex]
    omega
  have hstart : s.length < (0 : UInt32).toNat + turns := by
    rw [UInt32.toNat_zero]
    omega
  rw [fromHex, if_neg heven, loop_toHex hs turns 0 (Nat.zero_le _) hstart]
  rfl

/-! ## Digits behind a backslash -/

inductive MixedState
  | ignore
  | started
  | char1
  | char2
deriving DecidableEq, Repr

structure Mixed where
  sResult : Bytes
  sState : MixedState
  a1 : UInt8
deriving DecidableEq, Repr

/-- `std::invalid_argument("unexpected: \\" + c)`. -/
def unexpected (c : UInt8) : Bytes := ascii "unexpected: \\" ++ [c]

def unexpectedEol : Bytes := ascii "unexpected: eol"

def mixedStep (s : Mixed) (c : UInt8) : Except Bytes Mixed :=
  match s.sState with
  | .ignore =>
      if c = backslash then .ok { s with sState := .started }
      else .ok { s with sResult := s.sResult ++ [c] }
  | .started =>
      if c = xLetter then .ok { s with sState := .char1 }
      else if c = 0x6e then .ok { s with sResult := s.sResult ++ [0x0a], sState := .ignore }
      else if c = 0x74 then .ok { s with sResult := s.sResult ++ [0x09], sState := .ignore }
      else .error (unexpected c)
  | .char1 => .ok { s with a1 := c, sState := .char2 }
  | .char2 => do
      let byte ← restoreByte s.a1 c
      return { s with sResult := s.sResult ++ [byte], sState := .ignore }

def fromHexMixed (x : Bytes) : Except Bytes Bytes := do
  let s ← x.foldlM mixedStep { sResult := [], sState := .ignore, a1 := 0 }
  if s.sState = .ignore then .ok s.sResult else .error unexpectedEol

def Mixed.Idle (s : Mixed) (r : Bytes) : Prop := s.sResult = r ∧ s.sState = .ignore

theorem mixedStep_escape (s : Mixed) (r : Bytes) (i : UInt8) (hs : s.Idle r) :
    ∃ s', (backslash :: xLetter :: digits i).foldlM mixedStep s = .ok s' ∧
      s'.Idle (r ++ [i]) := by
  obtain ⟨sResult, sState, a1⟩ := s
  obtain ⟨rfl, rfl⟩ := hs
  have hbyte := restoreByte_digits i
  refine ⟨{ sResult := sResult ++ [i], sState := .ignore, a1 := sDict.getD (i >>> 4).toNat 0 },
    ?_, rfl, rfl⟩
  simp only [digits, List.foldlM_cons, List.foldlM_nil, mixedStep, if_true, bind, Except.bind,
    pure, Except.pure, hbyte]

theorem fromHexMixed_toHexCString (s : Bytes) : fromHexMixed (toHexCString s) = .ok s := by
  obtain ⟨last, hlast, hresult, hstate⟩ := foldlM_flatMap mixedStep_escape s
    (s := { sResult := [], sState := .ignore, a1 := 0 }) ⟨rfl, rfl⟩
  rw [fromHexMixed, toHexCString, hlast]
  simp only [bind, Except.bind, hstate, if_true, hresult, List.nil_append]

/-! ## Digits behind a percent sign -/

inductive Stage
  | initial
  | first
  | second
deriving DecidableEq, Repr

structure Decoding where
  sResult : Bytes
  stage : Stage
  decode : UInt8
deriving DecidableEq, Repr

def Decoding.start : Decoding := { sResult := [], stage := .initial, decode := 0 }

def decodeStep (s : Decoding) (i : UInt8) : Except Bytes Decoding :=
  match s.stage with
  | .initial =>
      if i ≠ percent then .ok { s with sResult := s.sResult ++ [i] }
      else .ok { s with stage := .first }
  | .first => do
      let high ← restore i
      return { s with decode := high <<< 4, stage := .second }
  | .second => do
      let low ← restore i
      return { sResult := s.sResult ++ [s.decode + low], stage := .initial, decode := 0 }

def urlDecode (aData : Bytes) : Except Bytes Bytes := do
  let s ← aData.foldlM decodeStep .start
  return s.sResult

def Decoding.Idle (s : Decoding) (r : Bytes) : Prop := s.sResult = r ∧ s.stage = .initial

theorem decodeStep_escape (s : Decoding) (r : Bytes) (i : UInt8) (hs : s.Idle r) :
    ∃ s', (percent :: digits i).foldlM decodeStep s = .ok s' ∧ s'.Idle (r ++ [i]) := by
  obtain ⟨sResult, stage, decode⟩ := s
  obtain ⟨rfl, rfl⟩ := hs
  refine ⟨{ sResult := sResult ++ [i], stage := .initial, decode := 0 }, ?_, rfl, rfl⟩
  simp only [digits, List.foldlM_cons, List.foldlM_nil, decodeStep, restore_high, restore_low,
    ne_eq, not_true, if_false, bind, Except.bind, pure, Except.pure, high_add_low]

theorem decodeStep_plain {s : Decoding} {r : Bytes} {i : UInt8} (hs : s.Idle r)
    (hi : i ≠ percent) : ∃ s', decodeStep s i = .ok s' ∧ s'.Idle (r ++ [i]) := by
  obtain ⟨sResult, stage, decode⟩ := s
  obtain ⟨rfl, rfl⟩ := hs
  exact ⟨_, if_pos hi, rfl, rfl⟩

theorem urlDecode_urlEncode (s : Bytes) : urlDecode (urlEncode s) = .ok s := by
  have hbyte : ∀ s r i, Decoding.Idle s r →
      ∃ s', (if unreserved i then [i] else percent :: digits i).foldlM decodeStep s = .ok s' ∧
        s'.Idle (r ++ [i]) := by
    intro s r i hs
    split
    case isTrue hi =>
      have hne : i ≠ percent := by
        rintro rfl
        exact absurd hi (by decide)
      obtain ⟨s', hstep, hs'⟩ := decodeStep_plain hs hne
      refine ⟨s', ?_, hs'⟩
      rw [List.foldlM_cons, hstep]
      rfl
    case isFalse => exact decodeStep_escape s r i hs
  obtain ⟨last, hlast, hresult, -⟩ :=
    foldlM_flatMap hbyte s (show Decoding.Idle .start [] from ⟨rfl, rfl⟩)
  rw [urlDecode, urlEncode, hlast]
  change Except.ok last.sResult = _
  rw [hresult, List.nil_append]

/-! ## Round trips -/

/-- The decoders undo the encoders. -/
def RoundTrips (s : Bytes) : Prop :=
  urlDecode (urlEncode s) = .ok s ∧ Returns (fromHex (toHex s)) (.ok s) ∧
    fromHexMixed (toHexCString s) = .ok s

theorem textRoundTrips_iff {s : Bytes} (hs : s.length < 2 ^ 32) :
    RoundTrips s ↔ ∀ i < s.length, 2 ^ 31 ≤ i → s[i]? = s[i - 2 ^ 31]? := by
  rw [RoundTrips, and_iff_right (urlDecode_urlEncode s),
    and_iff_left (fromHexMixed_toHexCString s), returns_fromHex_iff hs]

theorem roundTrips_short : RoundTrips [0x25, 0x61, 0x80, 0xff] := by
  refine (textRoundTrips_iff (by decide)).mpr fun i hi hwrap => ?_
  have hshort : i < 4 := hi
  omega

/-- With `n` half of the range of the index, the last byte is read as the first one. -/
def longText (n : ℕ) : Bytes := List.replicate n 0 ++ [1]

theorem length_longText (n : ℕ) : (longText n).length = n + 1 := by
  rw [longText, List.length_append, List.length_replicate, List.length_singleton]

theorem getElem?_longText (n : ℕ) : (longText n)[n]? = some 1 := by
  rw [longText, List.getElem?_append_right (List.length_replicate).le, List.length_replicate,
    Nat.sub_self]
  rfl

theorem head_longText {n : ℕ} (hn : 0 < n) : (longText n)[0]? = some 0 := by
  rw [longText, List.getElem?_append_left (by rw [List.length_replicate]; exact hn),
    List.getElem?_replicate, if_pos hn]

theorem not_roundTrips_longText :
    (longText (2 ^ 31)).length < 2 ^ 32 ∧ ¬ RoundTrips (longText (2 ^ 31)) := by
  have hlength := length_longText (2 ^ 31)
  have hs : (longText (2 ^ 31)).length < 2 ^ 32 := by omega
  refine ⟨hs, fun h => ?_⟩
  have heq := (returns_fromHex_iff hs).mp h.2.1 (2 ^ 31) (by omega) le_rfl
  rw [getElem?_longText, Nat.sub_self, head_longText (by omega)] at heq
  exact absurd heq (by decide)

/-! ## What is decoded -/

/-- The characters that `restore` takes. -/
def IsHex (a : UInt8) : Prop :=
  (0x30 ≤ a ∧ a ≤ 0x39) ∨ (0x61 ≤ a ∧ a ≤ 0x66) ∨ (0x41 ≤ a ∧ a ≤ 0x46)

instance (a : UInt8) : Decidable (IsHex a) := inferInstanceAs (Decidable (_ ∨ _))

/-- Every percent sign begins an escape with two digits. -/
inductive WellEscaped : Bytes → Prop
  | nil : WellEscaped []
  | plain {i : UInt8} {rest : Bytes} : i ≠ percent → WellEscaped rest → WellEscaped (i :: rest)
  | escape {a b : UInt8} {rest : Bytes} : IsHex a → IsHex b → WellEscaped rest →
      WellEscaped (percent :: a :: b :: rest)

/-- The text ends inside of an escape that is right so far. -/
def Dangling (x : Bytes) : Prop :=
  ∃ front last, WellEscaped front ∧ x = front ++ percent :: last ∧
    (last = [] ∨ ∃ a, IsHex a ∧ last = [a])

/-- By induction on the number of characters and escapes. -/
@[elab_as_elim]
theorem induction_escapes {P : Bytes → Prop} (nil : P [])
    (plain : ∀ i rest, i ≠ percent → P rest → P (i :: rest))
    (one : P [percent]) (two : ∀ a, P [percent, a])
    (escape : ∀ a b rest, P rest → P (percent :: a :: b :: rest)) (x : Bytes) : P x := by
  induction hn : x.length using Nat.strongRecOn generalizing x with
  | ind n ih =>
      subst hn
      match x with
      | [] => exact nil
      | i :: rest =>
          by_cases hi : i = percent
          · subst hi
            match rest with
            | [] => exact one
            | [a] => exact two a
            | a :: b :: rest =>
                exact escape a b rest (ih _ (by simp only [List.length_cons]; omega) _ rfl)
          · exact plain i rest hi (ih _ (by simp only [List.length_cons]; omega) _ rfl)

theorem restore_of_isHex {a : UInt8} (ha : IsHex a) : ∃ value, restore a = .ok value := by
  unfold restore
  rcases ha with h | h | h
  · exact ⟨_, if_pos h⟩
  · split_ifs
    · exact ⟨_, rfl⟩
    · exact ⟨_, rfl⟩
  · split_ifs
    · exact ⟨_, rfl⟩
    · exact ⟨_, rfl⟩
    · exact ⟨_, rfl⟩

theorem isHex_of_restore {a value : UInt8} (h : restore a = .ok value) : IsHex a := by
  unfold restore at h
  split at h
  case isTrue hdigit => exact .inl hdigit
  case isFalse =>
    split at h
    case isTrue hlower => exact .inr (.inl hlower)
    case isFalse =>
      split at h
      case isTrue hupper => exact .inr (.inr hupper)
      case isFalse => cases h

/-- A whole escape. -/
theorem decode_escape {s : Decoding} (hs : s.stage = .initial) {a b : UInt8} (ha : IsHex a)
    (hb : IsHex b) (rest : Bytes) :
    ∃ s' : Decoding, s'.stage = .initial ∧
      (percent :: a :: b :: rest).foldlM decodeStep s = rest.foldlM decodeStep s' := by
  obtain ⟨high, hhigh⟩ := restore_of_isHex ha
  obtain ⟨low, hlow⟩ := restore_of_isHex hb
  refine ⟨{ sResult := s.sResult ++ [(high <<< 4) + low], stage := .initial, decode := 0 }, rfl, ?_⟩
  simp only [List.foldlM_cons, decodeStep, hs, ne_eq, not_true, if_false, hhigh, hlow, bind,
    Except.bind, pure, Except.pure]

theorem decode_plain {s : Decoding} (hs : s.stage = .initial) {i : UInt8} (hi : i ≠ percent)
    (rest : Bytes) :
    ∃ s' : Decoding, s'.stage = .initial ∧
      (i :: rest).foldlM decodeStep s = rest.foldlM decodeStep s' := by
  refine ⟨{ s with sResult := s.sResult ++ [i] }, hs, ?_⟩
  simp only [List.foldlM_cons, decodeStep, hs, ne_eq, hi, not_false_eq_true, if_true, bind,
    Except.bind]

/-- Behind well escaped text the loop is where it began. -/
theorem WellEscaped.decode {front : Bytes} (h : WellEscaped front) (rest : Bytes) {s : Decoding}
    (hs : s.stage = .initial) :
    ∃ s' : Decoding, s'.stage = .initial ∧
      (front ++ rest).foldlM decodeStep s = rest.foldlM decodeStep s' := by
  induction h generalizing s with
  | nil => exact ⟨s, hs, rfl⟩
  | plain hi _ ih =>
      obtain ⟨s₁, hs₁, hfirst⟩ := decode_plain hs hi (_ ++ rest)
      obtain ⟨s₂, hs₂, hrest⟩ := ih hs₁
      exact ⟨s₂, hs₂, hfirst.trans hrest⟩
  | escape ha hb _ ih =>
      obtain ⟨s₁, hs₁, hfirst⟩ := decode_escape hs ha hb (_ ++ rest)
      obtain ⟨s₂, hs₂, hrest⟩ := ih hs₁
      exact ⟨s₂, hs₂, hfirst.trans hrest⟩

/-- An escape that is not complete leaves the loop in the middle of it. -/
theorem Dangling.decode {x : Bytes} (h : Dangling x) {s : Decoding} (hs : s.stage = .initial) :
    ∃ s' : Decoding, x.foldlM decodeStep s = .ok s' ∧ s'.stage ≠ .initial := by
  obtain ⟨front, last, hfront, rfl, hlast⟩ := h
  obtain ⟨s₁, hs₁, heq⟩ := hfront.decode (percent :: last) hs
  rw [heq]
  rcases hlast with rfl | ⟨a, ha, rfl⟩
  · refine ⟨{ s₁ with stage := .first }, ?_, by simp⟩
    simp only [List.foldlM_cons, List.foldlM_nil, decodeStep, hs₁, ne_eq, not_true, if_false, bind,
      Except.bind, pure, Except.pure]
  · obtain ⟨high, hhigh⟩ := restore_of_isHex ha
    refine ⟨{ s₁ with stage := .second, decode := high <<< 4 }, ?_, by simp⟩
    simp only [List.foldlM_cons, List.foldlM_nil, decodeStep, hs₁, ne_eq, not_true, if_false,
      hhigh, bind, Except.bind, pure, Except.pure]

theorem WellEscaped.not_dangling {x : Bytes} (h : WellEscaped x) : ¬ Dangling x := by
  intro hdangling
  obtain ⟨s₁, hs₁, hwell⟩ := h.decode [] (s := .start) rfl
  obtain ⟨s₂, hbad, hs₂⟩ := hdangling.decode (s := .start) rfl
  rw [List.append_nil, hbad] at hwell
  cases hwell
  exact hs₂ hs₁

theorem Dangling.plain {i : UInt8} {rest : Bytes} (hi : i ≠ percent) (h : Dangling rest) :
    Dangling (i :: rest) := by
  obtain ⟨front, last, hfront, rfl, hlast⟩ := h
  exact ⟨i :: front, last, .plain hi hfront, rfl, hlast⟩

theorem Dangling.escape {a b : UInt8} {rest : Bytes} (ha : IsHex a) (hb : IsHex b)
    (h : Dangling rest) : Dangling (percent :: a :: b :: rest) := by
  obtain ⟨front, last, hfront, rfl, hlast⟩ := h
  exact ⟨percent :: a :: b :: front, last, .escape ha hb hfront, rfl, hlast⟩

theorem isHex_of_first {s last : Decoding} (hs : s.stage = .initial) {a : UInt8} {rest : Bytes}
    (h : (percent :: a :: rest).foldlM decodeStep s = .ok last) : IsHex a := by
  cases ha : restore a with
  | ok value => exact isHex_of_restore ha
  | error what =>
      simp only [List.foldlM_cons, decodeStep, hs, ne_eq, not_true, if_false, ha, bind,
        Except.bind] at h
      cases h

theorem isHex_of_second {s last : Decoding} (hs : s.stage = .initial) {a b : UInt8} {rest : Bytes}
    (h : (percent :: a :: b :: rest).foldlM decodeStep s = .ok last) : IsHex b := by
  obtain ⟨high, hhigh⟩ := restore_of_isHex (isHex_of_first hs h)
  cases hb : restore b with
  | ok value => exact isHex_of_restore hb
  | error what =>
      simp only [List.foldlM_cons, decodeStep, hs, ne_eq, not_true, if_false, hhigh, hb, bind,
        Except.bind, pure, Except.pure] at h
      cases h

/-- A text whose end the loop reaches is of one of the two kinds. -/
theorem wellEscaped_or_dangling {x : Bytes} {s last : Decoding} (hs : s.stage = .initial)
    (h : x.foldlM decodeStep s = .ok last) : WellEscaped x ∨ Dangling x := by
  induction x using induction_escapes generalizing s with
  | nil => exact .inl .nil
  | plain i rest hi ih =>
      obtain ⟨s', hs', heq⟩ := decode_plain hs hi rest
      exact (ih hs' (heq ▸ h)).imp (.plain hi) (.plain hi)
  | one => exact .inr ⟨[], [], .nil, rfl, .inl rfl⟩
  | two a => exact .inr ⟨[], [a], .nil, rfl, .inr ⟨a, isHex_of_first hs h, rfl⟩⟩
  | escape a b rest ih =>
      have ha := isHex_of_first hs h
      have hb := isHex_of_second hs h
      obtain ⟨s', hs', heq⟩ := decode_escape hs ha hb rest
      exact (ih hs' (heq ▸ h)).imp (.escape ha hb) (.escape ha hb)

/-- Percent-encoded text is decoded, and everything else is refused. -/
def Accepts (x : Bytes) : Prop := (∃ sResult, urlDecode x = .ok sResult) ↔ WellEscaped x

theorem urlDecode_of_foldlM {x : Bytes} {last : Decoding}
    (h : x.foldlM decodeStep .start = .ok last) :
    urlDecode x = .ok last.sResult := by
  rw [urlDecode, h]
  rfl

theorem accepts_iff (x : Bytes) : Accepts x ↔ ¬ Dangling x := by
  constructor
  · rintro h hdangling
    obtain ⟨last, hlast, -⟩ := hdangling.decode (s := .start) rfl
    exact (h.mp ⟨_, urlDecode_of_foldlM hlast⟩).not_dangling hdangling
  · intro hdangling
    constructor
    · rintro ⟨sResult, hresult⟩
      cases hfold : x.foldlM decodeStep .start with
      | error what =>
          rw [urlDecode, hfold] at hresult
          cases hresult
      | ok last => exact (wellEscaped_or_dangling rfl hfold).resolve_right hdangling
    · intro hwell
      obtain ⟨last, -, hlast⟩ := hwell.decode [] (s := .start) rfl
      rw [List.append_nil] at hlast
      exact ⟨_, urlDecode_of_foldlM hlast⟩

theorem not_accepts_dangling : ¬ Accepts (ascii "a%4") := by
  intro h
  have hwell := h.mp ⟨ascii "a", rfl⟩
  obtain - | ⟨-, hrest⟩ := hwell
  cases hrest with
  | plain hne => exact hne rfl

end Stuff.TextEscapes
