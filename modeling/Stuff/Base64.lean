import Stuff.MachineWords
import Mathlib.Tactic.IntervalCases

/-!
# Base64

`Format::Base64` writes three bytes as four characters. `Parser::Base64` shifts the six
bits of each character into a word that it never clears, and takes the pad character
for what stands behind the end of the text.
-/
namespace Stuff.Base64
open MachineWords

def base64NoPadding : UInt32 := 1
def base64UrlSafe : UInt32 := 2

/-! ## `Format::Base64` -/

namespace Format

def sNormalLookup : Bytes :=
  ascii "ABCDEFGHIJKLMNOPQRSTUVWXYZabcdefghijklmnopqrstuvwxyz0123456789+/"

/-- `'='` -/
def sNormalPad : UInt8 := 0x3d

def sUrlSafeLookup : Bytes :=
  ascii "ABCDEFGHIJKLMNOPQRSTUVWXYZabcdefghijklmnopqrstuvwxyz0123456789-_"

/-- `'.'` -/
def sUrlSafePad : UInt8 := 0x2e

def sEncodeLookup (aFlags : UInt32) : Bytes :=
  if aFlags &&& base64UrlSafe ≠ 0 then sUrlSafeLookup else sNormalLookup

def sPadCharacter (aFlags : UInt32) : UInt8 :=
  if aFlags &&& base64UrlSafe ≠ 0 then sUrlSafePad else sNormalPad

def lookup (aFlags i : UInt32) : UInt8 := (sEncodeLookup aFlags).getD i.toNat 0

/-- The four groups of six bits. -/
def sextets (temp : UInt32) : List UInt32 :=
  [(temp &&& 0x00FC0000) >>> 18, (temp &&& 0x0003F000) >>> 12, (temp &&& 0x00000FC0) >>> 6,
    temp &&& 0x0000003F]

/-- The first `n` characters of a group. -/
def encoded (aFlags temp : UInt32) (n : ℕ) : Bytes := ((sextets temp).take n).map (lookup aFlags)

def padding (aFlags : UInt32) (n : ℕ) : Bytes :=
  if aFlags &&& base64NoPadding = 0 then List.replicate n (sPadCharacter aFlags) else []

/-- The rest of one or two bytes is the switch behind the loop. -/
def base64 (aFlags : UInt32) : Bytes → Bytes
  | [] => []
  | [a] => encoded aFlags (a.toUInt32 <<< 16) 2 ++ padding aFlags 2
  | [a, b] => encoded aFlags (a.toUInt32 <<< 16 + b.toUInt32 <<< 8) 3 ++ padding aFlags 1
  | a :: b :: c :: aStr =>
      encoded aFlags (a.toUInt32 <<< 16 + b.toUInt32 <<< 8 + c.toUInt32) 4 ++ base64 aFlags aStr

end Format

/-! ## `Parser::Base64` -/

namespace Parser

def sPadCharacter (aFlags : UInt32) : UInt8 :=
  if aFlags &&& base64UrlSafe ≠ 0 then 0x2e else 0x3d

/-- `'-'` or `'+'` -/
def sPlus (aFlags : UInt32) : UInt8 := if aFlags &&& base64UrlSafe ≠ 0 then 0x2d else 0x2b

/-- `'_'` or `'/'` -/
def sSlash (aFlags : UInt32) : UInt8 := if aFlags &&& base64UrlSafe ≠ 0 then 0x5f else 0x2f

def invalidSize : String := "Format::Base64: invalid size"
def invalidInput : String := "Format::Base64: invalid input"
def invalidPadding : String := "Format::Base64: invalid padding"

def invalidCharacter (c : UInt32) : String :=
  "Format::Base64: invalid character: " ++ String.singleton (Char.ofNat c.toUInt8.toNat)

inductive Symbol
  | value (v : UInt32)
  | pad
  | invalid
deriving DecidableEq, Repr

def symbol (aFlags c : UInt32) : Symbol :=
  if 0x41 ≤ c ∧ c ≤ 0x5a then .value (c - 0x41)
  else if 0x61 ≤ c ∧ c ≤ 0x7a then .value (c - 0x61 + 26)
  else if 0x30 ≤ c ∧ c ≤ 0x39 then .value (c - 0x30 + 52)
  else if c = (sPlus aFlags).toUInt32 then .value 0x3E
  else if c = (sSlash aFlags).toUInt32 then .value 0x3F
  else if c = (sPadCharacter aFlags).toUInt32 then .pad
  else .invalid

/-- The character at the iterator: `char` is signed, so a byte from 128 on is extended. -/
def current (aFlags : UInt32) : Bytes → UInt32
  | [] => (sPadCharacter aFlags).toUInt32
  | c :: _ => c.toInt8.toInt32.toUInt32

def byte (temp : UInt32) : UInt8 := (temp &&& 0x000000FF).toUInt8

/-- With a text of `size` characters, of which `rest` are still to come. -/
def sPadSize (aFlags : UInt32) (size rest : ℕ) : Except String UInt32 :=
  if aFlags &&& base64NoPadding = 0 then .ok (UInt32.ofNat rest)
  else if size % 4 = 3 then .ok 1
  else if size % 4 = 2 then .ok 2
  else .error invalidInput

def atPad (aFlags : UInt32) (size rest : ℕ) (temp : UInt32) (decoded : Bytes) :
    Except String Bytes := do
  let n ← sPadSize aFlags size rest
  if n = 1 then return decoded ++ [byte (temp >>> 16), byte (temp >>> 8)]
  else if n = 2 then return decoded ++ [byte (temp >>> 10)]
  else throw invalidPadding

/-- How the inner loop ends: with the iterator, or with the result of the function. -/
inductive Group
  | full (temp : UInt32) (it : Bytes)
  | result (r : Except String Bytes)

/-- The inner loop, with the turns that are left. -/
def group (aFlags : UInt32) (size : ℕ) (decoded : Bytes) : ℕ → UInt32 → Bytes → Group
  | 0, temp, it => .full temp it
  | i + 1, temp, it =>
      match symbol aFlags (current aFlags it) with
      | .value v => group aFlags size decoded i (temp <<< 6 ||| v) it.tail
      | .pad => .result (atPad aFlags size it.length (temp <<< 6) decoded)
      | .invalid => .result (.error (invalidCharacter (current aFlags it)))

theorem group_length {aFlags : UInt32} {size : ℕ} {decoded : Bytes} {i : ℕ} {temp temp' : UInt32}
    {it it' : Bytes} (h : group aFlags size decoded i temp it = .full temp' it') :
    it'.length = it.length - i := by
  induction i generalizing temp it with
  | zero =>
      cases h
      rfl
  | succ i ih =>
      rw [group] at h
      split at h
      · rw [ih h, List.length_tail]
        omega
      · cases h
      · cases h

theorem group_shortens {aFlags : UInt32} {size : ℕ} {decoded : Bytes} {temp temp' : UInt32}
    {it it' : Bytes} (h : group aFlags size decoded 4 temp it = .full temp' it') (hit : it ≠ []) :
    it'.length < it.length := by
  have hlen := group_length h
  have hpos := List.length_pos_of_ne_nil hit
  omega

/-- The outer loop. -/
def decode (aFlags : UInt32) (size : ℕ) (temp : UInt32) (decoded it : Bytes) :
    Except String Bytes :=
  if hit : it = [] then .ok decoded
  else
    match h : group aFlags size decoded 4 temp it with
    | .full temp rest =>
        have : rest.length < it.length := group_shortens h hit
        decode aFlags size temp (decoded ++ [byte (temp >>> 16), byte (temp >>> 8), byte temp]) rest
    | .result r => r
termination_by it.length

/-- The padding that is counted first only sets the capacity of the result. -/
def base64 (aFlags : UInt32) (aStr : Bytes) : Except String Bytes :=
  if aFlags &&& base64NoPadding = 0 ∧ aStr.length % 4 ≠ 0 then .error invalidSize
  else decode aFlags aStr.length 0 [] aStr

end Parser

/-! ## Six bits -/

/-- A mask of six bits, shifted down. -/
theorem toNat_sextet (temp k mask : UInt32) (hmask : mask.toNat >>> (k.toNat % 32) = 2 ^ 6 - 1) :
    ((temp &&& mask) >>> k).toNat = temp.toNat / 2 ^ (k.toNat % 32) % 64 := by
  rw [UInt32.toNat_shiftRight, UInt32.toNat_and, Nat.shiftRight_and_distrib, hmask,
    Nat.and_two_pow_sub_one_eq_mod, Nat.shiftRight_eq_div_pow]

theorem toNat_byte (temp : UInt32) : (Parser.byte temp).toNat = temp.toNat % 256 := by
  have hmask : temp.toNat &&& (0x000000FF : UInt32).toNat = temp.toNat % 2 ^ 8 :=
    Nat.and_two_pow_sub_one_eq_mod _ 8
  rw [Parser.byte, UInt32.toNat_toUInt8, UInt32.toNat_and, hmask]
  omega

theorem toNat_byte_shift (temp k : UInt32) :
    (Parser.byte (temp >>> k)).toNat = temp.toNat / 2 ^ (k.toNat % 32) % 256 := by
  rw [toNat_byte, UInt32.toNat_shiftRight, Nat.shiftRight_eq_div_pow]

theorem toNat_shift16 (a : UInt8) : (a.toUInt32 <<< 16).toNat = a.toNat * 2 ^ 16 := by
  have ha := a.toNat_lt
  rw [UInt32.toNat_shiftLeft, UInt8.toNat_toUInt32, Nat.shiftLeft_eq]
  change a.toNat * 2 ^ 16 % 2 ^ 32 = _
  omega

theorem toNat_shift8 (a : UInt8) : (a.toUInt32 <<< 8).toNat = a.toNat * 2 ^ 8 := by
  have ha := a.toNat_lt
  rw [UInt32.toNat_shiftLeft, UInt8.toNat_toUInt32, Nat.shiftLeft_eq]
  change a.toNat * 2 ^ 8 % 2 ^ 32 = _
  omega

theorem toNat_two (a b : UInt8) :
    (a.toUInt32 <<< 16 + b.toUInt32 <<< 8).toNat = a.toNat * 2 ^ 16 + b.toNat * 2 ^ 8 := by
  have ha := a.toNat_lt
  have hb := b.toNat_lt
  rw [UInt32.toNat_add, toNat_shift16, toNat_shift8]
  omega

theorem toNat_three (a b c : UInt8) :
    (a.toUInt32 <<< 16 + b.toUInt32 <<< 8 + c.toUInt32).toNat =
      a.toNat * 2 ^ 16 + b.toNat * 2 ^ 8 + c.toNat := by
  have ha := a.toNat_lt
  have hb := b.toNat_lt
  have hc := c.toNat_lt
  rw [UInt32.toNat_add, toNat_two, UInt8.toNat_toUInt32]
  omega

/-! ## Characters -/

namespace Format

/-- The letters and digits, in the order of their values. -/
def codes : List ℕ := List.range' 0x41 26 ++ List.range' 0x61 26 ++ List.range' 0x30 10

theorem sNormalLookup_eq : sNormalLookup = (codes ++ [0x2b, 0x2f]).map UInt8.ofNat := by
  decide +kernel

theorem sUrlSafeLookup_eq : sUrlSafeLookup = (codes ++ [0x2d, 0x5f]).map UInt8.ofNat := by
  decide +kernel

end Format

/-- The decoder knows every character of the alphabet of the same flags. -/
theorem symbol_lookup (aFlags : UInt32) {i : UInt32} (hi : i.toNat < 64) (rest : Bytes) :
    Parser.symbol aFlags (Parser.current aFlags (Format.lookup aFlags i :: rest)) = .value i := by
  have hof : i = UInt32.ofNat i.toNat := UInt32.ofNat_toNat.symm
  by_cases h : aFlags &&& base64UrlSafe ≠ 0
  · simp only [Parser.symbol, Parser.sPlus, Parser.sSlash, Parser.sPadCharacter, Parser.current,
      Format.lookup, Format.sEncodeLookup, Format.sUrlSafeLookup_eq, if_pos h]
    rw [hof]
    generalize i.toNat = n at hi
    revert n
    decide +kernel
  · simp only [Parser.symbol, Parser.sPlus, Parser.sSlash, Parser.sPadCharacter, Parser.current,
      Format.lookup, Format.sEncodeLookup, Format.sNormalLookup_eq, if_neg h]
    rw [hof]
    generalize i.toNat = n at hi
    revert n
    decide +kernel

theorem symbol_pad (aFlags : UInt32) :
    Parser.symbol aFlags (Parser.sPadCharacter aFlags).toUInt32 = .pad := by
  by_cases h : aFlags &&& base64UrlSafe ≠ 0
  · simp only [Parser.symbol, Parser.sPlus, Parser.sSlash, Parser.sPadCharacter, if_pos h]
    decide
  · simp only [Parser.symbol, Parser.sPlus, Parser.sSlash, Parser.sPadCharacter, if_neg h]
    decide

theorem current_pad (aFlags : UInt32) (rest : Bytes) :
    Parser.current aFlags (Parser.sPadCharacter aFlags :: rest) =
      (Parser.sPadCharacter aFlags).toUInt32 := by
  by_cases h : aFlags &&& base64UrlSafe ≠ 0
  · rw [Parser.current, Parser.sPadCharacter, if_pos h]
    decide
  · rw [Parser.current, Parser.sPadCharacter, if_neg h]
    decide

/-! ## The inner loop -/

section Group
variable {aFlags : UInt32} {size : ℕ} {decoded : Bytes}

theorem group_lookup {i : UInt32} (hi : i.toNat < 64) (n : ℕ) (temp : UInt32) (it : Bytes) :
    Parser.group aFlags size decoded (n + 1) temp (Format.lookup aFlags i :: it) =
      Parser.group aFlags size decoded n (temp <<< 6 ||| i) it := by
  rw [Parser.group, symbol_lookup aFlags hi]
  rfl

theorem group_pad (n : ℕ) (temp : UInt32) (it : Bytes) :
    Parser.group aFlags size decoded (n + 1) temp (Parser.sPadCharacter aFlags :: it) =
      .result (Parser.atPad aFlags size (it.length + 1) (temp <<< 6) decoded) := by
  rw [Parser.group, current_pad, symbol_pad]
  rfl

/-- Behind the end the loop sees the pad character. -/
theorem group_end (n : ℕ) (temp : UInt32) :
    Parser.group aFlags size decoded (n + 1) temp [] =
      .result (Parser.atPad aFlags size 0 (temp <<< 6) decoded) := by
  rw [Parser.group, Parser.current, symbol_pad]
  rfl

theorem group_padding_one (hsize : aFlags &&& base64NoPadding ≠ 0 → size % 4 = 3) (n : ℕ)
    (temp : UInt32) :
    Parser.group aFlags size decoded (n + 1) temp (Format.padding aFlags 1) =
      .result (.ok (decoded ++
        [Parser.byte ((temp <<< 6) >>> 16), Parser.byte ((temp <<< 6) >>> 8)])) := by
  by_cases h : aFlags &&& base64NoPadding = 0
  · rw [Format.padding, if_pos h]
    refine (group_pad n temp []).trans ?_
    rw [Parser.atPad, Parser.sPadSize, if_pos h]
    rfl
  · rw [Format.padding, if_neg h, group_end, Parser.atPad, Parser.sPadSize, if_neg h,
      if_pos (hsize h)]
    rfl

theorem group_padding_two (hsize : aFlags &&& base64NoPadding ≠ 0 → size % 4 = 2) (n : ℕ)
    (temp : UInt32) :
    Parser.group aFlags size decoded (n + 1) temp (Format.padding aFlags 2) =
      .result (.ok (decoded ++ [Parser.byte ((temp <<< 6) >>> 10)])) := by
  by_cases h : aFlags &&& base64NoPadding = 0
  · rw [Format.padding, if_pos h]
    refine (group_pad n temp [Format.sPadCharacter aFlags]).trans ?_
    rw [Parser.atPad, Parser.sPadSize, if_pos h]
    rfl
  · have hne : size % 4 ≠ 3 := by
      have htwo := hsize h
      omega
    rw [Format.padding, if_neg h, group_end, Parser.atPad, Parser.sPadSize, if_neg h, if_neg hne,
      if_pos (hsize h)]
    rfl

end Group

/-! ## The word -/

/-- The word after the first `n` characters of a group. -/
def pushed (temp t : UInt32) (n : ℕ) : UInt32 :=
  ((Format.sextets t).take n).foldl (fun temp v => temp <<< 6 ||| v) temp

theorem toNat_sextets (t : UInt32) :
    (Format.sextets t).map UInt32.toNat =
      [t.toNat / 2 ^ 18 % 64, t.toNat / 2 ^ 12 % 64, t.toNat / 2 ^ 6 % 64, t.toNat % 64] := by
  have h₁ := toNat_sextet t 18 0x00FC0000 rfl
  have h₂ := toNat_sextet t 12 0x0003F000 rfl
  have h₃ := toNat_sextet t 6 0x00000FC0 rfl
  have h₄ : (t &&& 0x0000003F).toNat = t.toNat % 64 := Nat.and_two_pow_sub_one_eq_mod _ 6
  simp only [Format.sextets, List.map_cons, List.map_nil, h₁, h₂, h₃, h₄]
  rfl

theorem sextets_lt (t : UInt32) : ∀ v ∈ Format.sextets t, v.toNat < 64 := by
  intro v hv
  have hmem := List.mem_map_of_mem (f := UInt32.toNat) hv
  rw [toNat_sextets] at hmem
  simp only [List.mem_cons, List.not_mem_nil, or_false] at hmem
  omega

/-- Characters are shifted into the word one after the other. -/
theorem group_map {aFlags : UInt32} {vs : List UInt32} (hvs : ∀ v ∈ vs, v.toNat < 64) (size : ℕ)
    (decoded : Bytes) (temp : UInt32) (m : ℕ) (it : Bytes) :
    Parser.group aFlags size decoded (vs.length + m) temp
        (vs.map (Format.lookup aFlags) ++ it) =
      Parser.group aFlags size decoded m (vs.foldl (fun temp v => temp <<< 6 ||| v) temp) it := by
  induction vs generalizing temp with
  | nil =>
      rw [List.length_nil, Nat.zero_add]
      rfl
  | cons v vs ih =>
      rw [List.forall_mem_cons] at hvs
      rw [List.length_cons, Nat.add_right_comm, List.map_cons, List.cons_append,
        group_lookup hvs.1]
      exact ih hvs.2 _

theorem group_encoded (aFlags : UInt32) (size : ℕ) (decoded : Bytes) (t temp : UInt32) {n : ℕ}
    (hn : n ≤ 4) (m : ℕ) (it : Bytes) :
    Parser.group aFlags size decoded (n + m) temp (Format.encoded aFlags t n ++ it) =
      Parser.group aFlags size decoded m (pushed temp t n) it := by
  have hlen : ((Format.sextets t).take n).length = n := by
    rw [List.length_take]
    exact Nat.min_eq_left hn
  have hlt : ∀ v ∈ (Format.sextets t).take n, v.toNat < 64 := fun v hv =>
    sextets_lt t v (List.mem_of_mem_take hv)
  have hmap : _ = Parser.group aFlags size decoded m (pushed temp t n) it :=
    group_map hlt size decoded temp m it
  rwa [hlen] at hmap

/-- The low bits are what the characters stand for, whatever was in the word before. -/
theorem toNat_pushed_mod (temp t : UInt32) {n : ℕ} (hn : n ≤ 4) :
    (pushed temp t n).toNat % 2 ^ (6 * n) = t.toNat % 2 ^ 24 / 2 ^ (24 - 6 * n) := by
  have heq := toNat_sextets t
  have hlt := sextets_lt t
  simp only [Format.sextets, List.map_cons, List.map_nil, List.cons.injEq] at heq
  simp only [Format.sextets, List.forall_mem_cons] at hlt
  obtain ⟨h₁, h₂, h₃, h₄, -⟩ := heq
  obtain ⟨l₁, l₂, l₃, l₄, -⟩ := hlt
  interval_cases n
  · omega
  all_goals
    simp only [pushed, Format.sextets, List.take, List.foldl, toNat_shift6_or _ l₁,
      toNat_shift6_or _ l₂, toNat_shift6_or _ l₃, toNat_shift6_or _ l₄, h₁, h₂, h₃, h₄]
    omega

/-! ## Round trip -/

theorem length_encoded (aFlags t : UInt32) {n : ℕ} (hn : n ≤ 4) :
    (Format.encoded aFlags t n).length = n := by
  rw [Format.encoded, List.length_map, List.length_take]
  exact Nat.min_eq_left hn

theorem encoded_ne_nil (aFlags t : UInt32) {n : ℕ} (hpos : 0 < n) (hn : n ≤ 4) (it : Bytes) :
    Format.encoded aFlags t n ++ it ≠ [] := by
  intro h
  have hlen := congrArg List.length h
  rw [List.length_append, length_encoded _ _ hn, List.length_nil] at hlen
  omega

theorem decode_full {aFlags : UInt32} {size : ℕ} {temp temp' : UInt32} {decoded it rest : Bytes}
    (hit : it ≠ []) (h : Parser.group aFlags size decoded 4 temp it = .full temp' rest) :
    Parser.decode aFlags size temp decoded it = Parser.decode aFlags size temp'
      (decoded ++ [Parser.byte (temp' >>> 16), Parser.byte (temp' >>> 8), Parser.byte temp'])
      rest := by
  rw [Parser.decode, dif_neg hit]
  split
  · rename_i heq
    rw [h] at heq
    cases heq
    rfl
  · rename_i heq
    rw [h] at heq
    cases heq

theorem decode_result {aFlags : UInt32} {size : ℕ} {temp : UInt32} {decoded it : Bytes}
    {r : Except String Bytes} (hit : it ≠ [])
    (h : Parser.group aFlags size decoded 4 temp it = .result r) :
    Parser.decode aFlags size temp decoded it = r := by
  rw [Parser.decode, dif_neg hit]
  split
  · rename_i heq
    rw [h] at heq
    cases heq
  · rename_i heq
    rw [h] at heq
    cases heq
    rfl

theorem length_padding (aFlags : UInt32) (n : ℕ) :
    (Format.padding aFlags n).length = if aFlags &&& base64NoPadding = 0 then n else 0 := by
  unfold Format.padding
  split_ifs
  · exact List.length_replicate
  · rfl

theorem bytes_three {w : UInt32} {a b c : UInt8}
    (hw : w.toNat % 2 ^ 24 = (a.toUInt32 <<< 16 + b.toUInt32 <<< 8 + c.toUInt32).toNat % 2 ^ 24) :
    [Parser.byte (w >>> 16), Parser.byte (w >>> 8), Parser.byte w] = [a, b, c] := by
  have ha := a.toNat_lt
  have hb := b.toNat_lt
  have hc := c.toNat_lt
  have h₁ : (Parser.byte (w >>> 16)).toNat = w.toNat / 2 ^ 16 % 256 := toNat_byte_shift w 16
  have h₂ : (Parser.byte (w >>> 8)).toNat = w.toNat / 2 ^ 8 % 256 := toNat_byte_shift w 8
  have h₃ := toNat_byte w
  rw [toNat_three] at hw
  simp only [List.cons.injEq, and_true, ← UInt8.toNat_inj]
  omega

theorem bytes_two {w : UInt32} {a b : UInt8}
    (hw : w.toNat % 2 ^ 18 = (a.toUInt32 <<< 16 + b.toUInt32 <<< 8).toNat % 2 ^ 24 / 2 ^ 6) :
    [Parser.byte ((w <<< 6) >>> 16), Parser.byte ((w <<< 6) >>> 8)] = [a, b] := by
  have ha := a.toNat_lt
  have hb := b.toNat_lt
  have h₁ : (Parser.byte ((w <<< 6) >>> 16)).toNat = (w <<< 6).toNat / 2 ^ 16 % 256 :=
    toNat_byte_shift _ 16
  have h₂ : (Parser.byte ((w <<< 6) >>> 8)).toNat = (w <<< 6).toNat / 2 ^ 8 % 256 :=
    toNat_byte_shift _ 8
  rw [toNat_shift6] at h₁ h₂
  rw [toNat_two] at hw
  simp only [List.cons.injEq, and_true, ← UInt8.toNat_inj]
  omega

theorem bytes_one {w : UInt32} {a : UInt8}
    (hw : w.toNat % 2 ^ 12 = (a.toUInt32 <<< 16).toNat % 2 ^ 24 / 2 ^ 12) :
    [Parser.byte ((w <<< 6) >>> 10)] = [a] := by
  have ha := a.toNat_lt
  have h₁ : (Parser.byte ((w <<< 6) >>> 10)).toNat = (w <<< 6).toNat / 2 ^ 10 % 256 :=
    toNat_byte_shift _ 10
  rw [toNat_shift6] at h₁
  rw [toNat_shift16] at hw
  simp only [List.cons.injEq, and_true, ← UInt8.toNat_inj]
  omega

/-- Whatever is in the word, the text of the writer is decoded behind what was decoded
before. Without padding the size tells how many bytes the last group has. -/
theorem decode_base64 (aFlags : UInt32) (aStr : Bytes) {size : ℕ}
    (hsize : aFlags &&& base64NoPadding ≠ 0 →
      size % 4 = (Format.base64 aFlags aStr).length % 4) (temp : UInt32) (decoded : Bytes) :
    Parser.decode aFlags size temp decoded (Format.base64 aFlags aStr) =
      .ok (decoded ++ aStr) := by
  induction aStr using Format.base64.induct generalizing temp decoded with
  | case1 =>
      rw [Format.base64, Parser.decode, dif_pos rfl, List.append_nil]
  | case2 a =>
      have hsize' : aFlags &&& base64NoPadding ≠ 0 → size % 4 = 2 := by
        intro h
        rw [hsize h, Format.base64, List.length_append, length_encoded _ _ (by decide),
          length_padding, if_neg h]
      have hgroup := group_encoded aFlags size decoded
        (a.toUInt32 <<< 16) temp (n := 2) (by decide) 2 (Format.padding aFlags 2)
      rw [group_padding_two hsize', bytes_one (toNat_pushed_mod temp _ (by decide))] at hgroup
      exact decode_result (encoded_ne_nil _ _ (by decide) (by decide) _) hgroup
  | case3 a b =>
      have hsize' : aFlags &&& base64NoPadding ≠ 0 → size % 4 = 3 := by
        intro h
        rw [hsize h, Format.base64, List.length_append, length_encoded _ _ (by decide),
          length_padding, if_neg h]
      have hgroup := group_encoded aFlags size decoded
        (a.toUInt32 <<< 16 + b.toUInt32 <<< 8) temp (n := 3) (by decide) 1 (Format.padding aFlags 1)
      rw [group_padding_one hsize', bytes_two (toNat_pushed_mod temp _ (by decide))] at hgroup
      exact decode_result (encoded_ne_nil _ _ (by decide) (by decide) _) hgroup
  | case4 a b c aStr ih =>
      have hsize' : aFlags &&& base64NoPadding ≠ 0 →
          size % 4 = (Format.base64 aFlags aStr).length % 4 := by
        intro h
        rw [hsize h, Format.base64, List.length_append, length_encoded _ _ (by decide)]
        omega
      have hgroup := group_encoded aFlags size decoded
        (a.toUInt32 <<< 16 + b.toUInt32 <<< 8 + c.toUInt32) temp (n := 4) (by decide) 0
        (Format.base64 aFlags aStr)
      have hmod := toNat_pushed_mod temp (a.toUInt32 <<< 16 + b.toUInt32 <<< 8 + c.toUInt32)
        (le_refl 4)
      rw [show 24 - 6 * 4 = 0 from rfl, Nat.pow_zero, Nat.div_one] at hmod
      rw [Format.base64, decode_full (encoded_ne_nil _ _ (by decide) (by decide) _) hgroup,
        bytes_three hmod, ih hsize', List.append_assoc]
      rfl

theorem length_base64 {aFlags : UInt32} (h : aFlags &&& base64NoPadding = 0) (aStr : Bytes) :
    (Format.base64 aFlags aStr).length % 4 = 0 := by
  induction aStr using Format.base64.induct with
  | case1 => rfl
  | case2 a =>
      rw [Format.base64, List.length_append, length_encoded _ _ (by decide), length_padding,
        if_pos h]
  | case3 a b =>
      rw [Format.base64, List.length_append, length_encoded _ _ (by decide), length_padding,
        if_pos h]
  | case4 a b c aStr ih =>
      rw [Format.base64, List.length_append, length_encoded _ _ (by decide)]
      omega

/-- Every byte string comes back, under all flags. -/
theorem base64_roundtrip (aStr : Bytes) (aFlags : UInt32) :
    Parser.base64 aFlags (Format.base64 aFlags aStr) = .ok aStr := by
  have hsize : ¬ (aFlags &&& base64NoPadding = 0 ∧
      (Format.base64 aFlags aStr).length % 4 ≠ 0) := by
    rintro ⟨hpad, hlen⟩
    exact hlen (length_base64 hpad aStr)
  rw [Parser.base64, if_neg hsize]
  exact decode_base64 aFlags aStr (fun _ => rfl) 0 []

end Stuff.Base64
