import Stuff.Base64
import Mathlib.Data.List.GetD
import Mathlib.Data.List.TakeWhile

/-!
# Texts that `Parser::Base64` accepts and `Format::Base64` does not write

The parser stops at the first pad character. It does not look at what stands behind it, nor at
the bits of the last character that no byte takes.
-/
namespace Stuff.Base64
open MachineWords

/-- The characters in front of the first one that is not of the alphabet. -/
def chars (aFlags : UInt32) (aStr : Bytes) : Bytes :=
  aStr.takeWhile (· ∈ Format.sEncodeLookup aFlags)

/-- The first one that is not of the alphabet, and what stands behind it. -/
def behind (aFlags : UInt32) (aStr : Bytes) : Bytes :=
  aStr.dropWhile (· ∈ Format.sEncodeLookup aFlags)

def sextet (aFlags : UInt32) (c : UInt8) : ℕ :=
  match Parser.symbol aFlags (Parser.current aFlags [c]) with
  | .value v => v.toNat
  | _ => 0

/-- The last of two characters has four bits that no byte takes, and the last of three has two. -/
def Unused (aFlags : UInt32) (cs : Bytes) : Prop :=
  sextet aFlags (cs.getLastD 0) % 4 ^ (4 - cs.length % 4) ≠ 0

instance (aFlags : UInt32) (cs : Bytes) : Decidable (Unused aFlags cs) :=
  inferInstanceAs (Decidable (_ ≠ _))

/-- The parser takes what is behind the characters for `n` of padding: with padding by the number
of them, in 32 bits, and without by the size of the text. -/
def Padded (aFlags : UInt32) (cs tail : Bytes) (n : ℕ) : Prop :=
  if aFlags &&& base64NoPadding = 0 then
    (cs ++ tail).length % 4 = 0 ∧ tail.head? = some (Parser.sPadCharacter aFlags) ∧
      tail.length % 2 ^ 32 = n
  else
    (cs ++ tail).length % 4 = 4 - n ∧
      (tail = [] ∨ tail.head? = some (Parser.sPadCharacter aFlags))

/-- There is other padding, or unused bits are set. -/
def Other (aFlags : UInt32) (cs tail : Bytes) (n : ℕ) : Prop :=
  tail ≠ Format.padding aFlags n ∨ Unused aFlags cs

instance (aFlags : UInt32) (cs tail : Bytes) (n : ℕ) : Decidable (Padded aFlags cs tail n) :=
  inferInstanceAs (Decidable (ite _ _ _))

instance (aFlags : UInt32) (cs tail : Bytes) (n : ℕ) : Decidable (Other aFlags cs tail n) :=
  inferInstanceAs (Decidable (_ ∨ _))

def Loose (aFlags : UInt32) (aStr : Bytes) : Prop :=
  Padded aFlags (chars aFlags aStr) (behind aFlags aStr) 1 ∧
      Other aFlags (chars aFlags aStr) (behind aFlags aStr) 1 ∨
    Padded aFlags (chars aFlags aStr) (behind aFlags aStr) 2 ∧
      Other aFlags (chars aFlags aStr) (behind aFlags aStr) 2

instance (aFlags : UInt32) (aStr : Bytes) : Decidable (Loose aFlags aStr) :=
  inferInstanceAs (Decidable (_ ∧ _ ∨ _ ∧ _))

/-! ## The alphabet -/

theorem length_sEncodeLookup (aFlags : UInt32) : (Format.sEncodeLookup aFlags).length = 64 := by
  rw [Format.sEncodeLookup, Format.sNormalLookup_eq, Format.sUrlSafeLookup_eq]
  split_ifs <;> decide +kernel

theorem mem_lookup (aFlags : UInt32) {i : UInt32} (hi : i.toNat < 64) :
    Format.lookup aFlags i ∈ Format.sEncodeLookup aFlags := by
  rw [← length_sEncodeLookup aFlags] at hi
  rw [Format.lookup, List.getD_eq_getElem _ _ hi]
  exact List.getElem_mem hi

theorem exists_lookup {aFlags : UInt32} {c : UInt8} (hc : c ∈ Format.sEncodeLookup aFlags) :
    ∃ i : UInt32, i.toNat < 64 ∧ Format.lookup aFlags i = c := by
  obtain ⟨i, hi, rfl⟩ := List.getElem_of_mem hc
  have hlt : i < 64 := (length_sEncodeLookup aFlags).symm ▸ hi
  have hof : (UInt32.ofNat i).toNat = i := by
    rw [UInt32.toNat_ofNat']
    omega
  refine ⟨UInt32.ofNat i, by omega, ?_⟩
  rw [Format.lookup, hof, List.getD_eq_getElem _ _ hi]

theorem exists_lookups {aFlags : UInt32} {cs : Bytes}
    (hcs : ∀ c ∈ cs, c ∈ Format.sEncodeLookup aFlags) :
    ∃ vs : List UInt32, (∀ v ∈ vs, v.toNat < 64) ∧ vs.map (Format.lookup aFlags) = cs := by
  induction cs with
  | nil => exact ⟨[], List.forall_mem_nil _, rfl⟩
  | cons c cs ih =>
      rw [List.forall_mem_cons] at hcs
      obtain ⟨v, hv, rfl⟩ := exists_lookup hcs.1
      obtain ⟨vs, hvs, rfl⟩ := ih hcs.2
      exact ⟨v :: vs, List.forall_mem_cons.mpr ⟨hv, hvs⟩, rfl⟩

theorem sextet_lookup (aFlags : UInt32) {i : UInt32} (hi : i.toNat < 64) :
    sextet aFlags (Format.lookup aFlags i) = i.toNat := by
  rw [sextet, symbol_lookup aFlags hi]

/-- A character has a value, or is the pad character, or is refused. -/
theorem symbol_cases (aFlags : UInt32) (c : UInt8) :
    Parser.symbol aFlags (Parser.current aFlags [c]) =
        (if c = Parser.sPadCharacter aFlags then .pad else .invalid) ∨
      sextet aFlags c < 64 ∧ Format.lookup aFlags (UInt32.ofNat (sextet aFlags c)) = c := by
  have hof : c = UInt8.ofNat c.toNat := UInt8.ofNat_toNat.symm
  have hlt := c.toNat_lt
  by_cases h : aFlags &&& base64UrlSafe ≠ 0
  · simp only [sextet, Parser.symbol, Parser.sPlus, Parser.sSlash, Parser.sPadCharacter,
      Parser.current, Format.lookup, Format.sEncodeLookup, Format.sUrlSafeLookup_eq, if_pos h]
    rw [hof]
    generalize c.toNat = n at hlt
    revert n
    decide +kernel
  · simp only [sextet, Parser.symbol, Parser.sPlus, Parser.sSlash, Parser.sPadCharacter,
      Parser.current, Format.lookup, Format.sEncodeLookup, Format.sNormalLookup_eq, if_neg h]
    rw [hof]
    generalize c.toNat = n at hlt
    revert n
    decide +kernel

theorem symbol_of_not_mem {aFlags : UInt32} {c : UInt8} (hc : c ∉ Format.sEncodeLookup aFlags)
    (rest : Bytes) : Parser.symbol aFlags (Parser.current aFlags (c :: rest)) =
      if c = Parser.sPadCharacter aFlags then .pad else .invalid := by
  rcases symbol_cases aFlags c with hother | ⟨hlt, hlookup⟩
  · exact hother
  · rw [← hlookup] at hc
    refine absurd (mem_lookup aFlags ?_) hc
    rw [UInt32.toNat_ofNat']
    omega

theorem pad_not_mem (aFlags : UInt32) :
    Parser.sPadCharacter aFlags ∉ Format.sEncodeLookup aFlags := by
  rw [Parser.sPadCharacter, Format.sEncodeLookup, Format.sNormalLookup_eq,
    Format.sUrlSafeLookup_eq]
  split_ifs <;> decide +kernel

/-! ## Whole groups -/

/-- The word that the characters of four values give. -/
theorem exists_word {v₁ v₂ v₃ v₄ : UInt32} (h₁ : v₁.toNat < 64) (h₂ : v₂.toNat < 64)
    (h₃ : v₃.toNat < 64) (h₄ : v₄.toNat < 64) : ∃ a b c : UInt8,
      Format.sextets (a.toUInt32 <<< 16 + b.toUInt32 <<< 8 + c.toUInt32) = [v₁, v₂, v₃, v₄] := by
  have hbyte : ∀ {n : ℕ}, n < 256 → (UInt8.ofNat n).toNat = n := by
    intro n hn
    rw [UInt8.toNat_ofNat']
    omega
  refine ⟨UInt8.ofNat (v₁.toNat * 4 + v₂.toNat / 16),
    UInt8.ofNat (v₂.toNat % 16 * 16 + v₃.toNat / 4), UInt8.ofNat (v₃.toNat % 4 * 64 + v₄.toNat), ?_⟩
  apply List.map_injective_iff.mpr (fun _ _ => UInt32.toNat_inj.mp)
  rw [toNat_sextets, toNat_three, hbyte (by omega), hbyte (by omega), hbyte (by omega)]
  simp only [List.map_cons, List.map_nil, List.cons.injEq, and_true]
  omega

/-- The texts of whole groups are those of bytes by the three. -/
theorem exists_base64 (aFlags : UInt32) (vs : List UInt32) (hvs : ∀ v ∈ vs, v.toNat < 64)
    (hlen : vs.length % 4 = 0) : ∃ aStr : Bytes, aStr.length % 3 = 0 ∧
      Format.base64 aFlags aStr = vs.map (Format.lookup aFlags) := by
  match vs with
  | [] => exact ⟨[], rfl, rfl⟩
  | [_] | [_, _] | [_, _, _] => simp at hlen
  | v₁ :: v₂ :: v₃ :: v₄ :: vs =>
      simp only [List.forall_mem_cons] at hvs
      obtain ⟨h₁, h₂, h₃, h₄, hvs⟩ := hvs
      obtain ⟨aStr, hthree, hstr⟩ := exists_base64 aFlags vs hvs
        (by simp only [List.length_cons] at hlen; omega)
      obtain ⟨a, b, c, hword⟩ := exists_word h₁ h₂ h₃ h₄
      refine ⟨a :: b :: c :: aStr, ?_, ?_⟩
      · simp only [List.length_cons]
        omega
      · rw [Format.base64, Format.encoded, hword, hstr]
        rfl

theorem base64_append (aFlags : UInt32) {aStr : Bytes} (h : aStr.length % 3 = 0) (last : Bytes) :
    Format.base64 aFlags (aStr ++ last) =
      Format.base64 aFlags aStr ++ Format.base64 aFlags last := by
  induction aStr using Format.base64.induct with
  | case1 => rfl
  | case2 a => simp at h
  | case3 a b => simp at h
  | case4 a b c aStr ih =>
      rw [List.length_cons, List.length_cons, List.length_cons] at h
      rw [List.cons_append, List.cons_append, List.cons_append, Format.base64, ih (by omega),
        Format.base64, List.append_assoc]

theorem decode_base64_append (aFlags : UInt32) (size : ℕ) {aStr : Bytes}
    (h : aStr.length % 3 = 0) (temp : UInt32) (decoded it : Bytes) :
    ∃ temp', Parser.decode aFlags size temp decoded (Format.base64 aFlags aStr ++ it) =
      Parser.decode aFlags size temp' (decoded ++ aStr) it := by
  induction aStr using Format.base64.induct generalizing temp decoded with
  | case1 =>
      rw [List.append_nil]
      exact ⟨temp, rfl⟩
  | case2 a => simp at h
  | case3 a b => simp at h
  | case4 a b c aStr ih =>
      rw [List.length_cons, List.length_cons, List.length_cons] at h
      have hgroup := group_encoded aFlags size decoded
        (a.toUInt32 <<< 16 + b.toUInt32 <<< 8 + c.toUInt32) temp (n := 4) (by decide) 0
        (Format.base64 aFlags aStr ++ it)
      have hmod := toNat_pushed_mod temp (a.toUInt32 <<< 16 + b.toUInt32 <<< 8 + c.toUInt32)
        (le_refl 4)
      rw [show 24 - 6 * 4 = 0 from rfl, Nat.pow_zero, Nat.div_one] at hmod
      rw [Format.base64, List.append_assoc,
        decode_full (encoded_ne_nil _ _ (by decide) (by decide) _) hgroup, bytes_three hmod]
      obtain ⟨temp', htemp⟩ := ih (by omega)
        (pushed temp (a.toUInt32 <<< 16 + b.toUInt32 <<< 8 + c.toUInt32) 4) (decoded ++ [a, b, c])
      refine ⟨temp', htemp.trans ?_⟩
      rw [List.append_assoc]
      rfl

/-! ## The last group -/

/-- The bytes of a last group whose characters are in the word. -/
def lastBytes (w : UInt32) (n : ℕ) : Bytes :=
  if n = 1 then [Parser.byte ((w <<< 6) >>> 16), Parser.byte ((w <<< 6) >>> 8)]
  else [Parser.byte ((w <<< 6) >>> 10)]

theorem map_lookup_inj (aFlags : UInt32) {us vs : List UInt32} (hus : ∀ u ∈ us, u.toNat < 64)
    (hvs : ∀ v ∈ vs, v.toNat < 64) :
    us.map (Format.lookup aFlags) = vs.map (Format.lookup aFlags) ↔
      us.map UInt32.toNat = vs.map UInt32.toNat := by
  have hback : ∀ {ws : List UInt32}, (∀ w ∈ ws, w.toNat < 64) →
      (ws.map (Format.lookup aFlags)).map (sextet aFlags) = ws.map UInt32.toNat := by
    intro ws hws
    rw [List.map_map]
    exact List.map_congr_left fun w hw => sextet_lookup aFlags (hws w hw)
  constructor
  · intro h
    rw [← hback hus, ← hback hvs, h]
  · intro h
    rw [List.map_injective_iff.mpr (fun _ _ => UInt32.toNat_inj.mp) h]

/-- A last group is written as it was read if and only if it has the same values and padding. -/
theorem encoded_append_iff (aFlags t : UInt32) {vs : List UInt32} (hvs : ∀ v ∈ vs, v.toNat < 64)
    (hlen : vs.length ≤ 4) (ending tail : Bytes) :
    Format.encoded aFlags t vs.length ++ ending = vs.map (Format.lookup aFlags) ++ tail ↔
      tail = ending ∧
        ((Format.sextets t).map UInt32.toNat).take vs.length = vs.map UInt32.toNat := by
  have hsame : (Format.encoded aFlags t vs.length).length =
      (vs.map (Format.lookup aFlags)).length := by
    rw [length_encoded _ _ hlen, List.length_map]
  have hlt : ∀ v ∈ (Format.sextets t).take vs.length, v.toNat < 64 := fun v hv =>
    sextets_lt t v (List.mem_of_mem_take hv)
  rw [← List.map_take, ← map_lookup_inj aFlags hlt hvs]
  constructor
  · intro h
    obtain ⟨hleft, hright⟩ := List.append_inj h hsame
    exact ⟨hright.symm, hleft⟩
  · rintro ⟨rfl, hleft⟩
    rw [Format.encoded, hleft]

theorem base64_two_iff (aFlags : UInt32) {w v₁ v₂ : UInt32} (h₁ : v₁.toNat < 64)
    (h₂ : v₂.toNat < 64) (hw : w.toNat % 2 ^ 12 = v₁.toNat * 64 + v₂.toNat) (tail : Bytes) :
    Format.base64 aFlags (lastBytes w 2) = [v₁, v₂].map (Format.lookup aFlags) ++ tail ↔
      tail = Format.padding aFlags 2 ∧ v₂.toNat % 16 = 0 := by
  have hbyte : (Parser.byte ((w <<< 6) >>> 10)).toNat = (w <<< 6).toNat / 2 ^ 10 % 256 :=
    toNat_byte_shift _ 10
  rw [toNat_shift6] at hbyte
  have hvs : ∀ v ∈ [v₁, v₂], v.toNat < 64 := by simp [h₁, h₂]
  refine (encoded_append_iff aFlags _ hvs (by simp) _ tail).trans (and_congr_right fun _ => ?_)
  rw [toNat_sextets, toNat_shift16, hbyte]
  simp only [List.length_cons, List.length_nil, List.take_succ_cons, List.take_zero, List.map_cons,
    List.map_nil, List.cons.injEq, and_true]
  omega

theorem base64_three_iff (aFlags : UInt32) {w v₁ v₂ v₃ : UInt32} (h₁ : v₁.toNat < 64)
    (h₂ : v₂.toNat < 64) (h₃ : v₃.toNat < 64)
    (hw : w.toNat % 2 ^ 18 = v₁.toNat * 4096 + v₂.toNat * 64 + v₃.toNat) (tail : Bytes) :
    Format.base64 aFlags (lastBytes w 1) = [v₁, v₂, v₃].map (Format.lookup aFlags) ++ tail ↔
      tail = Format.padding aFlags 1 ∧ v₃.toNat % 4 = 0 := by
  have hfirst : (Parser.byte ((w <<< 6) >>> 16)).toNat = (w <<< 6).toNat / 2 ^ 16 % 256 :=
    toNat_byte_shift _ 16
  have hsecond : (Parser.byte ((w <<< 6) >>> 8)).toNat = (w <<< 6).toNat / 2 ^ 8 % 256 :=
    toNat_byte_shift _ 8
  rw [toNat_shift6] at hfirst hsecond
  have hvs : ∀ v ∈ [v₁, v₂, v₃], v.toNat < 64 := by simp [h₁, h₂, h₃]
  refine (encoded_append_iff aFlags _ hvs (by simp) _ tail).trans (and_congr_right fun _ => ?_)
  rw [toNat_sextets, toNat_two, hfirst, hsecond]
  simp only [List.length_cons, List.length_nil, List.take_succ_cons, List.take_zero, List.map_cons,
    List.map_nil, List.cons.injEq, and_true]
  omega

theorem unused_two (aFlags : UInt32) {v₁ v₂ : UInt32} (h₂ : v₂.toNat < 64) :
    Unused aFlags ([v₁, v₂].map (Format.lookup aFlags)) ↔ v₂.toNat % 16 ≠ 0 := by
  have hsextet := sextet_lookup aFlags h₂
  exact hsextet ▸ Iff.rfl

theorem unused_three (aFlags : UInt32) {v₁ v₂ v₃ : UInt32} (h₃ : v₃.toNat < 64) :
    Unused aFlags ([v₁, v₂, v₃].map (Format.lookup aFlags)) ↔ v₃.toNat % 4 ≠ 0 := by
  have hsextet := sextet_lookup aFlags h₃
  exact hsextet ▸ Iff.rfl

/-- The bytes of a last group are written as the group if and only if there is the right padding
and no unused bit is set. -/
theorem base64_lastBytes_iff (aFlags temp : UInt32) {vs : List UInt32} {n : ℕ}
    (hn : n = 1 ∨ n = 2) (hvs : ∀ v ∈ vs, v.toNat < 64) (hlen : vs.length = 4 - n)
    (tail : Bytes) :
    Format.base64 aFlags (lastBytes (vs.foldl (fun temp v => temp <<< 6 ||| v) temp) n) =
        vs.map (Format.lookup aFlags) ++ tail ↔
      ¬ Other aFlags (vs.map (Format.lookup aFlags)) tail n := by
  rw [Other, not_or, not_ne_iff]
  rcases hn with rfl | rfl
  · obtain ⟨v₁, v₂, v₃, rfl⟩ := List.length_eq_three.mp hlen
    simp only [List.forall_mem_cons] at hvs
    obtain ⟨h₁, h₂, h₃, -⟩ := hvs
    rw [unused_three aFlags h₃, not_ne_iff]
    refine base64_three_iff aFlags h₁ h₂ h₃ ?_ tail
    simp only [List.foldl_cons, List.foldl_nil, toNat_shift6_or _ h₁, toNat_shift6_or _ h₂,
      toNat_shift6_or _ h₃]
    omega
  · obtain ⟨v₁, v₂, rfl⟩ := List.length_eq_two.mp hlen
    simp only [List.forall_mem_cons] at hvs
    obtain ⟨h₁, h₂, -⟩ := hvs
    rw [unused_two aFlags h₂, not_ne_iff]
    refine base64_two_iff aFlags h₁ h₂ ?_ tail
    simp only [List.foldl_cons, List.foldl_nil, toNat_shift6_or _ h₁, toNat_shift6_or _ h₂]
    omega

/-! ## Where the parser stops -/

theorem Padded.unique {aFlags : UInt32} {cs tail : Bytes} {m n : ℕ} (hm : m ≤ 2) (hn : n ≤ 2)
    (h : Padded aFlags cs tail m) (h' : Padded aFlags cs tail n) : m = n := by
  rw [Padded] at h h'
  split_ifs at h h'
  · exact h.2.2.symm.trans h'.2.2
  · omega

theorem Padded.atPad {aFlags : UInt32} {cs tail : Bytes} {n : ℕ} (hn : n = 1 ∨ n = 2)
    (h : Padded aFlags cs tail n) (w : UInt32) (decoded : Bytes) :
    Parser.atPad aFlags (cs ++ tail).length tail.length (w <<< 6) decoded =
      .ok (decoded ++ lastBytes w n) := by
  have hsize : Parser.sPadSize aFlags (cs ++ tail).length tail.length = .ok (UInt32.ofNat n) := by
    rw [Padded] at h
    rw [Parser.sPadSize]
    split_ifs at h ⊢ with hflags hthree htwo
    · rw [← h.2.2, ← UInt32.toNat_ofNat', UInt32.ofNat_toNat]
    · rw [show n = 1 by omega]
      rfl
    · rw [show n = 2 by omega]
      rfl
    · omega
  rw [Parser.atPad, hsize]
  rcases hn with rfl | rfl <;> rfl

theorem atPad_error {aFlags : UInt32} {cs tail : Bytes}
    (hsize : aFlags &&& base64NoPadding = 0 → (cs ++ tail).length % 4 = 0)
    (htail : tail = [] ∨ tail.head? = some (Parser.sPadCharacter aFlags))
    (h₁ : ¬ Padded aFlags cs tail 1) (h₂ : ¬ Padded aFlags cs tail 2) (w : UInt32)
    (decoded : Bytes) :
    ∃ e, Parser.atPad aFlags (cs ++ tail).length tail.length (w <<< 6) decoded = .error e := by
  rw [Padded] at h₁ h₂
  rw [Parser.atPad, Parser.sPadSize]
  by_cases hflags : aFlags &&& base64NoPadding = 0
  · have hno : ∀ n, n = 1 ∨ n = 2 → UInt32.ofNat tail.length ≠ UInt32.ofNat n := by
      intro n hn heq
      have hlen := congrArg UInt32.toNat heq
      rw [UInt32.toNat_ofNat', UInt32.toNat_ofNat'] at hlen
      have hne : tail ≠ [] := by
        rintro rfl
        rw [List.length_nil] at hlen
        omega
      have hall : (cs ++ tail).length % 4 = 0 ∧
          tail.head? = some (Parser.sPadCharacter aFlags) ∧ tail.length % 2 ^ 32 = n :=
        ⟨hsize hflags, htail.resolve_left hne, by omega⟩
      rcases hn with rfl | rfl
      · exact h₁ (by rwa [if_pos hflags])
      · exact h₂ (by rwa [if_pos hflags])
    refine ⟨Parser.invalidPadding, ?_⟩
    rw [if_pos hflags]
    exact (if_neg (hno 1 (.inl rfl))).trans (if_neg (hno 2 (.inr rfl)))
  · rw [if_neg hflags] at h₁ h₂
    refine ⟨Parser.invalidInput, ?_⟩
    rw [if_neg hflags, if_neg fun h => h₁ ⟨h, htail⟩, if_neg fun h => h₂ ⟨h, htail⟩]
    rfl

section Tail
variable {aFlags : UInt32} {vs : List UInt32} {tail : Bytes}

/-- The group stops at the pad character, and at the end. -/
theorem group_tail (hvs : ∀ v ∈ vs, v.toNat < 64) (hlen : vs.length < 4)
    (htail : tail = [] ∨ tail.head? = some (Parser.sPadCharacter aFlags)) (size : ℕ)
    (decoded : Bytes) (temp : UInt32) :
    Parser.group aFlags size decoded 4 temp (vs.map (Format.lookup aFlags) ++ tail) =
      .result (Parser.atPad aFlags size tail.length
        (vs.foldl (fun (temp v : UInt32) => temp <<< 6 ||| v) temp <<< 6) decoded) := by
  obtain ⟨m, hm⟩ : ∃ m, 4 = vs.length + (m + 1) := ⟨3 - vs.length, by omega⟩
  rw [hm, group_map hvs]
  rcases htail with rfl | hpad
  · exact group_end m _
  · obtain ⟨rest, rfl⟩ := List.head?_eq_some_iff.mp hpad
    exact group_pad m _ rest

theorem group_invalid (hvs : ∀ v ∈ vs, v.toNat < 64) (hlen : vs.length < 4) {c : UInt8}
    {rest : Bytes} (hc : c ∉ Format.sEncodeLookup aFlags) (hpad : c ≠ Parser.sPadCharacter aFlags)
    (size : ℕ) (decoded : Bytes) (temp : UInt32) : ∃ e,
      Parser.group aFlags size decoded 4 temp (vs.map (Format.lookup aFlags) ++ c :: rest) =
        .result (.error e) := by
  obtain ⟨m, hm⟩ : ∃ m, 4 = vs.length + (m + 1) := ⟨3 - vs.length, by omega⟩
  rw [hm, group_map hvs, Parser.group, symbol_of_not_mem hc, if_neg hpad]
  exact ⟨_, rfl⟩

end Tail

theorem decode_nil (aFlags : UInt32) (size : ℕ) (temp : UInt32) (decoded : Bytes) :
    Parser.decode aFlags size temp decoded [] = .ok decoded := by
  rw [Parser.decode, dif_pos rfl]

/-! ## Strict texts -/

/-- A text in its whole groups, the values of the last one, and what is behind them. -/
structure Parts (aFlags : UInt32) (aStr : Bytes) where
  whole : Bytes
  last : List UInt32
  three : whole.length % 3 = 0
  small : ∀ v ∈ last, v.toNat < 64
  short : last.length < 4
  length : (Format.base64 aFlags whole).length % 4 = 0
  chars_eq : chars aFlags aStr =
    Format.base64 aFlags whole ++ last.map (Format.lookup aFlags)

theorem exists_parts (aFlags : UInt32) (aStr : Bytes) : Nonempty (Parts aFlags aStr) := by
  have hmem : ∀ c ∈ chars aFlags aStr, c ∈ Format.sEncodeLookup aFlags := fun c hc =>
    of_decide_eq_true (List.mem_takeWhile_imp (p := fun b => decide (b ∈ _)) hc)
  obtain ⟨vs, hvs, heq⟩ := exists_lookups hmem
  have hfirst : (vs.take (4 * (vs.length / 4))).length % 4 = 0 := by
    rw [List.length_take]
    omega
  obtain ⟨whole, hthree, hwhole⟩ := exists_base64 aFlags (vs.take (4 * (vs.length / 4)))
    (fun v hv => hvs v (List.mem_of_mem_take hv)) hfirst
  refine ⟨whole, vs.drop (4 * (vs.length / 4)), hthree,
    fun v hv => hvs v (List.mem_of_mem_drop hv), ?_, ?_, ?_⟩
  · rw [List.length_drop]
    omega
  · rwa [hwhole, List.length_map]
  · rw [hwhole, ← List.map_append, List.take_append_drop, heq]

theorem chars_append_behind (aFlags : UInt32) (aStr : Bytes) :
    chars aFlags aStr ++ behind aFlags aStr = aStr :=
  List.takeWhile_append_dropWhile

theorem head_behind {aFlags : UInt32} {aStr : Bytes} {c : UInt8} {rest : Bytes}
    (h : behind aFlags aStr = c :: rest) : c ∉ Format.sEncodeLookup aFlags := by
  have hhead := List.head?_dropWhile_not (fun b => decide (b ∈ Format.sEncodeLookup aFlags)) aStr
  rw [behind] at h
  rw [h] at hhead
  simpa using hhead

section Parts
variable {aFlags : UInt32} {aStr : Bytes} (p : Parts aFlags aStr)

theorem Parts.length_chars : (chars aFlags aStr).length % 4 = p.last.length := by
  have hlength := p.length
  have hshort := p.short
  rw [p.chars_eq, List.length_append, List.length_map]
  omega

theorem Parts.text_eq : aStr = Format.base64 aFlags p.whole ++
    (p.last.map (Format.lookup aFlags) ++ behind aFlags aStr) := by
  rw [← List.append_assoc, ← p.chars_eq, chars_append_behind]

/-- The unused bits are those of the last group. -/
theorem Parts.unused_iff (h : p.last ≠ []) :
    Unused aFlags (chars aFlags aStr) ↔ Unused aFlags (p.last.map (Format.lookup aFlags)) := by
  have hlength := p.length
  have hlast : (Format.base64 aFlags p.whole ++ p.last.map (Format.lookup aFlags)).getLastD 0 =
      (p.last.map (Format.lookup aFlags)).getLastD 0 := by
    rw [List.getLastD_eq_getLast?, List.getLastD_eq_getLast?, List.getLast?_append_of_ne_nil]
    exact fun hnil => h (List.map_eq_nil_iff.mp hnil)
  rw [Unused, Unused, p.chars_eq, hlast, List.length_append, Nat.add_mod, hlength, Nat.zero_add,
    Nat.mod_mod]

/-- What the parser returns is what the last group gives, behind the whole groups. -/
theorem Parts.base64_eq (hit : p.last.map (Format.lookup aFlags) ++ behind aFlags aStr ≠ [])
    (hsize : aFlags &&& base64NoPadding = 0 → aStr.length % 4 = 0) : ∃ temp, ∀ r,
      Parser.group aFlags aStr.length p.whole 4 temp
          (p.last.map (Format.lookup aFlags) ++ behind aFlags aStr) = .result r →
        Parser.base64 aFlags aStr = r := by
  obtain ⟨temp, htemp⟩ := decode_base64_append aFlags aStr.length p.three 0 []
    (p.last.map (Format.lookup aFlags) ++ behind aFlags aStr)
  rw [← p.text_eq, List.nil_append] at htemp
  refine ⟨temp, fun r hr => ?_⟩
  rw [Parser.base64, if_neg fun h => h.2 (hsize h.1), htemp]
  exact decode_result hit hr

theorem Parts.length_last {n : ℕ} (hn : n = 1 ∨ n = 2)
    (h : Padded aFlags (chars aFlags aStr) (behind aFlags aStr) n)
    (hbehind : aFlags &&& base64NoPadding = 0 ∨ behind aFlags aStr = []) :
    p.last.length = 4 - n := by
  have hchars := p.length_chars
  rw [Padded, List.length_append] at h
  split_ifs at h with hflags
  · omega
  · have hnil := hbehind.resolve_left hflags
    rw [hnil, List.length_nil] at h
    omega

theorem Parts.last_group_ne_nil {n : ℕ} (hn : n = 1 ∨ n = 2)
    (h : Padded aFlags (chars aFlags aStr) (behind aFlags aStr) n) :
    p.last.map (Format.lookup aFlags) ++ behind aFlags aStr ≠ [] := by
  intro hnil
  obtain ⟨hlast, hbehind⟩ := List.append_eq_nil_iff.mp hnil
  have hlen := p.length_last hn h (.inr hbehind)
  rw [List.map_eq_nil_iff.mp hlast, List.length_nil] at hlen
  omega

end Parts

/-- What the format does not write is of the alphabet, when it writes no padding. -/
theorem mem_base64 {aFlags : UInt32} (h : aFlags &&& base64NoPadding ≠ 0) {aStr : Bytes}
    {c : UInt8} (hc : c ∈ Format.base64 aFlags aStr) : c ∈ Format.sEncodeLookup aFlags := by
  have hencoded : ∀ {t : UInt32} {n : ℕ}, c ∈ Format.encoded aFlags t n →
      c ∈ Format.sEncodeLookup aFlags := by
    intro t n hmem
    rw [Format.encoded] at hmem
    obtain ⟨v, hv, rfl⟩ := List.mem_map.mp hmem
    exact mem_lookup aFlags (sextets_lt t v (List.mem_of_mem_take hv))
  have hpadding : ∀ n, Format.padding aFlags n = [] := fun n => if_neg h
  induction aStr using Format.base64.induct with
  | case1 => cases hc
  | case2 a =>
      rw [Format.base64, hpadding, List.append_nil] at hc
      exact hencoded hc
  | case3 a b =>
      rw [Format.base64, hpadding, List.append_nil] at hc
      exact hencoded hc
  | case4 a b c' aStr ih =>
      rw [Format.base64] at hc
      rcases List.mem_append.mp hc with hc | hc
      · exact hencoded hc
      · exact ih hc

/-- What is returned for the text is written as the text again. -/
def Strict (aFlags : UInt32) (aStr : Bytes) : Prop :=
  ∀ decoded, Parser.base64 aFlags aStr = .ok decoded → Format.base64 aFlags decoded = aStr

theorem strict_of_error {aFlags : UInt32} {aStr : Bytes}
    (h : ∃ e, Parser.base64 aFlags aStr = .error e) : Strict aFlags aStr := by
  obtain ⟨e, he⟩ := h
  intro decoded hdecoded
  cases he.symm.trans hdecoded

/-- Only the last group has a choice. -/
theorem Parts.strict_iff_last {aFlags : UInt32} {aStr tail : Bytes} (p : Parts aFlags aStr)
    (hok : Parser.base64 aFlags aStr = .ok (p.whole ++ tail)) :
    Strict aFlags aStr ↔
      Format.base64 aFlags tail = p.last.map (Format.lookup aFlags) ++ behind aFlags aStr := by
  have happend := base64_append aFlags p.three tail
  constructor
  · intro hall
    have hback := hall _ hok
    rw [happend] at hback
    exact List.append_cancel_left (hback.trans p.text_eq)
  · intro hlast decoded hdecoded
    cases hok.symm.trans hdecoded
    rw [happend, hlast, ← p.text_eq]

/-- Without padding the format never writes the pad character. -/
theorem base64_ne_of_pad {aFlags : UInt32} {front back : Bytes}
    (hflags : aFlags &&& base64NoPadding ≠ 0)
    (hback : back.head? = some (Parser.sPadCharacter aFlags)) (aStr : Bytes) :
    Format.base64 aFlags aStr ≠ front ++ back := by
  intro heq
  obtain ⟨rest, rfl⟩ := List.head?_eq_some_iff.mp hback
  have hmem : Parser.sPadCharacter aFlags ∈ Format.base64 aFlags aStr := by
    rw [heq]
    exact List.mem_append_right front List.mem_cons_self
  exact pad_not_mem aFlags (mem_base64 hflags hmem)

theorem Parts.strict_of_padded {aFlags : UInt32} {aStr : Bytes} (p : Parts aFlags aStr) {n : ℕ}
    (hn : n = 1 ∨ n = 2) (h : Padded aFlags (chars aFlags aStr) (behind aFlags aStr) n) :
    Strict aFlags aStr ↔ ¬ Other aFlags (chars aFlags aStr) (behind aFlags aStr) n := by
  have htail : behind aFlags aStr = [] ∨
      (behind aFlags aStr).head? = some (Parser.sPadCharacter aFlags) := by
    rw [Padded] at h
    split_ifs at h
    · exact .inr h.2.1
    · exact h.2
  have hsize : aFlags &&& base64NoPadding = 0 → aStr.length % 4 = 0 := by
    intro hflags
    rw [Padded, if_pos hflags, chars_append_behind] at h
    exact h.1
  obtain ⟨temp, htemp⟩ := p.base64_eq (p.last_group_ne_nil hn h) hsize
  have hok := htemp _ (group_tail p.small p.short htail aStr.length p.whole temp)
  have hpad := h.atPad hn (p.last.foldl (fun temp v => temp <<< 6 ||| v) temp) p.whole
  rw [chars_append_behind] at hpad
  rw [hpad] at hok
  rw [p.strict_iff_last hok]
  by_cases hbehind : aFlags &&& base64NoPadding = 0 ∨ behind aFlags aStr = []
  · have hlen := p.length_last hn h hbehind
    have hne : p.last ≠ [] := by
      intro hnil
      rw [hnil, List.length_nil] at hlen
      omega
    rw [base64_lastBytes_iff aFlags temp hn p.small hlen, Other, Other, p.unused_iff hne]
  · rw [not_or] at hbehind
    refine iff_of_false (base64_ne_of_pad hbehind.1 (htail.resolve_left hbehind.2) _) ?_
    rw [not_not]
    refine .inl ?_
    rw [Format.padding, if_neg hbehind.1]
    exact hbehind.2

theorem loose_of_padded {aFlags : UInt32} {aStr : Bytes} {n : ℕ} (hn : n = 1 ∨ n = 2)
    (h : Padded aFlags (chars aFlags aStr) (behind aFlags aStr) n) :
    Loose aFlags aStr ↔ Other aFlags (chars aFlags aStr) (behind aFlags aStr) n := by
  constructor
  · rintro (⟨hone, hother⟩ | ⟨htwo, hother⟩)
    · rwa [h.unique (by omega) (by omega) hone]
    · rwa [h.unique (by omega) (by omega) htwo]
  · intro hother
    rcases hn with rfl | rfl
    · exact .inl ⟨h, hother⟩
    · exact .inr ⟨h, hother⟩

theorem Parts.strict_of_not_padded {aFlags : UInt32} {aStr : Bytes} (p : Parts aFlags aStr)
    (h₁ : ¬ Padded aFlags (chars aFlags aStr) (behind aFlags aStr) 1)
    (h₂ : ¬ Padded aFlags (chars aFlags aStr) (behind aFlags aStr) 2) : Strict aFlags aStr := by
  by_cases hsize : aFlags &&& base64NoPadding = 0 ∧ aStr.length % 4 ≠ 0
  · exact strict_of_error ⟨_, if_pos hsize⟩
  have hsize' : aFlags &&& base64NoPadding = 0 → aStr.length % 4 = 0 := fun hflags =>
    not_not.mp fun hne => hsize ⟨hflags, hne⟩
  by_cases hit : p.last.map (Format.lookup aFlags) ++ behind aFlags aStr = []
  · have htext := p.text_eq
    rw [hit, List.append_nil] at htext
    obtain ⟨temp, htemp⟩ := decode_base64_append aFlags aStr.length p.three 0 [] []
    rw [List.append_nil, ← htext, List.nil_append, decode_nil] at htemp
    intro decoded hdecoded
    rw [Parser.base64, if_neg hsize, htemp] at hdecoded
    cases hdecoded
    exact htext.symm
  obtain ⟨temp, htemp⟩ := p.base64_eq hit hsize'
  by_cases htail : behind aFlags aStr = [] ∨
      (behind aFlags aStr).head? = some (Parser.sPadCharacter aFlags)
  · have hresult := htemp _ (group_tail p.small p.short htail aStr.length p.whole temp)
    have hparts : aFlags &&& base64NoPadding = 0 →
        (chars aFlags aStr ++ behind aFlags aStr).length % 4 = 0 := by
      rwa [chars_append_behind]
    obtain ⟨e, he⟩ := atPad_error hparts htail h₁ h₂
      (p.last.foldl (fun temp v => temp <<< 6 ||| v) temp) p.whole
    rw [chars_append_behind] at he
    exact strict_of_error ⟨e, hresult.trans he⟩
  · rw [not_or] at htail
    obtain ⟨c, rest, hrest⟩ := List.exists_cons_of_ne_nil htail.1
    have hpad : c ≠ Parser.sPadCharacter aFlags := by
      rintro rfl
      exact htail.2 (hrest ▸ rfl)
    obtain ⟨e, he⟩ :=
      group_invalid p.small p.short (head_behind hrest) hpad aStr.length p.whole temp
    exact strict_of_error ⟨e, htemp _ (hrest ▸ he)⟩

/-- What is decoded is encoded as the text again if and only if the text is not loose. -/
theorem base64_strict_iff (aFlags : UInt32) (aStr : Bytes) :
    (∀ decoded, Parser.base64 aFlags aStr = .ok decoded →
      Format.base64 aFlags decoded = aStr) ↔ ¬ Loose aFlags aStr := by
  obtain ⟨p⟩ := exists_parts aFlags aStr
  by_cases h₁ : Padded aFlags (chars aFlags aStr) (behind aFlags aStr) 1
  · rw [loose_of_padded (.inl rfl) h₁]
    exact p.strict_of_padded (.inl rfl) h₁
  by_cases h₂ : Padded aFlags (chars aFlags aStr) (behind aFlags aStr) 2
  · rw [loose_of_padded (.inr rfl) h₂]
    exact p.strict_of_padded (.inr rfl) h₂
  refine iff_of_true (p.strict_of_not_padded h₁ h₂) ?_
  rintro (⟨hone, -⟩ | ⟨htwo, -⟩)
  · exact h₁ hone
  · exact h₂ htwo

/-- Three texts of `A`: the one that is written, one with a letter behind the pad character, and
one with an unused bit. -/
theorem three_texts :
    (∀ aStr ∈ [ascii "QQ==", ascii "QQ=A", ascii "QR=="],
      Parser.base64 0 aStr = .ok (ascii "A")) ∧ Format.base64 0 (ascii "A") = ascii "QQ==" ∧
      ¬ Strict 0 (ascii "QQ=A") ∧ ¬ Strict 0 (ascii "QR==") := by
  have hdecode : ∀ {aStr : Bytes}, aStr ≠ [] → aStr.length % 4 = 0 →
      Parser.group 0 aStr.length [] 4 0 aStr = .result (.ok (ascii "A")) →
        Parser.base64 0 aStr = .ok (ascii "A") := by
    intro aStr hne hsize hgroup
    rw [Parser.base64, if_neg fun h => h.2 hsize]
    exact decode_result hne hgroup
  have hletter := @hdecode (ascii "QQ=A") (by decide) rfl rfl
  have hbit := @hdecode (ascii "QR==") (by decide) rfl rfl
  have hformat : Format.base64 0 (ascii "A") = ascii "QQ==" := rfl
  refine ⟨?_, hformat, fun h => ?_, fun h => ?_⟩
  · simp only [List.forall_mem_cons]
    exact ⟨hdecode (by decide) rfl rfl, hletter, hbit, List.forall_mem_nil _⟩
  · exact absurd (h _ hletter) (by rw [hformat]; decide)
  · exact absurd (h _ hbit) (by rw [hformat]; decide)

end Stuff.Base64
