import Stuff.CounterMode
import Mathlib.Tactic.NormNum

/-!
# Reading from the middle of an encrypted text

`SSLxx::CTR` calls the EVP functions of OpenSSL, which are a parameter here. `calculateIV` moves the
counter, which is the vector of 16 bytes, on to the block of an offset. It adds to the lower word
and carries into the upper one. With a cipher in counter mode, a piece of a text is then encrypted
and decrypted on its own.
-/
namespace Stuff.SslCtr
open MachineWords ByteOrder CounterMode

/-- The functions of OpenSSL. There is no result if they do not return one. An init function takes
the cipher, the key and the vector, an update function the input and its size. The functions with an
output return what they write. -/
structure Evp (Cipher Ctx : Type) where
  new : Option Ctx
  encryptInit : Ctx → Cipher → Bytes → Bytes → Option Ctx
  encryptUpdate : Ctx → Bytes → ℤ → Option (Bytes × Ctx)
  encryptFinal : Ctx → Option Bytes
  decryptInit : Ctx → Cipher → Bytes → Bytes → Option Ctx
  decryptUpdate : Ctx → Bytes → ℤ → Option (Bytes × Ctx)
  decryptFinal : Ctx → Option Bytes

structure Config (Cipher : Type) where
  kind : Cipher
  iv : Bytes
  key : Bytes

variable {Cipher Ctx : Type}

def orThrow {α : Type} (error : String) : Option α → Except String α
  | none => .error error
  | some a => .ok a

/-- A size as an `int`. -/
def toInt (size : ℕ) : ℤ :=
  if size % 2 ^ 32 < 2 ^ 31 then (size % 2 ^ 32 : ℕ) else (size % 2 ^ 32 : ℕ) - 2 ^ 32

/-- The text of the given size that begins with what has been written. -/
def resized (size : ℕ) (written : Bytes) : Bytes :=
  written ++ List.replicate (size - written.length) 0

def encrypt (evp : Evp Cipher Ctx) (sCfg : Config Cipher) (aInput : Bytes) :
    Except String Bytes := do
  let sCtx ← orThrow "EVP_CIPHER_CTX_new" evp.new
  let sCtx ← orThrow "EVP_EncryptInit_ex" (evp.encryptInit sCtx sCfg.kind sCfg.key sCfg.iv)
  let (sCiphertext, sCtx) ← orThrow "EVP_EncryptUpdate"
    (evp.encryptUpdate sCtx aInput (toInt aInput.length))
  let sTail ← orThrow "EVP_EncryptFinal_ex" (evp.encryptFinal sCtx)
  if toInt aInput.length ≠ sCiphertext.length + sTail.length then throw "EVP_Encrypt bad size"
  return resized aInput.length (sCiphertext ++ sTail)

/-- The final function has no place to write to. The text of the second error is the one of
`encrypt`. -/
def decrypt (evp : Evp Cipher Ctx) (sCfg : Config Cipher) (aInput : Bytes) :
    Except String Bytes := do
  let sCtx ← orThrow "EVP_CIPHER_CTX_new" evp.new
  let sCtx ← orThrow "EVP_DecryptInit_ex" (evp.decryptInit sCtx sCfg.kind sCfg.key sCfg.iv)
  let (sPlaintext, sCtx) ← orThrow "EVP_EncryptUpdate"
    (evp.decryptUpdate sCtx aInput (toInt aInput.length))
  let sTail ← orThrow "EVP_DecryptFinal_ex/fail to decrypt" (evp.decryptFinal sCtx)
  if toInt aInput.length ≠ sPlaintext.length + sTail.length then throw "EVP_Decrypt bad size"
  return resized aInput.length sPlaintext

/-- The two words, the most significant one first, behind which `resize` leaves zeros. There is no
result if a word is read behind the end of the vector. -/
def calculateIV (aIV : Bytes) (aOffset : UInt64) : Option Bytes :=
  if 16 ≤ aIV.length then
    let sHigh := UInt64.ofNat (ofBigEndian (aIV.take 8))
    let sOrig := UInt64.ofNat (ofBigEndian ((aIV.drop 8).take 8))
    let sLow := sOrig + aOffset / 16
    let sHigh := if sLow < sOrig then sHigh + 1 else sHigh
    some (bigEndian 8 sHigh.toNat ++ bigEndian 8 sLow.toNat ++
      List.replicate (aIV.length - 16) 0)
  else none

/-! ## Counter mode -/

/-- The stream of a block cipher `E` from the first block of the vector on. -/
def stream (E : Bytes → Bytes → Bytes) (key iv : Bytes) : ℕ → UInt8 :=
  keystream (E key) 16 (ofBigEndian (iv.take 16))

/-- The text in counter mode. -/
def ctr (E : Bytes → Bytes → Bytes) (sCfg : Config Cipher) (text : Bytes) : Bytes :=
  xorFrom (stream E sCfg.key sCfg.iv) 0 text

/-- What is documented of a cipher in counter mode, in either direction: the init function succeeds
with a key and a vector of the sizes of the cipher, one call of the update function joins its input
with the stream, and the final function writes nothing. -/
structure CounterModeCalls (E : Bytes → Bytes → Bytes) (keySize : ℕ) (kind : Cipher)
    (init : Ctx → Cipher → Bytes → Bytes → Option Ctx)
    (update : Ctx → Bytes → ℤ → Option (Bytes × Ctx)) (final : Ctx → Option Bytes) : Prop where
  call : ∀ ctx key iv input, keySize ≤ key.length → 16 ≤ iv.length → input.length < 2 ^ 31 →
    ∃ ctx' ctx'', init ctx kind key iv = some ctx' ∧
      update ctx' input input.length = some (xorFrom (stream E key iv) 0 input, ctx'') ∧
      final ctx'' = some []

/-- There is memory for a context, and the cipher is a block cipher `E` in counter mode. -/
structure Evp.InCounterMode (evp : Evp Cipher Ctx) (E : Bytes → Bytes → Bytes) (keySize : ℕ)
    (kind : Cipher) : Prop where
  new : ∃ ctx, evp.new = some ctx
  encrypt : CounterModeCalls E keySize kind evp.encryptInit evp.encryptUpdate evp.encryptFinal
  decrypt : CounterModeCalls E keySize kind evp.decryptInit evp.decryptUpdate evp.decryptFinal

/-! ## The counter -/

theorem ofBigEndian_append (as bs : Bytes) :
    ofBigEndian (as ++ bs) = ofBigEndian as * 256 ^ bs.length + ofBigEndian bs := by
  induction bs using List.reverseRecOn with
  | nil =>
      rw [List.append_nil, List.length_nil, Nat.pow_zero, Nat.mul_one]
      rfl
  | append_singleton bs b ih =>
      rw [← List.append_assoc, ofBigEndian_concat, ih, ofBigEndian_concat, List.length_append,
        List.length_singleton, Nat.pow_succ]
      ring

/-- The carry makes one sum of the two words. -/
theorem add_carry (sHigh sOrig k : UInt64) :
    (if sOrig + k < sOrig then sHigh + 1 else sHigh).toNat * 2 ^ 64 + (sOrig + k).toNat =
      (sHigh.toNat * 2 ^ 64 + sOrig.toNat + k.toNat) % 2 ^ 128 := by
  have hhigh := sHigh.toNat_lt
  have horig := sOrig.toNat_lt
  have hk := k.toNat_lt
  have hlow : (sOrig + k).toNat = (sOrig.toNat + k.toNat) % 2 ^ 64 := UInt64.toNat_add sOrig k
  have hone : (sHigh + 1).toNat = (sHigh.toNat + 1) % 2 ^ 64 := UInt64.toNat_add sHigh 1
  split
  case isTrue hlt =>
    rw [UInt64.lt_iff_toNat_lt, hlow] at hlt
    rw [hone, hlow]
    omega
  case isFalse hle =>
    rw [UInt64.lt_iff_toNat_lt, hlow] at hle
    rw [hlow]
    omega

theorem ofBigEndian_word (bs : Bytes) (h : bs.length = 8) :
    (UInt64.ofNat (ofBigEndian bs)).toNat = ofBigEndian bs := by
  have hlt := ofBigEndian_lt bs
  rw [h] at hlt
  rw [UInt64.toNat_ofNat', Nat.mod_eq_of_lt (by omega)]

/-- The vector of an offset begins with the number of its block. -/
theorem calculateIV_counter {aIV : Bytes} (h : 16 ≤ aIV.length) (aOffset : UInt64) :
    ∃ sIV, calculateIV aIV aOffset = some sIV ∧ sIV.length = aIV.length ∧
      ofBigEndian (sIV.take 16) =
        (ofBigEndian (aIV.take 16) + aOffset.toNat / 16) % 256 ^ 16 := by
  have hsplit : aIV.take (8 + 8) = aIV.take 8 ++ (aIV.drop 8).take 8 := List.take_add
  have hhigh : (aIV.take 8).length = 8 := by
    rw [List.length_take]
    omega
  have hlow : ((aIV.drop 8).take 8).length = 8 := by
    rw [List.length_take, List.length_drop]
    omega
  refine ⟨_, if_pos h, ?_, ?_⟩
  · simp only [List.length_append, length_bigEndian, List.length_replicate]
    omega
  · have hwords : ∀ a b : UInt64, ofBigEndian ((bigEndian 8 a.toNat ++ bigEndian 8 b.toNat ++
        List.replicate (aIV.length - 16) 0).take 16) = a.toNat * 2 ^ 64 + b.toNat := by
      intro a b
      have ha : a.toNat < 256 ^ 8 := a.toNat_lt
      have hb : b.toNat < 256 ^ 8 := b.toNat_lt
      rw [List.take_left' (by simp), ofBigEndian_append, length_bigEndian,
        ofBigEndian_bigEndian ha, ofBigEndian_bigEndian hb]
      rfl
    have hdiv : (aOffset / 16).toNat = aOffset.toNat / 16 := UInt64.toNat_div aOffset 16
    have hpow : (256 : ℕ) ^ 16 = 2 ^ 128 := by norm_num
    have hpow8 : (256 : ℕ) ^ 8 = 2 ^ 64 := by norm_num
    rw [hwords, add_carry, ofBigEndian_word _ hhigh, ofBigEndian_word _ hlow, hdiv, hsplit,
      ofBigEndian_append, hlow, hpow, hpow8]

/-- The stream of the vector of an offset is the stream from the start of its block on. -/
theorem calculateIV_stream (E : Bytes → Bytes → Bytes) (key : Bytes) {aIV : Bytes}
    (h : 16 ≤ aIV.length) (aOffset : UInt64) :
    ∃ sIV, calculateIV aIV aOffset = some sIV ∧ 16 ≤ sIV.length ∧
      ∀ i, stream E key sIV i = stream E key aIV (aOffset.toNat / 16 * 16 + i) := by
  obtain ⟨sIV, hIV, hlength, hcounter⟩ := calculateIV_counter h aOffset
  refine ⟨sIV, hIV, by rwa [hlength], fun i => ?_⟩
  have hsize : 0 < 16 := by decide
  rw [stream, stream, hcounter, keystream_add _ hsize]

/-! ## Texts -/

theorem toInt_eq {n : ℕ} (h : n < 2 ^ 31) : toInt n = n := by
  have hmod : n % 2 ^ 32 = n := Nat.mod_eq_of_lt (by omega)
  rw [toInt, hmod, if_pos h]

theorem resized_self {size : ℕ} {written : Bytes} (h : written.length = size) :
    resized size written = written := by
  rw [resized, h, Nat.sub_self, List.replicate_zero, List.append_nil]

section InCounterMode
variable {evp : Evp Cipher Ctx} {E : Bytes → Bytes → Bytes} {keySize : ℕ}

theorem encrypt_eq (sCfg : Config Cipher) (hevp : evp.InCounterMode E keySize sCfg.kind)
    (hkey : keySize ≤ sCfg.key.length) (hiv : 16 ≤ sCfg.iv.length) {aInput : Bytes}
    (h : aInput.length < 2 ^ 31) : encrypt evp sCfg aInput = .ok (ctr E sCfg aInput) := by
  obtain ⟨ctx, hnew⟩ := hevp.new
  obtain ⟨ctx', ctx'', hinit, hupdate, hfinal⟩ := hevp.encrypt.call ctx _ _ _ hkey hiv h
  have hlength : (ctr E sCfg aInput).length = aInput.length := length_xorFrom 0 aInput
  rw [encrypt, hnew, toInt_eq h]
  simp only [orThrow, bind, Except.bind, hinit, hupdate, hfinal]
  rw [← ctr, hlength, List.length_nil, Nat.cast_zero, add_zero, if_neg (not_not.mpr rfl),
    List.append_nil, resized_self hlength]
  rfl

theorem decrypt_eq (sCfg : Config Cipher) (hevp : evp.InCounterMode E keySize sCfg.kind)
    (hkey : keySize ≤ sCfg.key.length) (hiv : 16 ≤ sCfg.iv.length) {aInput : Bytes}
    (h : aInput.length < 2 ^ 31) : decrypt evp sCfg aInput = .ok (ctr E sCfg aInput) := by
  obtain ⟨ctx, hnew⟩ := hevp.new
  obtain ⟨ctx', ctx'', hinit, hupdate, hfinal⟩ := hevp.decrypt.call ctx _ _ _ hkey hiv h
  have hlength : (ctr E sCfg aInput).length = aInput.length := length_xorFrom 0 aInput
  rw [decrypt, hnew, toInt_eq h]
  simp only [orThrow, bind, Except.bind, hinit, hupdate, hfinal]
  rw [← ctr, hlength, List.length_nil, Nat.cast_zero, add_zero, if_neg (not_not.mpr rfl),
    resized_self hlength]
  rfl

end InCounterMode

/-- Any piece of a text that begins with a block is encrypted and decrypted on its own, with the
vector of its place. Neither the text nor the offset has to be small. -/
theorem ctr_seek (evp : Evp Cipher Ctx) (E : Bytes → Bytes → Bytes) (keySize : ℕ)
    (sCfg : Config Cipher) (hevp : evp.InCounterMode E keySize sCfg.kind)
    (hkey : keySize ≤ sCfg.key.length) (hiv : 16 ≤ sCfg.iv.length) (as bs cs : Bytes)
    (hblock : 16 ∣ as.length) (has : as.length < 2 ^ 64) (hbs : bs.length < 2 ^ 31) :
    ((as ++ bs ++ cs).length < 2 ^ 31 →
      encrypt evp sCfg (as ++ bs ++ cs) = .ok (ctr E sCfg (as ++ bs ++ cs))) ∧
    ∃ sIV, calculateIV sCfg.iv (UInt64.ofNat as.length) = some sIV ∧
      encrypt evp { sCfg with iv := sIV } bs =
        .ok (((ctr E sCfg (as ++ bs ++ cs)).drop as.length).take bs.length) ∧
      decrypt evp { sCfg with iv := sIV }
        (((ctr E sCfg (as ++ bs ++ cs)).drop as.length).take bs.length) = .ok bs := by
  obtain ⟨sIV, hIV, hlengthIV, hstream⟩ :=
    calculateIV_stream E sCfg.key hiv (UInt64.ofNat as.length)
  have hplace : (UInt64.ofNat as.length).toNat / 16 * 16 = as.length := by
    rw [UInt64.toNat_ofNat', Nat.mod_eq_of_lt has, Nat.div_mul_cancel hblock]
  have hpiece : ((ctr E sCfg (as ++ bs ++ cs)).drop as.length).take bs.length =
      ctr E { sCfg with iv := sIV } bs := by
    rw [ctr, ctr, take_drop_xorFrom]
    apply xorFrom_congr
    intro i
    rw [Nat.zero_add, hstream, hplace]
  have hlength : (ctr E { sCfg with iv := sIV } bs).length < 2 ^ 31 := by
    rwa [ctr, length_xorFrom]
  refine ⟨fun hwhole => encrypt_eq sCfg hevp hkey hiv hwhole, sIV, hIV, ?_, ?_⟩
  · rw [hpiece]
    exact encrypt_eq { sCfg with iv := sIV } hevp hkey hlengthIV hbs
  · rw [hpiece, decrypt_eq { sCfg with iv := sIV } hevp hkey hlengthIV hlength, ctr, ctr,
      xorFrom_xorFrom]

/-- AES with a key of 128 bits, at two blocks. -/
def aes128 (key block : Bytes) : Bytes :=
  if key = (List.range 16).map UInt8.ofNat then
    if block = List.replicate 8 0 ++ List.replicate 8 255 then
      [57, 167, 239, 10, 10, 88, 82, 168, 191, 210, 3, 35, 68, 191, 148, 18]
    else if block = List.replicate 7 0 ++ [1] ++ List.replicate 8 0 then
      [19, 24, 154, 106, 228, 171, 7, 174, 112, 163, 170, 189, 48, 190, 153, 222]
    else block
  else block

/-- A context of `aes128Ctr` is the stream and the place in it. -/
def aes128Ctr : Evp Unit ((ℕ → UInt8) × ℕ) :=
  let init := fun _ (_ : Unit) key iv => some (stream aes128 key iv, 0)
  let update := fun sCtx (input : Bytes) (size : ℤ) =>
    if size < 0 then none
    else some (xorFrom sCtx.1 sCtx.2 (input.take size.toNat), sCtx.1, sCtx.2 + size.toNat)
  let final := fun _ => some []
  { new := some (fun _ => 0, 0)
    encryptInit := init
    encryptUpdate := update
    encryptFinal := final
    decryptInit := init
    decryptUpdate := update
    decryptFinal := final }

theorem aes128Ctr_inCounterMode : aes128Ctr.InCounterMode aes128 16 () := by
  have hcalls : CounterModeCalls aes128 16 () aes128Ctr.encryptInit aes128Ctr.encryptUpdate
      aes128Ctr.encryptFinal := by
    constructor
    intro ctx key iv input _ _ _
    refine ⟨(stream aes128 key iv, 0), (stream aes128 key iv, 0 + input.length), rfl, ?_, rfl⟩
    simp only [aes128Ctr]
    rw [if_neg (Int.not_lt.mpr (Int.natCast_nonneg _)), Int.toNat_natCast, List.take_length]
  exact { new := ⟨_, rfl⟩, encrypt := hcalls, decrypt := hcalls }

/-- The second block of a vector whose lower word is full has the upper word one. -/
theorem ctr_seek_carry :
    let sCfg : Config Unit :=
      { kind := (), iv := List.replicate 8 0 ++ List.replicate 8 255,
        key := (List.range 16).map UInt8.ofNat }
    let text := ascii "Begin some not v" ++ ascii "ery long" ++ ascii " message"
    (text.length < 2 ^ 31 → encrypt aes128Ctr sCfg text = .ok (ctr aes128 sCfg text)) ∧
    ∃ sIV, calculateIV sCfg.iv (UInt64.ofNat (ascii "Begin some not v").length) = some sIV ∧
      encrypt aes128Ctr { sCfg with iv := sIV } (ascii "ery long") =
        .ok (((ctr aes128 sCfg text).drop (ascii "Begin some not v").length).take
          (ascii "ery long").length) ∧
      decrypt aes128Ctr { sCfg with iv := sIV }
        (((ctr aes128 sCfg text).drop (ascii "Begin some not v").length).take
          (ascii "ery long").length) = .ok (ascii "ery long") :=
  ctr_seek aes128Ctr aes128 16 _ aes128Ctr_inCounterMode (by decide) (by decide) _ _ _
    (by decide) (by decide) (by decide)

end Stuff.SslCtr
