import Stuff.Base64
import Stuff.Json
import Stuff.ParserSimple

/-!
# Tokens

`Jwt::HS256` joins a header, a claim and their signature with dots, each in Base64 without
padding. What is signed comes back for every claim, and the times decide whether it is
accepted.
-/
namespace Stuff.Jwt
open Base64 Json MachineWords OrderedMap ParserSimple Splitting

/-- `'.'` -/
def dot : UInt8 := 0x2e

def URL_SAFE : UInt32 := base64NoPadding ||| base64UrlSafe

structure Header where
  typ : Bytes := ascii "JWT"
  alg : Bytes := []
deriving DecidableEq, Repr

structure Claim where
  /-- expiration time on and after which the JWT must not be accepted for processing. -/
  exp : Int64 := 0
  /-- time on which the JWT will start to be accepted for processing. -/
  nbf : Int64 := 0
  iss : Bytes := []
  aud : Bytes := []
  sub : Bytes := []
deriving DecidableEq

def Header.toJson (h : Header) : Value :=
  .object (assign less (ascii "alg") (.string h.alg)
    (assign less (ascii "typ") (.string h.typ) []))

def Header.fromJson (h : Header) (aJson : Value) : Except Message Header := do
  let typ ← fromObject fromString aJson (ascii "typ") h.typ
  let alg ← fromObject fromString aJson (ascii "alg") h.alg
  pure { typ, alg }

def Claim.toJson (c : Claim) : Value :=
  .object (assign less (ascii "sub") (.string c.sub) (assign less (ascii "aud") (.string c.aud)
    (assign less (ascii "iss") (.string c.iss) (assign less (ascii "nbf") (.int64 c.nbf)
      (assign less (ascii "exp") (.int64 c.exp) [])))))

def Claim.fromJson (c : Claim) (aJson : Value) : Except Message Claim := do
  let exp ← fromObject fromInt64 aJson (ascii "exp") c.exp
  let nbf ← fromObject fromInt64 aJson (ascii "nbf") c.nbf
  let iss ← fromObject fromString aJson (ascii "iss") c.iss
  let aud ← fromObject fromString aJson (ascii "aud") c.aud
  let sub ← fromObject fromString aJson (ascii "sub") c.sub
  pure { exp, nbf, iss, aud, sub }

/-- The libraries: a JSON writer without indentation, a JSON reader, and HMAC-SHA256 with
a key. -/
structure Libraries where
  writeString : Value → Bytes
  parse : Bytes → Except Message Value
  hmac : Bytes → Bytes → Bytes

section
variable (lib : Libraries) (m_Key : Bytes)

/-- `HMAC::Sign`: the parts of the text are digested one after the other. -/
def hmacSign (aInput : List Bytes) : Bytes := lib.hmac m_Key aInput.flatten

/-- `HMAC::Verify`, with no result if the assertion fails. -/
def hmacVerify (aHash : Bytes) (aInput : List Bytes) : Option Bool :=
  let sHash := hmacSign lib m_Key aInput
  if sHash.length = aHash.length then some (sHash = aHash) else none

def Sign (aClaim : Claim) : Bytes :=
  let sHeader := Format.base64 URL_SAFE (lib.writeString { alg := ascii "HS256" : Header }.toJson)
  let sClaim := Format.base64 URL_SAFE (lib.writeString aClaim.toJson)
  let sHash := hmacSign lib m_Key [sHeader, ascii ".", sClaim]
  sHeader ++ dot :: (sClaim ++ dot :: Format.base64 URL_SAFE sHash)

/-- `Parser::Base64` with its message. -/
def fromBase64 (aStr : Bytes) : Except Message Bytes :=
  (Parser.base64 URL_SAFE aStr).mapError ascii

/-- What `Validate` does with a token that is signed. -/
def readToken (sNow : Int64) (aHeader aClaim : Bytes) : Except Message Claim := do
  let sHeader ← ({} : Header).fromJson (← lib.parse (← fromBase64 aHeader))
  if sHeader.typ ≠ ascii "JWT" then throw (ascii "unexpected type: " ++ sHeader.typ)
  if sHeader.alg ≠ ascii "HS256" then throw (ascii "not supported algorithm: " ++ sHeader.alg)
  let sClaim ← ({} : Claim).fromJson (← lib.parse (← fromBase64 aClaim))
  if sNow > sClaim.exp ∨ sNow < sClaim.nbf then throw (ascii "expired")
  pure sClaim

/-- There is no result if a part is missing, or the assertion of `Verify` fails. -/
def Validate (sNow : Int64) (aToken : Bytes) : Option (Except Message Claim) :=
  match (simple { pos := 0, text := aToken } dot).map View.text with
  | sHeader :: sClaim :: sSignature :: _ =>
      match fromBase64 sSignature with
      | .error e => some (.error e)
      | .ok sHash =>
          (hmacVerify lib m_Key sHash [sHeader, ascii ".", sClaim]).map fun sGood =>
            if sGood then readToken lib sNow sHeader sClaim else .error (ascii "invalid")
  | _ => none

end


/-! ## The text of a token -/

theorem lookup_ne_dot {i : UInt32} (hi : i.toNat < 64) : Format.lookup URL_SAFE i ≠ dot := by
  have hof : i = UInt32.ofNat i.toNat := UInt32.ofNat_toNat.symm
  rw [hof]
  generalize i.toNat = n at hi
  revert n
  decide +kernel

theorem dot_encoded (temp : UInt32) (n : ℕ) : dot ∉ Format.encoded URL_SAFE temp n := by
  rw [Format.encoded, List.mem_map]
  rintro ⟨i, hi, hlookup⟩
  exact lookup_ne_dot (sextets_lt temp i (List.mem_of_mem_take hi)) hlookup

theorem padding_urlSafe (n : ℕ) : Format.padding URL_SAFE n = [] := if_neg (by decide)

/-- The pad character of the alphabet would be a dot. -/
theorem dot_base64 (aStr : Bytes) : dot ∉ Format.base64 URL_SAFE aStr := by
  induction aStr using Format.base64.induct with
  | case1 => exact List.not_mem_nil
  | case2 a =>
      rw [Format.base64, padding_urlSafe, List.append_nil]
      exact dot_encoded _ _
  | case3 a b =>
      rw [Format.base64, padding_urlSafe, List.append_nil]
      exact dot_encoded _ _
  | case4 a b c aStr ih =>
      rw [Format.base64, List.mem_append, not_or]
      exact ⟨dot_encoded _ _, ih⟩

theorem base64_ne_nil {aStr : Bytes} (h : aStr ≠ []) : Format.base64 URL_SAFE aStr ≠ [] := by
  cases aStr using Format.base64.fun_cases with
  | case1 => exact absurd rfl h
  | case2 a =>
      rw [Format.base64]
      exact encoded_ne_nil _ _ (by decide) (by decide) _
  | case3 a b =>
      rw [Format.base64]
      exact encoded_ne_nil _ _ (by decide) (by decide) _
  | case4 a b c aStr =>
      rw [Format.base64]
      exact encoded_ne_nil _ _ (by decide) (by decide) _

theorem fromBase64_base64 (aStr : Bytes) : fromBase64 (Format.base64 URL_SAFE aStr) = .ok aStr := by
  have hpad : ¬ (URL_SAFE &&& base64NoPadding = 0 ∧
      (Format.base64 URL_SAFE aStr).length % 4 ≠ 0) := fun h => absurd h.1 (by decide)
  rw [fromBase64, Parser.base64, if_neg hpad, decode_base64 URL_SAFE aStr (fun _ => rfl)]
  rfl

/-- Three parts without a dot, the last of which is not empty. -/
theorem simple_token {sHeader sClaim sHash : Bytes} (hheader : dot ∉ sHeader)
    (hclaim : dot ∉ sClaim) (hhash : dot ∉ sHash) (hne : sHash ≠ []) :
    (simple { pos := 0, text := sHeader ++ dot :: (sClaim ++ dot :: sHash) } dot).map View.text =
      [sHeader, sClaim, sHash] := by
  rw [texts_simple, parts_append_cons hheader, parts_append_cons hclaim,
    parts_of_notMem hhash hne]

/-! ## The values of a token -/

theorem Header.fromJson_toJson (d h : Header) : d.fromJson h.toJson = .ok h := rfl

theorem Claim.fromJson_toJson (d c : Claim) : d.fromJson c.toJson = .ok c := rfl

section
variable {lib : Libraries} {m_Key : Bytes} {c : Claim}

/-- `Validate` compares with `sNow > exp`. -/
theorem validate_sign (sNow : Int64)
    (hheader : lib.parse (lib.writeString { alg := ascii "HS256" : Header }.toJson) =
      .ok { alg := ascii "HS256" : Header }.toJson)
    (hclaim : lib.parse (lib.writeString c.toJson) = .ok c.toJson)
    (hhmac : ∀ text, (lib.hmac m_Key text).length = 32) :
    Validate lib m_Key sNow (Sign lib m_Key c) =
      some (if sNow > c.exp ∨ sNow < c.nbf then .error (ascii "expired") else .ok c) := by
  have hne : ∀ aInput, hmacSign lib m_Key aInput ≠ [] := by
    intro aInput hnil
    have hlength := hhmac aInput.flatten
    rw [hmacSign] at hnil
    rw [hnil] at hlength
    cases hlength
  have hread : readToken lib sNow
      (Format.base64 URL_SAFE (lib.writeString { alg := ascii "HS256" : Header }.toJson))
      (Format.base64 URL_SAFE (lib.writeString c.toJson)) =
        if sNow > c.exp ∨ sNow < c.nbf then .error (ascii "expired") else .ok c := by
    simp only [readToken, fromBase64_base64, hheader, hclaim, Header.fromJson_toJson,
      Claim.fromJson_toJson, bind, Except.bind, ne_eq, not_true_eq_false, if_false]
    rfl
  rw [Validate, Sign, simple_token (dot_base64 _) (dot_base64 _) (dot_base64 _)
    (base64_ne_nil (hne _))]
  simp only [fromBase64_base64, hmacVerify, if_true, decide_true, Option.map_some, hread]

end

/-- For a token that was signed, the code meets the comment of `exp` except in the second
of `exp` itself. -/
theorem validate_sign_iff (lib : Libraries) (m_Key : Bytes) (c : Claim) (sNow : Int64)
    (hheader : lib.parse (lib.writeString { alg := ascii "HS256" : Header }.toJson) =
      .ok { alg := ascii "HS256" : Header }.toJson)
    (hclaim : lib.parse (lib.writeString c.toJson) = .ok c.toJson)
    (hhmac : ∀ text, (lib.hmac m_Key text).length = 32) :
    ((c.nbf ≤ sNow ∧ sNow < c.exp → Validate lib m_Key sNow (Sign lib m_Key c) = some (.ok c)) ∧
      (¬ (c.nbf ≤ sNow ∧ sNow < c.exp) →
        ∃ e, Validate lib m_Key sNow (Sign lib m_Key c) = some (.error e))) ↔
      ¬ (sNow = c.exp ∧ c.nbf ≤ sNow) := by
  rw [validate_sign sNow hheader hclaim hhmac]
  simp only [gt_iff_lt, Int64.lt_iff_toInt_lt, Int64.le_iff_toInt_le, ← Int64.toInt_inj]
  by_cases hexpired : c.exp.toInt < sNow.toInt ∨ sNow.toInt < c.nbf.toInt
  · rw [if_pos hexpired]
    constructor
    · rintro - ⟨heq, hle⟩
      omega
    · intro _
      exact ⟨fun hwindow => by omega, fun _ => ⟨_, rfl⟩⟩
  · rw [if_neg hexpired]
    constructor
    · rintro ⟨-, hthrows⟩ ⟨heq, hle⟩
      obtain ⟨e, he⟩ := hthrows (by omega)
      cases he
    · intro hother
      refine ⟨fun _ => rfl, fun hwindow => ?_⟩
      omega

def sampleClaim : Claim :=
  { exp := 20, nbf := 10, iss := ascii "iss", aud := ascii "aud", sub := ascii "test" }

def headerText : Bytes := ascii "\x7b\"alg\":\"HS256\",\"typ\":\"JWT\"\x7d"

def sampleText : Bytes :=
  ascii "\x7b\"aud\":\"aud\",\"exp\":20,\"iss\":\"iss\",\"nbf\":10,\"sub\":\"test\"\x7d"

/-- What the libraries do for the claim and the key `secret`. -/
def sampleLibraries : Libraries where
  writeString
    | .object members => if (members.lookup (ascii "typ")).isSome then headerText else sampleText
    | _ => []
  parse text :=
    if text = headerText then .ok { alg := ascii "HS256" : Header }.toJson
    else if text = sampleText then .ok sampleClaim.toJson
    else .error (ascii "syntax error")
  hmac _ _ :=
    [0xa4, 0x0f, 0xb4, 0xbf, 0xc0, 0x07, 0xb1, 0xa7, 0x67, 0x5d, 0x57, 0x9d, 0xc2, 0x0e, 0xe5, 0xe6,
      0xd9, 0x18, 0xac, 0xe4, 0x55, 0x24, 0xcb, 0xe9, 0xbe, 0x3d, 0x33, 0x64, 0x8a, 0x31, 0xe7,
      0x16]

theorem sample_header :
    sampleLibraries.parse (sampleLibraries.writeString { alg := ascii "HS256" : Header }.toJson) =
      .ok { alg := ascii "HS256" : Header }.toJson := rfl

theorem sample_claim :
    sampleLibraries.parse (sampleLibraries.writeString sampleClaim.toJson) =
      .ok sampleClaim.toJson := rfl

theorem validate_sign_sample :
    Validate sampleLibraries (ascii "secret") 19 (Sign sampleLibraries (ascii "secret")
      sampleClaim) = some (.ok sampleClaim) :=
  ((validate_sign_iff sampleLibraries (ascii "secret") sampleClaim 19 sample_header sample_claim
    fun _ => rfl).mpr (by decide)).1 (by decide)

/-- The second of `exp`. -/
theorem accepted_on_expiration :
    ¬ ∀ (lib : Libraries) (m_Key : Bytes) (c : Claim) (sNow : Int64),
      lib.parse (lib.writeString { alg := ascii "HS256" : Header }.toJson) =
          .ok { alg := ascii "HS256" : Header }.toJson →
        lib.parse (lib.writeString c.toJson) = .ok c.toJson →
        (∀ text, (lib.hmac m_Key text).length = 32) →
        (c.nbf ≤ sNow ∧ sNow < c.exp →
            Validate lib m_Key sNow (Sign lib m_Key c) = some (.ok c)) ∧
          (¬ (c.nbf ≤ sNow ∧ sNow < c.exp) →
            ∃ e, Validate lib m_Key sNow (Sign lib m_Key c) = some (.error e)) := by
  intro h
  obtain ⟨-, hthrows⟩ := h sampleLibraries (ascii "secret") sampleClaim 20 sample_header
    sample_claim fun _ => rfl
  obtain ⟨e, he⟩ := hthrows (by decide)
  rw [validate_sign 20 sample_header sample_claim fun _ => rfl, if_neg (by decide)] at he
  cases he

end Stuff.Jwt
