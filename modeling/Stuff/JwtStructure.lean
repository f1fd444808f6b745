import Stuff.Jwt

/-!
# Parts of a token

A token has three parts. `Validate` takes the third part of what the splitter gives, without a
look at how many there are: with fewer parts there is none, and what is behind it is not looked
at. The signature is compared by a function that asserts the right size.
-/
namespace Stuff.Jwt
open Base64 Json MachineWords ParserSimple Splitting

/-- Three parts that are not empty, with a dot between them. -/
def ThreeParts (aToken sHeader sClaim sSignature : Bytes) : Prop :=
  aToken = sHeader ++ dot :: (sClaim ++ dot :: sSignature) ∧
    (sHeader ≠ [] ∧ dot ∉ sHeader) ∧ (sClaim ≠ [] ∧ dot ∉ sClaim) ∧
    sSignature ≠ [] ∧ dot ∉ sSignature

section
variable (lib : Libraries) (m_Key : Bytes)

/-- What has to be in the third part. -/
def signature (sHeader sClaim : Bytes) : Bytes := hmacSign lib m_Key [sHeader, ascii ".", sClaim]

/-- An exception, or a token of three parts with a valid signature; a missing part is not
accessed, and no assertion fails. -/
def Checks (sNow : Int64) (aToken : Bytes) : Prop :=
  match Validate lib m_Key sNow aToken with
  | none => False
  | some (.error _) => True
  | some (.ok _) => ∃ sHeader sClaim sSignature, ThreeParts aToken sHeader sClaim sSignature ∧
      fromBase64 sSignature = .ok (signature lib m_Key sHeader sClaim)

end

section
variable {lib : Libraries} {m_Key : Bytes} {sNow : Int64} {aToken : Bytes}

theorem parts_of_threeParts {sHeader sClaim sSignature : Bytes}
    (h : ThreeParts aToken sHeader sClaim sSignature) :
    parts dot aToken = [sHeader, sClaim, sSignature] := by
  obtain ⟨rfl, ⟨-, hheader⟩, ⟨-, hclaim⟩, hne, hsignature⟩ := h
  rw [parts_append_cons hheader, parts_append_cons hclaim, parts_of_notMem hsignature hne]

theorem validate_of_length_lt (h : (parts dot aToken).length < 3) :
    Validate lib m_Key sNow aToken = none := by
  rw [Validate, texts_simple]
  split
  case h_1 sHeader sClaim sSignature more heq =>
    rw [heq] at h
    simp only [List.length_cons] at h
    omega
  case h_2 => rfl

theorem exists_three {l : List Bytes} (h : 3 ≤ l.length) :
    ∃ a b c more, l = a :: b :: c :: more := by
  match l, h with
  | a :: b :: c :: more, _ => exact ⟨a, b, c, more, rfl⟩

theorem not_checks_of_length_lt (h : (parts dot aToken).length < 3) :
    ¬ Checks lib m_Key sNow aToken := by
  rw [Checks, validate_of_length_lt h]
  exact not_false

theorem validate_of_parts {sHeader sClaim sSignature : Bytes} {more : List Bytes}
    (h : parts dot aToken = sHeader :: sClaim :: sSignature :: more) :
    Validate lib m_Key sNow aToken =
      match fromBase64 sSignature with
      | .error e => some (.error e)
      | .ok sHash =>
          if (signature lib m_Key sHeader sClaim).length = sHash.length then
            if signature lib m_Key sHeader sClaim = sHash then
              some (readToken lib sNow sHeader sClaim)
            else some (.error (ascii "invalid"))
          else none := by
  rw [Validate, texts_simple, h]
  dsimp only
  cases fromBase64 sSignature with
  | error e => rfl
  | ok sHash =>
      dsimp only
      rw [hmacVerify, ← signature]
      split_ifs with hlength hhash
      · simp [hhash]
      · simp [hhash]
      · rfl

/-- What is behind the third part is not looked at. -/
theorem validate_append {sHeader sClaim sSignature : Bytes}
    (h : ThreeParts aToken sHeader sClaim sSignature) (rest : Bytes) :
    Validate lib m_Key sNow (aToken ++ dot :: rest) = Validate lib m_Key sNow aToken := by
  have hparts : parts dot (aToken ++ dot :: rest) =
      sHeader :: sClaim :: sSignature :: parts dot rest := by
    obtain ⟨rfl, ⟨-, hheader⟩, ⟨-, hclaim⟩, -, hsignature⟩ := h
    rw [List.append_assoc, List.cons_append, List.append_assoc, List.cons_append,
      parts_append_cons hheader, parts_append_cons hclaim, parts_append_cons hsignature]
  rw [validate_of_parts hparts, validate_of_parts (parts_of_threeParts h)]

end

section
variable (lib : Libraries) (m_Key : Bytes)

/-- If the third part is decoded, it has the size of a signature; and if it is the signature
and the claim is accepted, the token has nothing else. -/
def Complete (sNow : Int64) (aToken sHeader sClaim sSignature : Bytes) : Prop :=
  ∀ sHash, fromBase64 sSignature = .ok sHash →
    (signature lib m_Key sHeader sClaim).length = sHash.length ∧
      (signature lib m_Key sHeader sClaim = sHash →
        (∃ claim, readToken lib sNow sHeader sClaim = .ok claim) →
          ThreeParts aToken sHeader sClaim sSignature)

/-- There are three parts at least, and what is behind the second one is a whole signature. -/
def WellFormed (sNow : Int64) (aToken : Bytes) : Prop :=
  ∃ sHeader sClaim sSignature more, parts dot aToken = sHeader :: sClaim :: sSignature :: more ∧
    Complete lib m_Key sNow aToken sHeader sClaim sSignature

variable {lib m_Key} {sNow : Int64} {aToken : Bytes}

theorem checks_iff_of_parts {sHeader sClaim sSignature : Bytes} {more : List Bytes}
    (h : parts dot aToken = sHeader :: sClaim :: sSignature :: more) :
    Checks lib m_Key sNow aToken ↔ Complete lib m_Key sNow aToken sHeader sClaim sSignature := by
  rw [Checks, Complete, validate_of_parts h]
  cases hdecode : fromBase64 sSignature with
  | error e => simp
  | ok sHash =>
      simp only [Except.ok.injEq, forall_eq']
      by_cases hlength : (signature lib m_Key sHeader sClaim).length = sHash.length
      · rw [if_pos hlength, and_iff_right hlength]
        by_cases hhash : signature lib m_Key sHeader sClaim = sHash
        · rw [if_pos hhash, forall_prop_of_true hhash]
          cases hread : readToken lib sNow sHeader sClaim with
          | error e => simp
          | ok claim =>
              rw [forall_prop_of_true ⟨claim, rfl⟩]
              dsimp only
              constructor
              · rintro ⟨a, b, c, hthree, -⟩
                have hparts := parts_of_threeParts hthree
                rw [h] at hparts
                cases hparts
                exact hthree
              · intro hthree
                exact ⟨sHeader, sClaim, sSignature, hthree, by rw [hdecode, hhash]⟩
        · rw [if_neg hhash]
          exact iff_of_true trivial fun heq => absurd heq hhash
      · rw [if_neg hlength]
        exact iff_of_false not_false fun hcomplete => hlength hcomplete.1

variable (lib m_Key) in
theorem checks_iff (sNow : Int64) (aToken : Bytes) :
    Checks lib m_Key sNow aToken ↔ WellFormed lib m_Key sNow aToken := by
  constructor
  · intro hchecks
    have hlength : 3 ≤ (parts dot aToken).length :=
      Nat.le_of_not_lt fun hlt => not_checks_of_length_lt hlt hchecks
    obtain ⟨sHeader, sClaim, sSignature, more, hparts⟩ := exists_three hlength
    exact ⟨sHeader, sClaim, sSignature, more, hparts, (checks_iff_of_parts hparts).mp hchecks⟩
  · rintro ⟨sHeader, sClaim, sSignature, more, hparts, hcomplete⟩
    exact (checks_iff_of_parts hparts).mpr hcomplete

/-- A token of two parts has no third part. -/
theorem not_checks_two_parts :
    Validate sampleLibraries (ascii "secret") 19 (ascii "a.b") = none ∧
      ¬ Checks sampleLibraries (ascii "secret") 19 (ascii "a.b") :=
  ⟨validate_of_length_lt (by decide +kernel), not_checks_of_length_lt (by decide +kernel)⟩

end

end Stuff.Jwt
