import Stuff.Base64
import Stuff.EventRuns
import Stuff.TextEscapes

/-!
# An object that is uploaded in parts

`S3::MultipartUpload` collects what is written and sends it in parts. A part that failed is sent
again under its number, maybe with more in it, and a request that was not answered may be served
at any later time, or twice. The object is made by a request that names the tag and the checksum
of each part. The service is a parameter, with what it documents of parts and objects.
-/
namespace Stuff.S3MultipartUpload
open Base64 EventRuns Loops MachineWords TextEscapes

/-- The digest is not from here. -/
structure Digests where
  sha256 : Bytes → Bytes
  length_sha256 : ∀ aContent, (sha256 aContent).length = 32

structure UploadTag where
  etag : Bytes
  hash : Bytes

/-- An entry of `CompleteMultipartUpload`. -/
structure Part where
  PartNumber : ℕ
  ETag : Bytes
  ChecksumSHA256 : Bytes
deriving DecidableEq

inductive Request
  | uploadPart (partNumber : ℕ) (body checksum : Bytes)
  | completeMultipartUpload (parts : List Part)

/-- An answer. The message and the checksum are those in the body, if it is XML. -/
structure Result where
  status : ℕ := 200
  contentType : String := ""
  body : String := ""
  message : String := ""
  ETag : Bytes := []
  checksum : Bytes := []

inductive Failure
  | curl
  | http (message : String) (status : ℕ)
  | runtime (what : String)
  | invalidArgument (what : Bytes)

/-! ## The service -/

structure Stored where
  body : Bytes
  etag : Bytes
deriving DecidableEq

/-- What is used of the service: what it does with a request for the upload, and what it has, which
are the parts, the entries that the object was made of, and the object. It allows parts and objects
up to some sizes. -/
structure Service (σ : Type) where
  serve : σ → Request → Result × σ
  part : σ → ℕ → Option Stored
  completed : σ → Option (List Part)
  object : σ → Option Bytes
  maxPart : ℕ
  maxObject : ℕ

def applicationXml : String := "application/xml"

def CHUNK_SIZE : ℕ := 5 * 1024 * 1024

/-- What stands for a part in a request. -/
def sum (d : Digests) (body : Bytes) : Bytes := Format.base64 0 (d.sha256 body)

namespace Service
variable {σ : Type}

/-- The entries name stored parts with these contents. -/
def Names (d : Digests) (service : Service σ) (s : σ) : List Part → List Bytes → Prop :=
  List.Forall₂ fun p body =>
    service.part s p.PartNumber = some ⟨body, p.ETag⟩ ∧ p.ChecksumSHA256 = sum d body

/-- An answer that the object is made. -/
structure Made (r : Result) : Prop where
  status : r.status = 200
  contentType : r.contentType = applicationXml
  message : r.message = ""
  checksum : r.checksum ≠ []

/-- What the service documents. An upload has parts with the numbers from 1 to 10000. A part that is
sent takes the place of the one with its number, and the answer tells its tag. The object is made of
the parts that the entries name, all but the last one of them of 5 MiB or more, and the upload is
over then. -/
structure Documented (d : Digests) (service : Service σ) : Prop where
  upload_other : ∀ s n body checksum m, m ≠ n →
    service.part (service.serve s (.uploadPart n body checksum)).2 m = service.part s m
  upload_own : ∀ s n body checksum p,
    service.part (service.serve s (.uploadPart n body checksum)).2 n = some p →
      service.part s n = some p ∨ p.body = body
  upload_unfinished : ∀ s n body checksum,
    service.completed (service.serve s (.uploadPart n body checksum)).2 = service.completed s ∧
      service.object (service.serve s (.uploadPart n body checksum)).2 = service.object s
  upload_answered : ∀ s n body checksum,
    (service.serve s (.uploadPart n body checksum)).1.status = 200 → n ≤ 10000 ∧
      service.part (service.serve s (.uploadPart n body checksum)).2 n =
        some ⟨body, (service.serve s (.uploadPart n body checksum)).1.ETag⟩
  upload_served : ∀ s n body, service.completed s = none → 0 < n → n ≤ 10000 →
    body.length ≤ service.maxPart →
      (service.serve s (.uploadPart n body (sum d body))).1.status = 200
  complete_part : ∀ s parts n p,
    service.part (service.serve s (.completeMultipartUpload parts)).2 n = some p →
      service.part s n = some p
  complete_unfinished : ∀ s parts, service.completed s = none →
    service.completed (service.serve s (.completeMultipartUpload parts)).2 = none ∨
      service.completed (service.serve s (.completeMultipartUpload parts)).2 = some parts ∧
        ∃ bodies : List Bytes, service.Names d s parts bodies ∧
          service.object (service.serve s (.completeMultipartUpload parts)).2 =
            some bodies.flatten
  complete_finished : ∀ s parts done, service.completed s = some done →
    service.completed (service.serve s (.completeMultipartUpload parts)).2 = some done ∧
      service.object (service.serve s (.completeMultipartUpload parts)).2 = service.object s
  complete_answered : ∀ s parts, Made (service.serve s (.completeMultipartUpload parts)).1 →
    service.completed (service.serve s (.completeMultipartUpload parts)).2 = some parts
  complete_served : ∀ s parts bodies, service.completed s = none → parts ≠ [] →
    (parts.map Part.PartNumber).Pairwise (· < ·) → service.Names d s parts bodies →
    (∀ body ∈ bodies.dropLast, CHUNK_SIZE ≤ body.length) →
    bodies.flatten.length ≤ service.maxObject →
      Made (service.serve s (.completeMultipartUpload parts)).1

/-- An upload that was just begun. -/
structure Begun (service : Service σ) (s : σ) : Prop where
  parts : ∀ n, service.part s n = none
  completed : service.completed s = none

end Service

/-! ## The client -/

structure MultipartUpload where
  m_Buffer : Bytes := []
  m_Serial : ℕ := 1
  m_Parts : List UploadTag := []

/-- The upload, the state of the service, and all requests that were sent. -/
structure System (σ : Type) where
  upload : MultipartUpload := {}
  state : σ
  sent : List Request := []

/-- What becomes of a request: it is served and answered, the answer is an error, or there is none.
Then it may still be served. -/
inductive Fate
  | answered
  | denied (aResult : Result)
  | lost

def DigestStr (d : Digests) (aContent : Bytes) : Bytes := toHex (d.sha256 aContent)

/-- `Format::Base64(Parser::from_hex(aHash))`. -/
def checksum (aHash : Bytes) : Except Failure Bytes :=
  match fromHex aHash (aHash.length + 1) with
  | some (.ok raw) => .ok (Format.base64 0 raw)
  | some (.error what) => .error (.invalidArgument what)
  | none => .error (.invalidArgument [])

def reportError (aResult : Result) : Failure :=
  let sMsg := if aResult.contentType = applicationXml then aResult.message else ""
  .http (if sMsg = "" then aResult.body else sMsg) aResult.status

variable {σ : Type}

namespace System

/-- `m_Client(request)`. -/
def client (service : Service σ) (s : System σ) (request : Request) (fate : Fate) :
    Except Failure Result × System σ :=
  let s' := { s with sent := s.sent ++ [request] }
  match fate with
  | .answered =>
      let served := service.serve s.state request
      (.ok served.1, { s' with state := served.2 })
  | .denied aResult => (.ok aResult, s')
  | .lost => (.error .curl, s')

def uploadPart (d : Digests) (service : Service σ) (s : System σ) (aNumber : ℕ)
    (aContent : Bytes) (fate : Fate) : Except Failure UploadTag × System σ :=
  let sHash := DigestStr d aContent
  match checksum sHash with
  | .error e => (.error e, s)
  | .ok sum =>
      match client service s (.uploadPart aNumber aContent sum) fate with
      | (.error e, s') => (.error e, s')
      | (.ok sResult, s') =>
          if sResult.status ≠ 200 then (.error (reportError sResult), s')
          else (.ok ⟨sResult.ETag, sHash⟩, s')

end System

/-- The entries of the body, the first one has number `aId + 1`. -/
def entries : ℕ → List UploadTag → Except Failure (List Part)
  | _, [] => .ok []
  | aId, tag :: aETags =>
      match checksum tag.hash, entries (aId + 1) aETags with
      | .ok sum, .ok parts => .ok (⟨aId + 1, tag.etag, sum⟩ :: parts)
      | .error e, _ => .error e
      | _, .error e => .error e

/-- Whether the object was really made. -/
def checkResult (sResult : Result) : Except Failure Unit :=
  if sResult.status ≠ 200 then .error (reportError sResult)
  else if sResult.contentType ≠ applicationXml then .error (.runtime "XML response expected")
  else if sResult.message ≠ "" then .error (.http sResult.message sResult.status)
  else if sResult.checksum = [] then .error (.runtime "ChecksumSHA256 not found")
  else .ok ()

namespace System

def completeMultipartUpload (service : Service σ) (s : System σ) (aETags : List UploadTag)
    (fate : Fate) : Except Failure Unit × System σ :=
  match entries 0 aETags with
  | .error e => (.error e, s)
  | .ok parts =>
      match client service s (.completeMultipartUpload parts) fate with
      | (.error e, s') => (.error e, s')
      | (.ok sResult, s') => (checkResult sResult, s')

/-- An exception leaves the buffer and the number as they are. -/
def Flush (d : Digests) (service : Service σ) (s : System σ) (fate : Fate) :
    Except Failure Unit × System σ :=
  match uploadPart d service s s.upload.m_Serial s.upload.m_Buffer fate with
  | (.error e, s') => (.error e, s')
  | (.ok tag, s') =>
      (.ok (), { s' with
        upload :=
          { m_Buffer := []
            m_Serial := s'.upload.m_Serial + 1
            m_Parts := s'.upload.m_Parts ++ [tag] } })

def Write (d : Digests) (service : Service σ) (s : System σ) (aData : Bytes) (fate : Fate) :
    Except Failure Unit × System σ :=
  let s' := { s with upload := { s.upload with m_Buffer := s.upload.m_Buffer ++ aData } }
  if CHUNK_SIZE ≤ s'.upload.m_Buffer.length then Flush d service s' fate else (.ok (), s')

def Commit (d : Digests) (service : Service σ) (s : System σ) (flush complete : Fate) :
    Except Failure Unit × System σ :=
  let flushed := if s.upload.m_Buffer ≠ [] then Flush d service s flush else (.ok (), s)
  match flushed with
  | (.error e, s') => (.error e, s')
  | (.ok (), s') => completeMultipartUpload service s' s'.upload.m_Parts complete

end System

/-- A request arrives that was sent before. -/
inductive Event
  | write (aData : Bytes) (fate : Fate)
  | commit (flush complete : Fate)
  | arrives (i : ℕ)

def step (d : Digests) (service : Service σ) (s : System σ) : Event → System σ
  | .write aData fate => (System.Write d service s aData fate).2
  | .commit flush complete => (System.Commit d service s flush complete).2
  | .arrives i =>
      match s.sent[i]? with
      | none => s
      | some request => { s with state := (service.serve s.state request).2 }

/-- A part that was not stored is denied by the status, and an object that was not made by the
status or by a message. -/
def Admits (_ : System σ) : Event → Prop
  | .write _ fate => ∀ aResult, fate = .denied aResult → aResult.status ≠ 200
  | .commit flush complete =>
      (∀ aResult, flush = .denied aResult → aResult.status ≠ 200) ∧
        ∀ aResult, complete = .denied aResult → aResult.status ≠ 200 ∨ aResult.message ≠ ""
  | .arrives _ => True

/-- All that was given to `Write`, whether it threw or not. -/
def written (es : List Event) : Bytes :=
  es.flatMap fun e =>
    match e with
    | .write aData _ => aData
    | _ => []

/-! ## Checksums -/

section Checksums
variable (d : Digests)

theorem checksum_DigestStr (aContent : Bytes) :
    checksum (DigestStr d aContent) = .ok (sum d aContent) := by
  have hlength := d.length_sha256 aContent
  have hraw : fromHex (toHex (d.sha256 aContent)) ((toHex (d.sha256 aContent)).length + 1) =
      some (.ok (d.sha256 aContent)) := by
    apply fromHex_toHex (by omega)
    rw [length_toHex]
    omega
  rw [checksum, DigestStr, hraw]
  rfl

/-- A checksum is as good as the digest. -/
theorem base64_injective {x y : Bytes} (h : Format.base64 0 x = Format.base64 0 y) : x = y := by
  have hdecode : ∀ z : Bytes, Parser.decode 0 0 0 [] (Format.base64 0 z) = .ok ([] ++ z) :=
    fun z => decode_base64 0 z (fun hne => absurd rfl hne) 0 []
  have hx := hdecode x
  have hy := hdecode y
  rw [h, hy] at hx
  exact (Except.ok.inj hx).symm

/-- These contents have different digests. -/
def Distinct (bodies : List Bytes) : Prop :=
  ∀ x ∈ bodies, ∀ y ∈ bodies, d.sha256 x = d.sha256 y → x = y

variable {d}

theorem eq_of_sums {bodies xs ys : List Bytes} (hd : Distinct d bodies)
    (hxs : ∀ x ∈ xs, x ∈ bodies) (hys : ∀ y ∈ ys, y ∈ bodies)
    (hsums : xs.map (sum d) = ys.map (sum d)) : xs = ys := by
  induction xs generalizing ys with
  | nil => exact (List.map_eq_nil_iff.mp hsums.symm).symm
  | cons x xs ih =>
      cases ys with
      | nil => cases hsums
      | cons y ys =>
          rw [List.map_cons, List.map_cons, List.cons.injEq] at hsums
          have hhead := hd x (hxs x List.mem_cons_self) y (hys y List.mem_cons_self)
            (base64_injective hsums.1)
          have htail := ih (fun z hz => hxs z (List.mem_cons_of_mem x hz))
            (fun z hz => hys z (List.mem_cons_of_mem y hz)) hsums.2
          rw [hhead, htail]

end Checksums

/-! ## A service -/

def sha256OfThree : Bytes :=
  [3, 144, 88, 198, 242, 192, 203, 73, 44, 83, 59, 10, 77, 20, 239, 119, 204, 15, 120, 171, 204,
    206, 213, 40, 125, 132, 161, 162, 1, 28, 251, 129]

/-- SHA-256, at three texts. -/
def digests : Digests where
  sha256 aContent :=
    if aContent = [1, 2] then
      [161, 40, 113, 254, 226, 16, 251, 134, 25, 41, 30, 174, 161, 148, 88, 28, 189, 37, 49,
        228, 178, 55, 89, 210, 37, 246, 128, 105, 35, 246, 50, 34]
    else if aContent = [1, 2, 3] then sha256OfThree
    else if aContent = sha256OfThree then
      [25, 198, 25, 126, 33, 64, 185, 208, 52, 251, 32, 185, 172, 123, 183, 83, 164, 18, 51,
        202, 241, 225, 218, 253, 167, 49, 106, 153, 206, 244, 20, 22]
    else List.replicate 32 0
  length_sha256 aContent := by
    split_ifs <;> rfl

structure Uploads where
  parts : ℕ → Option Stored := fun _ => none
  completed : Option (List Part) := none
  object : Option Bytes := none

def refused : Result := { status := 400, contentType := applicationXml, message := "InvalidPart" }

namespace Uploads

/-- The part that an entry names. -/
def find (s : Uploads) (p : Part) : Option Bytes :=
  ((s.parts p.PartNumber).filter fun stored =>
    stored.etag == p.ETag && sum digests stored.body == p.ChecksumSHA256).map Stored.body

def contents (s : Uploads) : List Part → Option (List Bytes)
  | [] => some []
  | p :: parts =>
      match s.find p, s.contents parts with
      | some body, some bodies => some (body :: bodies)
      | _, _ => none

/-- The checksum of an object is one of the digests of its parts. -/
def assembled (bodies : List Bytes) : Result where
  contentType := applicationXml
  checksum := sum digests (bodies.flatMap digests.sha256)

def serve (s : Uploads) : Request → Result × Uploads
  | .uploadPart n body checksum =>
      if s.completed.isSome ∨ n = 0 ∨ 10000 < n ∨ checksum ≠ sum digests body then (refused, s)
      else
        ({ ETag := body }, { s with parts := Function.update s.parts n (some ⟨body, body⟩) })
  | .completeMultipartUpload parts =>
      match s.completed, s.contents parts with
      | some done, some bodies => if done = parts then (assembled bodies, s) else (refused, s)
      | none, some bodies =>
          if bodies = [] then (refused, s)
          else (assembled bodies, { s with completed := some parts, object := some bodies.flatten })
      | _, none => (refused, s)

end Uploads

/-- A service that tells the body as the tag of a part, and that allows any size. -/
def uploads : Service Uploads where
  serve := Uploads.serve
  part := Uploads.parts
  completed := Uploads.completed
  object := Uploads.object
  maxPart := 5 * 2 ^ 30
  maxObject := 5 * 2 ^ 40

theorem made_assembled (bodies : List Bytes) : Service.Made (Uploads.assembled bodies) := by
  refine ⟨rfl, rfl, rfl, fun hnil => ?_⟩
  have hzero := base64_injective (x := digests.sha256 (bodies.flatMap digests.sha256))
    (y := []) hnil
  have hlength := digests.length_sha256 (bodies.flatMap digests.sha256)
  rw [hzero] at hlength
  cases hlength

theorem not_made_refused : ¬ Service.Made refused := fun h => absurd h.status (by decide)

theorem find_eq_some {s : Uploads} {p : Part} {body : Bytes} : s.find p = some body ↔
    s.parts p.PartNumber = some ⟨body, p.ETag⟩ ∧ p.ChecksumSHA256 = sum digests body := by
  rw [Uploads.find, Option.map_eq_some_iff]
  constructor
  · rintro ⟨stored, hfind, rfl⟩
    obtain ⟨hpart, hmatch⟩ := Option.filter_eq_some_iff.mp hfind
    obtain ⟨htag, hsum⟩ := Bool.and_eq_true_iff.mp hmatch
    rw [hpart, ← beq_iff_eq.mp htag]
    exact ⟨rfl, (beq_iff_eq.mp hsum).symm⟩
  · rintro ⟨hpart, hsum⟩
    refine ⟨⟨body, p.ETag⟩, Option.filter_eq_some_iff.mpr ⟨hpart, ?_⟩, rfl⟩
    rw [← hsum, beq_self_eq_true, beq_self_eq_true]
    rfl

theorem contents_eq_some {s : Uploads} {parts : List Part} {bodies : List Bytes} :
    s.contents parts = some bodies ↔ uploads.Names digests s parts bodies := by
  induction parts generalizing bodies with
  | nil =>
      rw [Uploads.contents, Service.Names, List.forall₂_nil_left_iff, Option.some_inj, eq_comm]
  | cons p parts ih =>
      rw [Uploads.contents, Service.Names, List.forall₂_cons_left_iff]
      constructor
      · intro h
        split at h
        · next body rest hfind hrest =>
          cases h
          exact ⟨body, rest, find_eq_some.mp hfind, ih.mp hrest, rfl⟩
        · cases h
      · rintro ⟨body, rest, hfind, hrest, rfl⟩
        rw [find_eq_some.mpr hfind, ih.mpr hrest]

/-- A part is refused or stored. -/
theorem serve_uploadPart (s : Uploads) (n : ℕ) (body checksum : Bytes) :
    uploads.serve s (.uploadPart n body checksum) = (refused, s) ∨ n ≤ 10000 ∧
      uploads.serve s (.uploadPart n body checksum) =
        ({ ETag := body }, { s with parts := Function.update s.parts n (some ⟨body, body⟩) }) := by
  simp only [uploads, Uploads.serve]
  split_ifs with hrefuse
  · exact Or.inl rfl
  · exact Or.inr ⟨by omega, rfl⟩

/-- The object is refused, or it is there, or it is made. -/
theorem serve_complete (s : Uploads) (parts : List Part) :
    uploads.serve s (.completeMultipartUpload parts) = (refused, s) ∨
      ∃ bodies, (s.completed = some parts ∧
          uploads.serve s (.completeMultipartUpload parts) = (Uploads.assembled bodies, s)) ∨
        s.completed = none ∧ uploads.Names digests s parts bodies ∧
          uploads.serve s (.completeMultipartUpload parts) = (Uploads.assembled bodies,
            { s with completed := some parts, object := some bodies.flatten }) := by
  simp only [uploads, Uploads.serve]
  cases hcontents : s.contents parts with
  | none => cases s.completed <;> exact Or.inl rfl
  | some bodies =>
      cases hcompleted : s.completed with
      | some done =>
          dsimp only
          split_ifs with hsame
          · exact Or.inr ⟨bodies, Or.inl ⟨congrArg some hsame, rfl⟩⟩
          · exact Or.inl rfl
      | none =>
          dsimp only
          split_ifs
          · exact Or.inl rfl
          · exact Or.inr ⟨bodies, Or.inr ⟨rfl, contents_eq_some.mp hcontents, rfl⟩⟩

theorem documented_uploads : uploads.Documented digests := by
  constructor
  case upload_other =>
    intro s n body checksum m hm
    rcases serve_uploadPart s n body checksum with h | ⟨-, h⟩ <;> rw [h]
    exact Function.update_of_ne hm _ _
  case upload_own =>
    intro s n body checksum p hp
    rcases serve_uploadPart s n body checksum with h | ⟨-, h⟩ <;> rw [h] at hp
    · exact Or.inl hp
    · change Function.update s.parts n (some ⟨body, body⟩) n = some p at hp
      rw [Function.update_self] at hp
      cases hp
      exact Or.inr rfl
  case upload_unfinished =>
    intro s n body checksum
    rcases serve_uploadPart s n body checksum with h | ⟨-, h⟩ <;> rw [h] <;> exact ⟨rfl, rfl⟩
  case upload_answered =>
    intro s n body checksum hstatus
    rcases serve_uploadPart s n body checksum with h | ⟨hn, h⟩ <;> rw [h] at hstatus ⊢
    · cases hstatus
    · exact ⟨hn, Function.update_self n _ _⟩
  case upload_served =>
    intro s n body hopen hpos hn _
    simp only [uploads, Uploads.serve] at hopen ⊢
    rw [if_neg]
    rintro (hcompleted | hzero | hlarge | hchecksum)
    · rw [hopen] at hcompleted
      cases hcompleted
    · omega
    · omega
    · exact hchecksum rfl
  case complete_part =>
    intro s parts n p hp
    rcases serve_complete s parts with h | ⟨bodies, ⟨-, h⟩ | ⟨-, -, h⟩⟩ <;> rw [h] at hp
    all_goals exact hp
  case complete_unfinished =>
    intro s parts hopen
    rcases serve_complete s parts with h | ⟨bodies, ⟨hdone, -⟩ | ⟨-, hnames, h⟩⟩
    · rw [h]
      exact Or.inl hopen
    · exact absurd (hopen.symm.trans hdone) (Option.some_ne_none parts).symm
    · rw [h]
      exact Or.inr ⟨rfl, bodies, hnames, rfl⟩
  case complete_finished =>
    intro s parts done hdone
    rcases serve_complete s parts with h | ⟨bodies, ⟨-, h⟩ | ⟨hopen, -⟩⟩
    · rw [h]
      exact ⟨hdone, rfl⟩
    · rw [h]
      exact ⟨hdone, rfl⟩
    · exact absurd (hopen.symm.trans hdone) (Option.some_ne_none done).symm
  case complete_answered =>
    intro s parts hmade
    rcases serve_complete s parts with h | ⟨bodies, ⟨hdone, h⟩ | ⟨-, -, h⟩⟩ <;> rw [h] at hmade ⊢
    · exact absurd hmade not_made_refused
    · exact hdone
    · rfl
  case complete_served =>
    intro s parts bodies hopen hne _ hnames _ _
    have hbodies : bodies ≠ [] := by
      rintro rfl
      exact hne (List.forall₂_nil_right_iff.mp hnames)
    simp only [uploads, Uploads.serve] at hopen ⊢
    rw [hopen, contents_eq_some.mpr hnames]
    dsimp only
    rw [if_neg hbodies]
    exact made_assembled bodies

theorem begun_uploads : uploads.Begun {} := ⟨fun _ => rfl, rfl⟩

/-! ## What the service has -/

def Request.bodies : Request → List Bytes
  | .uploadPart _ body _ => [body]
  | .completeMultipartUpload _ => []

namespace Service

/-- Everything is from these contents. An object was made of the parts that were named. -/
structure Inv (d : Digests) (service : Service σ) (bodies : List Bytes) (s : σ) : Prop where
  stored : ∀ n p, service.part s n = some p → p.body ∈ bodies
  made : ∀ parts, service.completed s = some parts →
    ∃ xs : List Bytes, service.object s = some xs.flatten ∧
      parts.map Part.ChecksumSHA256 = xs.map (sum d) ∧ ∀ x ∈ xs, x ∈ bodies

section Serve
variable {d : Digests} {service : Service σ} {bodies : List Bytes} {s : σ}

theorem Inv.mono {bodies' : List Bytes} (h : Inv d service bodies s)
    (hle : ∀ x ∈ bodies, x ∈ bodies') : Inv d service bodies' s := by
  constructor
  case stored => exact fun n p hp => hle p.body (h.stored n p hp)
  case made =>
    intro parts hparts
    obtain ⟨xs, hobject, hsums, hxs⟩ := h.made parts hparts
    exact ⟨xs, hobject, hsums, fun x hx => hle x (hxs x hx)⟩

theorem names_sums {parts : List Part} {xs : List Bytes} (h : service.Names d s parts xs) :
    parts.map Part.ChecksumSHA256 = xs.map (sum d) := by
  induction h with
  | nil => rfl
  | cons hp _ ih => rw [List.map_cons, List.map_cons, hp.2, ih]

theorem names_stored {parts : List Part} {xs : List Bytes} (h : service.Names d s parts xs) :
    ∀ x ∈ xs, ∃ n etag, service.part s n = some ⟨x, etag⟩ := by
  induction h with
  | nil => exact fun x hx => absurd hx List.not_mem_nil
  | cons hp _ ih =>
      intro x hx
      rcases List.mem_cons.mp hx with rfl | hx
      · exact ⟨_, _, hp.1⟩
      · exact ih x hx

theorem Inv.serve (hservice : service.Documented d) (h : Inv d service bodies s)
    {request : Request} (hrequest : ∀ x ∈ request.bodies, x ∈ bodies) :
    Inv d service bodies (service.serve s request).2 := by
  cases request with
  | uploadPart n body checksum =>
      obtain ⟨hcompleted, hobject⟩ := hservice.upload_unfinished s n body checksum
      constructor
      case stored =>
        intro m p hp
        by_cases hm : m = n
        · rw [hm] at hp
          rcases hservice.upload_own s n body checksum p hp with hold | hnew
          · exact h.stored n p hold
          · exact hnew ▸ hrequest body List.mem_cons_self
        · rw [hservice.upload_other s n body checksum m hm] at hp
          exact h.stored m p hp
      case made =>
        rw [hcompleted, hobject]
        exact h.made
  | completeMultipartUpload parts =>
      constructor
      case stored => exact fun n p hp => h.stored n p (hservice.complete_part s parts n p hp)
      case made =>
        intro done hdone
        cases hopen : service.completed s with
        | some done' =>
            obtain ⟨hsame, hobject⟩ := hservice.complete_finished s parts done' hopen
            rw [hobject]
            exact h.made done (hopen.trans (hsame.symm.trans hdone))
        | none =>
            rcases hservice.complete_unfinished s parts hopen with hno | ⟨hmade, xs, hnames, hxs⟩
            · exact absurd (hno.symm.trans hdone) (Option.some_ne_none done).symm
            · rw [hmade] at hdone
              cases hdone
              refine ⟨xs, hxs, names_sums hnames, fun x hx => ?_⟩
              obtain ⟨n, etag, hpart⟩ := names_stored hnames x hx
              exact h.stored n _ hpart

/-- An object that was made stays. -/
theorem serve_completed (hservice : service.Documented d) {parts : List Part}
    (h : service.completed s = some parts) (request : Request) :
    service.completed (service.serve s request).2 = some parts ∧
      service.object (service.serve s request).2 = service.object s := by
  cases request with
  | uploadPart n body checksum =>
      obtain ⟨hcompleted, hobject⟩ := hservice.upload_unfinished s n body checksum
      exact ⟨hcompleted.trans h, hobject⟩
  | completeMultipartUpload parts' => exact hservice.complete_finished s parts' parts h

end Serve

end Service

theorem checkResult_eq_ok {r : Result} : checkResult r = .ok () ↔ Service.Made r := by
  constructor
  · intro h
    rw [checkResult] at h
    split_ifs at h with hstatus htype hmessage hchecksum
    exact ⟨not_not.mp hstatus, not_not.mp htype, not_not.mp hmessage, hchecksum⟩
  · intro h
    rw [checkResult, if_neg (not_not.mpr h.status), if_neg (not_not.mpr h.contentType),
      if_neg (not_not.mpr h.message), if_neg h.checksum]

/-! ## What the client has -/

namespace System

/-- The contents of all parts that were sent. -/
def bodies (s : System σ) : List Bytes := s.sent.flatMap Request.bodies

/-- Everything that was written is in the parts and in the buffer. -/
structure Inv (d : Digests) (service : Service σ) (text : Bytes) (s : System σ) : Prop where
  pieces : ∃ pieces : List Bytes, s.upload.m_Parts.map UploadTag.hash =
    pieces.map (DigestStr d) ∧ pieces.flatten ++ s.upload.m_Buffer = text ∧
    ∀ x ∈ pieces, x ∈ s.bodies
  serial : s.upload.m_Serial = s.upload.m_Parts.length + 1
  numbers : s.upload.m_Parts.length ≤ 10000
  service : service.Inv d s.bodies s.state

section Client
variable {d : Digests} {service : Service σ} (hservice : service.Documented d) {text : Bytes}
  {s : System σ}

theorem mem_bodies {request : Request} (h : request ∈ s.sent) :
    ∀ x ∈ request.bodies, x ∈ s.bodies :=
  fun _ hx => List.mem_flatMap.mpr ⟨request, h, hx⟩

theorem inv_start {state : σ} (hbegun : service.Begun state) :
    Inv d service [] { state := state } := by
  constructor
  case pieces => exact ⟨[], rfl, rfl, fun x hx => absurd hx List.not_mem_nil⟩
  case serial => rfl
  case numbers => exact Nat.zero_le _
  case service =>
    constructor
    case stored =>
      intro n p h
      rw [hbegun.parts] at h
      cases h
    case made =>
      intro parts h
      rw [hbegun.completed] at h
      cases h

/-- What a request does, whatever becomes of it. -/
structure Requested (service : Service σ) (s s' : System σ) (request : Request) : Prop where
  upload : s'.upload = s.upload
  sent : s'.sent = s.sent ++ [request]
  state : s'.state = s.state ∨ s'.state = (service.serve s.state request).2

theorem requested_client (service : Service σ) (s : System σ) (request : Request) (fate : Fate) :
    Requested service s (s.client service request fate).2 request := by
  cases fate with
  | answered => exact ⟨rfl, rfl, Or.inr rfl⟩
  | denied aResult => exact ⟨rfl, rfl, Or.inl rfl⟩
  | lost => exact ⟨rfl, rfl, Or.inl rfl⟩

theorem Requested.bodies {s' : System σ} {request : Request}
    (h : Requested service s s' request) : s'.bodies = s.bodies ++ request.bodies := by
  rw [System.bodies, h.sent, List.flatMap_append, List.flatMap_singleton]
  rfl

include hservice in
theorem Requested.inv {s' : System σ} {request : Request} (h : Requested service s s' request)
    (hi : s.Inv d service text) : s'.Inv d service text := by
  have hle : ∀ x ∈ s.bodies, x ∈ s'.bodies := fun x hx => h.bodies ▸ List.mem_append_left _ hx
  constructor
  case pieces =>
    obtain ⟨pieces, hhashes, htext, hpieces⟩ := hi.pieces
    rw [h.upload]
    exact ⟨pieces, hhashes, htext, fun x hx => hle x (hpieces x hx)⟩
  case serial => exact h.upload ▸ hi.serial
  case numbers => exact h.upload ▸ hi.numbers
  case service =>
    have hmono := hi.service.mono hle
    rcases h.state with heq | heq
    · rwa [heq]
    · rw [heq]
      exact hmono.serve hservice fun x hx => h.bodies ▸ List.mem_append_right _ hx

theorem uploadPart_eq (d : Digests) (service : Service σ) (s : System σ) (aNumber : ℕ)
    (aContent : Bytes) (fate : Fate) : uploadPart d service s aNumber aContent fate =
      match s.client service (.uploadPart aNumber aContent (sum d aContent)) fate with
      | (.error e, s') => (.error e, s')
      | (.ok sResult, s') =>
          if sResult.status ≠ 200 then (.error (reportError sResult), s')
          else (.ok ⟨sResult.ETag, DigestStr d aContent⟩, s') := by
  rw [uploadPart, checksum_DigestStr]

theorem requested_uploadPart (d : Digests) (service : Service σ) (s : System σ) (aNumber : ℕ)
    (aContent : Bytes) (fate : Fate) :
    Requested service s (uploadPart d service s aNumber aContent fate).2
      (.uploadPart aNumber aContent (sum d aContent)) := by
  have hrequested :=
    requested_client service s (.uploadPart aNumber aContent (sum d aContent)) fate
  rw [uploadPart_eq]
  split
  · next hcall => rwa [hcall] at hrequested
  · next hcall =>
    rw [hcall] at hrequested
    split_ifs
    · exact hrequested
    · exact hrequested

include hservice in
/-- A part that is done has a number that the service allows. -/
theorem uploadPart_ok {aNumber : ℕ} {aContent : Bytes} {fate : Fate} {tag : UploadTag}
    (hfate : ∀ aResult, fate = .denied aResult → aResult.status ≠ 200)
    (h : (uploadPart d service s aNumber aContent fate).1 = .ok tag) :
    tag.hash = DigestStr d aContent ∧ aNumber ≤ 10000 := by
  rw [uploadPart_eq] at h
  cases fate with
  | lost => cases h
  | denied aResult =>
      simp only [client] at h
      rw [if_pos (hfate aResult rfl)] at h
      cases h
  | answered =>
      simp only [client] at h
      split_ifs at h with hstatus
      cases h
      exact ⟨rfl, (hservice.upload_answered _ _ _ _ (not_not.mp hstatus)).1⟩

include hservice in
theorem Inv.flush (hi : s.Inv d service text) {fate : Fate}
    (hfate : ∀ aResult, fate = .denied aResult → aResult.status ≠ 200) :
    (Flush d service s fate).2.Inv d service text ∧
      ((Flush d service s fate).1 = .ok () → (Flush d service s fate).2.upload.m_Buffer = []) := by
  have hrequested := requested_uploadPart d service s s.upload.m_Serial s.upload.m_Buffer fate
  have hnext := hrequested.inv hservice hi
  rw [Flush]
  split
  · next e s' hresult =>
    rw [hresult] at hnext
    exact ⟨hnext, fun h => by cases h⟩
  · next tag s' hresult =>
    rw [hresult] at hnext hrequested
    obtain ⟨hhash, hnumber⟩ := uploadPart_ok hservice hfate (by rw [hresult])
    have hserial := hi.serial
    have hupload := hrequested.upload
    dsimp only at hnext hrequested hupload
    refine ⟨?_, fun _ => rfl⟩
    constructor
    case pieces =>
      obtain ⟨pieces, hhashes, htext, hpieces⟩ := hnext.pieces
      refine ⟨pieces ++ [s.upload.m_Buffer], ?_, ?_, ?_⟩
      · rw [List.map_append, List.map_append, hhashes, List.map_singleton, List.map_singleton,
          hhash]
      · rw [List.flatten_append, List.flatten_singleton, List.append_nil, ← htext, hupload]
      · intro x hx
        rcases List.mem_append.mp hx with hx | hx
        · exact hpieces x hx
        · change x ∈ s'.bodies
          rw [hrequested.bodies]
          exact List.mem_append_right _ hx
    case serial =>
      change s'.upload.m_Serial + 1 = (s'.upload.m_Parts ++ [tag]).length + 1
      rw [hnext.serial, List.length_append, List.length_singleton]
    case numbers =>
      change (s'.upload.m_Parts ++ [tag]).length ≤ 10000
      rw [hupload, List.length_append, List.length_singleton]
      omega
    case service => exact hnext.service

theorem Inv.append (hi : s.Inv d service text) (aData : Bytes) :
    Inv d service (text ++ aData)
      { s with upload := { s.upload with m_Buffer := s.upload.m_Buffer ++ aData } } := by
  constructor
  case pieces =>
    obtain ⟨pieces, hhashes, htext, hpieces⟩ := hi.pieces
    exact ⟨pieces, hhashes, by rw [← htext, List.append_assoc], hpieces⟩
  case serial => exact hi.serial
  case numbers => exact hi.numbers
  case service => exact hi.service

include hservice in
theorem Inv.write (hi : s.Inv d service text) (aData : Bytes) {fate : Fate}
    (hfate : ∀ aResult, fate = .denied aResult → aResult.status ≠ 200) :
    (Write d service s aData fate).2.Inv d service (text ++ aData) := by
  rw [Write]
  dsimp only
  split_ifs
  · exact ((hi.append aData).flush hservice hfate).1
  · exact hi.append aData

/-- The entries name the checksums of the pieces. -/
theorem entries_spec {tags : List UploadTag} {pieces : List Bytes}
    (h : tags.map UploadTag.hash = pieces.map (DigestStr d)) (aId : ℕ) :
    ∃ parts, entries aId tags = .ok parts ∧
      parts.map Part.ChecksumSHA256 = pieces.map (sum d) := by
  induction tags generalizing pieces aId with
  | nil =>
      rw [List.map_eq_nil_iff.mp h.symm]
      exact ⟨[], rfl, rfl⟩
  | cons tag tags ih =>
      cases pieces with
      | nil => cases h
      | cons piece pieces =>
          rw [List.map_cons, List.map_cons, List.cons.injEq] at h
          obtain ⟨parts, hparts, hsums⟩ := ih h.2 (aId + 1)
          refine ⟨⟨aId + 1, tag.etag, sum d piece⟩ :: parts, ?_, ?_⟩
          · rw [entries, h.1, checksum_DigestStr, hparts]
          · rw [List.map_cons, List.map_cons, hsums]

include hservice in
/-- The flush that a commit begins with. -/
theorem Inv.commitFlush (hi : s.Inv d service text) {fate : Fate}
    (hfate : ∀ aResult, fate = .denied aResult → aResult.status ≠ 200) :
    let flushed := if s.upload.m_Buffer ≠ [] then Flush d service s fate else (.ok (), s)
    flushed.2.Inv d service text ∧ (flushed.1 = .ok () → flushed.2.upload.m_Buffer = []) := by
  intro flushed
  by_cases hbuffer : s.upload.m_Buffer ≠ []
  · have heq : flushed = Flush d service s fate := if_pos hbuffer
    rw [heq]
    exact hi.flush hservice hfate
  · have heq : flushed = (.ok (), s) := if_neg hbuffer
    rw [heq]
    exact ⟨hi, fun _ => not_not.mp hbuffer⟩

include hservice in
theorem completeMultipartUpload_spec (hi : s.Inv d service text) {fate : Fate} (hfate : ∀ aResult,
    fate = .denied aResult → aResult.status ≠ 200 ∨ aResult.message ≠ "") :
    let r := completeMultipartUpload service s s.upload.m_Parts fate
    r.2.Inv d service text ∧ r.2.upload = s.upload ∧
      (r.1 = .ok () → ∃ (parts : List Part) (pieces : List Bytes),
        service.completed r.2.state = some parts ∧
        parts.map Part.ChecksumSHA256 = pieces.map (sum d) ∧
        pieces.flatten ++ s.upload.m_Buffer = text ∧ ∀ x ∈ pieces, x ∈ r.2.bodies) := by
  intro r
  obtain ⟨pieces, hhashes, htext, hpieces⟩ := hi.pieces
  obtain ⟨parts, hparts, hsums⟩ := entries_spec hhashes 0
  have hrequested := requested_client service s (.completeMultipartUpload parts) fate
  have hr : r = match s.client service (.completeMultipartUpload parts) fate with
      | (.error e, s') => (.error e, s')
      | (.ok sResult, s') => (checkResult sResult, s') := by
    change completeMultipartUpload service s s.upload.m_Parts fate = _
    rw [completeMultipartUpload, hparts]
  rw [hr]
  cases fate with
  | lost =>
      exact ⟨hrequested.inv hservice hi, hrequested.upload, fun h => by cases h⟩
  | denied aResult =>
      refine ⟨hrequested.inv hservice hi, hrequested.upload, fun h => ?_⟩
      have hmade := checkResult_eq_ok.mp h
      rcases hfate aResult rfl with hstatus | hmessage
      · exact absurd hmade.status hstatus
      · exact absurd hmade.message hmessage
  | answered =>
      refine ⟨hrequested.inv hservice hi, hrequested.upload, fun h => ?_⟩
      refine ⟨parts, pieces, hservice.complete_answered _ _ (checkResult_eq_ok.mp h), hsums, htext,
        fun x hx => ?_⟩
      change x ∈ (s.client service (.completeMultipartUpload parts) .answered).2.bodies
      rw [hrequested.bodies]
      exact List.mem_append_left _ (hpieces x hx)

include hservice in
theorem Inv.commit (hi : s.Inv d service text) {flush complete : Fate}
    (hadmits : Admits s (.commit flush complete)) :
    (Commit d service s flush complete).2.Inv d service text ∧
      ((Commit d service s flush complete).1 = .ok () → ∃ parts,
        service.completed (Commit d service s flush complete).2.state = some parts ∧
          (Distinct d (Commit d service s flush complete).2.bodies →
            service.object (Commit d service s flush complete).2.state = some text)) := by
  obtain ⟨hflush, hempty⟩ := hi.commitFlush hservice hadmits.1
  rw [Commit]
  split
  · next e s' hresult =>
    rw [hresult] at hflush
    exact ⟨hflush, fun h => by cases h⟩
  · next s' hresult =>
    rw [hresult] at hflush hempty
    obtain ⟨hinv, -, hmade⟩ := completeMultipartUpload_spec hservice hflush hadmits.2
    refine ⟨hinv, fun h => ?_⟩
    obtain ⟨parts, pieces, hcompleted, hsums, htext, hpieces⟩ := hmade h
    refine ⟨parts, hcompleted, fun hdistinct => ?_⟩
    obtain ⟨xs, hobject, hxsums, hxs⟩ := hinv.service.made parts hcompleted
    have hsame : xs = pieces := eq_of_sums hdistinct hxs hpieces (hxsums.symm.trans hsums)
    rw [hempty rfl, List.append_nil] at htext
    rw [hobject, hsame, htext]

include hservice in
theorem Inv.step (hi : s.Inv d service text) {e : Event} (hadmits : Admits s e) :
    (step d service s e).Inv d service (text ++ written [e]) := by
  rw [written, List.flatMap_singleton]
  cases e with
  | write aData fate => exact hi.write hservice aData hadmits
  | commit flush complete =>
      rw [List.append_nil]
      exact (hi.commit hservice hadmits).1
  | arrives i =>
      rw [List.append_nil]
      simp only [S3MultipartUpload.step]
      split
      · exact hi
      · next request hrequest =>
        constructor
        case pieces => exact hi.pieces
        case serial => exact hi.serial
        case numbers => exact hi.numbers
        case service =>
          exact hi.service.serve hservice (mem_bodies (List.mem_of_getElem? hrequest))

end Client

end System

section Runs
variable {d : Digests} {service : Service σ} (hservice : service.Documented d)

include hservice in
theorem inv_run {state : σ} (hbegun : service.Begun state) {es : List Event}
    (hes : Meets (step d service) Admits { state := state } es) :
    (run (step d service) { state := state } es).Inv d service (written es) := by
  induction es using List.reverseRecOn with
  | nil => exact System.inv_start hbegun
  | append_singleton es e ih =>
      rw [meets_concat] at hes
      have hnext := (ih hes.1).step hservice hes.2
      rw [run_concat]
      rwa [written, List.flatMap_append]

section Completed
variable {s s' : System σ} {parts : List Part} {object : Option Bytes}

/-- The object was made of these parts. -/
def Keeps (service : Service σ) (parts : List Part) (object : Option Bytes) (state : σ) : Prop :=
  service.completed state = some parts ∧ service.object state = object

include hservice in
theorem Keeps.serve {state : σ} (h : Keeps service parts object state) (request : Request) :
    Keeps service parts object (service.serve state request).2 := by
  obtain ⟨hcompleted, hobject⟩ := Service.serve_completed hservice h.1 request
  exact ⟨hcompleted, hobject.trans h.2⟩

include hservice in
theorem Keeps.requested {request : Request} (hr : System.Requested service s s' request)
    (h : Keeps service parts object s.state) : Keeps service parts object s'.state := by
  rcases hr.state with heq | heq
  · rwa [heq]
  · rw [heq]
    exact h.serve hservice request

include hservice in
theorem Keeps.flush (h : Keeps service parts object s.state) (fate : Fate) :
    Keeps service parts object (System.Flush d service s fate).2.state := by
  have hkeeps := h.requested hservice
    (System.requested_uploadPart d service s s.upload.m_Serial s.upload.m_Buffer fate)
  rw [System.Flush]
  split
  · next hcall => rwa [hcall] at hkeeps
  · next hcall => rwa [hcall] at hkeeps

include hservice in
theorem Keeps.complete (h : Keeps service parts object s.state) (aETags : List UploadTag)
    (fate : Fate) :
    Keeps service parts object (System.completeMultipartUpload service s aETags fate).2.state := by
  rw [System.completeMultipartUpload]
  split
  · exact h
  · next parts' _ =>
    have hkeeps := h.requested hservice
      (System.requested_client service s (.completeMultipartUpload parts') fate)
    split
    · next hcall => rwa [hcall] at hkeeps
    · next hcall => rwa [hcall] at hkeeps

include hservice in
/-- What was made stays, whatever is served later. -/
theorem Keeps.step (h : Keeps service parts object s.state) (e : Event) :
    Keeps service parts object (step d service s e).state := by
  cases e with
  | write aData fate =>
      simp only [S3MultipartUpload.step, System.Write]
      split_ifs
      · exact Keeps.flush hservice (s := { s with upload := { s.upload with
          m_Buffer := s.upload.m_Buffer ++ aData } }) h fate
      · exact h
  | commit flush complete =>
      have hflush : Keeps service parts object (if s.upload.m_Buffer ≠ [] then
          System.Flush d service s flush else (.ok (), s)).2.state := by
        split_ifs
        · exact h.flush hservice flush
        · exact h
      simp only [S3MultipartUpload.step, System.Commit]
      split
      · next hresult => rwa [hresult] at hflush
      · next hresult =>
        rw [hresult] at hflush
        exact Keeps.complete hservice hflush _ complete
  | arrives i =>
      simp only [S3MultipartUpload.step]
      split
      · exact h
      · exact h.serve hservice _

include hservice in
theorem Keeps.run (h : Keeps service parts object s.state) (later : List Event) :
    Keeps service parts object
      (EventRuns.run (S3MultipartUpload.step d service) s later).state := by
  induction later using List.reverseRecOn with
  | nil => exact h
  | append_singleton later e ih =>
      rw [run_concat]
      exact ih.step hservice e

end Completed

/-- In every run, whatever was lost, denied, sent again or served late: an upload that is committed
without an exception is all that was written, and stays so. -/
theorem commit_assembles (hservice : service.Documented d) (state : σ)
    (hbegun : service.Begun state) (es later : List Event) (flush complete : Fate)
    (hes : Meets (step d service) Admits { state := state } (es ++ [.commit flush complete]))
    (hcommit : ((run (step d service) { state := state } es).Commit d service flush
      complete).1 = .ok ())
    (hdistinct : Distinct d (run (step d service) { state := state }
      (es ++ [.commit flush complete])).bodies) :
    service.object (run (step d service) { state := state }
      (es ++ .commit flush complete :: later)).state = some (written es) := by
  rw [meets_concat] at hes
  rw [run_concat] at hdistinct
  obtain ⟨-, hok⟩ := (inv_run hservice hbegun hes.1).commit hservice hes.2
  obtain ⟨parts, hcompleted, hobject⟩ := hok hcommit
  have hkeeps : Keeps service parts (some (written es)) _ := ⟨hcompleted, hobject hdistinct⟩
  rw [run_append, run_cons]
  exact (hkeeps.run hservice later).2

/-- The first part is sent twice, and the second time has more in it. -/
theorem commit_assembles_sentAgain :
    (run (step digests uploads) { state := {} } [.write [1, 2] .lost, .commit .lost .answered,
      .write [3] .lost, .arrives 0, .commit .answered .answered, .arrives 0]).state.object =
        some [1, 2, 3] := by
  apply commit_assembles documented_uploads {} begun_uploads [.write [1, 2] .lost,
    .commit .lost .answered, .write [3] .lost, .arrives 0] [.arrives 0] .answered .answered
  · have hlost : ∀ aResult : Result, Fate.lost = .denied aResult → aResult.status ≠ 200 :=
      fun _ h => nomatch h
    have hanswered : ∀ aResult : Result, Fate.answered = .denied aResult → aResult.status ≠ 200 :=
      fun _ h => nomatch h
    have hanswered' : ∀ aResult : Result, Fate.answered = .denied aResult →
        aResult.status ≠ 200 ∨ aResult.message ≠ "" := fun _ h => nomatch h
    exact ⟨hlost, ⟨hlost, hanswered'⟩, hlost, trivial, ⟨hanswered, hanswered'⟩, trivial⟩
  · rfl
  · have hbodies : (run (step digests uploads) { state := {} } ([.write [1, 2] .lost,
        .commit .lost .answered, .write [3] .lost, .arrives 0] ++
        [.commit .answered .answered])).bodies = [[1, 2], [1, 2, 3]] := rfl
    rw [hbodies]
    unfold Distinct
    decide

end Runs

/-! ## Nothing is served late -/

def UploadTag.of (d : Digests) (p : Stored) : UploadTag := ⟨p.etag, DigestStr d p.body⟩

namespace System

/-- The service has the parts that the client thinks it has. -/
structure Exact (d : Digests) (service : Service σ) (text : Bytes) (pieces : List Stored)
    (s : System σ) : Prop where
  parts : s.upload.m_Parts = pieces.map (UploadTag.of d)
  text : pieces.flatMap Stored.body ++ s.upload.m_Buffer = text
  stored : ∀ i p, pieces[i]? = some p → service.part s.state (i + 1) = some p
  serial : s.upload.m_Serial = pieces.length + 1
  unfinished : service.completed s.state = none

section Exact
variable {d : Digests} {service : Service σ} (hservice : service.Documented d) {text : Bytes}
  {pieces : List Stored} {s : System σ}

/-- A flush without an answer changes nothing. -/
theorem Flush_of_not_answered (d : Digests) (service : Service σ) (s : System σ) {fate : Fate}
    (hlost : fate ≠ .answered) (hfate : ∀ aResult, fate = .denied aResult → aResult.status ≠ 200) :
    (∃ e, (Flush d service s fate).1 = .error e) ∧ (Flush d service s fate).2 =
      { s with
        sent := s.sent ++ [.uploadPart s.upload.m_Serial s.upload.m_Buffer
          (sum d s.upload.m_Buffer)] } := by
  rw [Flush, uploadPart_eq]
  cases fate with
  | answered => exact absurd rfl hlost
  | lost => exact ⟨⟨_, rfl⟩, rfl⟩
  | denied aResult =>
      simp only [client]
      rw [if_pos (hfate aResult rfl)]
      exact ⟨⟨_, rfl⟩, rfl⟩

include hservice in
/-- Either nothing is lost, or one more part is stored. -/
theorem Exact.flush (he : Exact d service text pieces s) (fate : Fate)
    (hfate : ∀ aResult, fate = .denied aResult → aResult.status ≠ 200) :
    (∃ e, (Flush d service s fate).1 = .error e) ∧
        Exact d service text pieces (Flush d service s fate).2 ∨
      (Flush d service s fate).1 = .ok () ∧ (Flush d service s fate).2.upload.m_Buffer = [] ∧
        ∃ etag, Exact d service text (pieces ++ [⟨s.upload.m_Buffer, etag⟩])
          (Flush d service s fate).2 := by
  by_cases hanswered : fate = .answered
  swap
  · obtain ⟨herror, heq⟩ := Flush_of_not_answered d service s hanswered hfate
    rw [heq]
    exact Or.inl ⟨herror, he.parts, he.text, he.stored, he.serial, he.unfinished⟩
  · have hother := hservice.upload_other s.state s.upload.m_Serial s.upload.m_Buffer
      (sum d s.upload.m_Buffer)
    have hunfinished := (hservice.upload_unfinished s.state s.upload.m_Serial s.upload.m_Buffer
      (sum d s.upload.m_Buffer)).1.trans he.unfinished
    have hstored : ∀ i p, pieces[i]? = some p → service.part (service.serve s.state (.uploadPart
        s.upload.m_Serial s.upload.m_Buffer (sum d s.upload.m_Buffer))).2 (i + 1) = some p := by
      intro i p hp
      have hi := (List.getElem?_eq_some_iff.mp hp).1
      rw [hother (i + 1) (by rw [he.serial]; omega)]
      exact he.stored i p hp
    rw [hanswered, Flush, uploadPart_eq]
    simp only [client]
    by_cases hstatus : (service.serve s.state (.uploadPart s.upload.m_Serial s.upload.m_Buffer
        (sum d s.upload.m_Buffer))).1.status = 200
    · rw [if_neg (not_not.mpr hstatus)]
      refine Or.inr ⟨rfl, rfl, (service.serve s.state (.uploadPart s.upload.m_Serial
        s.upload.m_Buffer (sum d s.upload.m_Buffer))).1.ETag, ?_⟩
      obtain ⟨-, hown⟩ := hservice.upload_answered _ _ _ _ hstatus
      constructor
      case parts =>
        rw [List.map_append, ← he.parts]
        rfl
      case text =>
        rw [List.flatMap_append, List.flatMap_singleton, he.text]
        exact List.append_nil text
      case stored =>
        intro i p hp
        rcases Nat.lt_trichotomy i pieces.length with hlt | heq | hgt
        · rw [List.getElem?_append_left hlt] at hp
          exact hstored i p hp
        · rw [heq, List.getElem?_concat_length] at hp
          rw [heq, ← he.serial, ← hp]
          exact hown
        · rw [List.getElem?_eq_none (by
            rw [List.length_append, List.length_singleton]; omega)] at hp
          cases hp
      case serial =>
        change s.upload.m_Serial + 1 = (pieces ++ [_]).length + 1
        rw [List.length_append, List.length_singleton, he.serial]
      case unfinished => exact hunfinished
    · rw [if_pos hstatus]
      exact Or.inl ⟨⟨_, rfl⟩, he.parts, he.text, hstored, he.serial, hunfinished⟩

include hservice in
theorem Exact.flush_answered (he : Exact d service text pieces s)
    (hnumber : s.upload.m_Parts.length < 10000)
    (hsize : s.upload.m_Buffer.length ≤ service.maxPart) :
    (Flush d service s .answered).1 = .ok () := by
  have hserial := he.serial
  rw [he.parts, List.length_map] at hnumber
  have hstatus := hservice.upload_served s.state s.upload.m_Serial s.upload.m_Buffer he.unfinished
    (by omega) (by omega) hsize
  rw [Flush, uploadPart_eq]
  simp only [client]
  rw [if_neg (not_not.mpr hstatus)]

include hservice in
/-- Only full parts are sent. -/
theorem Exact.write (he : Exact d service text pieces s)
    (hfull : ∀ p ∈ pieces, CHUNK_SIZE ≤ p.body.length) (aData : Bytes) {fate : Fate}
    (hfate : ∀ aResult, fate = .denied aResult → aResult.status ≠ 200) :
    ∃ pieces', Exact d service (text ++ aData) pieces' (Write d service s aData fate).2 ∧
      ∀ p ∈ pieces', CHUNK_SIZE ≤ p.body.length := by
  have hnext : Exact d service (text ++ aData) pieces
      { s with upload := { s.upload with m_Buffer := s.upload.m_Buffer ++ aData } } :=
    ⟨he.parts, by rw [← he.text, List.append_assoc], he.stored, he.serial, he.unfinished⟩
  rw [Write]
  dsimp only
  split_ifs with hsize
  · rcases hnext.flush hservice fate hfate with ⟨-, hsame⟩ | ⟨-, -, etag, hmore⟩
    · exact ⟨pieces, hsame, hfull⟩
    · refine ⟨_, hmore, fun p hp => ?_⟩
      rcases List.mem_append.mp hp with hp | hp
      · exact hfull p hp
      · rw [List.mem_singleton.mp hp]
        exact hsize
  · exact ⟨pieces, hnext, hfull⟩

theorem names_entries (d : Digests) (service : Service σ) (state : σ) (pieces : List Stored)
    (aId : ℕ) (h : ∀ i p, pieces[i]? = some p → service.part state (aId + i + 1) = some p) :
    ∃ parts, entries aId (pieces.map (UploadTag.of d)) = .ok parts ∧
      service.Names d state parts (pieces.map Stored.body) ∧
      parts.map Part.PartNumber = List.range' (aId + 1) pieces.length := by
  induction pieces generalizing aId with
  | nil => exact ⟨[], rfl, List.Forall₂.nil, rfl⟩
  | cons piece pieces ih =>
      obtain ⟨parts, hparts, hnames, hnumbers⟩ := ih (aId + 1) fun i p hp => by
        have hnext := h (i + 1) p hp
        rwa [show aId + (i + 1) + 1 = aId + 1 + i + 1 by omega] at hnext
      refine ⟨⟨aId + 1, piece.etag, sum d piece.body⟩ :: parts, ?_, ?_, ?_⟩
      · rw [List.map_cons, entries, UploadTag.of, checksum_DigestStr, hparts]
      · exact List.Forall₂.cons ⟨h 0 piece rfl, rfl⟩ hnames
      · rw [List.map_cons, hnumbers]
        rfl

/-- The entries name one list of contents. -/
theorem names_unique {state : σ} {parts : List Part} {xs ys : List Bytes}
    (hxs : service.Names d state parts xs) (hys : service.Names d state parts ys) : xs = ys := by
  induction hxs generalizing ys with
  | nil => exact (List.forall₂_nil_left_iff.mp hys).symm
  | cons hx _ ih =>
      obtain ⟨y, ys, hy, hrest, rfl⟩ := List.forall₂_cons_left_iff.mp hys
      have hsame := Option.some.inj (hx.1.symm.trans hy.1)
      rw [Stored.mk.injEq] at hsame
      rw [hsame.1, ih hrest]

include hservice in
theorem Exact.complete (he : Exact d service text pieces s) (hbuffer : s.upload.m_Buffer = [])
    (htext : text ≠ []) (hfull : ∀ p ∈ pieces.dropLast, CHUNK_SIZE ≤ p.body.length)
    (hsize : text.length ≤ service.maxObject) :
    (completeMultipartUpload service s s.upload.m_Parts .answered).1 = .ok () ∧
      service.object (completeMultipartUpload service s s.upload.m_Parts .answered).2.state =
        some text := by
  have hpieces := he.text
  rw [hbuffer, List.append_nil, List.flatMap_def] at hpieces
  obtain ⟨parts, hentries, hnames, hnumbers⟩ := names_entries d service s.state pieces 0
    fun i p hp => by rw [Nat.zero_add]; exact he.stored i p hp
  have hsome : parts ≠ [] := by
    rintro rfl
    rw [List.forall₂_nil_left_iff.mp hnames] at hpieces
    exact htext hpieces.symm
  have hmade := hservice.complete_served s.state parts _ he.unfinished hsome
    (hnumbers ▸ List.pairwise_lt_range') hnames (by
      rw [← List.map_dropLast]
      intro body hbody
      obtain ⟨p, hp, rfl⟩ := List.mem_map.mp hbody
      exact hfull p hp) (by rw [hpieces]; exact hsize)
  rw [completeMultipartUpload, he.parts, hentries]
  simp only [client]
  refine ⟨checkResult_eq_ok.mpr hmade, ?_⟩
  rcases hservice.complete_unfinished s.state parts he.unfinished with
    hno | ⟨-, xs, hxs, hobject⟩
  · rw [hservice.complete_answered s.state parts hmade] at hno
    cases hno
  · rw [hobject, names_unique hxs hnames, hpieces]

end Exact

end System

/-- Only `Write` was called. -/
def Writes (es : List Event) : Prop := ∀ e ∈ es, ∃ aData fate, e = .write aData fate

theorem exact_run {d : Digests} {service : Service σ} (hservice : service.Documented d) {state : σ}
    (hbegun : service.Begun state) {es : List Event} (hwrites : Writes es)
    (hes : Meets (step d service) Admits { state := state } es) :
    ∃ pieces, (run (step d service) { state := state } es).Exact d service (written es) pieces ∧
      ∀ p ∈ pieces, CHUNK_SIZE ≤ p.body.length := by
  induction es using List.reverseRecOn with
  | nil =>
      exact ⟨[], ⟨rfl, rfl, fun _ _ h => (nomatch h), rfl, hbegun.completed⟩,
        fun _ h => absurd h List.not_mem_nil⟩
  | append_singleton es e ih =>
      rw [meets_concat] at hes
      obtain ⟨aData, fate, rfl⟩ := hwrites e (List.mem_append_right _ List.mem_cons_self)
      obtain ⟨pieces, hbefore, hfull⟩ :=
        ih (fun e he => hwrites e (List.mem_append_left _ he)) hes.1
      rw [run_concat, written, List.flatMap_append, List.flatMap_singleton]
      exact hbefore.write hservice hfull aData hes.2

/-- A part that fails and has no effect costs nothing: the next ones have it, and a commit that is
answered makes the object. -/
theorem commit_of_writes (d : Digests) (service : Service σ) (hservice : service.Documented d)
    (state : σ) (hbegun : service.Begun state) (es : List Event) (hwrites : Writes es)
    (hes : Meets (step d service) Admits { state := state } es) (htext : written es ≠ [])
    (hparts : (run (step d service) { state := state } es).upload.m_Parts.length < 10000)
    (hpart : (run (step d service) { state := state } es).upload.m_Buffer.length ≤
      service.maxPart)
    (hobject : (written es).length ≤ service.maxObject) :
    ((run (step d service) { state := state } es).Commit d service .answered .answered).1 =
        .ok () ∧
      service.object ((run (step d service) { state := state } es).Commit d service .answered
        .answered).2.state = some (written es) := by
  obtain ⟨pieces, he, hfull⟩ := exact_run hservice hbegun hwrites hes
  rw [System.Commit]
  by_cases hbuffer : (run (step d service) { state := state } es).upload.m_Buffer = []
  · rw [if_neg (not_not.mpr hbuffer)]
    exact he.complete hservice hbuffer htext (fun p hp => hfull p (List.mem_of_mem_dropLast hp))
      hobject
  · have hok := he.flush_answered hservice hparts hpart
    rw [if_pos hbuffer]
    rcases he.flush hservice .answered (fun _ h => nomatch h) with
      ⟨⟨e, herror⟩, -⟩ | ⟨-, hempty, etag, hmore⟩
    · rw [hok] at herror
      cases herror
    · split
      · next hcall =>
        rw [hcall] at hok
        cases hok
      · next hcall =>
        rw [hcall] at hmore hempty
        exact hmore.complete hservice hempty htext (by rwa [List.dropLast_concat]) hobject

theorem commit_of_writes_lost :
    ((run (step digests uploads) { state := {} } [.write [1, 2] .lost,
      .write [3] .answered]).Commit digests uploads .answered .answered).1 = .ok () ∧
    ((run (step digests uploads) { state := {} } [.write [1, 2] .lost,
      .write [3] .answered]).Commit digests uploads .answered .answered).2.state.object =
        some [1, 2, 3] := by
  apply commit_of_writes digests uploads documented_uploads {} begun_uploads
    [.write [1, 2] .lost, .write [3] .answered]
  · intro e he
    rcases List.mem_cons.mp he with rfl | he
    · exact ⟨_, _, rfl⟩
    · exact ⟨_, _, List.mem_singleton.mp he⟩
  · exact ⟨fun _ h => (nomatch h : False).elim, fun _ h => (nomatch h : False).elim, trivial⟩
  · decide
  · decide
  · decide
  · decide

end Stuff.S3MultipartUpload
