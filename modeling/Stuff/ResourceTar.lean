import Stuff.MachineWords
import Stuff.OrderedMap
import Mathlib.Algebra.Order.BigOperators.Group.List

/-!
# The index of a tar archive

`resource::Tar` walks from header to header. Behind a file whose size is a positive multiple
of a block it skips one block too many, which is the header of the next entry. So the index
is right only for archives where no header is missed in this way that was needed.
-/
namespace Stuff.ResourceTar
open MachineWords OrderedMap

/-- The loop of `Atoi8` for an unsigned type of `w` bits. -/
def atoi8 (w sResult : ℕ) : Bytes → Except Bytes ℕ
  | [] => .ok sResult
  | x :: aString =>
      if x = 0 then .ok sResult
      else if x > 0x37 ∨ x < 0x30 then .error (ascii "not a number")
      else atoi8 w ((sResult * 8 + (x.toNat - 0x30)) % 2 ^ w) aString

/-! ## Headers -/

/-- `sizeof(header)` -/
def headerSize : ℕ := 512

/-- A member of the structure. -/
def field (offset size : ℕ) (header : Bytes) : Bytes := (header.drop offset).take size

def nameField : Bytes → Bytes := field 0 100

def sizeField : Bytes → Bytes := field 124 12

/-- from 148 to 156 -/
def checksumField : Bytes → Bytes := field 148 8

def type (header : Bytes) : UInt8 := header.getD 156 0

/-- The name, as long as `filenameSize`. -/
def sName (header : Bytes) : Bytes := (nameField header).takeWhile (· != 0)

def decodeSize (header : Bytes) : Except Bytes ℕ := atoi8 64 0 (sizeField header)

/-- `sSum`: the checksum counts as if it were filled with spaces. -/
def sSum (header : Bytes) : ℕ :=
  (header.zipIdx.map fun x => if 148 ≤ x.2 ∧ x.2 < 156 then 0x20 else x.1.toNat).sum % 2 ^ 32

def validate (header : Bytes) : Except Bytes Bool :=
  (atoi8 32 0 (checksumField header)).map fun sChecksum => sSum header = sChecksum

def supported (header : Bytes) : Bool := type header = 0x30 ∨ type header = 0

/-! ## The index -/

abbrev Index := List (Bytes × Bytes)

/-- The constructor, from a header on. -/
def construct (aData : Bytes) (m_Index : Index) : Except Bytes Index :=
  if _hdata : aData.length < headerSize then .ok m_Index
  else if (nameField aData).all (· == 0) then .ok m_Index
  else
    let header := aData.take headerSize
    match validate header with
    | .error e => .error e
    | .ok false => .error (ascii "Tar::BadInput: bad checksum")
    | .ok true =>
        -- skip not supported header
        if ¬ supported header then construct (aData.drop headerSize) m_Index
        else
          match decodeSize header with
          | .error e => .error e
          | .ok sSize =>
              let sPadding := if sSize > 0 then 512 - sSize % 512 else 0
              let rest := aData.drop headerSize
              if rest.length < (sSize + sPadding) % 2 ^ 64 then
                .error (ascii "Tar::BadInput: incomplete file data")
              else
                construct (rest.drop ((sSize + sPadding) % 2 ^ 64))
                  (assign less (sName header) (rest.take sSize) m_Index)
termination_by aData.length
decreasing_by
  all_goals
    simp only [List.length_drop, headerSize] at *
    omega

def get (m_Index : Index) (aName : Bytes) : Except Bytes Bytes :=
  match m_Index.lookup aName with
  | some data => .ok data
  | none => .error (ascii "Tar::FileNotFound: " ++ aName)

/-! ## Archives -/

/-- The number that octal digits stand for. -/
def octal (sResult : ℕ) (digits : Bytes) : ℕ :=
  digits.foldl (fun n d => n * 8 + (d.toNat - 0x30)) sResult

/-- Octal digits, and a zero byte behind them unless they fill the field. -/
def Octal (n : ℕ) (text : Bytes) : Prop :=
  ∃ digits rest, text = digits ++ rest ∧ (∀ d ∈ digits, 0x30 ≤ d ∧ d ≤ 0x37) ∧
    (∀ b ∈ rest.head?, b = 0) ∧ octal 0 digits = n

/-- A well formed header, with the size of what is behind it. -/
structure Header where
  bytes : Bytes
  size : ℕ
  length_bytes : bytes.length = headerSize
  named : sName bytes ≠ []
  checksum : Octal (sSum bytes) (checksumField bytes)
  file_size : supported bytes = true → Octal size (sizeField bytes)
  other_size : supported bytes = false → size = 0

structure Entry where
  header : Header
  data : Bytes
  length_data : data.length = header.size

def padding (size : ℕ) : ℕ := (512 - size % 512) % 512

def Entry.bytes (e : Entry) : Bytes :=
  e.header.bytes ++ (e.data ++ List.replicate (padding e.header.size) 0)

/-- The entries, and zero blocks at the end. -/
def archive (entries : List Entry) (zeros : ℕ) : Bytes :=
  entries.flatMap Entry.bytes ++ List.replicate (headerSize * zeros) 0

def Header.isFile (h : Header) (name : Bytes) : Bool := supported h.bytes ∧ sName h.bytes = name

/-- The last file of a name. -/
def lastFile (entries : List Entry) (name : Bytes) : Option Bytes :=
  ((entries.filter fun e => e.header.isFile name).getLast?).map Entry.data

/-- The archive is accepted, and every file comes back. -/
def Delivers (entries : List Entry) (zeros : ℕ) : Prop :=
  ∃ index, construct (archive entries zeros) [] = .ok index ∧
    ∀ name data, lastFile entries name = some data → get index name = .ok data

/-! ## Entries that are missed -/

/-- Behind such an entry the next header is missed. -/
def Header.misses (h : Header) : Bool := 0 < h.size ∧ h.size % 512 = 0

section
variable {α : Type} (p : α → Bool)

/-- What is left of a list when the successors of some entries are skipped. -/
def kept : Bool → List α → List α
  | _, [] => []
  | true, _ :: l => kept false l
  | false, x :: l => x :: kept (p x) l

def lost : Bool → List α → List α
  | _, [] => []
  | true, x :: l => x :: lost false l
  | false, x :: l => lost (p x) l

/-- Something would be skipped behind the end. -/
def overruns : Bool → List α → Bool
  | skip, [] => skip
  | true, _ :: l => overruns false l
  | false, x :: l => overruns (p x) l

end

def lastSize (headers : List Header) (name : Bytes) : Option ℕ :=
  ((headers.filter fun h => h.isFile name).getLast?).map Header.size

/-- No header of a file with data is missed, no block is missed at the end of the data, and
a name of an empty file that is missed has another empty file as its last one. -/
structure Harmless (headers : List Header) (zeros : ℕ) : Prop where
  empty : ∀ h ∈ lost Header.misses false headers, h.size = 0
  ended : overruns Header.misses false headers = true → 0 < zeros
  named : ∀ name, lastSize (kept Header.misses false headers) name = lastSize headers name


/-! ## Numbers -/

theorem octal_lt {digits : Bytes} (h : ∀ d ∈ digits, 0x30 ≤ d ∧ d ≤ 0x37) (sResult : ℕ) :
    octal sResult digits + 1 ≤ (sResult + 1) * 8 ^ digits.length := by
  induction digits generalizing sResult with
  | nil => simp [octal]
  | cons d digits ih =>
      have hd := (h d List.mem_cons_self).2
      rw [UInt8.le_iff_toNat_le] at hd
      have hdigit : d.toNat ≤ 0x37 := hd
      have hrest := ih (fun x hx => h x (List.mem_cons_of_mem d hx))
        (sResult * 8 + (d.toNat - 0x30))
      have hstep : (sResult * 8 + (d.toNat - 0x30) + 1) * 8 ^ digits.length ≤
          (sResult + 1) * 8 * 8 ^ digits.length := Nat.mul_le_mul_right _ (by omega)
      rw [List.length_cons, pow_succ, Nat.mul_comm (8 ^ digits.length), ← Nat.mul_assoc]
      exact hrest.trans hstep

theorem atoi8_digits {w : ℕ} {digits rest : Bytes} (h : ∀ d ∈ digits, 0x30 ≤ d ∧ d ≤ 0x37)
    (hrest : ∀ b ∈ rest.head?, b = 0) (sResult : ℕ)
    (hw : (sResult + 1) * 8 ^ digits.length ≤ 2 ^ w) :
    atoi8 w sResult (digits ++ rest) = .ok (octal sResult digits) := by
  induction digits generalizing sResult with
  | nil =>
      cases rest with
      | nil => rfl
      | cons b rest =>
          rw [List.nil_append, atoi8, if_pos (hrest b rfl)]
          rfl
  | cons d digits ih =>
      obtain ⟨hlow, hhigh⟩ := h d List.mem_cons_self
      rw [UInt8.le_iff_toNat_le] at hlow hhigh
      have hlow' : 0x30 ≤ d.toNat := hlow
      have hhigh' : d.toNat ≤ 0x37 := hhigh
      have hzero : d ≠ 0 := by
        rintro rfl
        exact absurd hlow' (by decide)
      have hdigit : ¬ (d > 0x37 ∨ d < 0x30) := by
        rw [gt_iff_lt, UInt8.lt_iff_toNat_lt, UInt8.lt_iff_toNat_lt]
        change ¬ (0x37 < d.toNat ∨ d.toNat < 0x30)
        omega
      have hstep : (sResult * 8 + (d.toNat - 0x30) + 1) * 8 ^ digits.length ≤
          (sResult + 1) * 8 ^ (d :: digits).length := by
        rw [List.length_cons, pow_succ, Nat.mul_comm (8 ^ digits.length), ← Nat.mul_assoc]
        exact Nat.mul_le_mul_right _ (by omega)
      have hpos : 1 ≤ 8 ^ digits.length := Nat.one_le_pow _ _ (by decide)
      have hlt : sResult * 8 + (d.toNat - 0x30) < 2 ^ w := by
        have hle := Nat.mul_le_mul_left (sResult * 8 + (d.toNat - 0x30) + 1) hpos
        omega
      rw [List.cons_append, atoi8, if_neg hzero, if_neg hdigit, Nat.mod_eq_of_lt hlt,
        ih (fun x hx => h x (List.mem_cons_of_mem d hx)) _ (hstep.trans hw)]
      rfl

theorem Octal.length_le {n : ℕ} {text : Bytes} (h : Octal n text) : n < 8 ^ text.length := by
  obtain ⟨digits, rest, rfl, hdigits, -, rfl⟩ := h
  have hlt := octal_lt hdigits 0
  have hle : 8 ^ digits.length ≤ 8 ^ (digits ++ rest).length :=
    Nat.pow_le_pow_right (by decide) (by rw [List.length_append]; omega)
  omega

theorem Octal.atoi8 {n w : ℕ} {text : Bytes} (h : Octal n text) (hw : 8 ^ text.length ≤ 2 ^ w) :
    atoi8 w 0 text = .ok n := by
  obtain ⟨digits, rest, rfl, hdigits, hrest, rfl⟩ := h
  apply atoi8_digits hdigits hrest
  have hle : 8 ^ digits.length ≤ 8 ^ (digits ++ rest).length :=
    Nat.pow_le_pow_right (by decide) (by rw [List.length_append]; omega)
  omega

/-! ## A header -/

theorem length_field_le (offset size : ℕ) (header : Bytes) :
    (field offset size header).length ≤ size := List.length_take_le _ _

namespace Header

theorem validate (h : Header) : validate h.bytes = .ok true := by
  have hdigits : 8 ^ (checksumField h.bytes).length ≤ 2 ^ 32 :=
    (Nat.pow_le_pow_right (by decide) (length_field_le 148 8 h.bytes)).trans (by decide)
  rw [ResourceTar.validate, h.checksum.atoi8 hdigits]
  simp [Except.map]

theorem decodeSize (h : Header) (hfile : supported h.bytes = true) :
    decodeSize h.bytes = .ok h.size := by
  have hdigits : 8 ^ (sizeField h.bytes).length ≤ 2 ^ 64 :=
    (Nat.pow_le_pow_right (by decide) (length_field_le 124 12 h.bytes)).trans (by decide)
  exact (h.file_size hfile).atoi8 hdigits

theorem size_lt (h : Header) : h.size < 2 ^ 36 := by
  cases hfile : supported h.bytes with
  | true =>
      have hlt := (h.file_size hfile).length_le
      have hle : 8 ^ (sizeField h.bytes).length ≤ 8 ^ 12 :=
        Nat.pow_le_pow_right (by decide) (length_field_le 124 12 h.bytes)
      omega
  | false =>
      rw [h.other_size hfile]
      decide

theorem take_bytes (h : Header) (rest : Bytes) : (h.bytes ++ rest).take headerSize = h.bytes :=
  List.take_left' h.length_bytes

theorem drop_bytes (h : Header) (rest : Bytes) : (h.bytes ++ rest).drop headerSize = rest :=
  List.drop_left' h.length_bytes

theorem nameField_append (h : Header) (rest : Bytes) :
    nameField (h.bytes ++ rest) = nameField h.bytes := by
  have hlength := h.length_bytes
  rw [headerSize] at hlength
  simp only [nameField, field, List.drop_zero]
  exact List.take_append_of_le_length (by omega)

theorem name_not_zero (h : Header) : (nameField h.bytes).all (· == 0) = false := by
  rw [Bool.eq_false_iff]
  intro hall
  apply h.named
  rw [sName]
  cases hname : nameField h.bytes with
  | nil => rfl
  | cons b name =>
      rw [hname, List.all_cons, Bool.and_eq_true, beq_iff_eq] at hall
      rw [hall.1]
      rfl

end Header

/-- `m_Index[sName] = sData`, for a file. -/
def Entry.put (index : Index) (e : Entry) : Index :=
  if supported e.header.bytes then assign less (sName e.header.bytes) e.data index else index

/-- The loop from behind an entry on; it may be that a block is skipped. -/
def resume (skip : Bool) (rest : Bytes) (index : Index) : Except Bytes Index :=
  if skip then
    if rest.length < headerSize then .error (ascii "Tar::BadInput: incomplete file data")
    else construct (rest.drop headerSize) index
  else construct rest index

theorem resume_false (rest : Bytes) (index : Index) :
    resume false rest index = construct rest index := rfl

theorem padding_of_misses {h : Header} :
    (if h.size > 0 then 512 - h.size % 512 else 0) =
      padding h.size + if h.misses then headerSize else 0 := by
  have hlt : h.size % 512 < 512 := Nat.mod_lt _ (by decide)
  unfold padding Header.misses headerSize
  by_cases hpos : 0 < h.size
  · by_cases hmod : h.size % 512 = 0
    · simp [hpos, hmod]
    · have hpad : (512 - h.size % 512) % 512 = 512 - h.size % 512 :=
        Nat.mod_eq_of_lt (by omega)
      simp [hpos, hmod, hpad]
  · have hzero : h.size = 0 := by omega
    simp [hzero]

theorem size_of_not_misses {h : Header} (hsize : h.size = 0) :
    h.misses = false ∧ padding h.size = 0 := by
  simp [Header.misses, padding, hsize]

/-- One turn of the loop. -/
theorem construct_entry (e : Entry) (rest : Bytes) (index : Index) :
    construct (e.bytes ++ rest) index = resume e.header.misses rest (e.put index) := by
  have hdata := e.length_data
  have hbytes : e.bytes ++ rest = e.header.bytes ++
      (e.data ++ (List.replicate (padding e.header.size) 0 ++ rest)) := by
    simp only [Entry.bytes, List.append_assoc]
  have hlength : ¬ (e.header.bytes ++
      (e.data ++ (List.replicate (padding e.header.size) 0 ++ rest))).length < headerSize := by
    rw [List.length_append, e.header.length_bytes]
    omega
  have hname : ¬ (nameField e.header.bytes).all (· == 0) = true := by
    rw [e.header.name_not_zero]
    decide
  rw [hbytes, construct, dif_neg hlength, e.header.nameField_append, if_neg hname]
  simp only [e.header.take_bytes, e.header.drop_bytes, e.header.validate]
  cases hfile : supported e.header.bytes with
  | false =>
      have hsize := e.header.other_size hfile
      obtain ⟨hmisses, hpadding⟩ := size_of_not_misses hsize
      have hempty : e.data = [] := List.length_eq_zero_iff.mp (hdata.trans hsize)
      simp [hmisses, hpadding, hempty, resume, Entry.put, hfile]
  | true =>
      have hlt := e.header.size_lt
      have hpad : padding e.header.size < 512 := Nat.mod_lt _ (by decide)
      simp only [not_true_eq_false, if_false, e.header.decodeSize hfile, padding_of_misses,
        Entry.put, hfile, if_true]
      have htake : (e.data ++ (List.replicate (padding e.header.size) 0 ++ rest)).take
          e.header.size = e.data := List.take_left' hdata
      rw [htake]
      cases hmisses : e.header.misses with
      | false =>
          have hmod : (e.header.size + (padding e.header.size + 0)) % 2 ^ 64 =
              e.header.size + padding e.header.size := Nat.mod_eq_of_lt (by omega)
          have hdrop : (e.data ++ (List.replicate (padding e.header.size) 0 ++ rest)).drop
              (e.header.size + padding e.header.size) = rest := by
            rw [← List.drop_drop, List.drop_left' hdata, List.drop_left' List.length_replicate]
          simp only [Bool.false_eq_true, if_false, hmod, hdrop, resume]
          rw [if_neg]
          simp only [List.length_append, List.length_replicate]
          omega
      | true =>
          have hmod : (e.header.size + (padding e.header.size + headerSize)) % 2 ^ 64 =
              e.header.size + padding e.header.size + headerSize := by
            rw [headerSize, Nat.mod_eq_of_lt (by omega)]
            omega
          have hdrop : (e.data ++ (List.replicate (padding e.header.size) 0 ++ rest)).drop
              (e.header.size + padding e.header.size + headerSize) = rest.drop headerSize := by
            rw [← List.drop_drop, ← List.drop_drop, List.drop_left' hdata,
              List.drop_left' List.length_replicate]
          have hshort : (e.data ++ (List.replicate (padding e.header.size) 0 ++ rest)).length <
              e.header.size + padding e.header.size + headerSize ↔ rest.length < headerSize := by
            simp only [List.length_append, List.length_replicate]
            omega
          simp only [if_true, hmod, hdrop, hshort, resume]

/-! ## The walk -/

theorem length_zeros (zeros : ℕ) :
    (List.replicate (headerSize * zeros) (0 : UInt8)).length = headerSize * zeros :=
  List.length_replicate

/-- The end of the archive. -/
theorem construct_zeros (zeros : ℕ) (index : Index) :
    construct (List.replicate (headerSize * zeros) 0) index = .ok index := by
  rw [construct]
  split
  · rfl
  · rw [if_pos]
    simp [nameField, field]

theorem bytes_of_size {e : Entry} (h : e.header.size = 0) : e.bytes = e.header.bytes := by
  have hempty : e.data = [] := List.length_eq_zero_iff.mp (e.length_data.trans h)
  rw [Entry.bytes, (size_of_not_misses h).2, hempty]
  exact List.append_nil _

theorem archive_cons (e : Entry) (entries : List Entry) (zeros : ℕ) :
    archive (e :: entries) zeros = e.bytes ++ archive entries zeros := by
  rw [archive, archive, List.flatMap_cons, List.append_assoc]

/-- If no data are missed, the files whose headers are read are in the index. -/
theorem resume_archive {entries : List Entry} {skip : Bool}
    (hlost : ∀ e ∈ lost (fun e : Entry => e.header.misses) skip entries, e.header.size = 0)
    (zeros : ℕ) (index : Index) :
    resume skip (archive entries zeros) index =
      if overruns (fun e : Entry => e.header.misses) skip entries = true ∧ zeros = 0 then
        .error (ascii "Tar::BadInput: incomplete file data")
      else .ok ((kept (fun e : Entry => e.header.misses) skip entries).foldl Entry.put index) := by
  induction entries generalizing skip index with
  | nil =>
      have harchive : archive [] zeros = List.replicate (headerSize * zeros) 0 := rfl
      rw [harchive]
      cases skip with
      | false => simp [resume, overruns, kept, construct_zeros]
      | true =>
          cases zeros with
          | zero => simp [resume, overruns, headerSize]
          | succ zeros =>
              have hdrop : (List.replicate (headerSize * (zeros + 1)) (0 : UInt8)).drop
                  headerSize = List.replicate (headerSize * zeros) 0 := by
                rw [List.drop_replicate, Nat.mul_succ, Nat.add_sub_cancel]
              have hlength : ¬ (List.replicate (headerSize * (zeros + 1)) (0 : UInt8)).length <
                  headerSize := by
                rw [List.length_replicate, Nat.mul_succ]
                omega
              rw [resume, if_pos rfl, if_neg hlength, hdrop, construct_zeros]
              simp [overruns, kept]
  | cons e entries ih =>
      rw [archive_cons]
      cases skip with
      | true =>
          have hsize := hlost e List.mem_cons_self
          have hempty : ∀ x ∈ lost (fun e : Entry => e.header.misses) false entries,
              x.header.size = 0 := fun x hx => hlost x (List.mem_cons_of_mem e hx)
          have hrest := ih hempty index
          have hlength : ¬ (e.bytes ++ archive entries zeros).length < headerSize := by
            rw [List.length_append, bytes_of_size hsize, e.header.length_bytes]
            omega
          rw [resume, if_pos rfl, if_neg hlength, bytes_of_size hsize, e.header.drop_bytes]
          exact hrest
      | false =>
          have hturn : resume false (e.bytes ++ archive entries zeros) index =
              resume e.header.misses (archive entries zeros) (e.put index) :=
            construct_entry e _ index
          rw [hturn]
          exact ih hlost _

/-! ## Names -/

theorem lastFile_cons (e : Entry) (entries : List Entry) (name : Bytes) :
    lastFile (e :: entries) name =
      (lastFile entries name).or (if e.header.isFile name then some e.data else none) := by
  rw [lastFile, lastFile, List.filter_cons]
  split_ifs with hfile
  · rw [List.getLast?_cons]
    cases ((entries.filter fun e => e.header.isFile name).getLast?) <;> rfl
  · rw [Option.or_none]

theorem sorted_put {index : Index} (h : Sorted less index) (e : Entry) :
    Sorted less (e.put index) := by
  rw [Entry.put]
  split_ifs
  · exact sorted_insertWith less_strict _ _ h
  · exact h

theorem lookup_put {index : Index} (h : Sorted less index) (e : Entry) (name : Bytes) :
    (e.put index).lookup name =
      (if e.header.isFile name then some e.data else none).or (index.lookup name) := by
  have hfile : e.header.isFile name =
      (supported e.header.bytes && decide (name = sName e.header.bytes)) := by
    rw [Header.isFile, Bool.decide_and, Bool.decide_eq_true, decide_eq_decide.mpr eq_comm]
  rw [Entry.put, hfile]
  cases supported e.header.bytes with
  | false => rfl
  | true =>
      rw [if_pos rfl, assign, lookup_insertWith less_strict _ _ h]
      by_cases hname : name = sName e.header.bytes
      · cases index.lookup (sName e.header.bytes) <;> simp [hname]
      · simp [hname]

theorem lookup_foldl_put (entries : List Entry) {index : Index} (h : Sorted less index)
    (name : Bytes) :
    (entries.foldl Entry.put index).lookup name =
      (lastFile entries name).or (index.lookup name) := by
  induction entries generalizing index with
  | nil => rfl
  | cons e entries ih =>
      rw [List.foldl_cons, ih (sorted_put h e), lookup_put h, lastFile_cons, Option.or_assoc]

/-- Only an empty file can have its name changed by what is missed. -/
theorem lastFile_kept {entries : List Entry} {skip : Bool}
    (hlost : ∀ e ∈ lost (fun e : Entry => e.header.misses) skip entries, e.header.size = 0)
    (name : Bytes) :
    lastFile (kept (fun e : Entry => e.header.misses) skip entries) name =
      lastFile entries name ∨ lastFile entries name = some [] := by
  induction entries generalizing skip with
  | nil => exact .inl (by cases skip <;> rfl)
  | cons e entries ih =>
      cases skip with
      | true =>
          have hsize := hlost e List.mem_cons_self
          have hempty : e.data = [] := List.length_eq_zero_iff.mp (e.length_data.trans hsize)
          have hlost' : ∀ x ∈ lost (fun e : Entry => e.header.misses) false entries,
              x.header.size = 0 := fun x hx => hlost x (List.mem_cons_of_mem e hx)
          have hrest := ih hlost'
          rw [lastFile_cons, hempty]
          rcases hrest with heq | hnil
          · cases hlast : lastFile entries name with
            | none =>
                by_cases hfile : e.header.isFile name
                · exact .inr (by simp [hfile])
                · exact .inl (by simpa [hfile, kept, hlast] using heq)
            | some data => exact .inl (by simpa [kept, hlast] using heq)
          · exact .inr (by simp [hnil])
      | false =>
          have hlost' : ∀ x ∈ lost (fun e : Entry => e.header.misses) e.header.misses entries,
              x.header.size = 0 := hlost
          have hrest := ih hlost'
          rw [kept, lastFile_cons, lastFile_cons]
          rcases hrest with heq | hnil
          · exact .inl (by rw [heq])
          · exact .inr (by simp [hnil])

/-! ## Headers alone -/

section
variable {α β : Type} {p : α → Bool} {q : β → Bool} {f : α → β}

theorem kept_map (h : ∀ x, q (f x) = p x) (skip : Bool) (l : List α) :
    kept q skip (l.map f) = (kept p skip l).map f := by
  induction l generalizing skip with
  | nil => cases skip <;> rfl
  | cons x l ih =>
      cases skip with
      | true => exact ih false
      | false => rw [List.map_cons, kept, kept, h, ih, List.map_cons]

theorem lost_map (h : ∀ x, q (f x) = p x) (skip : Bool) (l : List α) :
    lost q skip (l.map f) = (lost p skip l).map f := by
  induction l generalizing skip with
  | nil => cases skip <;> rfl
  | cons x l ih =>
      cases skip with
      | true => rw [List.map_cons, lost, lost, ih, List.map_cons]
      | false => rw [List.map_cons, lost, lost, h, ih]

theorem overruns_map (h : ∀ x, q (f x) = p x) (skip : Bool) (l : List α) :
    overruns q skip (l.map f) = overruns p skip l := by
  induction l generalizing skip with
  | nil => cases skip <;> rfl
  | cons x l ih =>
      cases skip with
      | true => exact ih false
      | false => rw [List.map_cons, overruns, overruns, h, ih]

end

theorem lastSize_map (entries : List Entry) (name : Bytes) :
    lastSize (entries.map Entry.header) name = (lastFile entries name).map List.length := by
  have hfilter : (entries.map Entry.header).filter (fun h => h.isFile name) =
      (entries.filter fun e => e.header.isFile name).map Entry.header := by
    rw [List.filter_map]
    rfl
  rw [lastSize, lastFile, hfilter, List.getLast?_map, Option.map_map, Option.map_map]
  congr 1
  funext e
  exact e.length_data.symm

theorem get_eq_ok {index : Index} {name data : Bytes} :
    get index name = .ok data ↔ index.lookup name = some data := by
  rw [get]
  cases index.lookup name with
  | none => simp
  | some found => simp

/-- Where no data are missed, the archive is delivered if and only if that is harmless. -/
theorem delivers_iff {entries : List Entry} {zeros : ℕ}
    (hlost : ∀ h ∈ lost Header.misses false (entries.map Entry.header), h.size = 0) :
    Delivers entries zeros ↔ Harmless (entries.map Entry.header) zeros := by
  have hmap : ∀ e : Entry, Header.misses (Entry.header e) = e.header.misses := fun _ => rfl
  have hempty : ∀ e ∈ lost (fun e : Entry => e.header.misses) false entries,
      e.header.size = 0 := by
    intro e he
    apply hlost
    rw [lost_map hmap]
    exact List.mem_map_of_mem he
  have hwalk := resume_archive hempty zeros []
  have hlast := lastFile_kept hempty
  have hlookup := lookup_foldl_put (kept (fun e : Entry => e.header.misses) false entries)
    (List.Pairwise.nil : Sorted less ([] : Index))
  rw [resume_false] at hwalk
  rw [← overruns_map hmap] at hwalk
  constructor
  · rintro ⟨index, hindex, hfiles⟩
    rw [hwalk] at hindex
    split_ifs at hindex with hends
    cases hindex
    refine ⟨hlost, fun hover => ?_, fun name => ?_⟩
    · rw [not_and] at hends
      exact Nat.pos_of_ne_zero (hends hover)
    · rw [kept_map hmap, lastSize_map, lastSize_map]
      cases hfile : lastFile entries name with
      | none =>
          rcases hlast name with heq | hnil
          · rw [heq, hfile]
          · rw [hfile] at hnil
            cases hnil
      | some data =>
          have hdata := get_eq_ok.mp (hfiles name data hfile)
          rw [hlookup, List.lookup_nil, Option.or_none] at hdata
          rw [hdata]
  · intro h
    have hends : ¬ (overruns Header.misses false (entries.map Entry.header) = true ∧
        zeros = 0) := by
      rintro ⟨hover, hzero⟩
      have hpos := h.ended hover
      omega
    rw [if_neg hends] at hwalk
    refine ⟨_, hwalk, fun name data hfile => get_eq_ok.mpr ?_⟩
    rw [hlookup, List.lookup_nil, Option.or_none]
    rcases hlast name with heq | hnil
    · rw [heq, hfile]
    · have hsize := h.named name
      rw [kept_map hmap, lastSize_map, lastSize_map, hnil] at hsize
      rw [hfile] at hnil
      cases hnil
      cases hkept : lastFile (kept (fun e : Entry => e.header.misses) false entries) name with
      | none =>
          rw [hkept] at hsize
          cases hsize
      | some found =>
          rw [hkept, Option.map_some, Option.map_some, Option.some.injEq] at hsize
          rw [List.length_eq_zero_iff.mp hsize]

/-! ## Data that are read as headers -/

/-- An entry whose data cannot be read as headers. -/
def Header.fill (h : Header) : Entry where
  header := h
  data := List.replicate h.size 0xff
  length_data := List.length_replicate

/-- The spaces alone keep the sum away from zero. -/
theorem sSum_ne_zero {header : Bytes} (hlength : header.length = headerSize) :
    sSum header ≠ 0 := by
  rw [headerSize] at hlength
  have hterm : ∀ x : UInt8 × ℕ, (if 148 ≤ x.2 ∧ x.2 < 156 then 0x20 else x.1.toNat) ≤ 255 := by
    intro x
    have hbyte := x.1.toNat_lt
    split_ifs <;> omega
  have hle : (header.zipIdx.map fun x =>
      if 148 ≤ x.2 ∧ x.2 < 156 then 0x20 else x.1.toNat).sum ≤ 512 * 255 := by
    have hsum := List.sum_le_card_nsmul (header.zipIdx.map fun x =>
      if 148 ≤ x.2 ∧ x.2 < 156 then 0x20 else x.1.toNat) 255 (by
        intro n hn
        obtain ⟨x, -, rfl⟩ := List.mem_map.mp hn
        exact hterm x)
    rw [List.length_map, List.length_zipIdx, hlength] at hsum
    exact hsum
  have hge : 0x20 ≤ (header.zipIdx.map fun x =>
      if 148 ≤ x.2 ∧ x.2 < 156 then 0x20 else x.1.toNat).sum := by
    have hget : header[148]? = some header[148] := List.getElem?_eq_getElem (by omega)
    apply List.single_le_sum (fun _ _ => Nat.zero_le _)
    exact List.mem_map.mpr ⟨(header[148], 148), List.mk_mem_zipIdx_iff_getElem?.mpr hget, rfl⟩
  rw [sSum]
  omega

/-- Not a checksum: either not a number, or zero. -/
theorem validate_garbage {m : ℕ} (hm : 0 < m) (hle : m ≤ 512) :
    (∃ e, validate (List.replicate m 0xff ++ List.replicate (512 - m) 0) = .error e) ∨
      validate (List.replicate m 0xff ++ List.replicate (512 - m) 0) = .ok false := by
  have hfield : checksumField (List.replicate m 0xff ++ List.replicate (512 - m) 0) =
      List.replicate (min 8 (m - 148)) 0xff ++
        List.replicate (min (8 - (m - 148)) (364 - (m - 148))) 0 := by
    rw [checksumField, field, List.drop_append, List.take_append]
    simp only [List.drop_replicate, List.take_replicate, List.length_replicate]
    have hzeros : min (8 - (m - 148)) (512 - m - (148 - m)) =
        min (8 - (m - 148)) (364 - (m - 148)) := by omega
    rw [hzeros]
  rw [validate, hfield]
  by_cases hlong : 148 < m
  · obtain ⟨k, hk⟩ : ∃ k, min 8 (m - 148) = k + 1 := ⟨min 8 (m - 148) - 1, by omega⟩
    left
    rw [hk, List.replicate_succ, List.cons_append, atoi8, if_neg (by decide), if_pos (by decide)]
    exact ⟨_, rfl⟩
  · have hzero : m - 148 = 0 := by omega
    right
    rw [hzero]
    change Except.ok (decide (sSum _ = 0)) = _
    rw [decide_eq_false (sSum_ne_zero _)]
    simp only [List.length_append, List.length_replicate, headerSize]
    omega

theorem construct_garbage {n : ℕ} (hn : 0 < n) (rest : Bytes) (index : Index) :
    ∃ e, construct (List.replicate n 0xff ++ (List.replicate (padding n) 0 ++ rest)) index =
      .error e := by
  have hmod : n % 512 < 512 := Nat.mod_lt _ (by decide)
  have hpad : 512 ≤ n + padding n := by
    unfold padding
    omega
  have hlength : ¬ (List.replicate n (0xff : UInt8) ++
      (List.replicate (padding n) 0 ++ rest)).length < headerSize := by
    simp only [List.length_append, List.length_replicate, headerSize]
    omega
  have hname : ¬ (nameField (List.replicate n 0xff ++
      (List.replicate (padding n) 0 ++ rest))).all (· == 0) = true := by
    obtain ⟨k, rfl⟩ : ∃ k, n = k + 1 := ⟨n - 1, by omega⟩
    rw [nameField, field, List.drop_zero, List.replicate_succ, List.cons_append,
      List.take_succ_cons, List.all_cons]
    simp
  have hheader : (List.replicate n (0xff : UInt8) ++
      (List.replicate (padding n) 0 ++ rest)).take headerSize =
        List.replicate (min n 512) 0xff ++ List.replicate (512 - min n 512) 0 := by
    have hzeros : min (512 - n) (padding n) = 512 - min n 512 := by omega
    have hnone : 512 - n - padding n = 0 := by omega
    simp only [headerSize, List.take_append, List.take_replicate, List.length_replicate, hzeros,
      hnone, List.take_zero, List.append_nil, Nat.min_comm 512 n]
  rw [construct, dif_neg hlength, if_neg hname, hheader]
  rcases validate_garbage (m := min n 512) (by omega) (by omega) with ⟨e, he⟩ | hfalse
  · exact ⟨e, by simp only [he]⟩
  · refine ⟨ascii "Tar::BadInput: bad checksum", ?_⟩
    simp only [hfalse]

theorem resume_garbage {headers : List Header} {skip : Bool}
    (hlost : ∃ h ∈ lost Header.misses skip headers, h.size ≠ 0) (zeros : ℕ) (index : Index) :
    ∃ e, resume skip (archive (headers.map Header.fill) zeros) index = .error e := by
  induction headers generalizing skip index with
  | nil =>
      obtain ⟨h, hmem, -⟩ := hlost
      cases skip <;> cases hmem
  | cons h headers ih =>
      rw [List.map_cons, archive_cons]
      cases skip with
      | true =>
          have hlength : ∀ rest : Bytes, ¬ (h.bytes ++ rest).length < headerSize := by
            intro rest
            rw [List.length_append, h.length_bytes]
            omega
          by_cases hsize : h.size = 0
          · have hbytes : h.fill.bytes = h.bytes := bytes_of_size hsize
            have hrest : ∃ h' ∈ lost Header.misses false headers, h'.size ≠ 0 := by
              obtain ⟨h', hmem, hne⟩ := hlost
              rcases List.mem_cons.mp hmem with rfl | hmem
              · exact absurd hsize hne
              · exact ⟨h', hmem, hne⟩
            rw [resume, if_pos rfl, hbytes, if_neg (hlength _), h.drop_bytes]
            exact ih hrest index
          · have hbytes : h.fill.bytes ++ archive (headers.map Header.fill) zeros =
                h.bytes ++ (List.replicate h.size 0xff ++ (List.replicate (padding h.size) 0 ++
                  archive (headers.map Header.fill) zeros)) := by
              simp only [Entry.bytes, Header.fill, List.append_assoc]
            rw [resume, if_pos rfl, hbytes, if_neg (hlength _), h.drop_bytes]
            exact construct_garbage (Nat.pos_of_ne_zero hsize) _ index
      | false =>
          have hturn : resume false (h.fill.bytes ++ archive (headers.map Header.fill) zeros)
              index = resume h.misses (archive (headers.map Header.fill) zeros)
                (h.fill.put index) := construct_entry h.fill _ index
          rw [hturn]
          exact ih hlost _

/-- No size is a multiple of a block, or only those of empty files. -/
theorem harmless_of_not_misses {headers : List Header} (h : ∀ x ∈ headers, x.misses = false)
    (zeros : ℕ) : Harmless headers zeros := by
  have hall : lost Header.misses false headers = [] ∧
      kept Header.misses false headers = headers ∧
      overruns Header.misses false headers = false := by
    induction headers with
    | nil => exact ⟨rfl, rfl, rfl⟩
    | cons x headers ih =>
        obtain ⟨hlost, hkept, hover⟩ := ih fun y hy => h y (List.mem_cons_of_mem x hy)
        rw [lost, kept, overruns, h x List.mem_cons_self]
        exact ⟨hlost, by rw [hkept], hover⟩
  obtain ⟨hlost, hkept, hover⟩ := hall
  constructor
  · simp [hlost]
  · simp [hover]
  · simp [hkept]

/-- The archives with given headers are all delivered if and only if what is missed is
harmless. Where no data are missed, this is so for each archive. -/
theorem tar_delivers_iff (headers : List Header) (zeros : ℕ) :
    ((∀ entries : List Entry, entries.map Entry.header = headers → Delivers entries zeros) ↔
      Harmless headers zeros) ∧
    ((∀ h ∈ lost Header.misses false headers, h.size = 0) →
      ∀ entries : List Entry, entries.map Entry.header = headers →
        (Delivers entries zeros ↔ Harmless headers zeros)) := by
  refine ⟨⟨fun hall => ?_, fun h => ?_⟩, ?_⟩
  · have hfill : (headers.map Header.fill).map Entry.header = headers := by
      rw [List.map_map]
      exact List.map_id headers
    have hdelivers := hall _ hfill
    by_cases hlost : ∀ h ∈ lost Header.misses false headers, h.size = 0
    · rw [← hfill] at hlost
      rw [← hfill]
      exact (delivers_iff hlost).mp hdelivers
    · simp only [not_forall] at hlost
      obtain ⟨h, hmem, hne⟩ := hlost
      obtain ⟨e, he⟩ := resume_garbage ⟨h, hmem, hne⟩ zeros []
      obtain ⟨index, hindex, -⟩ := hdelivers
      rw [resume_false] at he
      rw [he] at hindex
      cases hindex
  · rintro entries rfl
    exact (delivers_iff h.empty).mpr h
  · rintro hlost entries rfl
    exact delivers_iff hlost

/-- A header with the other members zero. -/
def headerBytes (name size checksum : Bytes) : Bytes :=
  name ++ List.replicate (124 - name.length) 0 ++ size ++ List.replicate 12 0 ++ checksum ++
    [0x30] ++ List.replicate 355 0

/-- A file of one block. -/
def blockHeader : Header where
  bytes := headerBytes (ascii "a") (ascii "00000001000" ++ [0]) (ascii "001642" ++ [0, 0x20])
  size := 512
  length_bytes := by decide +kernel
  named := by decide +kernel
  checksum := ⟨ascii "001642", [0, 0x20], by decide +kernel⟩
  file_size := fun _ => ⟨ascii "00000001000", [0], by decide +kernel⟩
  other_size := fun h => absurd h (by decide +kernel)

/-- A file of one byte. -/
def byteHeader : Header where
  bytes := headerBytes (ascii "b") (ascii "00000000001" ++ [0]) (ascii "001643" ++ [0, 0x20])
  size := 1
  length_bytes := by decide +kernel
  named := by decide +kernel
  checksum := ⟨ascii "001643", [0, 0x20], by decide +kernel⟩
  file_size := fun _ => ⟨ascii "00000000001", [0], by decide +kernel⟩
  other_size := fun h => absurd h (by decide +kernel)

theorem misses_blockHeader : blockHeader.misses = true := by
  have hsize : blockHeader.size = 512 := rfl
  rw [Header.misses, hsize]
  decide

theorem harmless_byteHeader : Harmless [byteHeader, byteHeader] 2 := by
  apply harmless_of_not_misses
  intro x hx
  have hsize : x.size = 1 := by
    simp only [List.mem_cons, List.not_mem_nil, or_false, or_self] at hx
    rw [hx]
    rfl
  rw [Header.misses, hsize]
  decide

/-- Two files of one byte. -/
theorem tar_delivers_bytes : Delivers [byteHeader.fill, byteHeader.fill] 2 :=
  ((tar_delivers_iff [byteHeader, byteHeader] 2).2 harmless_byteHeader.empty
    [byteHeader.fill, byteHeader.fill] rfl).mpr harmless_byteHeader

/-- Behind a file of one block the header of the next file is missed, and its data are
taken for a header. -/
theorem one_block_skipped : ¬ ∀ (entries : List Entry) (zeros : ℕ), Delivers entries zeros := by
  intro h
  obtain ⟨index, hindex, -⟩ := h [blockHeader.fill, byteHeader.fill] 2
  have hlost : ∃ h ∈ lost Header.misses false [blockHeader, byteHeader], h.size ≠ 0 := by
    refine ⟨byteHeader, ?_, Nat.one_ne_zero⟩
    rw [lost, misses_blockHeader, lost]
    exact List.mem_cons_self
  obtain ⟨e, he⟩ := resume_garbage hlost 2 []
  rw [resume_false, List.map_cons, List.map_cons, List.map_nil, hindex] at he
  cases he

end Stuff.ResourceTar
