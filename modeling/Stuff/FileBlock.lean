import Stuff.ByteOrder
import Stuff.FileReader
import Stuff.FileWriter
import Stuff.Loops

/-!
# Blocks in a file

`File::Block` writes a header with the size and a hash of the data in front of each block.
A reader stops without complaint only between two blocks: `read` tells the end of the file
from a header or data that are cut, by how much each read gives.
-/
namespace Stuff.FileBlock
open ByteOrder CallTrees FileReader Loops MachineWords

structure Header where
  magic : UInt32 := 0x02030405
  size : UInt32 := 0
  hash : UInt64 := 0
  type : UInt8 := 0
deriving DecidableEq, Repr

def headerMagic : UInt32 := 0x02030405

/-- `sizeof(Header)`, which is packed. -/
def headerSize : ℕ := 17

/-- The memory of a header. -/
def Header.bytes (h : Header) : Bytes :=
  littleEndian 4 h.magic.toNat ++
    (littleEndian 4 h.size.toNat ++ (littleEndian 8 h.hash.toNat ++ [h.type]))

def Header.ofBytes (bs : Bytes) : Header :=
  { magic := UInt32.ofNat (ofLittleEndian (bs.take 4))
    size := UInt32.ofNat (ofLittleEndian ((bs.drop 4).take 4))
    hash := UInt64.ofNat (ofLittleEndian ((bs.drop 8).take 8))
    type := (bs.drop 16).headD 0 }

structure Block where
  type : UInt8
  data : Bytes
deriving DecidableEq, Repr

/-- `SSLxx::DigestHash` with MD5, of the data, the size and the type. -/
abbrev Digest := Bytes → UInt32 → UInt8 → UInt64

section
variable (digest : Digest)

def hash (aHeader : Header) (aData : Bytes) : UInt64 := digest aData aHeader.size aHeader.type

/-! ## Writing -/

def header (b : Block) : Header :=
  let sHeader : Header := { type := b.type, size := UInt32.ofNat b.data.length }
  { sHeader with hash := hash digest sHeader b.data }

/-- The writes of `Api::write`. -/
def apiWrite (b : Block) : List Bytes := [(header digest b).bytes, b.data]

/-- A callback that makes some writes and lets every exception pass. -/
def writes : List Bytes → File.Callback
  | [] => .returns
  | data :: rest => .op (.write data) fun ok => if ok then writes rest else .throws

def handler (blocks : List Block) (aWriter : File.IWriter File.Writers) :
    File.Io File.Writers Unit :=
  (writes (blocks.flatMap (apiWrite digest))).run aWriter

/-- `File::write` from the open file on. -/
def write (blocks : List Block) : File.Io File.Writers Unit :=
  Code.scope (File.writeOpened (handler digest blocks))
    (File.BufWriter.under File.FileWriter.destruct)

/-! ## Reading -/

/-- What the handler was called with, and how `read` ends. -/
abbrev Result := List Block × Except String Unit

def readTurn (s : BufReader × List Block) : Turn (BufReader × List Block) Result :=
  if s.1.eof then .leave (s.2, .ok ())
  else
    let r := s.1.read headerSize
    if r.1.length = 0 then .leave (s.2, .ok ())
    else if r.1.length ≠ headerSize then
      .leave (s.2, .error "File::Block: header too short")
    else
      let sHeader := Header.ofBytes r.1
      if sHeader.magic ≠ headerMagic then .leave (s.2, .error "File::Block: bad magic")
      else
        let t := r.2.read sHeader.size.toNat
        if t.1.length ≠ sHeader.size.toNat then
          .leave (s.2, .error "File::Block: data too short")
        else if sHeader.hash ≠ hash digest sHeader t.1 then
          .leave (s.2, .error "File::Block: bad hash")
        else .next (t.2, s.2 ++ [{ type := sHeader.type, data := t.1 }])

def read (n : ℕ) (reader : BufReader) : Option Result :=
  loop (fun _ s => some (readTurn digest s)) n (reader, [])

/-! ## The bytes of a file -/

def blockBytes (b : Block) : Bytes := (header digest b).bytes ++ b.data

def fileBytes (blocks : List Block) : Bytes := blocks.flatMap (blockBytes digest)

/-- The blocks that are complete in the first `n` bytes. -/
def complete : List Block → ℕ → List Block
  | [], _ => []
  | b :: blocks, n =>
      if (blockBytes digest b).length ≤ n then
        b :: complete blocks (n - (blockBytes digest b).length)
      else []

end

@[simp] theorem length_header (h : Header) : h.bytes.length = headerSize := by
  simp [Header.bytes, headerSize]

theorem ofBytes_bytes (h : Header) : Header.ofBytes h.bytes = h := by
  have h₄ : h.bytes.drop 4 =
      littleEndian 4 h.size.toNat ++ (littleEndian 8 h.hash.toNat ++ [h.type]) :=
    List.drop_left' (length_littleEndian 4 _)
  have h₈ : h.bytes.drop 8 = littleEndian 8 h.hash.toNat ++ [h.type] := by
    rw [show 8 = 4 + 4 from rfl, ← List.drop_drop, h₄]
    exact List.drop_left' (length_littleEndian 4 _)
  have h₁₆ : h.bytes.drop 16 = [h.type] := by
    rw [show 16 = 8 + 8 from rfl, ← List.drop_drop, h₈]
    exact List.drop_left' (length_littleEndian 8 _)
  have hmagic : h.bytes.take 4 = littleEndian 4 h.magic.toNat :=
    List.take_left' (length_littleEndian 4 _)
  rw [Header.ofBytes, hmagic, h₄, h₈, h₁₆, List.take_left' (length_littleEndian 4 _),
    List.take_left' (length_littleEndian 8 _), ofLittleEndian_littleEndian h.magic.toNat_lt,
    ofLittleEndian_littleEndian h.size.toNat_lt, ofLittleEndian_littleEndian h.hash.toNat_lt]
  simp

/-! ## What is written -/

theorem writes_propagates (pieces : List Bytes) : (writes pieces).Propagates := by
  induction pieces with
  | nil => trivial
  | cons data rest ih => exact ⟨rfl, ih⟩

theorem bytes_writes (pieces : List Bytes) : (writes pieces).bytes = pieces.flatten := by
  induction pieces with
  | nil => rfl
  | cons data rest ih =>
      change data ++ (writes rest).bytes = _
      rw [ih, List.flatten_cons]

variable {digest : Digest}

theorem flatten_apiWrite (blocks : List Block) :
    (blocks.flatMap (apiWrite digest)).flatten = fileBytes digest blocks := by
  induction blocks with
  | nil => rfl
  | cons b blocks ih =>
      rw [List.flatMap_cons, List.flatten_append, ih]
      simp [apiWrite, blockBytes, fileBytes]

/-- Whatever fails on the way: if `write` returns, the blocks are in the file. -/
theorem write_spec (blocks : List Block) {i : ℕ} {l : File.Contents} (hopen : l.isOpen = true)
    (hnew : l.data = []) :
    Code.wp (File.fileRules i) (write digest blocks) false
      ⟨⟨some i⟩, [], File.DEFAULT_BUFFER_SIZE⟩ l
      (fun _ _ l' => l'.isOpen = false ∧ l'.data = fileBytes digest blocks)
      (fun _ _ => True) := by
  have hwritten := (writes (blocks.flatMap (apiWrite digest))).written
    (writes_propagates _) (i := i) hopen hnew
  rw [bytes_writes, flatten_apiWrite] at hwritten
  exact hwritten

/-! ## What is read -/

section
variable {b : BufReader}

theorem eof_eq_false (h : b.Ok) (hne : b.pending ≠ []) : b.eof = false := by
  cases heof : b.eof with
  | false => rfl
  | true => exact absurd (h.pending_of_eof heof) hne

/-- Between two blocks, or at the end of the file. -/
theorem readTurn_end (h : b.Ok) (blocks : List Block) (hpending : b.pending = []) :
    readTurn digest (b, blocks) = .leave (blocks, .ok ()) := by
  obtain ⟨hbytes, -, -⟩ := h.read headerSize
  rw [hpending, List.take_nil] at hbytes
  unfold readTurn
  split
  · rfl
  · simp [hbytes]

/-- Behind the header of a block, as many bytes are read as the block has. -/
theorem readTurn_header (h : b.Ok) (blocks : List Block) {block : Block}
    (hsize : block.data.length < 2 ^ 32)
    {rest : Bytes} (hpending : b.pending = (header digest block).bytes ++ rest) :
    ∃ c : BufReader, c.Ok ∧ c.pending = rest ∧ readTurn digest (b, blocks) =
      if (c.read block.data.length).1.length ≠ block.data.length then
        .leave (blocks, .error "File::Block: data too short")
      else if (header digest block).hash ≠
          hash digest (header digest block) (c.read block.data.length).1 then
        .leave (blocks, .error "File::Block: bad hash")
      else
        .next ((c.read block.data.length).2,
          blocks ++ [{ type := block.type, data := (c.read block.data.length).1 }]) := by
  have hne : b.pending ≠ [] := by
    intro hnil
    have hlen := congrArg List.length (hpending.symm.trans hnil)
    rw [List.length_append, length_header, headerSize, List.length_nil] at hlen
    omega
  have heof := eof_eq_false h hne
  obtain ⟨hbytes, hleft, hok⟩ := h.read headerSize
  rw [hpending] at hbytes hleft
  rw [List.take_left' (length_header _)] at hbytes
  rw [List.drop_left' (length_header _)] at hleft
  have hlength : (header digest block).size.toNat = block.data.length :=
    UInt32.toNat_ofNat_of_lt' hsize
  have hmagic : (header digest block).magic = headerMagic := rfl
  have htype : (header digest block).type = block.type := rfl
  have hpos : headerSize ≠ 0 := by decide
  refine ⟨(b.read headerSize).2, hok, hleft, ?_⟩
  simp only [readTurn, heof, hbytes, ofBytes_bytes, hlength, length_header, hmagic, htype, hpos,
    Bool.false_eq_true, if_false, ne_eq, not_true_eq_false]

/-- A complete block, with whatever is behind it. -/
theorem readTurn_block (h : b.Ok) (blocks : List Block) {block : Block}
    (hsize : block.data.length < 2 ^ 32)
    {rest : Bytes} (hpending : b.pending = blockBytes digest block ++ rest) :
    ∃ b', readTurn digest (b, blocks) = .next (b', blocks ++ [block]) ∧ b'.Ok ∧
      b'.pending = rest := by
  rw [blockBytes, List.append_assoc] at hpending
  obtain ⟨c, hc, hleft, hturn⟩ := readTurn_header h blocks hsize hpending
  obtain ⟨hdata, hleft', hok⟩ := hc.read block.data.length
  rw [hleft] at hdata hleft'
  rw [List.take_left] at hdata
  rw [List.drop_left] at hleft'
  have hhash : (header digest block).hash =
      hash digest (header digest block) block.data := rfl
  refine ⟨_, ?_, hok, hleft'⟩
  rw [hturn, hdata, if_neg (not_not_intro rfl), if_neg (not_not_intro hhash)]

/-- A block that is cut: in its header, right behind it, or in the data. -/
theorem readTurn_cut (h : b.Ok) (blocks : List Block) {block : Block}
    (hsize : block.data.length < 2 ^ 32)
    (hne : b.pending ≠ []) (hpart : b.pending <+: blockBytes digest block)
    (hcut : b.pending.length < (blockBytes digest block).length) :
    ∃ e, readTurn digest (b, blocks) = .leave (blocks, .error e) := by
  have heof := eof_eq_false h hne
  by_cases hshort : b.pending.length < headerSize
  · obtain ⟨hbytes, -, -⟩ := h.read headerSize
    have hpos := List.length_pos_of_ne_nil hne
    have hlen : (b.read headerSize).1.length = b.pending.length := by
      rw [hbytes, List.length_take]
      omega
    refine ⟨"File::Block: header too short", ?_⟩
    simp only [readTurn, heof, hlen, Bool.false_eq_true, if_false]
    rw [if_neg (by omega), if_pos (by omega)]
  · have hheader : (header digest block).bytes <+: b.pending := by
      apply List.prefix_of_prefix_length_le (List.prefix_append _ block.data) hpart
      rw [length_header]
      omega
    obtain ⟨front, hfront⟩ := hheader
    obtain ⟨c, hc, hleft, hturn⟩ := readTurn_header h blocks hsize hfront.symm
    have hlen := congrArg List.length hfront
    rw [blockBytes, List.length_append] at hcut
    rw [List.length_append] at hlen
    obtain ⟨hdata, -, -⟩ := hc.read block.data.length
    rw [hleft] at hdata
    refine ⟨"File::Block: data too short", ?_⟩
    rw [hturn, hdata, if_pos]
    rw [List.length_take]
    omega

end

/-- A reader that has the first part of a file before it hands on the blocks that are
complete in it, and throws unless it ends behind the last one of these. -/
theorem loop_readTurn {blocks : List Block} (hblocks : ∀ block ∈ blocks, block.data.length < 2 ^ 32)
    {b : BufReader} (h : b.Ok) (hpart : b.pending <+: fileBytes digest blocks)
    (calls : List Block) :
    ∃ outcome, Returns (fun n => loop (fun _ s => some (readTurn digest s)) n (b, calls))
        (calls ++ complete digest blocks b.pending.length, outcome) ∧
      (outcome = .ok () ↔
        b.pending = fileBytes digest (complete digest blocks b.pending.length)) := by
  induction blocks generalizing b calls with
  | nil =>
      have hnil : b.pending = [] := List.prefix_nil.mp hpart
      refine ⟨.ok (), ?_, ?_⟩
      · rw [complete, List.append_nil]
        exact loop_leave_of_eq (readTurn_end h calls hnil)
      · simp [hnil, complete, fileBytes]
  | cons block blocks ih =>
      have hsize := hblocks block List.mem_cons_self
      rw [fileBytes, List.flatMap_cons] at hpart
      by_cases hwhole : (blockBytes digest block).length ≤ b.pending.length
      · obtain ⟨rest, hrest⟩ :=
          List.prefix_of_prefix_length_le (List.prefix_append _ _) hpart hwhole
        obtain ⟨b', hturn, hok, hpending⟩ := readTurn_block h calls hsize hrest.symm
        have hpart' : b'.pending <+: fileBytes digest blocks := by
          rw [← hrest] at hpart
          rw [hpending]
          exact (List.prefix_append_right_inj _).mp hpart
        obtain ⟨outcome, hloop, hiff⟩ :=
          ih (fun x hx => hblocks x (List.mem_cons_of_mem block hx)) hok hpart'
            (calls ++ [block])
        have hcomplete : complete digest (block :: blocks) b.pending.length =
            block :: complete digest blocks b'.pending.length := by
          have hlen : b.pending.length - (blockBytes digest block).length =
              b'.pending.length := by
            rw [← hrest, List.length_append, hpending]
            omega
          rw [complete, if_pos hwhole, hlen]
        refine ⟨outcome, loop_next_of_eq hturn ?_, ?_⟩
        · rw [hcomplete, List.append_cons calls block (complete _ _ _)]
          exact hloop
        · rw [hiff, hcomplete, ← hrest, hpending, fileBytes, fileBytes, List.flatMap_cons,
            List.append_right_inj]
      · have hcomplete : complete digest (block :: blocks) b.pending.length = [] := by
          rw [complete, if_neg hwhole]
        rw [hcomplete, List.append_nil]
        by_cases hnil : b.pending = []
        · refine ⟨.ok (), loop_leave_of_eq (readTurn_end h calls hnil), ?_⟩
          simp [hnil, fileBytes]
        · have hlt : b.pending.length < (blockBytes digest block).length := by omega
          have hcut := List.prefix_of_prefix_length_le hpart (List.prefix_append _ _) hlt.le
          obtain ⟨e, hturn⟩ := readTurn_cut h calls hsize hnil hcut hlt
          refine ⟨.error e, loop_leave_of_eq hturn, ?_⟩
          simp [hnil, fileBytes]

theorem complete_all (blocks : List Block) :
    complete digest blocks (fileBytes digest blocks).length = blocks := by
  induction blocks with
  | nil => rfl
  | cons block blocks ih =>
      have hlen : (fileBytes digest (block :: blocks)).length =
          (blockBytes digest block).length + (fileBytes digest blocks).length := by
        rw [fileBytes, List.flatMap_cons, List.length_append, fileBytes]
      rw [complete, if_pos (by omega), hlen, Nat.add_sub_cancel_left, ih]

/-- What is written is read back, and from the first part of a file the blocks that are
complete in it; the reader throws unless the part ends behind a block. -/
theorem block_file (digest : Digest) (blocks : List Block)
    (hblocks : ∀ block ∈ blocks, block.data.length < 2 ^ 32) :
    (∀ (i : ℕ) (l : File.Contents), l.isOpen = true → l.data = [] →
      Code.wp (File.fileRules i) (write digest blocks) false
        ⟨⟨some i⟩, [], File.DEFAULT_BUFFER_SIZE⟩ l
        (fun _ _ l' => l'.isOpen = false ∧ l'.data = fileBytes digest blocks)
        (fun _ _ => True)) ∧
    ∀ (sizes : List ℕ) (eager : Bool) (aLen : ℕ), 0 < aLen →
      Returns (fun n => read digest n (.construct (fileBytes digest blocks) sizes eager aLen))
        (blocks, .ok ()) ∧
      ∀ part, part <+: fileBytes digest blocks → ∃ outcome,
        Returns (fun n => read digest n (.construct part sizes eager aLen))
          (complete digest blocks part.length, outcome) ∧
        (outcome = .ok () ↔ part = fileBytes digest (complete digest blocks part.length)) := by
  refine ⟨fun i l hopen hnew => write_spec blocks hopen hnew, fun sizes eager aLen hlen => ?_⟩
  have hpart : ∀ part, part <+: fileBytes digest blocks → ∃ outcome,
      Returns (fun n => read digest n (.construct part sizes eager aLen))
        (complete digest blocks part.length, outcome) ∧
      (outcome = .ok () ↔ part = fileBytes digest (complete digest blocks part.length)) := by
    intro part hpart
    exact loop_readTurn hblocks (BufReader.construct_ok part sizes eager hlen) hpart []
  refine ⟨?_, hpart⟩
  obtain ⟨outcome, hread, hiff⟩ := hpart _ (List.prefix_refl _)
  rw [complete_all] at hread hiff
  rw [hiff.mpr rfl] at hread
  exact hread

/-- Two blocks, and the file without its last byte. -/
theorem block_file_torn :
    complete (fun _ size _ => size.toUInt64) [⟨1, [0x61]⟩, ⟨2, [0x62, 0x63]⟩] 36 =
      [⟨1, [0x61]⟩] ∧
    ∃ outcome, Returns (fun n => read (fun _ size _ => size.toUInt64) n
        (.construct ((fileBytes (fun _ size _ => size.toUInt64)
          [⟨1, [0x61]⟩, ⟨2, [0x62, 0x63]⟩]).take 36) [3, 0, 1] false 5))
      ([⟨1, [0x61]⟩], outcome) ∧ outcome ≠ .ok () := by
  obtain ⟨-, hread⟩ :=
    block_file (fun _ size _ => size.toUInt64) [⟨1, [0x61]⟩, ⟨2, [0x62, 0x63]⟩] (by decide)
  obtain ⟨outcome, hreturns, hiff⟩ :=
    (hread [3, 0, 1] false 5 (by decide)).2 _ (List.take_prefix 36 _)
  refine ⟨by decide, outcome, hreturns, fun hok => absurd (hiff.mp hok) (by decide)⟩

end Stuff.FileBlock
