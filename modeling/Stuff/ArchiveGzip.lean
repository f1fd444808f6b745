import Stuff.ArchiveFilter
import Stuff.ByteOrder

/-!
# Streams of stored bytes

`Archive::WriteGzip` and `Archive::ReadGzip` over a `deflate` that puts each byte into a
stored block of its own. It treats the destination as the real one does: what has no room is
pending, no byte is taken while the header is, and the end is told in a call that leaves room.
-/
namespace Stuff.Archive
open ByteOrder MachineWords

/-! ## The format -/

/-- For the level 3. -/
def gzipHeader : Bytes := [0x78, 0x5e]

/-- Not the last block, and the length one. -/
def storedBlock (x : UInt8) : Bytes := [0x00, 0x01, 0x00, 0xfe, 0xff, x]

structure Adler where
  a : ℕ := 1
  b : ℕ := 0
deriving DecidableEq, Repr

def Adler.add (s : Adler) (x : UInt8) : Adler :=
  { a := (s.a + x.toNat) % 65521, b := (s.b + (s.a + x.toNat) % 65521) % 65521 }

/-- The last block, which is empty, and the checksum. -/
def gzipTrailer (s : Adler) : Bytes := [0x03, 0x00] ++ bigEndian 4 (s.b * 65536 + s.a)

def gzipMember (data : Bytes) : Bytes :=
  gzipHeader ++ data.flatMap storedBlock ++ gzipTrailer (data.foldl Adler.add {})

def IsGzipMember (data file : Bytes) : Prop := file = gzipMember data

/-! ## `WriteGzip` -/

/-- The rest is the state of zlib. -/
structure WriteGzip where
  m_Reset : Bool := false
  begun : Bool := false
  closing : Bool := false
  pending : Bytes := []
  adler : Adler := {}
deriving DecidableEq, Repr

namespace WriteGzip

def begin (s : WriteGzip) : WriteGzip :=
  if s.begun then s else { s with begun := true, pending := gzipHeader }

def close (s : WriteGzip) : WriteGzip :=
  if s.closing then s else { s with closing := true, pending := s.pending ++ gzipTrailer s.adler }

def filter (s : WriteGzip) (aSrc : Bytes) (aDstLen : ℕ) : Pair WriteGzip :=
  let s := (if s.m_Reset then {} else s).begin
  match s.pending.drop aDstLen, aSrc with
  | [], x :: _ =>
      { usedSrc := 1, out := s.pending, state :=
        { s with pending := storedBlock x, adler := s.adler.add x } }
  | left, _ =>
      { usedSrc := 0, out := s.pending.take aDstLen, state := { s with pending := left } }

def finish (s : WriteGzip) (aDstLen : ℕ) : Finish WriteGzip :=
  if s.m_Reset then { out := [], done := true, state := s }
  else
    let s := s.begin.close
    if s.pending.length < aDstLen then
      { out := s.pending, done := true, state := { m_Reset := true } }
    else
      { out := s.pending.take aDstLen, done := false,
        state := { s with pending := s.pending.drop aDstLen } }

end WriteGzip

def writeGzip : IFilter WriteGzip where
  estimate _ aSize := aSize
  filter := WriteGzip.filter
  finish := WriteGzip.finish

/-! ## `ReadGzip` -/

/-- The next byte is of the header, of a block or of the checksum; the number counts the bytes
after it that are of the same kind. -/
inductive ReadGzip
  | header (n : ℕ)
  | block
  | length (n : ℕ)
  | stored
  | last
  | check (n : ℕ)
deriving DecidableEq, Repr

namespace ReadGzip

def step : ReadGzip → UInt8 → Option UInt8 × ReadGzip
  | header 0, _ => (none, block)
  | header (n + 1), _ => (none, header n)
  | block, x => (none, if x = 0x00 then length 3 else last)
  | length 0, _ => (none, stored)
  | length (n + 1), _ => (none, length n)
  | stored, x => (some x, block)
  | last, _ => (none, check 3)
  | check 0, _ => (none, header 1)
  | check (n + 1), _ => (none, check n)

/-- `inflate` while there is room in the destination, and up to the end of a stream. -/
def filter (s : ReadGzip) : Bytes → ℕ → Pair ReadGzip
  | [], _ => { usedSrc := 0, out := [], state := s }
  | _ :: _, 0 => { usedSrc := 0, out := [], state := s }
  | x :: aSrc, aDstLen + 1 =>
      let r := s.step x
      if s = check 0 then { usedSrc := 1, out := [], state := r.2 }
      else
        let rest := r.2.filter aSrc (aDstLen + 1 - r.1.toList.length)
        { rest with usedSrc := rest.usedSrc + 1, out := r.1.toList ++ rest.out }

/-- What the members hold, and the state after them. -/
def inflate (s : ReadGzip) : Bytes → Bytes × ReadGzip
  | [] => ([], s)
  | x :: src => ((s.step x).1.toList ++ ((s.step x).2.inflate src).1, ((s.step x).2.inflate src).2)

end ReadGzip

def readGzip : IFilter ReadGzip where
  estimate _ aSize := aSize
  filter := ReadGzip.filter
  finish s _ := { out := [], done := true, state := s }

/-! ## What was written so far -/

namespace WriteGzip

/-- What is written and pending when `taken` was taken. -/
def streamed (closing : Bool) (taken : Bytes) : Bytes :=
  gzipHeader ++ taken.flatMap storedBlock ++
    if closing then gzipTrailer (taken.foldl Adler.add {}) else []

/-- In the middle of a member. -/
def streaming (closing : Bool) (taken pending : Bytes) : WriteGzip :=
  ⟨false, true, closing, pending, taken.foldl Adler.add {}⟩

inductive Cycle : Bool → Bytes → Bytes → WriteGzip → Prop
  | start : Cycle false [] [] {}
  | reset : Cycle false [] [] { m_Reset := true }
  | begun {closing : Bool} {taken out pending : Bytes} :
      out ++ pending = streamed closing taken →
        Cycle closing taken out (streaming closing taken pending)

/-- What is pending now, and what the trailer will add. -/
def rank (s : WriteGzip) : ℕ :=
  (if s.begun then s.pending.length else 2) + if s.closing then 0 else 6

theorem Cycle.begin {closing : Bool} {taken out : Bytes} {s : WriteGzip}
    (h : Cycle closing taken out s) :
    ∃ pending, (if s.m_Reset then {} else s).begin = streaming closing taken pending ∧
      out ++ pending = streamed closing taken ∧
      rank s = pending.length + if closing then 0 else 6 := by
  cases h with
  | start => exact ⟨gzipHeader, rfl, rfl, rfl⟩
  | reset => exact ⟨gzipHeader, rfl, rfl, rfl⟩
  | @begun _ _ _ pending heq => exact ⟨pending, rfl, heq, rfl⟩

/-- Only the header is written before a byte is taken. -/
theorem Cycle.length_out {out : Bytes} {s : WriteGzip} (h : Cycle false [] out s) :
    out.length < 3 := by
  obtain ⟨pending, -, hstream, -⟩ := h.begin
  have hlength : (out ++ pending).length = 2 := congrArg List.length hstream
  rw [List.length_append] at hlength
  omega

theorem streamed_take (taken : Bytes) (x : UInt8) :
    streamed false taken ++ storedBlock x = streamed false (taken ++ [x]) := by
  simp [streamed]

theorem streamed_close (taken : Bytes) :
    streamed false taken ++ gzipTrailer (taken.foldl Adler.add {}) = gzipMember taken := by
  simp [streamed, gzipMember]

/-- A byte is taken just when nothing is left pending. -/
theorem filter_streaming {taken pending aSrc : Bytes} {aDstLen : ℕ} {s : WriteGzip}
    (hne : aSrc ≠ []) (hs : (if s.m_Reset then {} else s).begin = streaming false taken pending) :
    (pending.length ≤ aDstLen ∧ ∃ x, aSrc.take 1 = [x] ∧ s.filter aSrc aDstLen =
      ⟨1, pending, streaming false (taken ++ [x]) (storedBlock x)⟩) ∨
    (aDstLen < pending.length ∧ s.filter aSrc aDstLen =
      ⟨0, pending.take aDstLen, streaming false taken (pending.drop aDstLen)⟩) := by
  obtain ⟨x, rest, rfl⟩ := List.exists_cons_of_ne_nil hne
  unfold filter
  rw [hs]
  rcases Nat.lt_or_ge aDstLen pending.length with hlt | hle
  · right
    obtain ⟨y, left, hleft⟩ := List.exists_cons_of_ne_nil
      (fun hnil => absurd (List.drop_eq_nil_iff.mp hnil) (Nat.not_le.mpr hlt))
    refine ⟨hlt, ?_⟩
    simp only [streaming, hleft]
  · left
    refine ⟨hle, x, rfl, ?_⟩
    simp only [streaming, List.drop_eq_nil_of_le hle, List.foldl_append, List.foldl_cons,
      List.foldl_nil]

/-- The trailer is put behind what is pending. -/
theorem close_streaming (closing : Bool) (taken pending : Bytes) :
    ∃ all, (streaming closing taken pending).close = streaming true taken all ∧
      (∀ out, out ++ pending = streamed closing taken → out ++ all = gzipMember taken) ∧
      all.length = pending.length + if closing then 0 else 6 := by
  cases closing with
  | true =>
      refine ⟨pending, rfl, ?_, rfl⟩
      intro out heq
      rw [heq]
      rfl
  | false =>
      refine ⟨pending ++ gzipTrailer (taken.foldl Adler.add {}), rfl, ?_, ?_⟩
      · intro out heq
        rw [← List.append_assoc, heq, streamed_close]
      · simp [gzipTrailer]

/-- The member is complete when there is room behind it. -/
theorem Cycle.finish {closing : Bool} {taken out : Bytes} {s : WriteGzip}
    (h : Cycle closing taken out s) (aDstLen : ℕ) :
    (s.finish aDstLen = ⟨[], true, s⟩ ∧ taken = [] ∧ out = [] ∧ Cycle false [] [] s) ∨
    ∃ all, out ++ all = gzipMember taken ∧ rank s = all.length ∧
      ((all.length < aDstLen ∧ s.finish aDstLen = ⟨all, true, { m_Reset := true }⟩) ∨
        (aDstLen ≤ all.length ∧ s.finish aDstLen =
          ⟨all.take aDstLen, false, streaming true taken (all.drop aDstLen)⟩)) := by
  by_cases hreset : s.m_Reset = true
  · left
    cases h with
    | start => cases hreset
    | reset => exact ⟨rfl, rfl, rfl, .reset⟩
    | begun heq => cases hreset
  · right
    obtain ⟨pending, hs, hstream, hrank⟩ := h.begin
    obtain ⟨all, hclose, hall, hlength⟩ := close_streaming closing taken pending
    refine ⟨all, hall out hstream, hrank.trans hlength.symm, ?_⟩
    rw [if_neg hreset] at hs
    unfold WriteGzip.finish
    rw [if_neg hreset, hs, hclose]
    rcases Nat.lt_or_ge all.length aDstLen with hlt | hle
    · exact .inl ⟨hlt, if_pos hlt⟩
    · exact .inr ⟨hle, if_neg (Nat.not_lt.mpr hle)⟩

end WriteGzip

theorem writeGzip_encodes : Encodes writeGzip IsGzipMember
    WriteGzip.Cycle WriteGzip.rank where
  filter := by
    intro s taken out src dst h hne _ _
    obtain ⟨pending, hs, hstream, -⟩ := h.begin
    change (s.filter src dst).usedSrc ≤ _ ∧ (s.filter src dst).out.length ≤ _ ∧
      WriteGzip.Cycle false (taken ++ src.take (s.filter src dst).usedSrc)
        (out ++ (s.filter src dst).out) (s.filter src dst).state
    rcases WriteGzip.filter_streaming hne hs with ⟨hle, x, hx, heq⟩ | ⟨hlt, heq⟩
    · rw [heq]
      refine ⟨List.length_pos_iff.mpr hne, hle, ?_⟩
      rw [hx]
      refine .begun ?_
      rw [hstream, WriteGzip.streamed_take]
    · rw [heq]
      refine ⟨Nat.zero_le _, List.length_take_le _ _, ?_⟩
      rw [List.take_zero, List.append_nil]
      refine .begun ?_
      rw [List.append_assoc, List.take_append_drop, hstream]
  takes := by
    intro s taken out src dst h hne _ hdst
    obtain ⟨pending, hs, -, hrank⟩ := h.begin
    change 0 < (s.filter src dst).usedSrc ∨ WriteGzip.rank (s.filter src dst).state < _
    rcases WriteGzip.filter_streaming hne hs with ⟨-, x, -, heq⟩ | ⟨hlt, heq⟩
    · rw [heq]
      exact .inl Nat.zero_lt_one
    · rw [heq, hrank]
      right
      simp only [WriteGzip.rank, WriteGzip.streaming, List.length_drop, if_true,
        Bool.false_eq_true, if_false]
      omega
  finish := by
    intro s closing taken out dst h _
    change (s.finish dst).out.length ≤ dst ∧
      ((s.finish dst).done = false → WriteGzip.Cycle true taken (out ++ (s.finish dst).out)
        (s.finish dst).state) ∧
      ((s.finish dst).done = true → WriteGzip.Cycle false [] [] (s.finish dst).state ∧
        (out ++ (s.finish dst).out = gzipMember taken ∨
          taken = [] ∧ out ++ (s.finish dst).out = []))
    rcases h.finish dst with ⟨heq, htaken, hout, hstate⟩ | ⟨all, hall, -, ⟨hlt, heq⟩ | ⟨hle, heq⟩⟩
    · rw [heq, htaken, hout]
      exact ⟨Nat.zero_le _, fun hdone => absurd hdone (by simp), fun _ => ⟨hstate, .inr ⟨rfl, rfl⟩⟩⟩
    · rw [heq]
      exact ⟨hlt.le, fun hdone => absurd hdone (by simp), fun _ => ⟨.reset, .inl hall⟩⟩
    · rw [heq]
      refine ⟨List.length_take_le _ _, fun _ => .begun ?_, fun hdone => absurd hdone (by simp)⟩
      rw [List.append_assoc, List.take_append_drop, hall]
      simp [WriteGzip.streamed, gzipMember]
  ends := by
    intro s closing taken out dst h _ hdst
    change (s.finish dst).done = true ∨ WriteGzip.rank (s.finish dst).state < _
    rcases h.finish dst with ⟨heq, -, -, -⟩ | ⟨all, -, hrank, ⟨hlt, heq⟩ | ⟨hle, heq⟩⟩
    · rw [heq]
      exact .inl rfl
    · rw [heq]
      exact .inl rfl
    · rw [heq, hrank]
      right
      simp only [WriteGzip.rank, WriteGzip.streaming, List.length_drop, if_true]
      omega

/-! ## What is read back -/

namespace ReadGzip

theorem inflate_append (s : ReadGzip) (src src' : Bytes) :
    s.inflate (src ++ src') =
      ((s.inflate src).1 ++ ((s.inflate src).2.inflate src').1,
        ((s.inflate src).2.inflate src').2) := by
  induction src generalizing s with
  | nil => rfl
  | cons x src ih => simp only [List.cons_append, inflate, ih, List.append_assoc]

theorem inflate_blocks (data : Bytes) :
    block.inflate (data.flatMap storedBlock) = (data, block) := by
  induction data with
  | nil => rfl
  | cons x data ih =>
      have hblock : block.inflate (storedBlock x) = ([x], block) := rfl
      rw [List.flatMap_cons, inflate_append, hblock]
      dsimp only
      rw [ih]
      rfl

theorem inflate_trailer (s : Adler) : block.inflate (gzipTrailer s) = ([], header 1) := by
  obtain ⟨a, b, c, d, hcheck⟩ : ∃ a b c d, bigEndian 4 (s.b * 65536 + s.a) = [a, b, c, d] :=
    List.length_eq_four.mp (length_bigEndian 4 _)
  rw [gzipTrailer, hcheck]
  rfl

theorem inflate_member (data : Bytes) :
    (header 1).inflate (gzipMember data) = (data, header 1) := by
  have hheader : (header 1).inflate gzipHeader = ([], block) := rfl
  rw [gzipMember, inflate_append, inflate_append, hheader]
  dsimp only
  rw [inflate_blocks, inflate_trailer]
  simp

theorem inflate_members {members : List (Bytes × Bytes)}
    (h : ∀ m ∈ members, IsGzipMember m.1 m.2) :
    (header 1).inflate (members.flatMap Prod.snd) = (members.flatMap Prod.fst, header 1) := by
  induction members with
  | nil => rfl
  | cons m members ih =>
      rw [List.flatMap_cons, inflate_append, h m List.mem_cons_self, inflate_member]
      dsimp only
      rw [ih fun m' hm' => h m' (List.mem_cons_of_mem _ hm')]
      rfl

/-- A turn of `filter` in the middle of a stream. -/
theorem filter_cons {s : ReadGzip} (hend : s ≠ check 0) (x : UInt8) (src : Bytes) (dst : ℕ) :
    s.filter (x :: src) (dst + 1) =
      { (s.step x).2.filter src (dst + 1 - (s.step x).1.toList.length) with
        usedSrc := ((s.step x).2.filter src (dst + 1 - (s.step x).1.toList.length)).usedSrc + 1
        out := (s.step x).1.toList ++
          ((s.step x).2.filter src (dst + 1 - (s.step x).1.toList.length)).out } := if_neg hend

/-- `filter` does what `inflate` does, as far as it comes. -/
theorem inflate_taken (s : ReadGzip) (src : Bytes) (dst : ℕ) :
    s.inflate (src.take (s.filter src dst).usedSrc) =
      ((s.filter src dst).out, (s.filter src dst).state) := by
  induction src generalizing s dst with
  | nil => rfl
  | cons x src ih =>
      cases dst with
      | zero => rfl
      | succ dst =>
          by_cases hend : s = check 0
          · subst hend
            rfl
          · rw [filter_cons hend, List.take_succ_cons, inflate, ih]

theorem filter_bounds (s : ReadGzip) (src : Bytes) (dst : ℕ) :
    (s.filter src dst).usedSrc ≤ src.length ∧ (s.filter src dst).out.length ≤ dst := by
  induction src generalizing s dst with
  | nil => exact ⟨Nat.zero_le _, Nat.zero_le _⟩
  | cons x src ih =>
      cases dst with
      | zero => exact ⟨Nat.zero_le _, Nat.zero_le _⟩
      | succ dst =>
          by_cases hend : s = check 0
          · subst hend
            exact ⟨by simp [filter], Nat.zero_le _⟩
          · have hone : (s.step x).1.toList.length ≤ 1 := by
              cases (s.step x).1 <;> simp
            obtain ⟨hused, hout⟩ := ih (s.step x).2 (dst + 1 - (s.step x).1.toList.length)
            rw [filter_cons hend]
            refine ⟨Nat.succ_le_succ hused, ?_⟩
            rw [List.length_append]
            omega

theorem filter_pos (s : ReadGzip) {src : Bytes} {dst : ℕ} (hne : src ≠ []) (hdst : 0 < dst) :
    0 < (s.filter src dst).usedSrc := by
  obtain ⟨x, src, rfl⟩ := List.exists_cons_of_ne_nil hne
  obtain ⟨dst, rfl⟩ : ∃ k, dst = k + 1 := ⟨dst - 1, by omega⟩
  unfold filter
  dsimp only
  split
  · exact Nat.zero_lt_one
  · exact Nat.succ_pos _

/-- What is left of the members holds `todo`. -/
def At (rest todo : Bytes) (s : ReadGzip) : Prop := s.inflate rest = (todo, header 1)

end ReadGzip

theorem readGzip_decodes : Decodes readGzip IsGzipMember
    ReadGzip.At (.header 1) where
  start := fun _ h => ReadGzip.inflate_members h
  filter := by
    intro s src rest todo dst h hne hdst
    obtain ⟨hused, hout⟩ := s.filter_bounds src dst
    have hparts : src ++ rest = src.take (s.filter src dst).usedSrc ++
        (src.drop (s.filter src dst).usedSrc ++ rest) := by
      rw [← List.append_assoc, List.take_append_drop]
    rw [ReadGzip.At, hparts, ReadGzip.inflate_append, ReadGzip.inflate_taken, Prod.mk.injEq] at h
    obtain ⟨htodo, hend⟩ := h
    exact ⟨hused, hout, .inl (s.filter_pos hne hdst), _, htodo.symm, Prod.ext rfl hend⟩
  last := fun h => (congrArg Prod.fst h).symm
  finish := fun _ _ => ⟨rfl, rfl⟩

end Stuff.Archive
