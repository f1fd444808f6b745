import Stuff.ArchiveFilter
import Stuff.FileReader
import Stuff.FileWriter
import Stuff.Loops
import Mathlib.Data.Prod.Lex

/-!
# Files through filters

`File::FilterWriter` lets a filter write into its buffer, and ends a member of the file
whenever it flushes, which `write` does by itself when the buffer is full.
`File::FilterReader` reads until the filter has given what was asked for.
-/
namespace Stuff.FileFilter
open Archive FileReader Loops MachineWords

/-- The first `m_End` bytes of `m_Buffer`, its size, and what `m_Writer` was given. -/
structure FilterWriter (σ : Type*) where
  m_Filter : σ
  m_Buffer : Bytes := []
  size : ℕ
  file : Bytes := []

namespace FilterWriter

variable {σ : Type*} (c : IFilter σ)

def avail (s : FilterWriter σ) : ℕ := s.size - s.m_Buffer.length

def ensure (s : FilterWriter σ) (aRequired : ℕ) : FilterWriter σ :=
  if 0 < aRequired ∧ s.avail < aRequired then { s with size := aRequired + s.m_Buffer.length }
  else s

/-- `BufWriter::flush` -/
def drain (s : FilterWriter σ) : FilterWriter σ :=
  { s with m_Buffer := [], file := s.file ++ s.m_Buffer }

def flushTurn (s : FilterWriter σ) : Turn (FilterWriter σ) (FilterWriter σ) :=
  let s := s.ensure (c.estimate s.m_Filter 0)
  let sInfo := c.finish s.m_Filter s.avail
  let s := ({ s with m_Filter := sInfo.state, m_Buffer := s.m_Buffer ++ sInfo.out }).drain
  if sInfo.done then .leave s else .next s

def flush (n : ℕ) (s : FilterWriter σ) : Option (FilterWriter σ) :=
  loop (fun _ s => some (flushTurn c s)) n s

/-- What a turn of `write` takes from the rest of the data. -/
def take (s : FilterWriter σ) (rest : Bytes) : ℕ × FilterWriter σ :=
  let sInputSize := min File.DEFAULT_BUFFER_SIZE rest.length
  let s := s.ensure (c.estimate s.m_Filter sInputSize)
  let sInfo := c.filter s.m_Filter (rest.take sInputSize) s.avail
  (sInfo.usedSrc, { s with m_Filter := sInfo.state, m_Buffer := s.m_Buffer ++ sInfo.out })

def full (s : FilterWriter σ) : Bool :=
  s.m_Buffer.length = s.size ∨ File.DEFAULT_BUFFER_SIZE ≤ s.m_Buffer.length

def writeTurn (n : ℕ) (s : FilterWriter σ × Bytes) :
    Option (Turn (FilterWriter σ × Bytes) (FilterWriter σ)) :=
  if s.2 = [] then some (.leave s.1)
  else
    let r := s.1.take c s.2
    let rest := s.2.drop r.1
    if r.2.full then (r.2.flush c n).map fun t => .next (t, rest) else some (.next (r.2, rest))

def write (n : ℕ) (s : FilterWriter σ) (aPtr : Bytes) : Option (FilterWriter σ) :=
  loop (writeTurn c) n (s, aPtr)

end FilterWriter

inductive Call
  | write (aPtr : Bytes)
  | flush
deriving DecidableEq, Repr

def Call.bytes : Call → Bytes
  | .write aPtr => aPtr
  | .flush => []

namespace FilterWriter

variable {σ : Type*} (c : IFilter σ)

def call (n : ℕ) (s : FilterWriter σ) : Call → Option (FilterWriter σ)
  | .write aPtr => s.write c n aPtr
  | .flush => s.flush c n

def run (n : ℕ) (s : FilterWriter σ) : List Call → Option (FilterWriter σ)
  | [] => some s
  | x :: calls => (s.call c n x).bind fun s => s.run n calls

/-- The file when the writer is gone; its destructor flushes. -/
def contents (n : ℕ) (s : FilterWriter σ) (calls : List Call) : Option Bytes :=
  (s.run c n calls).bind fun s => (s.flush c n).map file

end FilterWriter

structure FilterReader (τ : Type*) where
  m_Filter : τ
  buf : BufReader
  m_Eof : Bool := false

namespace FilterReader

variable {τ : Type*} (c : IFilter τ)

/-- With the bytes that were read so far, of which there are `sUsed`. -/
def readTurn (aLen : ℕ) (s : FilterReader τ × Bytes) :
    Turn (FilterReader τ × Bytes) (Bytes × FilterReader τ) :=
  if s.2.length < aLen then
    let buf := if s.1.buf.avail = 0 then s.1.buf.refill else s.1.buf
    if 0 < buf.avail then
      let sInfo := c.filter s.1.m_Filter (buf.buffer.drop buf.pos) (aLen - s.2.length)
      .next ({ s.1 with
        m_Filter := sInfo.state
        buf := { buf with pos := buf.pos + sInfo.usedSrc } }, s.2 ++ sInfo.out)
    else if buf.reader.isEof then
      let sInfo := c.finish s.1.m_Filter (aLen - s.2.length)
      if sInfo.done then
        .leave (s.2 ++ sInfo.out, { m_Filter := sInfo.state, buf := buf, m_Eof := true })
      else .next ({ s.1 with m_Filter := sInfo.state, buf := buf }, s.2 ++ sInfo.out)
    else .next ({ s.1 with buf := buf }, s.2)
  else .leave (s.2, s.1)

def read (n : ℕ) (s : FilterReader τ) (aLen : ℕ) : Option (Bytes × FilterReader τ) :=
  if s.m_Eof then some ([], s) else loop (fun _ s => some (readTurn c aLen s)) n (s, [])

/-- One read after the other. -/
def reads (n : ℕ) (s : FilterReader τ) : List ℕ → Option (List Bytes × FilterReader τ)
  | [] => some ([], s)
  | aLen :: lens =>
      (s.read c n aLen).bind fun r => (r.2.reads n lens).map fun t => (r.1 :: t.1, t.2)

end FilterReader

/-! ## Writing -/

namespace FilterWriter

section
variable {σ : Type*} {c : IFilter σ} {member : Bytes → Bytes → Prop}
variable {Cycle : Bool → Bytes → Bytes → σ → Prop} {rank : σ → ℕ}

/-- The buffer has room, and nothing is over its end. -/
structure Fits (s : FilterWriter σ) : Prop where
  room : 0 < s.size
  fits : s.m_Buffer.length ≤ s.size

theorem Fits.ensure {s : FilterWriter σ} (h : s.Fits) (aRequired : ℕ) :
    (s.ensure aRequired).Fits ∧ aRequired ≤ (s.ensure aRequired).avail ∧
      s.avail ≤ (s.ensure aRequired).avail ∧ s.size ≤ (s.ensure aRequired).size := by
  obtain ⟨hroom, hfits⟩ := h
  unfold FilterWriter.ensure
  split
  case isTrue hlt =>
    obtain ⟨hpos, hlt⟩ := hlt
    refine ⟨⟨?_, ?_⟩, ?_, ?_, ?_⟩ <;> simp only [avail] at * <;> omega
  case isFalse hle => exact ⟨⟨hroom, hfits⟩, by omega, le_rfl, le_rfl⟩

@[simp] theorem ensure_m_Filter (s : FilterWriter σ) (aRequired : ℕ) :
    (s.ensure aRequired).m_Filter = s.m_Filter := by
  unfold FilterWriter.ensure
  split <;> rfl

@[simp] theorem ensure_m_Buffer (s : FilterWriter σ) (aRequired : ℕ) :
    (s.ensure aRequired).m_Buffer = s.m_Buffer := by
  unfold FilterWriter.ensure
  split <;> rfl

@[simp] theorem ensure_file (s : FilterWriter σ) (aRequired : ℕ) :
    (s.ensure aRequired).file = s.file := by
  unfold FilterWriter.ensure
  split <;> rfl

/-- `data` was written: what the filter took since its last member, and before this what
is in the members of the file. -/
def Wrote (member : Bytes → Bytes → Prop) (Cycle : Bool → Bytes → Bytes → σ → Prop)
    (closing : Bool) (data : Bytes) (s : FilterWriter σ) : Prop :=
  s.Fits ∧ ∃ (members : List (Bytes × Bytes)) (taken out : Bytes),
    (∀ m ∈ members, member m.1 m.2) ∧ Cycle closing taken out s.m_Filter ∧
      s.file ++ s.m_Buffer = members.flatMap Prod.snd ++ out ∧
      data = members.flatMap Prod.fst ++ taken

/-- All of `data` is in the members of the file. -/
structure Flushed (member : Bytes → Bytes → Prop) (Cycle : Bool → Bytes → Bytes → σ → Prop)
    (data : Bytes) (s : FilterWriter σ) : Prop where
  room : 0 < s.size
  buffer : s.m_Buffer = []
  cycle : Cycle false [] [] s.m_Filter
  members : ∃ members : List (Bytes × Bytes), (∀ m ∈ members, member m.1 m.2) ∧
    s.file = members.flatMap Prod.snd ∧ data = members.flatMap Prod.fst

theorem Flushed.length_lt {data : Bytes} {s : FilterWriter σ} (h : Flushed member Cycle data s) :
    s.m_Buffer.length < s.size := by
  rw [h.buffer]
  exact h.room

theorem Flushed.wrote {data : Bytes} {s : FilterWriter σ} (h : Flushed member Cycle data s) :
    Wrote member Cycle false data s := by
  obtain ⟨hroom, hbuffer, hcycle, members, hmembers, hfile, hdata⟩ := h
  refine ⟨⟨hroom, by simp [hbuffer]⟩, members, [], [], hmembers, hcycle, ?_, ?_⟩
  · rw [hbuffer, hfile]
  · rw [hdata, List.append_nil]

/-- A turn of `flush` ends the member, or comes nearer to its end. -/
theorem flushTurn_spec (hc : Encodes c member Cycle rank) {closing : Bool} {data : Bytes}
    {s : FilterWriter σ} (h : Wrote member Cycle closing data s) :
    (∃ s', flushTurn c s = .leave s' ∧ Flushed member Cycle data s' ∧
      s'.size = (s.ensure (c.estimate s.m_Filter 0)).size) ∨
    ∃ s', flushTurn c s = .next s' ∧ Wrote member Cycle true data s' ∧ s'.m_Buffer = [] ∧
      s'.size = (s.ensure (c.estimate s.m_Filter 0)).size ∧
      (s.m_Buffer = [] → rank s'.m_Filter < rank s.m_Filter) := by
  obtain ⟨hfits, members, taken, out, hmembers, hcycle, hfile, hdata⟩ := h
  obtain ⟨⟨hroom', hfits'⟩, hrequired, -, -⟩ := hfits.ensure (c.estimate s.m_Filter 0)
  obtain ⟨hlen, hopen, hdone⟩ := hc.finish hcycle hrequired
  have hends := hc.ends hcycle hrequired
  unfold flushTurn
  simp only [ensure_m_Filter]
  generalize hinfo : c.finish s.m_Filter (s.ensure (c.estimate s.m_Filter 0)).avail = sInfo at *
  have hbytes : s.file ++ (s.m_Buffer ++ sInfo.out) =
      members.flatMap Prod.snd ++ (out ++ sInfo.out) := by
    rw [← List.append_assoc, hfile, List.append_assoc]
  cases hdone' : sInfo.done with
  | true =>
      left
      obtain ⟨hcycle', hmember⟩ := hdone hdone'
      refine ⟨_, if_pos rfl, ⟨hroom', rfl, hcycle', ?_⟩, rfl⟩
      simp only [drain, ensure_file, ensure_m_Buffer, hbytes]
      rcases hmember with hmember | ⟨htaken, hout⟩
      · refine ⟨members ++ [(taken, out ++ sInfo.out)], ?_, by simp, by simp [hdata]⟩
        intro m hm
        rcases List.mem_append.mp hm with hm | hm
        · exact hmembers m hm
        · rw [List.mem_singleton.mp hm]
          exact hmember
      · exact ⟨members, hmembers, by rw [hout, List.append_nil], by rw [hdata, htaken,
          List.append_nil]⟩
  | false =>
      right
      refine ⟨_, if_neg Bool.false_ne_true, ⟨⟨hroom', Nat.zero_le _⟩, members, taken,
        out ++ sInfo.out, hmembers, hopen hdone', ?_, hdata⟩, rfl, rfl, ?_⟩
      · simp only [drain, ensure_file, ensure_m_Buffer, List.append_nil, hbytes]
      · intro hempty
        have hpos : 0 < (s.ensure (c.estimate s.m_Filter 0)).avail := by
          rw [avail, ensure_m_Buffer, hempty]
          exact hroom'
        exact (hends hpos).resolve_left (by simp [hdone'])

/-- `flush` ends; the first turn may have no room in the destination. -/
theorem flush_returns (hc : Encodes c member Cycle rank) {closing : Bool} {data : Bytes}
    {s : FilterWriter σ} (h : Wrote member Cycle closing data s) :
    ∃ s', Returns (fun n => s.flush c n) s' ∧ Flushed member Cycle data s' ∧
      s.size ≤ s'.size := by
  have hloop : ∀ t : FilterWriter σ, (∃ closing, Wrote member Cycle closing data t) ∧
      t.m_Buffer = [] ∧ s.size ≤ t.size →
        ∃ u, Returns (fun _ => some (flushTurn c t)) u ∧
          u.Ok (fun t => (∃ closing, Wrote member Cycle closing data t) ∧ t.m_Buffer = [] ∧
              s.size ≤ t.size) (fun t => rank t.m_Filter)
            (fun t => Flushed member Cycle data t ∧ s.size ≤ t.size) (rank t.m_Filter) := by
    rintro t ⟨⟨closing, hwrote⟩, hempty, hsize⟩
    refine ⟨_, returns_some _, ?_⟩
    obtain ⟨-, -, -, hle⟩ := hwrote.1.ensure (c.estimate t.m_Filter 0)
    obtain ⟨t', heq, hflushed, hsize'⟩ | ⟨t', heq, hwrote', hempty', hsize', hrank⟩ :=
      flushTurn_spec hc hwrote
    · rw [heq]
      exact ⟨hflushed, hsize.trans (hle.trans hsize'.ge)⟩
    · rw [heq]
      exact ⟨⟨⟨true, hwrote'⟩, hempty', hsize.trans (hle.trans hsize'.ge)⟩, hrank hempty⟩
  obtain ⟨-, -, -, hle⟩ := h.1.ensure (c.estimate s.m_Filter 0)
  obtain ⟨s', heq, hflushed, hsize⟩ | ⟨s', heq, hwrote, hempty, hsize, -⟩ := flushTurn_spec hc h
  · exact ⟨s', loop_leave_of_eq heq, hflushed, hle.trans hsize.ge⟩
  · obtain ⟨t, hreturns, hflushed, hle'⟩ := loop_returns (fun t : FilterWriter σ => rank t.m_Filter)
      hloop ⟨⟨true, hwrote⟩, hempty, hle.trans hsize.ge⟩
    exact ⟨t, loop_next_of_eq heq hreturns, hflushed, hle'⟩

/-- What the filter writes in a turn of `write` goes behind what is in the buffer. -/
theorem take_cycle (hc : Encodes c member Cycle rank) {taken out rest : Bytes}
    {s : FilterWriter σ} (hfits : s.Fits) (hcycle : Cycle false taken out s.m_Filter)
    (hroom : s.m_Buffer.length < s.size) (hne : rest ≠ []) :
    ∃ out', (s.take c rest).2.m_Buffer = s.m_Buffer ++ out' ∧ (s.take c rest).2.file = s.file ∧
      Cycle false (taken ++ rest.take (s.take c rest).1) (out ++ out')
        (s.take c rest).2.m_Filter ∧
      (s.take c rest).2.Fits ∧ s.size ≤ (s.take c rest).2.size ∧
      (0 < (s.take c rest).1 ∨ rank (s.take c rest).2.m_Filter < rank s.m_Filter) := by
  unfold FilterWriter.take
  dsimp only
  generalize hlen : min File.DEFAULT_BUFFER_SIZE rest.length = sInputSize
  have hle : sInputSize ≤ rest.length := hlen ▸ Nat.min_le_right _ _
  have hlength : (rest.take sInputSize).length = sInputSize := List.length_take_of_le hle
  have hsrc : rest.take sInputSize ≠ [] := by
    rw [← List.length_pos_iff, hlength, ← hlen]
    have hpos := List.length_pos_iff.mpr hne
    exact lt_min (by decide) hpos
  obtain ⟨⟨hroom', hfits'⟩, hestimate, havail, hsize⟩ :=
    hfits.ensure (c.estimate s.m_Filter sInputSize)
  have hrequired : c.estimate s.m_Filter (rest.take sInputSize).length ≤
      (s.ensure (c.estimate s.m_Filter sInputSize)).avail := by
    rw [hlength]
    exact hestimate
  have hpos : 0 < (s.ensure (c.estimate s.m_Filter sInputSize)).avail := by
    unfold avail at havail ⊢
    omega
  obtain ⟨hused, hout, hcycle'⟩ := hc.filter hcycle hsrc hrequired hpos
  have htakes := hc.takes hcycle hsrc hrequired hpos
  rw [hlength] at hused
  rw [ensure_m_Filter]
  generalize hinfo : c.filter s.m_Filter (rest.take sInputSize)
    (s.ensure (c.estimate s.m_Filter sInputSize)).avail = sInfo at *
  refine ⟨sInfo.out, ?_, ?_, ?_, ⟨hroom', ?_⟩, hsize, htakes⟩
  · simp only [ensure_m_Buffer]
  · simp only [ensure_file]
  · rw [List.take_take, Nat.min_eq_left hused] at hcycle'
    exact hcycle'
  · simp only [avail, ensure_m_Buffer, List.length_append] at hout hfits' ⊢
    omega

/-- What a turn of `write` takes was written then. -/
theorem take_spec (hc : Encodes c member Cycle rank) {data rest : Bytes} {s : FilterWriter σ}
    (h : Wrote member Cycle false data s) (hroom : s.m_Buffer.length < s.size)
    (hne : rest ≠ []) :
    Wrote member Cycle false (data ++ rest.take (s.take c rest).1) (s.take c rest).2 ∧
      s.size ≤ (s.take c rest).2.size ∧
      (0 < (s.take c rest).1 ∨ rank (s.take c rest).2.m_Filter < rank s.m_Filter) := by
  obtain ⟨hfits, members, taken, out, hmembers, hcycle, hfile, hdata⟩ := h
  obtain ⟨out', hbuffer, hsame, hcycle', hfits', hsize, htakes⟩ :=
    take_cycle hc hfits hcycle hroom hne
  refine ⟨⟨hfits', members, _, _, hmembers, hcycle', ?_, ?_⟩, hsize, htakes⟩
  · rw [hbuffer, hsame, ← List.append_assoc, hfile, List.append_assoc]
  · rw [hdata, List.append_assoc]

/-- `write` comes to a turn, at which `starved` says that the filter has not taken a byte since
the last time that `write` did flush. -/
inductive Comes (c : IFilter σ) (s : FilterWriter σ) (aPtr : Bytes) :
    Bool → FilterWriter σ → Bytes → Prop
  | start : Comes c s aPtr false s aPtr
  | next {starved : Bool} {t : FilterWriter σ} {rest : Bytes} : Comes c s aPtr starved t rest →
      rest ≠ [] → (t.take c rest).2.full = false →
        Comes c s aPtr (starved && (t.take c rest).1 = 0) (t.take c rest).2
          (rest.drop (t.take c rest).1)
  | flush {starved : Bool} {t t' : FilterWriter σ} {rest : Bytes} : Comes c s aPtr starved t rest →
      rest ≠ [] → (t.take c rest).2.full = true →
        Returns (fun n => (t.take c rest).2.flush c n) t' →
          Comes c s aPtr true t' (rest.drop (t.take c rest).1)

/-- No member that `write` begins is ended by it before the filter took a byte. -/
def Feeds (c : IFilter σ) (s : FilterWriter σ) (aPtr : Bytes) : Prop :=
  ∀ t rest, Comes c s aPtr true t rest → rest ≠ [] → (t.take c rest).1 = 0 →
    (t.take c rest).2.full = false

/-- The same for every write of a run. -/
def FeedsAll (c : IFilter σ) (s : FilterWriter σ) : List Call → Prop
  | [] => True
  | .write aPtr :: calls =>
      s.Feeds c aPtr ∧ ∀ s', Returns (fun n => s.write c n aPtr) s' → s'.FeedsAll c calls
  | .flush :: calls => ∀ s', Returns (fun n => s.flush c n) s' → s'.FeedsAll c calls

theorem length_lt_of_full {s : FilterWriter σ} (h : s.Fits) (hfull : s.full = false) :
    s.m_Buffer.length < s.size := by
  have hfits := h.fits
  simp only [full, decide_eq_false_iff_not, not_or] at hfull
  omega

/-- A turn takes a byte, or does flush for the first time since a byte was taken, or brings the
filter nearer to taking one. -/
def turnRank (rank : σ → ℕ) (starved : Bool) (t : FilterWriter σ) (rest : Bytes) : ℕ ×ₗ ℕ ×ₗ ℕ :=
  toLex (rest.length, toLex (if starved then 0 else 1, rank t.m_Filter))

theorem turnRank_lt_of_takes {starved starved' : Bool} {t t' : FilterWriter σ} {rest : Bytes}
    {used : ℕ} (hrest : rest ≠ []) (hpos : 0 < used) :
    turnRank rank starved' t' (rest.drop used) < turnRank rank starved t rest := by
  have hne := List.length_pos_iff.mpr hrest
  rw [turnRank, turnRank, Prod.Lex.toLex_lt_toLex, List.length_drop]
  exact .inl (by dsimp only; omega)

theorem turnRank_lt_of_flush {t t' : FilterWriter σ} {rest : Bytes} :
    turnRank rank true t' rest < turnRank rank false t rest := by
  rw [turnRank, turnRank, Prod.Lex.toLex_lt_toLex, Prod.Lex.toLex_lt_toLex]
  exact .inr ⟨rfl, .inl Nat.zero_lt_one⟩

theorem turnRank_lt_of_rank {starved : Bool} {t t' : FilterWriter σ} {rest : Bytes}
    (hrank : rank t'.m_Filter < rank t.m_Filter) :
    turnRank rank starved t' rest < turnRank rank starved t rest := by
  rw [turnRank, turnRank, Prod.Lex.toLex_lt_toLex, Prod.Lex.toLex_lt_toLex]
  exact .inr ⟨rfl, .inr ⟨rfl, hrank⟩⟩

/-- With a filter that is fed, `write` ends. -/
theorem writeLoop_returns (hc : Encodes c member Cycle rank) {data aPtr : Bytes}
    {s : FilterWriter σ} (hfeeds : s.Feeds c aPtr) {starved : Bool} {t : FilterWriter σ}
    {rest : Bytes} (hcomes : Comes c s aPtr starved t rest)
    (h : Wrote member Cycle false data t) (hroom : t.m_Buffer.length < t.size) :
    ∃ t', Returns (fun n => loop (writeTurn c) n (t, rest)) t' ∧
      Wrote member Cycle false (data ++ rest) t' ∧ t'.m_Buffer.length < t'.size ∧
      t.size ≤ t'.size := by
  induction hk : turnRank rank starved t rest using WellFoundedLT.induction
    generalizing starved t rest data with
  | ind k ih =>
      subst hk
      by_cases hrest : rest = []
      · refine ⟨t, loop_leave ?_, ?_, hroom, le_rfl⟩
        · simp only [writeTurn, if_pos hrest]
          exact returns_some _
        · rw [hrest, List.append_nil]
          exact h
      · have hturn : ∀ n, writeTurn c n (t, rest) =
            if (t.take c rest).2.full then ((t.take c rest).2.flush c n).map fun u =>
              .next (u, rest.drop (t.take c rest).1)
            else some (.next ((t.take c rest).2, rest.drop (t.take c rest).1)) :=
          fun n => if_neg hrest
        obtain ⟨hwrote, hsize, htakes⟩ := take_spec hc h hroom hrest
        have hdata : data ++ rest =
            data ++ rest.take (t.take c rest).1 ++ rest.drop (t.take c rest).1 := by
          rw [List.append_assoc, List.take_append_drop]
        cases hfull : (t.take c rest).2.full with
        | true =>
            obtain ⟨u, hreturns, hflushed, hsize'⟩ := flush_returns hc hwrote
            have hnext := Comes.flush hcomes hrest hfull hreturns
            have hlt : turnRank rank true u (rest.drop (t.take c rest).1) <
                turnRank rank starved t rest := by
              rcases Nat.eq_zero_or_pos (t.take c rest).1 with hzero | hpos
              · cases starved with
                | true =>
                    rw [hfeeds t rest hcomes hrest hzero] at hfull
                    cases hfull
                | false =>
                    rw [hzero, List.drop_zero]
                    exact turnRank_lt_of_flush
              · exact turnRank_lt_of_takes hrest hpos
            obtain ⟨t', hloop, hwrote', hroom', hle⟩ :=
              ih _ hlt hnext hflushed.wrote hflushed.length_lt rfl
            have hle' := hsize.trans (hsize'.trans hle)
            refine ⟨t', loop_next ?_ hloop, hdata ▸ hwrote', hroom', hle'⟩
            simp only [hturn, hfull, if_true]
            exact hreturns.map _
        | false =>
            have hroom' := length_lt_of_full hwrote.1 hfull
            have hnext := Comes.next hcomes hrest hfull
            have hlt : turnRank rank (starved && (t.take c rest).1 = 0) (t.take c rest).2
                (rest.drop (t.take c rest).1) < turnRank rank starved t rest := by
              rcases Nat.eq_zero_or_pos (t.take c rest).1 with hzero | hpos
              · rw [hzero, List.drop_zero, decide_eq_true rfl, Bool.and_true]
                exact turnRank_lt_of_rank (htakes.resolve_left (by omega))
              · exact turnRank_lt_of_takes hrest hpos
            obtain ⟨t', hloop, hwrote', hroom'', hle⟩ := ih _ hlt hnext hwrote hroom' rfl
            refine ⟨t', loop_next ?_ hloop, hdata ▸ hwrote', hroom'', hsize.trans hle⟩
            simp only [hturn, hfull, Bool.false_eq_true, if_false]
            exact returns_some _

/-- Every run of calls ends. -/
theorem run_returns (hc : Encodes c member Cycle rank) {data : Bytes} {s : FilterWriter σ}
    {calls : List Call} (hfeeds : s.FeedsAll c calls) (h : Wrote member Cycle false data s)
    (hroom : s.m_Buffer.length < s.size) :
    ∃ s', Returns (fun n => s.run c n calls) s' ∧
      Wrote member Cycle false (data ++ calls.flatMap Call.bytes) s' := by
  induction calls generalizing s data with
  | nil => exact ⟨s, returns_some _, by simpa using h⟩
  | cons x calls ih =>
      cases x with
      | write aPtr =>
          obtain ⟨hfeeds, hrest⟩ := hfeeds
          obtain ⟨t, hwrite, hwrote, hroom', -⟩ := writeLoop_returns hc hfeeds .start h hroom
          obtain ⟨s', hrun, hwrote'⟩ := ih (hrest t hwrite) hwrote hroom'
          refine ⟨s', hwrite.bind hrun, ?_⟩
          rw [List.flatMap_cons, Call.bytes, ← List.append_assoc]
          exact hwrote'
      | flush =>
          obtain ⟨t, hflush, hflushed, -⟩ := flush_returns hc h
          obtain ⟨s', hrun, hwrote'⟩ := ih (hfeeds t hflush) hflushed.wrote hflushed.length_lt
          refine ⟨s', hflush.bind hrun, ?_⟩
          rw [List.flatMap_cons, Call.bytes, List.nil_append]
          exact hwrote'

/-- In a buffer that has room for all that a filter writes before it takes the first byte of a
member, no member is ended before. -/
theorem feeds_of_head (hc : Encodes c member Cycle rank) {head : ℕ}
    (hhead : ∀ {out s}, Cycle false [] out s → out.length < head)
    (hdefault : head ≤ File.DEFAULT_BUFFER_SIZE) {data : Bytes} {s : FilterWriter σ}
    (h : Wrote member Cycle false data s) (hroom : s.m_Buffer.length < s.size)
    (hsize : head ≤ s.size) (aPtr : Bytes) : s.Feeds c aPtr := by
  have hcomes : ∀ {starved : Bool} {t : FilterWriter σ} {rest : Bytes},
      Comes c s aPtr starved t rest → head ≤ t.size ∧ t.m_Buffer.length < t.size ∧
        (∃ data, Wrote member Cycle false data t) ∧
        (starved = true → Cycle false [] t.m_Buffer t.m_Filter) := by
    intro starved t rest hcomes
    induction hcomes with
    | start => exact ⟨hsize, hroom, ⟨data, h⟩, fun hstarved => absurd hstarved (by simp)⟩
    | @next starved t rest _ hne hfull ih =>
        obtain ⟨hsize, hroom, ⟨data, hwrote⟩, hcycle⟩ := ih
        obtain ⟨hwrote', hle, -⟩ := take_spec hc hwrote hroom hne
        refine ⟨hsize.trans hle, length_lt_of_full hwrote'.1 hfull, ⟨_, hwrote'⟩, ?_⟩
        intro hstarved
        rw [Bool.and_eq_true, decide_eq_true_eq] at hstarved
        obtain ⟨out', hbuffer, -, hcycle', -⟩ :=
          take_cycle hc hwrote.1 (hcycle hstarved.1) hroom hne
        rw [hstarved.2, List.take_zero, List.append_nil] at hcycle'
        rw [hbuffer]
        exact hcycle'
    | @flush starved t t' rest _ hne hfull hreturns ih =>
        obtain ⟨hsize, hroom, ⟨data, hwrote⟩, -⟩ := ih
        obtain ⟨hwrote', hle, -⟩ := take_spec hc hwrote hroom hne
        obtain ⟨u, hflush, hflushed, hle'⟩ := flush_returns hc hwrote'
        obtain rfl := hreturns.unique hflush
        have hsize' := hsize.trans (hle.trans hle')
        refine ⟨hsize', hflushed.length_lt, ⟨_, hflushed.wrote⟩, fun _ => ?_⟩
        rw [hflushed.buffer]
        exact hflushed.cycle
  intro t rest htrue hne hzero
  obtain ⟨hsize, hroom, ⟨data, hwrote⟩, hcycle⟩ := hcomes htrue
  obtain ⟨out', hbuffer, -, hcycle', -, hle, -⟩ := take_cycle hc hwrote.1 (hcycle rfl) hroom hne
  rw [hzero, List.take_zero, List.append_nil, ← hbuffer] at hcycle'
  have hlt := hhead hcycle'
  simp only [full, decide_eq_false_iff_not, not_or]
  omega

theorem feedsAll_of_head (hc : Encodes c member Cycle rank) {head : ℕ}
    (hhead : ∀ {out s}, Cycle false [] out s → out.length < head)
    (hdefault : head ≤ File.DEFAULT_BUFFER_SIZE) {data : Bytes} {s : FilterWriter σ}
    (h : Wrote member Cycle false data s) (hroom : s.m_Buffer.length < s.size)
    (hsize : head ≤ s.size) (calls : List Call) : s.FeedsAll c calls := by
  induction calls generalizing s data with
  | nil => trivial
  | cons x calls ih =>
      cases x with
      | write aPtr =>
          have hfeeds := feeds_of_head hc hhead hdefault h hroom hsize aPtr
          refine ⟨hfeeds, fun s' hreturns => ?_⟩
          obtain ⟨t, hwrite, hwrote, hroom', hle⟩ := writeLoop_returns hc hfeeds .start h hroom
          obtain rfl := hreturns.unique hwrite
          exact ih hwrote hroom' (hsize.trans hle)
      | flush =>
          intro s' hreturns
          obtain ⟨t, hflush, hflushed, hle⟩ := flush_returns hc h
          obtain rfl := hreturns.unique hflush
          exact ih hflushed.wrote hflushed.length_lt (hsize.trans hle)

/-- The file has the members of what was written. -/
theorem contents_returns (hc : Encodes c member Cycle rank) {s₀ : σ}
    (hs₀ : Cycle false [] [] s₀) {aLen : ℕ} (hlen : 0 < aLen) {calls : List Call}
    (hfeeds : ({ m_Filter := s₀, size := aLen } : FilterWriter σ).FeedsAll c calls) :
    ∃ members : List (Bytes × Bytes), (∀ m ∈ members, member m.1 m.2) ∧
      calls.flatMap Call.bytes = members.flatMap Prod.fst ∧
      Returns (fun n => ({ m_Filter := s₀, size := aLen } : FilterWriter σ).contents c n calls)
        (members.flatMap Prod.snd) := by
  have hstart : Flushed member Cycle [] ({ m_Filter := s₀, size := aLen } : FilterWriter σ) :=
    ⟨hlen, rfl, hs₀, [], fun m hm => absurd hm List.not_mem_nil, rfl, rfl⟩
  obtain ⟨s, hrun, hwrote⟩ := run_returns hc hfeeds hstart.wrote hlen
  obtain ⟨t, hflush, hflushed, -⟩ := flush_returns hc hwrote
  obtain ⟨members, hmembers, hfile, hdata⟩ := hflushed.members
  refine ⟨members, hmembers, hdata, ?_⟩
  rw [← hfile]
  exact hrun.bind (hflush.map file)

end

end FilterWriter

end Stuff.FileFilter
