import Stuff.ArchiveGzip
import Stuff.FileFilter

/-!
# What a filter wrote is read back

The file of a `FilterWriter` has the members of what was written. A `FilterReader` gives this
back however it is asked for it. But a write ends only if the filter is fed: when a buffer is so
small that it is full before a byte was taken, `write` ends one empty member after the other.
-/
namespace Stuff.FileFilter
open Archive FileReader Loops MachineWords

/-! ## Reading -/

namespace FilterReader

section
variable {τ : Type*} {c : IFilter τ} {member : Bytes → Bytes → Prop}
variable {At : Bytes → Bytes → τ → Prop} {s₀ : τ}

/-- The reader has still to give `todo`. -/
structure Gives (At : Bytes → Bytes → τ → Prop) (todo : Bytes) (s : FilterReader τ) : Prop where
  buf : s.buf.Ok
  at_ : At s.buf.pending todo s.m_Filter
  eof : s.m_Eof = false

/-- The same, also when there is nothing left. -/
def Holds (At : Bytes → Bytes → τ → Prop) (todo : Bytes) (s : FilterReader τ) : Prop :=
  s.Gives At todo ∨ s.m_Eof = true ∧ todo = []

/-- A turn of `read` takes or gives something, or finds the end. -/
theorem readTurn_spec (hc : Decodes c member At s₀) {aLen : ℕ} {todo acc : Bytes}
    {s : FilterReader τ} (h : s.Gives At todo) (hlt : acc.length < aLen) :
    (todo = [] ∧ ∃ s', readTurn c aLen (s, acc) = .leave (acc, s') ∧ s'.m_Eof = true) ∨
    ∃ out todo' s', readTurn c aLen (s, acc) = .next (s', acc ++ out) ∧ todo = out ++ todo' ∧
      acc.length + out.length ≤ aLen ∧ s'.Gives At todo' ∧
      s'.buf.pending.length + todo'.length < s.buf.pending.length + todo.length := by
  obtain ⟨hok, hat, heof⟩ := h
  obtain ⟨b, hb, hok', hpending, hempty⟩ := hok.exists_refilled
  unfold readTurn
  simp only [if_pos hlt, hb]
  rcases Nat.eq_zero_or_pos b.avail with hzero | hpos
  · left
    have hnil : b.pending = [] := by
      apply hok'.pending_of_eof
      rw [BufReader.eof, hzero, hempty hzero]
      rfl
    rw [← hpending, hnil] at hat
    have htodo := hc.last hat
    subst htodo
    obtain ⟨hout, hdone⟩ := hc.finish hat (show 0 < aLen - acc.length by omega)
    rw [if_neg (by omega), if_pos (hempty hzero), if_pos hdone, hout, List.append_nil]
    exact ⟨rfl, _, rfl, rfl⟩
  · right
    have hsrc : b.buffer.drop b.pos ≠ [] := by
      rw [← List.length_pos_iff, List.length_drop]
      exact hpos
    rw [← hpending] at hat ⊢
    obtain ⟨hused, hout, hprogress, todo', htodo, hat'⟩ :=
      hc.filter hat hsrc (show 0 < aLen - acc.length by omega)
    rw [if_pos hpos]
    generalize hinfo : c.filter s.m_Filter (b.buffer.drop b.pos) (aLen - acc.length) = sInfo at *
    rw [List.length_drop] at hused
    obtain ⟨hcopy, -, -⟩ := hok'.copy hused
    refine ⟨sInfo.out, todo', _, rfl, htodo, by omega, ⟨hcopy, ?_, heof⟩, ?_⟩
    · rw [List.drop_drop] at hat'
      exact hat'
    · rw [htodo]
      exact hok'.length_lt hused hprogress

/-- `read` gives what it was asked for, if there is so much. -/
theorem read_returns (hc : Decodes c member At s₀) {todo : Bytes} {s : FilterReader τ}
    (h : s.Holds At todo) (aLen : ℕ) :
    ∃ s', Returns (fun n => s.read c n aLen) (todo.take aLen, s') ∧
      s'.Holds At (todo.drop aLen) ∧
      (todo.length < aLen ∨ s.m_Eof = true → s'.m_Eof = true) := by
  rcases h with h | ⟨heof, rfl⟩
  · have hturn : ∀ t : FilterReader τ × Bytes, (t.2 = todo.take t.2.length ∧ t.2.length ≤ aLen ∧
        t.1.Gives At (todo.drop t.2.length)) →
          ∃ u, Returns (fun _ => some (readTurn c aLen t)) u ∧
            u.Ok (fun t => t.2 = todo.take t.2.length ∧ t.2.length ≤ aLen ∧
                t.1.Gives At (todo.drop t.2.length))
              (fun t => t.1.buf.pending.length + (todo.drop t.2.length).length)
              (fun r => r.1 = todo.take aLen ∧ r.2.Holds At (todo.drop aLen) ∧
                (todo.length < aLen → r.2.m_Eof = true))
              (t.1.buf.pending.length + (todo.drop t.2.length).length) := by
      rintro ⟨t, acc⟩ ⟨hacc, hle, hgives⟩
      refine ⟨_, returns_some _, ?_⟩
      dsimp only at hacc hle hgives ⊢
      by_cases hlt : acc.length < aLen
      · obtain ⟨hnil, t', heq, heof⟩ | ⟨out, todo', t', heq, htodo, hle', hgives', hrank⟩ :=
          readTurn_spec hc hgives hlt
        · rw [heq]
          have hlen := List.drop_eq_nil_iff.mp hnil
          rw [List.take_of_length_le hlen] at hacc
          refine ⟨?_, .inr ⟨heof, List.drop_eq_nil_of_le (by omega)⟩, fun _ => heof⟩
          rw [List.take_of_length_le (show todo.length ≤ aLen by omega)]
          exact hacc
        · rw [heq]
          have htodo' : todo' = todo.drop (acc ++ out).length := by
            rw [List.length_append, ← List.drop_drop, htodo, List.drop_left]
          refine ⟨⟨?_, by simpa using hle', htodo' ▸ hgives'⟩, ?_⟩
          · rw [List.length_append, List.take_add, ← hacc, htodo, List.take_left]
          · dsimp only
            rw [← htodo']
            exact hrank
      · obtain rfl : acc.length = aLen := by omega
        unfold readTurn
        rw [if_neg (by simp)]
        refine ⟨hacc, .inl hgives, ?_⟩
        intro hshort
        rw [List.take_of_length_le hshort.le] at hacc
        rw [hacc] at hshort
        exact absurd hshort (lt_irrefl _)
    have hstart : (s, ([] : Bytes)).2 = todo.take (s, ([] : Bytes)).2.length ∧
        (s, ([] : Bytes)).2.length ≤ aLen ∧
        (s, ([] : Bytes)).1.Gives At (todo.drop (s, ([] : Bytes)).2.length) :=
      ⟨rfl, Nat.zero_le _, h⟩
    obtain ⟨⟨bytes, s'⟩, hloop, rfl, hholds, hshort⟩ := loop_returns
      (fun t : FilterReader τ × Bytes => t.1.buf.pending.length + (todo.drop t.2.length).length)
      hturn hstart
    refine ⟨s', ?_, hholds, fun hend => hshort (hend.resolve_right (by simp [h.eof]))⟩
    simp only [FilterReader.read, h.eof, Bool.false_eq_true, if_false]
    exact hloop
  · refine ⟨s, ?_, .inr ⟨heof, List.drop_nil⟩, fun _ => heof⟩
    simp only [FilterReader.read, heof, if_true, List.take_nil]
    exact returns_some _

theorem reads_returns (hc : Decodes c member At s₀) {todo : Bytes} {s : FilterReader τ}
    (h : s.Holds At todo) (lens : List ℕ) :
    ∃ pieces s', Returns (fun n => s.reads c n lens) (pieces, s') ∧
      pieces.flatten = todo.take lens.sum ∧ s'.Holds At (todo.drop lens.sum) ∧
      (todo.length < lens.sum ∨ s.m_Eof = true → s'.m_Eof = true) := by
  induction lens generalizing s todo with
  | nil =>
      exact ⟨[], s, returns_some _, rfl, h, fun hend => hend.resolve_left (Nat.not_lt_zero _)⟩
  | cons aLen lens ih =>
      obtain ⟨t, hread, hholds, hshort⟩ := read_returns hc h aLen
      obtain ⟨pieces, s', hreads, hpieces, hholds', hshort'⟩ := ih hholds
      refine ⟨todo.take aLen :: pieces, s', hread.bind (hreads.map _), ?_, ?_, ?_⟩
      · rw [List.flatten_cons, hpieces, List.sum_cons, List.take_add]
      · rw [List.sum_cons, ← List.drop_drop]
        exact hholds'
      · intro hend
        rw [List.sum_cons] at hend
        apply hshort'
        by_cases hlt : todo.length < aLen
        · exact .inr (hshort (.inl hlt))
        · rcases hend with hlt' | heof
          · rw [List.length_drop]
            exact .inl (by omega)
          · exact .inr (hshort (.inr heof))

end

end FilterReader

/-! ## Reading what was written -/

/-- A reader that is at the start of a file. -/
def FilterReader.construct {τ : Type*} (s₀ : τ) (file : Bytes) (sizes : List ℕ) (eager : Bool)
    (aLen : ℕ) : FilterReader τ :=
  { m_Filter := s₀, buf := BufReader.construct file sizes eager aLen }

/-- When no member that a write begins is ended by it before the filter took a byte, all loops
end, and what was written is read back up to the end. -/
theorem filtered_file {σ τ : Type*} {enc : IFilter σ} {dec : IFilter τ}
    {member : Bytes → Bytes → Prop} {Cycle : Bool → Bytes → Bytes → σ → Prop} {rank : σ → ℕ}
    {At : Bytes → Bytes → τ → Prop} {s₀ : σ} {t₀ : τ} (henc : Encodes enc member Cycle rank)
    (hs₀ : Cycle false [] [] s₀) (hdec : Decodes dec member At t₀) {aLen aLen' : ℕ}
    (hlen : 0 < aLen) (hlen' : 0 < aLen') {calls : List Call}
    (hfeeds : ({ m_Filter := s₀, size := aLen } : FilterWriter σ).FeedsAll enc calls)
    (sizes : List ℕ) (eager : Bool) (lens : List ℕ) :
    ∃ file pieces r,
      Returns (fun n => ({ m_Filter := s₀, size := aLen } : FilterWriter σ).contents enc n calls)
        file ∧
      Returns (fun n => (FilterReader.construct t₀ file sizes eager aLen').reads dec n lens)
        (pieces, r) ∧
      pieces.flatten = (calls.flatMap Call.bytes).take lens.sum ∧
      ((calls.flatMap Call.bytes).length < lens.sum → r.m_Eof = true) ∧
      (r.m_Eof = true → (calls.flatMap Call.bytes).length ≤ lens.sum) := by
  obtain ⟨members, hmembers, hdata, hwritten⟩ :=
    FilterWriter.contents_returns henc hs₀ hlen hfeeds
  have hgives : (FilterReader.construct t₀ (members.flatMap Prod.snd) sizes eager aLen').Holds At
      (members.flatMap Prod.fst) :=
    .inl ⟨BufReader.construct_ok _ _ _ hlen', hdec.start members hmembers, rfl⟩
  obtain ⟨pieces, r, hreads, hpieces, hholds, hshort⟩ :=
    FilterReader.reads_returns hdec hgives lens
  rw [hdata]
  refine ⟨_, pieces, r, hwritten, hreads, hpieces, fun hlt => hshort (.inl hlt), ?_⟩
  intro heof
  rcases hholds with hmore | ⟨-, hnil⟩
  · rw [hmore.eof] at heof
    cases heof
  · exact List.drop_eq_nil_iff.mp hnil

/-! ## `WriteGzip` -/

/-- A buffer of three bytes, which is full again and again. -/
theorem filtered_file_gzip :
    ∃ file pieces r,
      Returns (fun n => ({ m_Filter := {}, size := 3 } : FilterWriter WriteGzip).contents writeGzip
        n [.write [0x68, 0x65], .flush, .write [0x6c, 0x6c, 0x6f]]) file ∧
      Returns (fun n => (FilterReader.construct (.header 1) file [0, 4] false 3).reads readGzip n
        [2, 7]) (pieces, r) ∧
      pieces.flatten = [0x68, 0x65, 0x6c, 0x6c, 0x6f] ∧ r.m_Eof = true := by
  have hstart : FilterWriter.Flushed IsGzipMember WriteGzip.Cycle []
      ({ m_Filter := {}, size := 3 } : FilterWriter WriteGzip) :=
    ⟨Nat.zero_lt_succ 2, rfl, .start, [], by simp, rfl, rfl⟩
  have hfeeds := FilterWriter.feedsAll_of_head writeGzip_encodes (fun h => h.length_out)
    (by decide) hstart.wrote hstart.length_lt le_rfl
    [.write [0x68, 0x65], .flush, .write [0x6c, 0x6c, 0x6f]]
  obtain ⟨file, pieces, r, hfile, hreads, hpieces, hend, -⟩ :=
    filtered_file writeGzip_encodes .start readGzip_decodes (Nat.zero_lt_succ 2)
      (Nat.zero_lt_succ 2) hfeeds [0, 4] false [2, 7]
  exact ⟨file, pieces, r, hfile, hreads, hpieces, hend (by decide)⟩

namespace FilterWriter

/-- Where nothing is required to finish, `flush` keeps the size of the buffer. -/
theorem flush_writeGzip_size {data : Bytes} {s t : FilterWriter WriteGzip} {closing : Bool} {n : ℕ}
    (h : Wrote IsGzipMember WriteGzip.Cycle closing data s)
    (hflush : s.flush writeGzip n = some t) :
    t.size = s.size ∧ Flushed IsGzipMember WriteGzip.Cycle data t := by
  have hensure : ∀ u : FilterWriter WriteGzip, u.ensure (writeGzip.estimate u.m_Filter 0) = u :=
    fun u => if_neg (fun hlt => absurd hlt.1 (lt_irrefl 0))
  refine of_loop_eq_some (Q := fun u => u.size = s.size ∧
      Flushed IsGzipMember WriteGzip.Cycle data u)
    (I := fun u => u.size = s.size ∧ ∃ closing,
      Wrote IsGzipMember WriteGzip.Cycle closing data u) ?_ ?_
    ⟨rfl, closing, h⟩ hflush
  · rintro - u u' ⟨hsize, closing, hwrote⟩ hturn
    obtain ⟨v, heq, -⟩ | ⟨v, heq, hwrote', -, hsize', -⟩ := flushTurn_spec writeGzip_encodes hwrote
    · rw [heq] at hturn
      cases hturn
    · rw [heq] at hturn
      cases hturn
      rw [hensure] at hsize'
      exact ⟨hsize'.trans hsize, true, hwrote'⟩
  · rintro - u u' ⟨hsize, closing, hwrote⟩ hturn
    obtain ⟨v, heq, hflushed, hsize'⟩ | ⟨v, heq, -⟩ := flushTurn_spec writeGzip_encodes hwrote
    · rw [heq] at hturn
      cases hturn
      rw [hensure] at hsize'
      exact ⟨hsize'.trans hsize, hflushed⟩
    · rw [heq] at hturn
      cases hturn

/-- One byte of the header fills a buffer of one byte. -/
theorem take_one {s : FilterWriter WriteGzip} (hbuffer : s.m_Buffer = []) (hsize : s.size = 1)
    (hcycle : WriteGzip.Cycle false [] [] s.m_Filter) (x : UInt8) :
    (s.take writeGzip [x]).1 = 0 ∧ (s.take writeGzip [x]).2.full = true ∧
      (s.take writeGzip [x]).2.size = 1 := by
  obtain ⟨pending, hs, hstream, -⟩ := hcycle.begin
  have hheader : pending.length = 2 := congrArg List.length hstream
  have havail : s.avail = 1 := by rw [avail, hbuffer, hsize, List.length_nil]
  have hensure : s.ensure 1 = s := if_neg (fun hlt => absurd hlt.2 (by omega))
  have hfilter : s.m_Filter.filter [x] 1 =
      ⟨0, pending.take 1, WriteGzip.streaming false [] (pending.drop 1)⟩ := by
    rcases @WriteGzip.filter_streaming [] pending [x] 1 s.m_Filter (List.cons_ne_nil x []) hs with
      ⟨hle, -⟩ | ⟨-, heq⟩
    · omega
    · exact heq
  have htake : s.take writeGzip [x] =
      (0, { s with
        m_Filter := WriteGzip.streaming false [] (pending.drop 1)
        m_Buffer := pending.take 1 }) := by
    have hmin : min File.DEFAULT_BUFFER_SIZE [x].length = 1 := rfl
    simp only [FilterWriter.take, hmin, writeGzip, hensure, List.take_succ_cons, List.take_nil,
      havail, hfilter, hbuffer, List.nil_append]
  rw [htake]
  refine ⟨rfl, ?_, hsize⟩
  simp [full, hsize, hheader]

/-- With one byte of room a turn writes an empty member, and takes nothing. -/
theorem writeTurn_starved {data : Bytes} {s : FilterWriter WriteGzip} {x : UInt8} {n : ℕ}
    {u : Turn (FilterWriter WriteGzip × Bytes) (FilterWriter WriteGzip)}
    (h : Flushed IsGzipMember WriteGzip.Cycle data s) (hsize : s.size = 1)
    (hturn : writeTurn writeGzip n (s, [x]) = some u) :
    ∃ t, u = .next (t, [x]) ∧ t.size = 1 ∧ Flushed IsGzipMember WriteGzip.Cycle data t := by
  obtain ⟨hzero, hfull, hsize'⟩ := take_one h.buffer hsize h.cycle x
  obtain ⟨hwrote, -, -⟩ :=
    take_spec writeGzip_encodes h.wrote h.length_lt (List.cons_ne_nil x [])
  rw [hzero, List.take_zero, List.append_nil] at hwrote
  have hnext : writeTurn writeGzip n (s, [x]) =
      ((s.take writeGzip [x]).2.flush writeGzip n).map fun t => .next (t, [x]) := by
    unfold writeTurn
    rw [if_neg (List.cons_ne_nil x [])]
    dsimp only
    rw [if_pos hfull, hzero, List.drop_zero]
  rw [hnext, Option.map_eq_some_iff] at hturn
  obtain ⟨t, hflush, rfl⟩ := hturn
  obtain ⟨hkeep, hflushed⟩ := flush_writeGzip_size hwrote hflush
  exact ⟨t, rfl, hkeep.trans hsize', hflushed⟩

end FilterWriter

/-- With a buffer of one byte no write of one byte ends: the byte of the header fills the buffer,
and the next member starts with the header again. -/
theorem one_byte_spins :
    Encodes writeGzip IsGzipMember WriteGzip.Cycle WriteGzip.rank ∧
      WriteGzip.Cycle false [] [] {} ∧
      Decodes readGzip IsGzipMember ReadGzip.At (.header 1) ∧
      ¬ ∃ file, Returns (fun n => ({ m_Filter := {}, size := 1 } :
        FilterWriter WriteGzip).contents writeGzip n [.write [0x61]]) file := by
  refine ⟨writeGzip_encodes, .start, readGzip_decodes, ?_⟩
  rintro ⟨file, n, hreturns⟩
  obtain ⟨s, hrun, -⟩ := Option.bind_eq_some_iff.mp (hreturns n le_rfl)
  obtain ⟨t, hwrite, -⟩ := Option.bind_eq_some_iff.mp hrun
  have hstart : FilterWriter.Flushed IsGzipMember WriteGzip.Cycle []
      ({ m_Filter := {}, size := 1 } : FilterWriter WriteGzip) :=
    ⟨Nat.zero_lt_one, rfl, .start, [], by simp, rfl, rfl⟩
  refine of_loop_eq_some (Q := fun _ => False) (I := fun u => u.2 = [0x61] ∧ u.1.size = 1 ∧
    FilterWriter.Flushed IsGzipMember WriteGzip.Cycle [] u.1) ?_ ?_
    ⟨rfl, rfl, hstart⟩ hwrite
  · rintro m ⟨u, -⟩ u' ⟨rfl, hsize, hflushed⟩ hturn
    obtain ⟨v, hnext, hsize', hflushed'⟩ := FilterWriter.writeTurn_starved hflushed hsize hturn
    cases hnext
    exact ⟨rfl, hsize', hflushed'⟩
  · rintro m ⟨u, -⟩ u' ⟨rfl, hsize, hflushed⟩ hturn
    obtain ⟨v, hnext, -⟩ := FilterWriter.writeTurn_starved hflushed hsize hturn
    cases hnext

end Stuff.FileFilter
