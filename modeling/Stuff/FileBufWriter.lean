import Stuff.FileWriter
import Stuff.Loops

/-!
# A buffer in front of a writer

`File::BufWriter` copies what it is given into a buffer and hands this on when it is full. The
writer behind it gives nothing back, so as long as it does not throw, all that counts are the calls
that it gets. What `File.BufWriter` does in front of such a writer is the same without the bytes
behind `m_End`.
-/
namespace Stuff.FileBufWriter
open CallTrees Loops MachineWords
open File (Op IWriter)

/-- `m_Writer` are the calls of the writer behind. -/
structure BufWriter where
  m_Writer : List Op := []
  m_Buffer : Bytes
  m_End : ℕ := 0
deriving DecidableEq, Repr

/-- The constructor. -/
def start (aLen : ℕ) : BufWriter := { m_Buffer := List.replicate aLen 0x20 }

/-- The bytes in the calls. -/
def bytes : List Op → Bytes
  | [] => []
  | .write aData :: ops => aData ++ bytes ops
  | _ :: ops => bytes ops

/-- A part of a buffer is overwritten. -/
def memcpy (aBuffer : Bytes) (aPos : ℕ) (aData : Bytes) : Bytes :=
  aBuffer.take aPos ++ aData ++ aBuffer.drop (aPos + aData.length)

namespace BufWriter

def avail (b : BufWriter) : ℕ := b.m_Buffer.length - b.m_End

def under (b : BufWriter) (op : Op) : BufWriter := { b with m_Writer := b.m_Writer ++ [op] }

def flush (b : BufWriter) : BufWriter :=
  if b.m_End = 0 then b
  else { b.under (.write (b.m_Buffer.take b.m_End)) with m_End := 0 }.under .flush

def fill (b : BufWriter) (aData : Bytes) : BufWriter :=
  { b with
    m_Buffer := memcpy b.m_Buffer b.m_End aData
    m_End := b.m_End + aData.length }

/-- A turn of the loop of `write`, with `sUsed`. -/
def turn (aData : Bytes) (s : BufWriter × ℕ) : Turn (BufWriter × ℕ) BufWriter :=
  if s.2 < aData.length then
    let sMin := min (aData.length - s.2) s.1.avail
    let b := s.1.fill ((aData.drop s.2).take sMin)
    .next (if b.m_End = b.m_Buffer.length then b.flush else b, s.2 + sMin)
  else .leave s.1

def write (n : ℕ) (b : BufWriter) (aData : Bytes) : Option BufWriter :=
  loop (fun _ s => some (turn aData s)) n (b, 0)

def sync (b : BufWriter) : BufWriter := b.flush.under .sync

def close (b : BufWriter) : BufWriter := b.flush.under .close

def op (n : ℕ) (b : BufWriter) : Op → Option BufWriter
  | .write aData => b.write n aData
  | .flush => some b.flush
  | .sync => some b.sync
  | .close => some b.close

/-- One call after the other. -/
def calls (n : ℕ) (b : BufWriter) : List Op → Option BufWriter
  | [] => some b
  | o :: ops => (b.op n o).bind fun b => b.calls n ops

/-- What the writer behind has got. -/
def received (b : BufWriter) : Bytes := bytes b.m_Writer

def pending (b : BufWriter) : Bytes := b.m_Buffer.take b.m_End

end BufWriter

/-- All calls but `write` hand on what is in the buffer. -/
def drains : Op → Bool
  | .write _ => false
  | _ => true

namespace BufWriter

/-- Nothing is lost, and there is room in the buffer. -/
structure Transparent (aLen : ℕ) (written : Bytes) (b : BufWriter) : Prop where
  total : b.received ++ b.pending = written
  room : b.m_End < b.m_Buffer.length
  length : b.m_Buffer.length = aLen

/-! ## Calls -/

theorem bytes_append (ops ops' : List Op) : bytes (ops ++ ops') = bytes ops ++ bytes ops' := by
  induction ops with
  | nil => rfl
  | cons o ops ih => cases o <;> simp [bytes, ih]

theorem bytes_of_drains {o : Op} (h : drains o) : bytes [o] = [] := by
  cases o with
  | write aData => cases h
  | flush => rfl
  | sync => rfl
  | close => rfl

theorem received_under (b : BufWriter) (o : Op) :
    (b.under o).received = b.received ++ bytes [o] := bytes_append b.m_Writer [o]

theorem pending_of_zero {b : BufWriter} (h : b.m_End = 0) : b.pending = [] := by
  rw [pending, h, List.take_zero]

/-- Also when the buffer is full. -/
theorem flush_drained (b : BufWriter) :
    b.flush.m_End = 0 ∧ b.flush.m_Buffer = b.m_Buffer ∧
      b.flush.received = b.received ++ b.pending := by
  unfold flush
  split
  case isTrue hzero =>
    refine ⟨hzero, rfl, ?_⟩
    rw [pending_of_zero hzero, List.append_nil]
  case isFalse =>
    refine ⟨rfl, rfl, ?_⟩
    rw [received_under]
    change (b.under _).received ++ [] = _
    rw [received_under, List.append_nil, bytes, bytes, List.append_nil, pending]

theorem Transparent.drained {aLen : ℕ} {written : Bytes} {b : BufWriter}
    (htotal : b.received ++ b.pending = written) (hlength : b.m_Buffer.length = aLen)
    (hpos : 0 < aLen) : b.flush.Transparent aLen written ∧ b.flush.received = written := by
  obtain ⟨hend, hbuffer, hreceived⟩ := b.flush_drained
  refine ⟨⟨?_, ?_, ?_⟩, ?_⟩
  · rw [hreceived, pending_of_zero hend, List.append_nil, htotal]
  · rw [hend, hbuffer, hlength]
    exact hpos
  · rw [hbuffer, hlength]
  · rw [hreceived, htotal]

theorem Transparent.under {aLen : ℕ} {written : Bytes} {b : BufWriter}
    (h : b.Transparent aLen written) {o : Op} (ho : drains o) :
    (b.under o).Transparent aLen written ∧ (b.under o).received = b.received := by
  have hreceived : (b.under o).received = b.received := by
    rw [received_under, bytes_of_drains ho, List.append_nil]
  refine ⟨⟨?_, h.room, h.length⟩, hreceived⟩
  rw [hreceived]
  exact h.total

/-! ## The loop of `write` -/

theorem fill_filled {b : BufWriter} {aData : Bytes}
    (h : b.m_End + aData.length ≤ b.m_Buffer.length) :
    (b.fill aData).m_Buffer.length = b.m_Buffer.length ∧
      (b.fill aData).pending = b.pending ++ aData := by
  have htake : (b.m_Buffer.take b.m_End).length = b.m_End := by
    rw [List.length_take]
    omega
  constructor
  · simp only [fill, memcpy, List.length_append, List.length_drop, htake]
    omega
  · have hlength : b.m_End + aData.length = (b.m_Buffer.take b.m_End ++ aData).length := by
      rw [List.length_append, htake]
    simp only [pending, fill, memcpy]
    rw [hlength, List.take_left]

/-- Where the loop is. -/
structure Inv (aLen : ℕ) (written aData : Bytes) (s : BufWriter × ℕ) : Prop where
  used : s.2 ≤ aData.length
  transparent : s.1.Transparent aLen (written ++ aData.take s.2)

theorem turn_ok {aLen : ℕ} {written aData : Bytes} {s : BufWriter × ℕ}
    (h : Inv aLen written aData s) :
    (turn aData s).Ok (Inv aLen written aData) (fun s => aData.length - s.2)
      (Transparent aLen (written ++ aData)) (aData.length - s.2) := by
  obtain ⟨b, sUsed⟩ := s
  obtain ⟨hused, htotal, hroom, hlength⟩ := h
  dsimp only at *
  unfold turn
  dsimp only
  split
  case isFalse hdone =>
    rw [List.take_of_length_le (Nat.not_lt.mp hdone)] at htotal
    exact ⟨htotal, hroom, hlength⟩
  case isTrue hleft =>
    generalize hmin : min (aData.length - sUsed) b.avail = sMin
    have hsome : 0 < sMin := by
      unfold avail at hmin
      omega
    have hpart : ((aData.drop sUsed).take sMin).length = sMin := by
      rw [List.length_take, List.length_drop]
      omega
    have hfits : b.m_End + ((aData.drop sUsed).take sMin).length ≤ b.m_Buffer.length := by
      unfold avail at hmin
      omega
    obtain ⟨hbuffer, hpending⟩ := fill_filled hfits
    have htotal' : (b.fill ((aData.drop sUsed).take sMin)).received ++
        (b.fill ((aData.drop sUsed).take sMin)).pending =
          written ++ aData.take (sUsed + sMin) := by
      rw [hpending, List.take_add, ← List.append_assoc, ← List.append_assoc, ← htotal]
      rfl
    refine ⟨⟨by dsimp only; omega, ?_⟩, by dsimp only; omega⟩
    dsimp only
    split
    case isTrue =>
      exact (Transparent.drained htotal' (hbuffer.trans hlength) (by omega)).1
    case isFalse hend =>
      refine ⟨htotal', lt_of_le_of_ne ?_ hend, hbuffer.trans hlength⟩
      rw [hbuffer]
      exact hfits

theorem write_returns {aLen : ℕ} {written : Bytes} {b : BufWriter}
    (h : b.Transparent aLen written) (aData : Bytes) :
    ∃ b', Returns (fun n => b.write n aData) b' ∧ b'.Transparent aLen (written ++ aData) := by
  have hstart : Inv aLen written aData (b, 0) := ⟨Nat.zero_le _, by simpa using h⟩
  exact loop_returns (fun s => aData.length - s.2)
    (fun s hs => ⟨turn aData s, returns_some _, turn_ok hs⟩) hstart

/-! ## Sequences of calls -/

/-- What a call does, and what all but `write` leave. -/
theorem op_returns {aLen : ℕ} {written : Bytes} {b : BufWriter} (h : b.Transparent aLen written)
    (o : Op) :
    ∃ b', Returns (fun n => b.op n o) b' ∧ b'.Transparent aLen (written ++ bytes [o]) ∧
      (drains o → b'.received = written ++ bytes [o]) := by
  have hpos : 0 < aLen := h.length ▸ Nat.zero_lt_of_lt h.room
  obtain ⟨hflush, hreceived⟩ := Transparent.drained h.total h.length hpos
  cases o with
  | write aData =>
      obtain ⟨b', hreturns, hb'⟩ := write_returns h aData
      refine ⟨b', hreturns, ?_, nofun⟩
      rwa [bytes, bytes, List.append_nil]
  | flush =>
      refine ⟨b.flush, returns_some _, ?_⟩
      rw [bytes_of_drains rfl, List.append_nil]
      exact ⟨hflush, fun _ => hreceived⟩
  | sync =>
      obtain ⟨hsync, hsame⟩ := hflush.under (o := .sync) rfl
      refine ⟨b.sync, returns_some _, ?_⟩
      rw [bytes_of_drains rfl, List.append_nil]
      exact ⟨hsync, fun _ => hsame.trans hreceived⟩
  | close =>
      obtain ⟨hclose, hsame⟩ := hflush.under (o := .close) rfl
      refine ⟨b.close, returns_some _, ?_⟩
      rw [bytes_of_drains rfl, List.append_nil]
      exact ⟨hclose, fun _ => hsame.trans hreceived⟩

theorem calls_concat (n : ℕ) (b : BufWriter) (ops : List Op) (o : Op) :
    b.calls n (ops ++ [o]) = (b.calls n ops).bind fun b => b.op n o := by
  induction ops generalizing b with
  | nil => simp [calls]
  | cons o' ops ih =>
      rw [List.cons_append, calls, calls, Option.bind_assoc]
      congr 1
      exact funext fun b => ih b

/-- For every sequence of calls. -/
theorem bufWriter_transparent {aLen : ℕ} (hpos : 0 < aLen) (ops : List Op) :
    ∃ b, Returns (fun n => (start aLen).calls n ops) b ∧ b.Transparent aLen (bytes ops) ∧
      ∀ o ∈ ops.getLast?, drains o → b.received = bytes ops := by
  induction ops using List.reverseRecOn with
  | nil =>
      refine ⟨start aLen, returns_some _, ⟨rfl, ?_, List.length_replicate⟩, fun _ ho => nomatch ho⟩
      change 0 < (List.replicate aLen _).length
      rwa [List.length_replicate]
  | append_singleton ops o ih =>
      obtain ⟨b, hreturns, htransparent, -⟩ := ih
      obtain ⟨b', hop, hb', hdrained⟩ := op_returns htransparent o
      refine ⟨b', ?_, ?_, ?_⟩
      · simp only [calls_concat]
        exact hreturns.bind hop
      · rwa [bytes_append]
      · intro o' ho' hdrains
        rw [List.getLast?_concat, Option.mem_some_iff] at ho'
        subst ho'
        rw [bytes_append]
        exact hdrained hdrains

/-- A buffer of two bytes. -/
theorem bufWriter_transparent_two :
    ∃ b, Returns (fun n => (start 2).calls n [.write [1, 2, 3], .write [4], .write [5], .sync]) b ∧
      b.Transparent 2 [1, 2, 3, 4, 5] ∧
      ∀ o ∈ some Op.sync, drains o → b.received = [1, 2, 3, 4, 5] :=
  bufWriter_transparent (by decide) _

/-! ## The code with exceptions -/

/-- A writer that keeps its calls. -/
def recorder : IWriter (List Op) where
  write data := Code.update fun ops => ops ++ [.write data]
  flush := Code.update fun ops => ops ++ [.flush]
  sync := Code.update fun ops => ops ++ [.sync]
  close := Code.update fun ops => ops ++ [.close]

def view (b : BufWriter) : File.BufWriter (List Op) where
  m_Writer := b.m_Writer
  m_Buffer := b.pending
  size := b.m_Buffer.length

section
variable {L : Type} {ρ : Rules L (File.Sys × Bool) (Option ℕ)} {u : Bool} {l : L} {b : BufWriter}

theorem flush_view (h : b.m_End ≤ b.m_Buffer.length) :
    Code.wp ρ (File.BufWriter.flush recorder) u b.view l
      (fun _ s l' => s = b.flush.view ∧ l' = l) (fun _ _ => False) := by
  simp only [File.BufWriter.flush, Code.wp_bind, Code.wp_objects]
  by_cases hzero : b.m_End = 0
  · have hempty : b.view.m_Buffer = [] := pending_of_zero hzero
    rw [if_pos hempty, Code.wp_pure, flush, if_pos hzero]
    exact ⟨rfl, rfl⟩
  · have hsome : b.view.m_Buffer ≠ [] := by
      apply List.ne_nil_of_length_pos
      change 0 < (b.m_Buffer.take b.m_End).length
      rw [List.length_take]
      omega
    rw [if_neg hsome, flush, if_neg hzero]
    simp only [Code.wp_bind, File.BufWriter.under, Code.wp_focus, recorder, Code.wp_update]
    exact ⟨rfl, trivial⟩

theorem length_pending (h : b.m_End ≤ b.m_Buffer.length) : b.pending.length = b.m_End := by
  rw [pending, List.length_take]
  omega

theorem view_fill {aData : Bytes} (h : b.m_End + aData.length ≤ b.m_Buffer.length) :
    { b.view with m_Buffer := b.view.m_Buffer ++ aData } = (b.fill aData).view := by
  obtain ⟨hbuffer, hpending⟩ := fill_filled h
  simp only [view, hbuffer, hpending]
  rfl

theorem full_iff {aData : Bytes} (h : b.m_End + aData.length ≤ b.m_Buffer.length) :
    (b.view.m_Buffer ++ aData).length = b.view.size ↔
      (b.fill aData).m_End = (b.fill aData).m_Buffer.length := by
  have hpending : b.view.m_Buffer.length = b.m_End := length_pending (by omega)
  rw [(fill_filled h).1, List.length_append, hpending]
  rfl

theorem turn_done {aData : Bytes} {sUsed : ℕ} (h : aData.drop sUsed = []) :
    turn aData (b, sUsed) = .leave b :=
  if_neg (Nat.not_lt.mpr (List.drop_eq_nil_iff.mp h))

theorem turn_part {aData : Bytes} {sUsed sMin : ℕ} (hleft : sUsed < aData.length)
    (hmin : min (aData.length - sUsed) b.avail = sMin) :
    turn aData (b, sUsed) =
      .next (if (b.fill ((aData.drop sUsed).take sMin)).m_End =
          (b.fill ((aData.drop sUsed).take sMin)).m_Buffer.length
        then (b.fill ((aData.drop sUsed).take sMin)).flush
        else b.fill ((aData.drop sUsed).take sMin), sUsed + sMin) := by
  rw [turn, if_pos hleft]
  dsimp only
  rw [hmin]

theorem avail_view (h : b.m_End ≤ b.m_Buffer.length) : b.view.avail = b.avail := by
  change b.m_Buffer.length - b.pending.length = _
  rw [length_pending h, avail]

/-- The loops take the same turns. -/
theorem writeLoop_view (aData : Bytes) (n : ℕ) {sUsed : ℕ} (hused : sUsed ≤ aData.length)
    (hroom : b.m_End < b.m_Buffer.length) (hn : aData.length - sUsed ≤ n) :
    Code.wp ρ (File.BufWriter.writeLoop recorder n (aData.drop sUsed)) u b.view l
      (fun _ s l' => l' = l ∧ ∃ c : BufWriter, s = c.view ∧
        Returns (fun n => loop (fun _ s => some (turn aData s)) n (b, sUsed)) c)
      (fun _ _ => False) := by
  induction n generalizing b sUsed with
  | zero =>
      have hempty : aData.drop sUsed = [] := List.drop_eq_nil_of_le (by omega)
      rw [hempty]
      exact ⟨rfl, b, rfl, loop_leave_of_eq (turn_done hempty)⟩
  | succ n ih =>
      have hlength : (aData.drop sUsed).length = aData.length - sUsed := List.length_drop
      cases hdata : aData.drop sUsed with
      | nil => exact ⟨rfl, b, rfl, loop_leave_of_eq (turn_done hdata)⟩
      | cons x xs =>
          simp only [File.BufWriter.writeLoop, Code.wp_bind, Code.wp_objects, Code.wp_update]
          rw [hdata, List.length_cons] at hlength
          rw [List.length_cons, hlength, avail_view hroom.le, ← hdata]
          generalize hmin : min (aData.length - sUsed) b.avail = sMin
          have hturn := turn_part (by omega) hmin
          have hsMin : sMin ≤ aData.length - sUsed ∧ sMin ≤ b.m_Buffer.length - b.m_End ∧
              0 < sMin := by
            unfold avail at hmin
            omega
          have hpart : ((aData.drop sUsed).take sMin).length = sMin := by
            rw [List.length_take, List.length_drop]
            omega
          rw [List.drop_drop]
          generalize (aData.drop sUsed).take sMin = part at *
          have hfits : b.m_End + part.length ≤ b.m_Buffer.length := by omega
          have hview := view_fill hfits
          have hbuffer := (fill_filled hfits).1
          have hend : (b.fill part).m_End = b.m_End + part.length := rfl
          split
          case isTrue hfull =>
            rw [full_iff hfits] at hfull
            obtain ⟨hzero, hsame, -⟩ := (b.fill part).flush_drained
            rw [if_pos hfull] at hturn
            rw [Code.wp_bind, hview]
            refine Code.wp_mono (fun _ s l' hflush => ?_) (fun _ _ h => h) (flush_view hfull.le)
            obtain ⟨rfl, rfl⟩ := hflush
            refine Code.wp_mono (fun _ s l' hrest => ?_) (fun _ _ h => h)
              (ih (by omega) (by rw [hzero, hsame]; omega) (by omega))
            obtain ⟨hl, c, hc, hreturns⟩ := hrest
            exact ⟨hl, c, hc, loop_next_of_eq hturn hreturns⟩
          case isFalse hfull =>
            rw [full_iff hfits] at hfull
            rw [if_neg hfull] at hturn
            rw [hview]
            refine Code.wp_mono (fun _ s l' hrest => ?_) (fun _ _ h => h)
              (ih (by omega) (by omega) (by omega))
            obtain ⟨hl, c, hc, hreturns⟩ := hrest
            exact ⟨hl, c, hc, loop_next_of_eq hturn hreturns⟩

/-- Every call of `File.BufWriter` does what the call here does. -/
theorem op_view (hroom : b.m_End < b.m_Buffer.length) (o : Op) :
    Code.wp ρ ((File.BufWriter.iwriter recorder).op o) u b.view l
      (fun _ s l' => l' = l ∧ ∃ c : BufWriter, s = c.view ∧ Returns (fun n => b.op n o) c)
      (fun _ _ => False) := by
  cases o with
  | write aData => exact writeLoop_view aData (aData.length + 1) (Nat.zero_le _) hroom (by omega)
  | flush =>
      refine Code.wp_mono (fun _ s l' hflush => ?_) (fun _ _ h => h) (flush_view hroom.le)
      exact ⟨hflush.2, b.flush, hflush.1, returns_some _⟩
  | sync =>
      change Code.wp ρ (File.BufWriter.sync recorder) u b.view l _ _
      rw [File.BufWriter.sync, Code.wp_bind]
      refine Code.wp_mono (fun _ s l' hflush => ?_) (fun _ _ h => h) (flush_view hroom.le)
      obtain ⟨rfl, rfl⟩ := hflush
      exact ⟨rfl, b.sync, rfl, returns_some _⟩
  | close =>
      change Code.wp ρ (File.BufWriter.close recorder) u b.view l _ _
      rw [File.BufWriter.close, Code.wp_bind]
      refine Code.wp_mono (fun _ s l' hflush => ?_) (fun _ _ h => h) (flush_view hroom.le)
      obtain ⟨rfl, rfl⟩ := hflush
      exact ⟨rfl, b.close, rfl, returns_some _⟩

end

end BufWriter

end Stuff.FileBufWriter
