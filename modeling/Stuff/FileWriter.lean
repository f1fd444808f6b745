import Stuff.CallTrees
import Stuff.MachineWords

/-!
# Writing a file

`File::write` hands a buffered writer over a file descriptor to a callback. Every
system call on the way may fail or write less than asked for, and the exception
that follows runs the destructors of both writers: the one of `FileWriter` keeps
quiet then, the one of `BufWriter` does not.

The view of one file says what has reached it, whether a descriptor is open and
whether the data is on disk. The rules let calls fail as they like, but not those
that are made while an exception unwinds the stack.
-/
namespace Stuff.File

open CallTrees MachineWords

/-- A path is the string that is handed to the system. -/
abbrev Path := Bytes

/-- The system calls, `open` with `O_WRONLY | O_CREAT | O_EXCL`. The answer is `none`
for an error and else the number the call returns: a descriptor, a count of bytes,
one or zero for yes or no. -/
inductive Sys where
  | stat (path : Path)
  | openFile (path : Path)
  | write (fd : Option ℕ) (data : Bytes)
  | fsync (fd : Option ℕ)
  | close (fd : Option ℕ)
  | rename (path target : Path)
  | remove (path : Path)
  | dirSync
deriving DecidableEq, Repr

/-- The answers that make the code throw. -/
def Sys.fails : Sys → Option ℕ → Bool
  | .write _ data, r => r != some data.length
  | _, r => r == none

abbrev Io (σ α : Type) := Code Sys (Option ℕ) σ α

/-- `File::IWriter`, over the objects behind it. -/
structure IWriter (σ : Type) where
  write : Bytes → Io σ Unit
  flush : Io σ Unit
  sync : Io σ Unit
  close : Io σ Unit

/-- `m_FD`, where `none` is -1. -/
structure FileWriter where
  m_FD : Option ℕ
deriving DecidableEq, Repr

namespace FileWriter

def construct (aName : Path) : Io FileWriter Unit := do
  match ← Code.sys (.openFile aName) with
  | none => Code.raise
  | some fd => Code.update fun _ => ⟨some fd⟩

def write (aPtr : Bytes) : Io FileWriter Unit := do
  let s ← Code.objects
  match ← Code.sys (.write s.m_FD aPtr) with
  | none => Code.raise
  | some sRC => if sRC ≠ aPtr.length then Code.raise else pure ()

def flush : Io FileWriter Unit := pure ()

def sync : Io FileWriter Unit := do
  let s ← Code.objects
  match ← Code.sys (.fsync s.m_FD) with
  | none => Code.raise
  | some _ => pure ()

def close : Io FileWriter Unit := do
  let s ← Code.objects
  if s.m_FD = none then pure ()
  else
    let sRC ← Code.sys (.close s.m_FD)
    Code.update fun _ => ⟨none⟩
    match sRC with
    | none => Code.raise
    | some _ => pure ()

def destruct : Io FileWriter Unit := do
  if ← Code.attempt close then pure ()
  else if ← Code.unwinding then pure ()
  else Code.raise

def iwriter : IWriter FileWriter := ⟨write, flush, sync, close⟩

end FileWriter

/-- The first `m_End` bytes of `m_Buffer`, which are all that is ever read of it, and
its size. -/
structure BufWriter (σ : Type) where
  m_Writer : σ
  m_Buffer : Bytes
  size : ℕ
deriving DecidableEq, Repr

namespace BufWriter

variable {σ α : Type} (w : IWriter σ)

def avail (b : BufWriter σ) : ℕ := b.size - b.m_Buffer.length

/-- A call through `m_Writer`. -/
def under (m : Io σ α) : Io (BufWriter σ) α :=
  Code.focus BufWriter.m_Writer (fun s b => { b with m_Writer := s }) m

def flush : Io (BufWriter σ) Unit := do
  let b ← Code.objects
  if b.m_Buffer = [] then pure ()
  else
    under (w.write b.m_Buffer)
    Code.update fun b => { b with m_Buffer := [] }
    under w.flush

/-- The loop of `write`, over the rest of the data. -/
def writeLoop : ℕ → Bytes → Io (BufWriter σ) Unit
  | _, [] => pure ()
  | 0, _ :: _ => Code.spin
  | n + 1, x :: xs => do
      let sMin := min (x :: xs).length (← Code.objects).avail
      Code.update fun b => { b with m_Buffer := b.m_Buffer ++ (x :: xs).take sMin }
      let b ← Code.objects
      if b.m_Buffer.length = b.size then flush w else pure ()
      writeLoop n ((x :: xs).drop sMin)

/-- A turn of the loop that copies nothing empties a full buffer, so one more turn
than bytes is enough. A buffer of size zero would turn forever. -/
def write (aPtr : Bytes) : Io (BufWriter σ) Unit := writeLoop w (aPtr.length + 1) aPtr

def sync : Io (BufWriter σ) Unit := do
  flush w
  under w.sync

def close : Io (BufWriter σ) Unit := do
  flush w
  under w.close

/-- Nothing holds back what `close` throws. -/
def destruct : Io (BufWriter σ) Unit := close w

def iwriter : IWriter (BufWriter σ) := ⟨write w, flush w, sync w, close w⟩

end BufWriter

/-- A call the callback makes on the writer it is given. -/
inductive Op where
  | write (data : Bytes)
  | flush
  | sync
  | close
deriving DecidableEq, Repr

def IWriter.op {σ : Type} (w : IWriter σ) : Op → Io σ Unit
  | .write data => w.write data
  | .flush => w.flush
  | .sync => w.sync
  | .close => w.close

/-- Any code that uses the writer: it may catch what a call throws and go on in
another way than after a call that returns. -/
inductive Callback where
  | returns
  | throws
  | op (o : Op) (k : Bool → Callback)

namespace Callback

def run {σ : Type} (w : IWriter σ) : Callback → Io σ Unit
  | returns => pure ()
  | throws => Code.raise
  | op o k => do
      let ok ← Code.attempt (w.op o)
      (k ok).run w

/-- It lets every exception of the writer pass. -/
def Propagates : Callback → Prop
  | returns => True
  | throws => True
  | op _ k => k false = throws ∧ (k true).Propagates

/-- What is written if nothing fails. -/
def bytes : Callback → Bytes
  | returns => []
  | throws => []
  | op (.write data) k => data ++ (k true).bytes
  | op _ k => (k true).bytes

end Callback

/-! ## The kind of file -/

inductive Filter where
  | PLAIN
  | GZIP
  | BZ2
  | XZ
  | LZ4
  | ZSTD
deriving DecidableEq, Repr

def dot : UInt8 := 0x2e

/-- What stands before and after the last dot. -/
def splitDot (aName : Bytes) : Option (Bytes × Bytes) :=
  if dot ∈ aName then
    some (((aName.reverse.dropWhile (· != dot)).drop 1).reverse,
      (aName.reverse.takeWhile (· != dot)).reverse)
  else none

def tmpBytes : Bytes := [0x74, 0x6d, 0x70]

/-- `getExtension` with `aSkipTmp`. For a name that starts with its only dot, `found - 1`
wraps around and the search for the second dot finds the first one. -/
def getExtension (aFilename : Bytes) : Bytes :=
  match splitDot aFilename with
  | none => []
  | some (front, sExt) =>
      if tmpBytes <+: sExt then
        if front = [] then sExt
        else match splitDot front with
          | none => []
          | some (_, second) => second
      else sExt

def filterDict : List (Bytes × Filter) :=
  [([0x67, 0x7a], .GZIP), ([0x62, 0x7a, 0x32], .BZ2), ([0x78, 0x7a], .XZ),
    ([0x6c, 0x7a, 0x34], .LZ4), ([0x7a, 0x73, 0x74], .ZSTD)]

/-- `getFilterType` with `FILE_NO_ARCHIVE`, where `none` stands for the exception. -/
def getFilterType (aName : Bytes) : Option Filter :=
  match filterDict.lookup (getExtension aName) with
  | none => some .PLAIN
  | some _ => none

/-! ## `File::write` -/

def DEFAULT_BUFFER_SIZE : ℕ := 128 * 1024

abbrev Writers := BufWriter FileWriter

/-- The writers while `aHandler` has them. -/
def writeOpened (aHandler : IWriter Writers → Io Writers Unit) : Io Writers Unit :=
  Code.scope (aHandler (BufWriter.iwriter FileWriter.iwriter))
    (BufWriter.destruct FileWriter.iwriter)

def write {σ : Type} (aName : Path) (aHandler : IWriter Writers → Io Writers Unit) :
    Io σ Unit :=
  Code.within (⟨⟨none⟩, [], DEFAULT_BUFFER_SIZE⟩ : Writers) do
    BufWriter.under (FileWriter.construct aName)
    Code.scope
      (match getFilterType aName with
        | none => Code.raise
        | some _ => writeOpened aHandler)
      (BufWriter.under FileWriter.destruct)

/-! ## The view of one file -/

/-- What has reached the file, whether its descriptor is open and whether the data is
on disk. -/
structure Contents where
  data : Bytes
  isOpen : Bool
  synced : Bool
deriving DecidableEq, Repr

/-- The file after an answer, if the system can give it. -/
def Contents.answer (l : Contents) : Sys → Option ℕ → Option Contents
  | .write fd data, some n =>
      if fd ≠ none ∧ l.isOpen ∧ n ≤ data.length then
        some { l with data := l.data ++ data.take n, synced := false }
      else none
  | .write _ _, none => some l
  | .fsync fd, some _ => if fd ≠ none ∧ l.isOpen then some { l with synced := true } else none
  | .fsync _, none => some l
  | .close fd, r =>
      -- the descriptor is gone even if the call reports an error
      if fd ≠ none ∧ l.isOpen then some { l with isOpen := false }
      else if r = none then some l else none
  | _, _ => none

def Sys.onFile (i : ℕ) : Sys → Prop
  | .write fd _ => fd = none ∨ fd = some i
  | .fsync fd => fd = none ∨ fd = some i
  | .close fd => fd = none ∨ fd = some i
  | _ => False

/-- The owner of descriptor `i` uses only this one, and nothing fails that it calls
while an exception unwinds the stack. -/
def fileRules (i : ℕ) : Rules Contents (Sys × Bool) (Option ℕ) where
  may _ c := c.1.onFile i
  turn l c r l' := l.answer c.1 r = some l' ∧ (c.2 = true → c.1.fails r = false)

/-- A call that failed was not made while the stack was unwound. -/
theorem eq_false_of_fails {c : Sys} {u : Bool} {r : Option ℕ}
    (hunwind : u = true → c.fails r = false) (hfails : c.fails r = true) : u = false := by
  cases u with
  | false => rfl
  | true => exact absurd hfails (by simp [hunwind rfl])

def FileWriter.Holds (i : ℕ) (s : FileWriter) (l : Contents) : Prop :=
  s.m_FD = if l.isOpen then some i else none

namespace FileWriter

variable {i : ℕ} {u : Bool} {s : FileWriter} {l : Contents}

theorem Holds.fd (h : s.Holds i l) : s.m_FD = none ∨ s.m_FD = some i := by
  rw [h]
  cases l.isOpen <;> simp

theorem write_spec (data : Bytes) (h : s.Holds i l) :
    Code.wp (fileRules i) (write data) u s l
      (fun _ s' l' => s' = s ∧ s.Holds i l' ∧ l'.data = l.data ++ data)
      (fun s' l' => s' = s ∧ s.Holds i l' ∧ u = false) := by
  simp only [write, Code.wp_bind, Code.wp_objects, Code.wp_sys]
  refine ⟨h.fd, fun r l' hturn => ?_⟩
  obtain ⟨hans, hunwind⟩ := hturn
  cases r with
  | none =>
      cases hans
      exact ⟨rfl, h, eq_false_of_fails hunwind rfl⟩
  | some n =>
      simp only [Contents.answer] at hans
      split at hans
      next hn =>
        cases hans
        by_cases hall : n = data.length
        · subst hall
          simp only [ne_eq, not_true_eq_false, if_false, Code.wp_pure, List.take_length]
          exact ⟨trivial, h, trivial⟩
        · simp only [ne_eq, hall, not_false_eq_true, if_true, Code.wp_raise]
          exact ⟨trivial, h, eq_false_of_fails hunwind (by simp [Sys.fails, hall])⟩
      next => cases hans

theorem sync_spec (h : s.Holds i l) :
    Code.wp (fileRules i) sync u s l
      (fun _ s' l' => s' = s ∧ s.Holds i l' ∧ l'.data = l.data ∧ l'.synced = true)
      (fun s' l' => s' = s ∧ s.Holds i l' ∧ u = false) := by
  simp only [sync, Code.wp_bind, Code.wp_objects, Code.wp_sys]
  refine ⟨h.fd, fun r l' hturn => ?_⟩
  obtain ⟨hans, hunwind⟩ := hturn
  cases r with
  | none =>
      cases hans
      exact ⟨rfl, h, eq_false_of_fails hunwind rfl⟩
  | some n =>
      simp only [Contents.answer] at hans
      split at hans
      next =>
        cases hans
        exact ⟨rfl, h, rfl, rfl⟩
      next => cases hans

/-- Whatever `close` reports, the descriptor is closed. -/
def Closed (i : ℕ) (l : Contents) (s' : FileWriter) (l' : Contents) : Prop :=
  s'.Holds i l' ∧ l'.isOpen = false ∧ l'.data = l.data ∧ l'.synced = l.synced

theorem close_spec (h : s.Holds i l) :
    Code.wp (fileRules i) close u s l
      (fun _ s' l' => Closed i l s' l') (fun s' l' => Closed i l s' l' ∧ u = false) := by
  simp only [close, Code.wp_bind, Code.wp_objects]
  cases hopen : l.isOpen with
  | false =>
      have hfd : s.m_FD = none := by rw [h, hopen]; rfl
      simp only [hfd, if_true, Code.wp_pure]
      exact ⟨h, hopen, rfl, rfl⟩
  | true =>
      have hfd : s.m_FD = some i := by rw [h, hopen]; rfl
      simp only [hfd, reduceCtorEq, if_false, Code.wp_bind, Code.wp_sys, Code.wp_update]
      refine ⟨Or.inr rfl, fun r l' hturn => ?_⟩
      obtain ⟨hans, hunwind⟩ := hturn
      simp only [Contents.answer, hopen, ne_eq, reduceCtorEq, not_false_eq_true, and_self,
        if_true, Option.some.injEq] at hans
      subst hans
      cases r with
      | none => exact ⟨⟨rfl, rfl, rfl, rfl⟩, eq_false_of_fails hunwind rfl⟩
      | some n => exact ⟨rfl, rfl, rfl, rfl⟩

theorem destruct_spec (h : s.Holds i l) :
    Code.wp (fileRules i) destruct u s l
      (fun _ s' l' => Closed i l s' l') (fun s' l' => Closed i l s' l' ∧ u = false) := by
  simp only [destruct, Code.wp_bind, Code.wp_attempt]
  refine Code.wp_mono (fun _ s' l' hclosed => ?_) (fun s' l' hclosed => ?_) (close_spec h)
  · simpa using hclosed
  · cases u with
    | false => simpa using hclosed.1
    | true => cases hclosed.2

end FileWriter

namespace BufWriter

/-- The descriptor is the open one, and the buffer does not overflow. -/
structure Sound (i : ℕ) (b : Writers) (l : Contents) : Prop where
  holds : b.m_Writer.Holds i l
  fits : b.m_Buffer.length ≤ b.size
  room : 0 < b.size

/-- What has reached the file, followed by what waits in the buffer. -/
def total (b : Writers) (l : Contents) : Bytes := l.data ++ b.m_Buffer

variable {i : ℕ} {u : Bool} {b : Writers} {l : Contents}

theorem flush_spec (h : Sound i b l) :
    Code.wp (fileRules i) (flush FileWriter.iwriter) u b l
      (fun _ b' l' => Sound i b' l' ∧ b' = { b with m_Buffer := [] } ∧
        l'.data = l.data ++ b.m_Buffer ∧ (b.m_Buffer = [] → l' = l))
      (fun b' l' => Sound i b' l' ∧ u = false) := by
  simp only [flush, Code.wp_bind, Code.wp_objects]
  by_cases hempty : b.m_Buffer = []
  · simp only [hempty, if_true, Code.wp_pure, List.append_nil]
    exact ⟨h, by rw [← hempty], trivial, fun _ => trivial⟩
  · simp only [hempty, if_false, Code.wp_bind, under, Code.wp_focus, Code.wp_update]
    refine Code.wp_mono (fun _ s' l' hw => ?_) (fun s' l' hw => ?_)
      (FileWriter.write_spec b.m_Buffer h.holds)
    · obtain ⟨rfl, hholds, hdata⟩ := hw
      exact ⟨⟨hholds, Nat.zero_le _, h.room⟩, rfl, hdata, False.elim⟩
    · obtain ⟨rfl, hholds, hu⟩ := hw
      exact ⟨⟨hholds, h.fits, h.room⟩, hu⟩

/-- A turn of the loop empties a full buffer or copies something, so after the first
turn each one copies. -/
theorem writeLoop_spec (n : ℕ) (data : Bytes) (h : Sound i b l)
    (hfuel : data.length + (if b.m_Buffer.length = b.size then 1 else 0) ≤ n) :
    Code.wp (fileRules i) (writeLoop FileWriter.iwriter n data) u b l
      (fun _ b' l' => Sound i b' l' ∧ total b' l' = total b l ++ data)
      (fun b' l' => Sound i b' l' ∧ u = false) := by
  induction n generalizing data b l with
  | zero =>
      cases data with
      | nil => simpa [writeLoop] using h
      | cons x xs => simp at hfuel
  | succ n ih =>
      cases data with
      | nil => simpa [writeLoop] using h
      | cons x xs =>
          simp only [writeLoop, Code.wp_bind, Code.wp_objects, Code.wp_update]
          generalize hdata : x :: xs = data at *
          have hpos : 0 < data.length := by rw [← hdata]; exact Nat.succ_pos _
          have hfits := h.fits
          generalize hmin : min data.length b.avail = sMin
          have hle : sMin ≤ data.length := hmin ▸ Nat.min_le_left _ _
          have hroom : b.m_Buffer.length + sMin ≤ b.size := by
            have := hmin ▸ Nat.min_le_right data.length b.avail
            unfold avail at this
            omega
          have hsound : Sound i { b with m_Buffer := b.m_Buffer ++ data.take sMin } l :=
            ⟨h.holds, by simpa [Nat.min_eq_left hle] using hroom, h.room⟩
          split
          next hfull =>
            rw [Code.wp_bind]
            refine Code.wp_mono (fun _ b' l' hflush => ?_) (fun b' l' hflush => hflush)
              (flush_spec hsound)
            obtain ⟨hs, rfl, hd, -⟩ := hflush
            -- the emptied buffer has room, so that the next turn copies
            refine Code.wp_mono (fun _ b'' l'' hrest => ?_) (fun b'' l'' hrest => hrest)
              (ih (data.drop sMin) hs ?_)
            · refine ⟨hrest.1, hrest.2.trans ?_⟩
              simp only [total, hd, List.append_nil, List.append_assoc, List.take_append_drop]
            · have := h.room
              simp only [List.length_append, List.length_take, Nat.min_eq_left hle] at hfull
              simp only [List.length_drop, List.length_nil]
              split at hfuel <;> split <;> omega
          next hfull =>
            simp only [List.length_append, List.length_take, Nat.min_eq_left hle] at hfull
            refine Code.wp_mono (fun _ b'' l'' hrest => ?_) (fun b'' l'' hrest => hrest)
              (ih (data.drop sMin) hsound ?_)
            · refine ⟨hrest.1, hrest.2.trans ?_⟩
              simp only [total, List.append_assoc, List.take_append_drop]
            · have hmin' : sMin = data.length := by
                unfold avail at hmin
                omega
              simp only [List.length_drop, List.length_append, List.length_take,
                Nat.min_eq_left hle, hfull, if_false]
              omega

theorem write_spec (data : Bytes) (h : Sound i b l) :
    Code.wp (fileRules i) (write FileWriter.iwriter data) u b l
      (fun _ b' l' => Sound i b' l' ∧ total b' l' = total b l ++ data)
      (fun b' l' => Sound i b' l' ∧ u = false) :=
  writeLoop_spec _ _ h (by split <;> omega)

theorem sync_spec (h : Sound i b l) :
    Code.wp (fileRules i) (sync FileWriter.iwriter) u b l
      (fun _ b' l' => Sound i b' l' ∧ b'.m_Buffer = [] ∧ l'.data = total b l ∧
        l'.synced = true)
      (fun b' l' => Sound i b' l' ∧ u = false) := by
  simp only [sync, Code.wp_bind]
  refine Code.wp_mono (fun _ b' l' hflush => ?_) (fun b' l' hflush => hflush) (flush_spec h)
  obtain ⟨hs, rfl, hdata, -⟩ := hflush
  simp only [under, Code.wp_focus]
  refine Code.wp_mono (fun _ s' l'' hsync => ?_) (fun s' l'' hsync => ?_)
    (FileWriter.sync_spec hs.holds)
  · obtain ⟨rfl, hholds, hd, hsynced⟩ := hsync
    exact ⟨⟨hholds, hs.fits, hs.room⟩, trivial, hd.trans hdata, hsynced⟩
  · obtain ⟨rfl, hholds, hu⟩ := hsync
    exact ⟨⟨hholds, hs.fits, hs.room⟩, hu⟩

theorem close_spec (h : Sound i b l) :
    Code.wp (fileRules i) (close FileWriter.iwriter) u b l
      (fun _ b' l' => Sound i b' l' ∧ l'.isOpen = false ∧ b'.m_Buffer = [] ∧
        l'.data = total b l ∧ (b.m_Buffer = [] → l'.synced = l.synced))
      (fun b' l' => Sound i b' l' ∧ u = false) := by
  simp only [close, Code.wp_bind]
  refine Code.wp_mono (fun _ b' l' hflush => ?_) (fun b' l' hflush => hflush) (flush_spec h)
  obtain ⟨hs, rfl, hdata, hsame⟩ := hflush
  simp only [under, Code.wp_focus]
  refine Code.wp_mono (fun _ s' l'' hclose => ?_) (fun s' l'' hclose => ?_)
    (FileWriter.close_spec hs.holds)
  · obtain ⟨hholds, hclosed, hd, hsynced⟩ := hclose
    refine ⟨⟨hholds, hs.fits, hs.room⟩, hclosed, trivial, hd.trans hdata, fun he => ?_⟩
    rw [hsynced, hsame he]
  · obtain ⟨⟨hholds, -⟩, hu⟩ := hclose
    exact ⟨⟨hholds, hs.fits, hs.room⟩, hu⟩

end BufWriter

/-! ## The callback -/

theorem Op.spec {i : ℕ} {u : Bool} {b : Writers} {l : Contents} (o : Op)
    (h : BufWriter.Sound i b l) :
    Code.wp (fileRules i) ((BufWriter.iwriter FileWriter.iwriter).op o) u b l
      (fun _ b' l' => BufWriter.Sound i b' l' ∧ ∀ k : Bool → Callback,
        BufWriter.total b' l' ++ (k true).bytes =
          BufWriter.total b l ++ (Callback.op o k).bytes)
      (fun b' l' => BufWriter.Sound i b' l') := by
  cases o with
  | write data =>
      refine Code.wp_mono (fun _ b' l' hw => ⟨hw.1, fun k => ?_⟩) (fun b' l' hw => hw.1)
        (BufWriter.write_spec data h)
      rw [hw.2, List.append_assoc, Callback.bytes]
  | flush =>
      refine Code.wp_mono (fun _ b' l' hw => ⟨hw.1, fun k => ?_⟩) (fun b' l' hw => hw.1)
        (BufWriter.flush_spec h)
      obtain ⟨-, rfl, hdata, -⟩ := hw
      simp [BufWriter.total, hdata, Callback.bytes]
  | sync =>
      refine Code.wp_mono (fun _ b' l' hw => ⟨hw.1, fun k => ?_⟩) (fun b' l' hw => hw.1)
        (BufWriter.sync_spec h)
      obtain ⟨-, hempty, hdata, -⟩ := hw
      simp [BufWriter.total, hempty, hdata, Callback.bytes]
  | close =>
      refine Code.wp_mono (fun _ b' l' hw => ⟨hw.1, fun k => ?_⟩) (fun b' l' hw => hw.1)
        (BufWriter.close_spec h)
      obtain ⟨-, -, hempty, hdata, -⟩ := hw
      simp [BufWriter.total, hempty, hdata, Callback.bytes]

theorem Callback.run_spec {i : ℕ} {u : Bool} {b : Writers} {l : Contents} (cb : Callback)
    (h : BufWriter.Sound i b l) :
    Code.wp (fileRules i) (cb.run (BufWriter.iwriter FileWriter.iwriter)) u b l
      (fun _ b' l' => BufWriter.Sound i b' l' ∧
        (cb.Propagates → BufWriter.total b' l' = BufWriter.total b l ++ cb.bytes))
      (fun b' l' => BufWriter.Sound i b' l') := by
  induction cb generalizing b l with
  | returns => exact ⟨h, fun _ => by simp [Callback.bytes]⟩
  | throws => exact h
  | op o k ih =>
      simp only [Callback.run, Code.wp_bind, Code.wp_attempt]
      refine Code.wp_mono (fun _ b' l' hw => ?_) (fun b' l' hw => ?_) (o.spec h)
      · refine Code.wp_mono (fun _ b'' l'' hr => ⟨hr.1, fun hp => ?_⟩) (fun b'' l'' hr => hr)
          (ih true hw.1)
        rw [hr.2 hp.2, hw.2 k]
      · by_cases hk : k false = .throws
        · rw [hk]
          exact hw
        · exact Code.wp_mono (fun _ b'' l'' hr => ⟨hr.1, fun hp => absurd hp.1 hk⟩)
            (fun b'' l'' hr => hr) (ih false hw)

/-! ## The destructors -/

/-- While an exception is on its way, the destructors throw no other. -/
theorem FileWriter.destruct_unwinding {i : ℕ} {s : FileWriter} {l : Contents}
    (h : s.Holds i l) :
    Code.wp (fileRules i) FileWriter.destruct true s l (fun _ s' l' => s'.Holds i l')
      (fun _ _ => False) :=
  Code.wp_mono (fun _ _ _ hclose => hclose.1) (fun _ _ hclose => absurd hclose.2 (by simp))
    (FileWriter.destruct_spec h)

theorem BufWriter.destruct_unwinding {i : ℕ} {b : Writers} {l : Contents}
    (h : BufWriter.Sound i b l) :
    Code.wp (fileRules i) (BufWriter.destruct FileWriter.iwriter) true b l
      (fun _ b' l' => BufWriter.Sound i b' l') (fun _ _ => False) :=
  Code.wp_mono (fun _ _ _ hclose => hclose.1) (fun _ _ hclose => absurd hclose.2 (by simp))
    (BufWriter.close_spec h)

/-- Whatever fails on the way: if `write` returns, what the callback wrote is in the file. -/
theorem Callback.written (cb : Callback) (hcb : cb.Propagates) {i : ℕ} {l : Contents}
    (hopen : l.isOpen = true) (hnew : l.data = []) :
    Code.wp (fileRules i)
      (Code.scope (writeOpened fun aWriter => cb.run aWriter)
        (BufWriter.under FileWriter.destruct)) false ⟨⟨some i⟩, [], DEFAULT_BUFFER_SIZE⟩ l
      (fun _ _ l' => l'.isOpen = false ∧ l'.data = cb.bytes) (fun _ _ => True) := by
  have hsound : BufWriter.Sound i ⟨⟨some i⟩, [], DEFAULT_BUFFER_SIZE⟩ l := by
    refine ⟨?_, Nat.zero_le _, (by decide : 0 < DEFAULT_BUFFER_SIZE)⟩
    rw [FileWriter.Holds, hopen]
    rfl
  simp only [writeOpened, Code.wp_scope, BufWriter.under, Code.wp_focus]
  refine Code.wp_mono (fun _ b₁ l₁ hrun => ?_) (fun b₁ l₁ hrun => ?_) (cb.run_spec hsound)
  · refine Code.wp_mono (fun _ b₂ l₂ hclose => ?_) (fun b₂ l₂ hclose => ?_)
      (BufWriter.close_spec hrun.1)
    · refine Code.wp_mono (fun _ s₃ l₃ hdone => ?_) (fun _ _ _ => trivial)
        (FileWriter.destruct_spec hclose.1.holds)
      obtain ⟨-, hclosed, hdata, -⟩ := hdone
      refine ⟨hclosed, ?_⟩
      rw [hdata, hclose.2.2.2.1, hrun.2 hcb, BufWriter.total, hnew]
      rfl
    · exact Code.wp_mono (fun _ _ _ _ => trivial) (fun _ _ hfalse => hfalse)
        (FileWriter.destruct_unwinding hclose.1.holds)
  · refine Code.wp_mono (fun _ b₂ l₂ hb => ?_) (fun _ _ hfalse => hfalse.elim)
      (BufWriter.destruct_unwinding hrun)
    exact Code.wp_mono (fun _ _ _ _ => trivial) (fun _ _ hfalse => hfalse)
      (FileWriter.destruct_unwinding hb.holds)

end Stuff.File
