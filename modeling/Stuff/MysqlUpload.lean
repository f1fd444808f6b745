import Stuff.MysqlOnce
import Stuff.ThreadsDiskQueueDelivery

/-!
# `MySQL::Upload`

Files with statements, one on each line, wait in a disk queue. The consumer runs the
statements of a file in a transaction of `Once`, under the name of the file, with a
connection of its own, and removes the file after the call has returned. Queries, commits
and removals may fail, and so may the program.
-/
namespace Stuff.MysqlUpload

open EventRuns File MachineWords MysqlOnce
open DiskQueue (slash)

/-! ## `File::by_string` -/

def newline : UInt8 := 0x0a

/-- The loop over `sBuf`: the lines that end in it, and what `erase` leaves. -/
def splitLines : Bytes → List Bytes × Bytes
  | [] => ([], [])
  | c :: sBuf =>
      let r := splitLines sBuf
      if c = newline then ([] :: r.1, r.2)
      else
        match r.1 with
        | [] => ([], c :: r.2)
        | line :: lines => ((c :: line) :: lines, r.2)

/-- The callback of `by_chunk`, with the lines handled so far. -/
def byChunk (r : List Bytes × Bytes) (aStr : Bytes) : List Bytes × Bytes :=
  let s := splitLines (r.2 ++ aStr)
  (r.1 ++ s.1, s.2)

/-- The lines of a file that is read in chunks. -/
def byString (chunks : List Bytes) : List Bytes :=
  let r := chunks.foldl byChunk ([], [])
  if r.2.isEmpty then r.1 else r.1 ++ [r.2]

/-- Lines that are complete stay as they are when more follows. -/
theorem splitLines_append (x y : Bytes) : splitLines (x ++ y) = byChunk (splitLines x) y := by
  induction x with
  | nil => rfl
  | cons c x ih =>
      rcases hx : splitLines x with ⟨lines, rest⟩
      rw [hx] at ih
      simp only [byChunk] at ih
      simp only [List.cons_append, splitLines, ih, hx]
      by_cases hc : c = newline
      · simp [hc, byChunk]
      · cases lines with
        | nil => simp [hc, byChunk, splitLines]
        | cons line lines => simp [hc, byChunk]

theorem foldl_byChunk (chunks : List Bytes) (x : Bytes) :
    chunks.foldl byChunk (splitLines x) = splitLines (x ++ chunks.flatten) := by
  induction chunks generalizing x with
  | nil => simp
  | cons chunk chunks ih =>
      rw [List.foldl_cons, ← splitLines_append, ih, List.flatten_cons, List.append_assoc]

theorem splitLines_line {line : Bytes} (h : newline ∉ line) (rest : Bytes) :
    splitLines (line ++ newline :: rest) = (line :: (splitLines rest).1, (splitLines rest).2) := by
  induction line with
  | nil => simp [splitLines]
  | cons c line ih =>
      simp only [List.mem_cons, not_or] at h
      simp only [List.cons_append, splitLines, ih h.2, if_neg (Ne.symm h.1)]

/-! ## `Upload::Producer` -/

/-- A statement that can be pushed. -/
structure Statement where
  text : Bytes
  nonempty : text ≠ []
  line : newline ∉ text
deriving DecidableEq

/-- The callback of `push`. -/
def writer : List Statement → Callback
  | [] => .returns
  | x :: aData =>
      .op (.write x.text) fun ok =>
        if ok then .op (.write [newline]) fun ok => if ok then writer aData else .throws
        else .throws

theorem writer_propagates (aData : List Statement) : (writer aData).Propagates := by
  induction aData with
  | nil => trivial
  | cons x aData ih => exact ⟨rfl, rfl, ih⟩

/-- A file that was pushed is read back, in whatever chunks. -/
theorem byString_writer {aData : List Statement} {chunks : List Bytes}
    (h : chunks.flatten = (writer aData).bytes) : byString chunks = aData.map (·.text) := by
  have hsplit : splitLines (writer aData).bytes = (aData.map (·.text), []) := by
    clear h
    induction aData with
    | nil => rfl
    | cons x aData ih =>
        have hbytes : (writer (x :: aData)).bytes = x.text ++ newline :: (writer aData).bytes := by
          simp [writer, Callback.bytes]
        rw [hbytes, splitLines_line x.line, ih]
        rfl
  have hfold := foldl_byChunk chunks []
  rw [List.nil_append, h, hsplit] at hfold
  simp only [byString, show (([], []) : List Bytes × Bytes) = splitLines [] from rfl, hfold]
  rfl

/-! ## `Upload::Consumer` -/

def quote : UInt8 := 0x27

def backslash : UInt8 := 0x5c

/-- What a backslash makes of the next byte in a literal of SQL. -/
def unescape (c : UInt8) : Bytes :=
  match [(0x30, 0x00), (0x62, 0x08), (0x6e, 0x0a), (0x72, 0x0d), (0x74, 0x09),
    (0x5a, 0x1a)].lookup c with
  | some d => [d]
  | none => if c = 0x25 ∨ c = 0x5f then [backslash, c] else [c]

/-- The text that is meant by a literal between quotes, if it does not end too early. -/
def literal : Bytes → Option Bytes
  | [] => some []
  | [c] => if c = quote ∨ c = backslash then none else some [c]
  | c :: d :: text =>
      if c = backslash then (literal text).map (unescape d ++ ·)
      else if c = quote then
        if d = quote then (literal text).map (quote :: ·) else none
      else (literal (d :: text)).map (c :: ·)

/-- `File::getFilename` -/
def getFilename (sName : Path) : Bytes := (sName.reverse.takeWhile (· ≠ slash)).reverse

/-- `"uploader"` -/
def uploader : Bytes := [0x75, 0x70, 0x6c, 0x6f, 0x61, 0x64, 0x65, 0x72]

/-- `"as-one"` -/
def asOne : Bytes := [0x61, 0x73, 0x2d, 0x6f, 0x6e, 0x65]

/-- The row that the queries of `Once` look for and insert; the name of the file is put
into them as it is. -/
def key (sName : Path) : Option Key :=
  (literal (getFilename sName)).map fun task => ⟨uploader, task, asOne⟩

/-- `aQuery.data()`, up to the first zero. -/
def cString (aQuery : Bytes) : Bytes := aQuery.takeWhile (· ≠ 0)

/-- `"upload.sql"` -/
def ext : Bytes := [0x75, 0x70, 0x6c, 0x6f, 0x61, 0x64, 0x2e, 0x73, 0x71, 0x6c]

/-- The queue of both. -/
def queueConfig (aBase : Bytes) : DiskQueue.Config := ⟨⟨aBase, ext⟩, ⟨aBase, dot :: ext⟩⟩

/-- A statement goes with the number of the push that has written it; `pushed` are the
names and the statements of the pushes. -/
structure State where
  queue : DiskQueue.State
  once : MysqlOnce.State (ℕ × Bytes) := { connected := false }
  pushed : List (Bytes × List Statement) := []

inductive Event
  | push (aName : Bytes) (draws : Fin 8 → Fin 62) (aData : List Statement)
  | queue (a : DiskQueue.Action)
  | connect (ok : Bool)
  | begin (chunks : List Bytes) (o : Outcome)
  | query (o : Outcome)
  | raise
  | finish
  | crash

/-- The destructor of the connection. -/
def closed (once : MysqlOnce.State (ℕ × Bytes)) : MysqlOnce.State (ℕ × Bytes) :=
  { once with tx := none, connected := false, pc := .ready }

/-- The handler of the queue returns or throws. -/
def State.leave (q : DiskQueue.Config) (s : State) (returns : Bool) : State :=
  { s with queue := DiskQueue.step q s.queue (.handler returns), once := closed s.once }

/-- The actions of the queue that are not made by the handler, and not the start of a
push. A call that fails while an exception unwinds the stack of a push ends the program
that pushes: the push goes no further. -/
def ownAction (s : DiskQueue.State) : DiskQueue.Action → Bool
  | .push _ _ _ => false
  | .handler _ => false
  | a => DiskQueue.spared s a

/-- The file that the handler is given. -/
def State.current (s : State) : Option (Path × DiskQueue.Ino) :=
  match s.queue.pc with
  | .handling _ x _ => (s.queue.disk.find x).map fun ino => (x, ino)
  | _ => none

/-- What cannot happen changes nothing. -/
def step (q : DiskQueue.Config) (collate : Bytes → Bytes) (s : State) : Event → State
  | .push aName draws aData =>
      match DiskQueue.act q s.queue (.push aName draws (writer aData)) with
      | some queue => { s with queue := queue, pushed := s.pushed ++ [(aName, aData)] }
      | none => s
  | .queue a =>
      if ownAction s.queue a then { s with queue := DiskQueue.step q s.queue a } else s
  | .connect ok =>
      match s.current, s.once.pc with
      | some _, .ready =>
          if ok then { s with once := { s.once with tx := none, connected := true } }
          else s.leave q false
      | _, _ => s
  | .begin chunks o =>
      match s.current, s.once.pc with
      | some (x, .made i), .ready =>
          if s.once.connected ∧ chunks.flatten = (s.queue.disk.files i).data then
            match key x with
            | some k =>
                let c := { key := k, stmts := (byString chunks).map fun l => (i, cString l) }
                { s with once := MysqlOnce.step collate s.once (.call c o) }
            -- a statement that cannot be read is refused
            | none => s.leave q false
          else s
      | _, _ => s
  | .query o => { s with once := MysqlOnce.step collate s.once (.query o) }
  | .raise => { s with once := MysqlOnce.step collate s.once .raise }
  | .finish =>
      match s.once.pc with
      | .returned _ => s.leave q true
      | .raised _ => s.leave q false
      | _ => s
  | .crash =>
      { s with
        queue := { s.queue with pc := .idle, m_Stop := false, m_Size := 0 }
        once := closed s.once }

end Stuff.MysqlUpload
