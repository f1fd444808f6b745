import Mathlib.Data.List.Sort
import Stuff.EventRuns
import Stuff.FileWriter

/-!
# `Threads::DiskQueue`

A queue of files in a directory. `Producer::push` writes a file under a temporary
name and renames it when it is complete; `Consumer::worker` lists the directory,
hands the files to the handler in sorted order and removes each one the handler
returned for. Pushes and the consumer make their system calls in any order, each
call may fail, and a listing sees the directory while it changes.
-/
namespace Stuff.DiskQueue

open CallTrees EventRuns File MachineWords

structure Params where
  base : Bytes
  ext : Bytes
deriving DecidableEq, Repr

def slash : UInt8 := 0x2f

def hash : UInt8 := 0x23

def dotTmp : Bytes := [0x2e, 0x74, 0x6d, 0x70]

/-- Digits, upper and lower case letters. -/
def sAlNum : Bytes :=
  (List.range 10).map (fun n => UInt8.ofNat (0x30 + n)) ++
    (List.range 26).map (fun n => UInt8.ofNat (0x41 + n)) ++
    (List.range 26).map (fun n => UInt8.ofNat (0x61 + n))

/-- `Util::randomStr`, from the numbers that `randomInt` draws. -/
def randomStr (draws : Fin 8 → Fin 62) : Bytes :=
  List.ofFn fun i => sAlNum.getD (draws i) 0

def Params.name (p : Params) (aName : Bytes) : Path := p.base ++ slash :: aName ++ dot :: p.ext

def Params.tmpName (p : Params) (aName sRandom : Bytes) : Path :=
  p.base ++ slash :: dot :: aName ++ hash :: sRandom ++ dotTmp

/-! ## `Producer::push` -/

/-- What `push` does with the file once it is open. -/
def writeAll {σ : Type} (aWriter : Callback) (aFile : IWriter σ) : Io σ Unit := do
  aWriter.run aFile
  aFile.sync
  aFile.close

/-- The handler of `sGuard`, if it is still active. -/
def removeTmp (sTmpName : Path) : Io Bool Unit := do
  if ← Code.objects then
    let _ ← Code.sys (.remove sTmpName)
  else pure ()

def rename (sTmpName sName : Path) : Io Bool Unit := do
  match ← Code.sys (.rename sTmpName sName) with
  | none => Code.raise
  | some _ => pure ()

def syncDir : Io Bool Unit := do
  match ← Code.sys .dirSync with
  | none => Code.raise
  | some _ => pure ()

/-- The part of `push` under the guard, whose flag is the object here. -/
def publish (sName sTmpName : Path) (aWriter : Callback) : Io Bool Unit :=
  Code.scope
    (do
      File.write sTmpName (writeAll aWriter)
      rename sTmpName sName
      Code.update fun _ => false
      let _ ← Code.attempt syncDir)
    (removeTmp sTmpName)

def push (p : Params) (aName sRandom : Bytes) (aWriter : Callback) : Io Unit Unit := do
  match ← Code.sys (.stat (p.name aName)) with
  | none => Code.raise
  | some sExists =>
      if sExists ≠ 0 then pure ()
      else Code.within true (publish (p.name aName) (p.tmpName aName sRandom) aWriter)

/-! ## The directory -/

/-- A file that was there at the start, or the one of a push. -/
inductive Ino where
  | old (regular : Bool)
  | made (i : ℕ)
deriving DecidableEq, Repr

def Ino.isRegular : Ino → Bool
  | .old regular => regular
  | .made _ => true

structure Disk where
  dir : List (Path × Ino)
  files : ℕ → Contents

namespace Disk

def find (d : Disk) (p : Path) : Option Ino := (d.dir.find? fun e => e.1 = p).map (·.2)

def unlink (d : Disk) (p : Path) : Disk := { d with dir := d.dir.filter fun e => e.1 ≠ p }

def link (d : Disk) (p : Path) (ino : Ino) : Disk :=
  { d with dir := (p, ino) :: (d.unlink p).dir }

def setFile (d : Disk) (i : ℕ) (l : Contents) : Disk :=
  { d with files := fun j => if j = i then l else d.files j }

/-- The disk after an answer to a call of push `i`, if the system can give it. The
descriptor of the file it makes has its number, and it uses no other. -/
def answer (d : Disk) (i : ℕ) : Sys → Option ℕ → Option Disk
  | .stat _, none => some d
  | .stat p, some n => if n = (d.find p).isSome.toNat then some d else none
  | .openFile _, none => some d
  | .openFile p, some fd =>
      if fd = i ∧ d.find p = none then some ((d.link p (.made i)).setFile i ⟨[], true, false⟩)
      else none
  | .rename _ _, none => some d
  | .rename p target, some _ => (d.find p).map fun ino => (d.unlink p).link target ino
  | .remove _, none => some d
  | .remove p, some n => if n = (d.find p).isSome.toNat then some (d.unlink p) else none
  | .dirSync, _ => some d
  | .write fd data, r => ((d.files i).answer (.write fd data) r).map (d.setFile i)
  | .fsync fd, r => ((d.files i).answer (.fsync fd) r).map (d.setFile i)
  | .close fd, r => ((d.files i).answer (.close fd) r).map (d.setFile i)

end Disk

/-! ## `Consumer::worker` -/

/-- A pass over a listing: the queue when the listing began, the sorted list, the files
given to the handler, those removed after it and the one at which the pass broke off. -/
structure Pass where
  before : List Path
  files : List Path
  handed : List Path := []
  finished : List Path := []
  failed : Option Path := none
deriving DecidableEq, Repr

/-- Where the worker is. While it lists, `seen` are the entries the iterator has shown
and `sResult` those that were taken. -/
inductive Pc where
  | idle
  | listing (before seen sResult : List Path)
  | looping (pass : Pass) (rest : List Path)
  | handling (pass : Pass) (x : Path) (rest : List Path)
  | removing (pass : Pass) (x : Path) (rest : List Path)
  | exited
deriving DecidableEq, Repr

/-- An entry of the directory itself. -/
def Params.inBase (p : Params) (path : Path) : Bool :=
  (p.base ++ [slash]).isPrefixOf path && !(path.drop (p.base.length + 1)).contains slash

/-- What `listFiles` takes. -/
def Params.takes (p : Params) (path : Path) (ino : Ino) : Bool :=
  ino.isRegular && p.ext.isSuffixOf path

/-- The files that wait in the directory. -/
def Disk.queue (d : Disk) (p : Params) : List Path :=
  (d.dir.map (·.1)).filter fun path =>
    p.inBase path && (d.find path).any (p.takes path)

/-! ## Pushes and the consumer together -/

structure Push where
  aName : Bytes
  sRandom : Bytes
  aWriter : Callback
  code : Tree (Sys × Bool) (Option ℕ) (Except Unit Unit × Unit)

def Push.running (x : Push) : Bool :=
  match x.code with
  | .call _ _ => true
  | _ => false

/-- It threw, or took the program with it. -/
def Push.failed (x : Push) : Bool :=
  match x.code with
  | .done (.ok _, _) => false
  | .call _ _ => false
  | _ => true

structure Config where
  producer : Params
  consumer : Params

structure State where
  disk : Disk
  pushes : List Push := []
  pc : Pc := .idle
  m_Stop : Bool := false
  m_Size : UInt32 := 0
  /-- The files the handler returned for. -/
  returned : List (Path × Ino) := []
  passes : List Pass := []

/-- A directory with its files and other entries, and nothing under way. -/
def State.start (entries : List (Path × Bool)) : State :=
  { disk := ⟨entries.map fun e => (e.1, .old e.2), fun _ => ⟨[], false, false⟩⟩ }

inductive Action where
  | push (aName : Bytes) (draws : Fin 8 → Fin 62) (aWriter : Callback)
  | call (i : ℕ) (r : Option ℕ)
  | stop
  | openDir
  | readDir (path : Path)
  | listFails
  | listed
  | next
  | handler (returns : Bool)
  | remove (r : Option ℕ)

/-- What an action leads to, if it can happen. The clock and the naps are left out: the
worker may begin a listing whenever it is idle. A listing shows every file of the queue
that is there from its beginning to its end, and of what comes or goes meanwhile
whatever it likes. -/
def act (q : Config) (s : State) : Action → Option State
  | .push aName draws aWriter =>
      -- no two pushes of one name at a time
      if s.pushes.all fun x => !x.running || x.aName != aName then
        some { s with pushes := s.pushes ++ [⟨aName, randomStr draws, aWriter,
          push q.producer aName (randomStr draws) aWriter false ()⟩] }
      else none
  | .call i r =>
      match s.pushes[i]? with
      | some x =>
          match x.code with
          | .call c k => (s.disk.answer i c.1 r).map fun disk =>
              { s with disk := disk, pushes := s.pushes.set i { x with code := k r } }
          | _ => none
      | none => none
  | .stop => some { s with m_Stop := true }
  | .openDir =>
      match s.pc with
      | .idle =>
          if s.m_Stop then some { s with pc := .exited }
          else some { s with pc := .listing (s.disk.queue q.consumer) [] [] }
      | _ => none
  | .readDir path =>
      match s.pc, s.disk.find path with
      | .listing before seen sResult, some ino =>
          if q.consumer.inBase path ∧ path ∉ seen then
            let sResult' := if q.consumer.takes path ino then sResult ++ [path] else sResult
            some { s with pc := .listing before (path :: seen) sResult' }
          else none
      | _, _ => none
  | .listFails =>
      -- `update` is called outside the `try` block
      match s.pc with
      | .listing _ _ _ => some { s with pc := .exited }
      | _ => none
  | .listed =>
      match s.pc with
      | .listing before seen sResult =>
          if ∀ path ∈ before, (s.disk.find path).isSome → path ∈ seen then
            let sFiles := sResult.insertionSort (· ≤ ·)
            if sFiles = [] then some { s with pc := .idle }
            else some { s with
              pc := .looping { before := before, files := sFiles } sFiles
              m_Size := UInt32.ofNat sFiles.length }
          else none
      | _ => none
  | .next =>
      match s.pc with
      | .looping pass (x :: rest) =>
          some { s with pc := .handling { pass with handed := pass.handed ++ [x] } x rest }
      | .looping pass [] => some { s with pc := .idle, passes := s.passes ++ [pass] }
      | _ => none
  | .handler true =>
      match s.pc with
      | .handling pass x rest => some { s with
          pc := .removing pass x rest
          m_Size := s.m_Size - 1
          returned := s.returned ++ (s.disk.find x).toList.map fun ino => (x, ino) }
      | _ => none
  | .handler false =>
      match s.pc with
      | .handling pass x _ => some { s with
          pc := .idle
          passes := s.passes ++ [{ pass with failed := some x }] }
      | _ => none
  | .remove none =>
      match s.pc with
      | .removing pass x _ => some { s with
          pc := .idle
          passes := s.passes ++ [{ pass with failed := some x }] }
      | _ => none
  | .remove (some _) =>
      match s.pc with
      | .removing pass x rest => some { s with
          pc := .looping { pass with finished := pass.finished ++ [x] } rest
          disk := s.disk.unlink x }
      | _ => none

/-- An action that cannot happen changes nothing. -/
def step (q : Config) (s : State) (a : Action) : State := (act q s a).getD s

theorem act_call {q : Config} {s s' : State} {i : ℕ} {r : Option ℕ}
    (h : act q s (.call i r) = some s') :
    ∃ x c k disk, s.pushes[i]? = some x ∧ x.code = .call c k ∧
      s.disk.answer i c.1 r = some disk ∧
      s' = { s with disk := disk, pushes := s.pushes.set i { x with code := k r } } := by
  simp only [act] at h
  split at h
  next x hx =>
    split at h
    next c k hcode =>
      obtain ⟨disk, hans, rfl⟩ := Option.map_eq_some_iff.mp h
      exact ⟨x, c, k, disk, hx, hcode, hans, rfl⟩
    next => cases h
  next => cases h

theorem act_remove_none {q : Config} {s s' : State} (h : act q s (.remove none) = some s') :
    ∃ pass x rest, s.pc = .removing pass x rest ∧
      s' = { s with pc := .idle, passes := s.passes ++ [{ pass with failed := some x }] } := by
  simp only [act] at h
  split at h
  next pass x rest hremoving =>
    cases h
    exact ⟨pass, x, rest, hremoving, rfl⟩
  next => cases h

theorem act_remove_some {q : Config} {s s' : State} {n : ℕ}
    (h : act q s (.remove (some n)) = some s') :
    ∃ pass x rest, s.pc = .removing pass x rest ∧
      s' = { s with
        pc := .looping { pass with finished := pass.finished ++ [x] } rest
        disk := s.disk.unlink x } := by
  simp only [act] at h
  split at h
  next pass x rest hremoving =>
    cases h
    exact ⟨pass, x, rest, hremoving, rfl⟩
  next => cases h

/-! ## The names -/

/-- No name that ends in `.tmp` ends in the extension. -/
def NotTmp (ext : Bytes) : Prop := ∀ path : Path, ¬ext <:+ path ++ dotTmp

theorem hash_notMem_randomStr (draws : Fin 8 → Fin 62) : hash ∉ randomStr draws := by
  have halnum : ∀ n : Fin 62, sAlNum.getD n 0 ≠ hash := by decide
  intro h
  obtain ⟨i, hi⟩ := (List.mem_ofFn ..).mp h
  exact halnum (draws i) hi

theorem dot_notMem_randomStr (draws : Fin 8 → Fin 62) : dot ∉ randomStr draws := by
  have halnum : ∀ n : Fin 62, sAlNum.getD n 0 ≠ dot := by decide
  intro h
  obtain ⟨i, hi⟩ := (List.mem_ofFn ..).mp h
  exact halnum (draws i) hi

theorem Params.name_injective (p : Params) : Function.Injective p.name := by
  intro a b h
  simpa [Params.name] using h

/-- The random part has no `#`, so the last one ends the name. -/
theorem Params.tmpName_injective (p : Params) {a b r r' : Bytes} (hr : hash ∉ r)
    (hr' : hash ∉ r') (h : p.tmpName a r = p.tmpName b r') : a = b := by
  have hcut : a ++ hash :: r = b ++ hash :: r' := by
    simpa using List.append_cancel_right h
  have hrev := congrArg List.reverse hcut
  simp only [List.reverse_append, List.reverse_cons, List.append_assoc,
    List.singleton_append] at hrev
  have hafter := congrArg (fun l : Bytes => (l.dropWhile (· != hash)).drop 1) hrev
  have hdrop : ∀ x y : Bytes, hash ∉ x →
      ((x.reverse ++ hash :: y).dropWhile (· != hash)).drop 1 = y := by
    intro x y hx
    rw [List.dropWhile_append_of_pos]
    · simp
    · intro c hc
      simp only [bne_iff_ne, ne_eq]
      rintro rfl
      exact hx (List.mem_reverse.mp hc)
  simp only [hdrop _ _ hr, hdrop _ _ hr', List.reverse_inj] at hafter
  exact hafter

theorem splitDot_append (front : Bytes) {sExt : Bytes} (h : dot ∉ sExt) :
    splitDot (front ++ dot :: sExt) = some (front, sExt) := by
  have hne : ∀ c ∈ sExt.reverse, (c != dot) = true := by
    intro c hc
    simp only [bne_iff_ne, ne_eq]
    rintro rfl
    exact h (List.mem_reverse.mp hc)
  have hrev : (front ++ dot :: sExt).reverse = sExt.reverse ++ dot :: front.reverse := by simp
  rw [splitDot, if_pos (by simp), hrev, List.dropWhile_append_of_pos hne,
    List.takeWhile_append_of_pos hne]
  simp

/-- What `getExtension` makes of a temporary name has a `#` in it, so it is no archive. -/
theorem Params.getFilterType_tmpName (p : Params) (aName : Bytes) (draws : Fin 8 → Fin 62) :
    getFilterType (p.tmpName aName (randomStr draws)) = some .PLAIN := by
  have hne : ∀ c ∈ (randomStr draws).reverse, (c != dot) = true := by
    intro c hc
    simp only [bne_iff_ne, ne_eq]
    rintro rfl
    exact dot_notMem_randomStr draws (List.mem_reverse.mp hc)
  obtain ⟨second, hsecond, hmem⟩ : ∃ second,
      getExtension (p.tmpName aName (randomStr draws)) = second ∧ hash ∈ second := by
    refine ⟨_, rfl, ?_⟩
    have htmp : dot ∉ tmpBytes := by decide
    rw [getExtension, show p.tmpName aName (randomStr draws) =
      (p.base ++ slash :: dot :: aName ++ hash :: randomStr draws) ++ dot :: tmpBytes from rfl,
      splitDot_append _ htmp]
    simp only [List.prefix_rfl, if_true, splitDot]
    rw [if_neg (by simp), if_pos (by simp)]
    simp only [List.reverse_append, List.reverse_cons, List.append_assoc,
      List.takeWhile_append_of_pos hne, List.mem_append, List.mem_reverse]
    left
    rw [List.singleton_append, List.takeWhile_cons_of_pos (by decide)]
    exact List.mem_cons_self
  have hnone : filterDict.lookup second = none := by
    rw [List.lookup_eq_none_iff]
    intro e he
    have hkey : ∀ e ∈ filterDict, hash ∉ e.1 := by decide
    rw [bne_iff_ne]
    rintro rfl
    exact hkey e he hmem
  rw [getFilterType, hsecond, hnone]

/-! ## What a push does to its file -/

/-- How far the file of a push has come. -/
inductive Phase where
  | started
  | checked
  | writing
  | queued
  | gone
deriving DecidableEq, Repr

def Phase.next (phase : Phase) : Sys → Option ℕ → Phase
  | .stat _, some 0 => .checked
  | .openFile _, some _ => .writing
  | .rename _ _, some _ => .queued
  | .remove _, some _ => .gone
  | _, _ => phase

/-- The file is closed and on disk, and if the writer lets errors pass, it holds all
that was written. -/
structure Whole (aWriter : Callback) (l : Contents) : Prop where
  closed : l.isOpen = false
  synced : l.synced = true
  data : aWriter.Propagates → l.data = aWriter.bytes

structure View where
  phase : Phase
  file : Contents

def View.turn (i : ℕ) (v : View) : Sys → Option ℕ → Contents → Prop
  | .openFile _, some fd, l' => fd = i ∧ l' = ⟨[], true, false⟩
  | .write fd data, r, l' => v.file.answer (.write fd data) r = some l'
  | .fsync fd, r, l' => v.file.answer (.fsync fd) r = some l'
  | .close fd, r, l' => v.file.answer (.close fd) r = some l'
  | _, _, l' => l' = v.file

/-- A push touches nothing but its two names and its own file, and gives the file its
final name only when it is whole. -/
def pushRules (sName sTmpName : Path) (aWriter : Callback) (i : ℕ) :
    Rules View (Sys × Bool) (Option ℕ) where
  may v c :=
    match c.1 with
    | .stat p => v.phase = .started ∧ p = sName
    | .openFile p => v.phase = .checked ∧ p = sTmpName
    | .rename p target =>
        v.phase = .writing ∧ p = sTmpName ∧ target = sName ∧ Whole aWriter v.file
    | .remove p => (v.phase = .checked ∨ v.phase = .writing) ∧ p = sTmpName
    | .dirSync => v.phase = .queued
    | c => v.phase = .writing ∧ c.onFile i
  turn v c r v' :=
    v'.phase = v.phase.next c.1 r ∧ v.turn i c.1 r v'.file ∧ (c.2 = true → c.1.fails r = false)

variable {sName sTmpName : Path} {aWriter : Callback} {i : ℕ}

/-- Calls on the open file leave the directory alone. -/
theorem pushRules_may_file {v : View} {c : Sys × Bool} (hphase : v.phase = .writing)
    (h : (fileRules i).may v.file c) : (pushRules sName sTmpName aWriter i).may v c := by
  obtain ⟨c, u⟩ := c
  cases c with
  | write fd data => exact ⟨hphase, h⟩
  | fsync fd => exact ⟨hphase, h⟩
  | close fd => exact ⟨hphase, h⟩
  | _ => exact h.elim

theorem pushRules_turn_file {v v' : View} {c : Sys × Bool} {r : Option ℕ}
    (hphase : v.phase = .writing) (h : (fileRules i).may v.file c)
    (hturn : (pushRules sName sTmpName aWriter i).turn v c r v') :
    (fileRules i).turn v.file c r v'.file ∧ v'.phase = .writing := by
  obtain ⟨c, u⟩ := c
  obtain ⟨hnext, hfile, hunwind⟩ := hturn
  cases c with
  | write fd data => exact ⟨⟨hfile, hunwind⟩, hnext.trans hphase⟩
  | fsync fd => exact ⟨⟨hfile, hunwind⟩, hnext.trans hphase⟩
  | close fd => exact ⟨⟨hfile, hunwind⟩, hnext.trans hphase⟩
  | _ => exact h.elim

/-- With the callback done, synced and closed the destructors have nothing left to do. -/
theorem writeOpened_spec {b : Writers} {l : Contents} (hsound : BufWriter.Sound i b l)
    (hempty : BufWriter.total b l = []) :
    Code.wp (fileRules i) (writeOpened (writeAll aWriter)) false b l
      (fun _ b' l' => BufWriter.Sound i b' l' ∧ Whole aWriter l')
      (fun b' l' => BufWriter.Sound i b' l') := by
  simp only [writeOpened, writeAll, Code.wp_scope, Code.wp_bind]
  refine Code.wp_mono (fun _ b₁ l₁ hrun => ?_) (fun _ _ hrun => BufWriter.destruct_unwinding hrun)
    (aWriter.run_spec hsound)
  refine Code.wp_mono (fun _ b₂ l₂ hsync => ?_)
    (fun _ _ hsync => BufWriter.destruct_unwinding hsync.1) (BufWriter.sync_spec hrun.1)
  refine Code.wp_mono (fun _ b₃ l₃ hclose => ?_)
    (fun _ _ hclose => BufWriter.destruct_unwinding hclose.1) (BufWriter.close_spec hsync.1)
  refine Code.wp_mono (fun _ b₄ l₄ hdone => ?_) (fun b₄ l₄ hdone => hdone.1)
    (BufWriter.close_spec hclose.1)
  refine ⟨hdone.1, hdone.2.1, ?_, fun hpass => ?_⟩
  · rw [hdone.2.2.2.2 hclose.2.2.1, hclose.2.2.2.2 hsync.2.1, hsync.2.2.2]
  · rw [hdone.2.2.2.1, BufWriter.total, hclose.2.2.1, hclose.2.2.2.1, BufWriter.total, hsync.2.1,
      hsync.2.2.1, hrun.2 hpass, hempty]
    simp

theorem write_spec {s : Bool} {v : View} (hphase : v.phase = .checked)
    (hplain : getFilterType sTmpName = some .PLAIN) :
    Code.wp (pushRules sName sTmpName aWriter i)
      (File.write sTmpName (writeAll aWriter)) false s v
      (fun _ s' v' => s' = s ∧ v'.phase = .writing ∧ Whole aWriter v'.file)
      (fun s' v' => s' = s ∧ (v'.phase = .checked ∨ v'.phase = .writing)) := by
  simp only [File.write, Code.wp_within, Code.wp_bind, BufWriter.under, Code.wp_focus,
    FileWriter.construct, Code.wp_sys]
  refine ⟨⟨hphase, rfl⟩, fun r v' hturn => ?_⟩
  obtain ⟨hnext, hfile, -⟩ := hturn
  cases r with
  | none => exact ⟨trivial, Or.inl (hnext.trans hphase)⟩
  | some fd =>
      obtain ⟨rfl, hnew⟩ := hfile
      simp only [Code.wp_update, hplain]
      have hsound : BufWriter.Sound fd ⟨⟨some fd⟩, [], DEFAULT_BUFFER_SIZE⟩ v'.file := by
        rw [hnew]
        exact ⟨rfl, Nat.zero_le _, (by decide : 0 < DEFAULT_BUFFER_SIZE)⟩
      have hdestruct : Code.wp (fileRules fd)
          (Code.scope (writeOpened (writeAll aWriter)) (BufWriter.under FileWriter.destruct))
          false ⟨⟨some fd⟩, [], DEFAULT_BUFFER_SIZE⟩ v'.file
          (fun _ _ l' => Whole aWriter l') (fun _ _ => True) := by
        simp only [Code.wp_scope, BufWriter.under, Code.wp_focus]
        refine Code.wp_mono (fun _ b₁ l₁ h₁ => ?_) (fun b₁ l₁ h₁ => ?_)
          (writeOpened_spec hsound (by rw [hnew]; rfl))
        · refine Code.wp_mono (fun _ s₂ l₂ h₂ => ?_) (fun _ _ _ => trivial)
            (FileWriter.destruct_spec h₁.1.holds)
          obtain ⟨-, hclosed, hdata, hsynced⟩ := h₂
          exact ⟨hclosed, hsynced.trans h₁.2.synced, fun hpass => hdata.trans (h₁.2.data hpass)⟩
        · exact Code.wp_mono (fun _ _ _ _ => trivial) (fun _ _ hfalse => hfalse.elim)
            (FileWriter.destruct_unwinding h₁.holds)
      refine Code.wp_mono (fun _ _ _ h => ⟨trivial, h.2, h.1⟩)
        (fun _ _ h => ⟨trivial, Or.inr h.2⟩)
        (Code.wp_frame View.file (I := fun v => v.phase = .writing) ?_ ?_ hnext hdestruct)
      · exact fun v c hv hmay => pushRules_may_file hv hmay
      · exact fun v c r v'' hv hmay hturn => pushRules_turn_file hv hmay hturn

/-- An active guard removes the temporary file. -/
theorem removeTmp_spec {v : View} (hphase : v.phase = .checked ∨ v.phase = .writing) :
    Code.wp (pushRules sName sTmpName aWriter i) (removeTmp sTmpName) true true v
      (fun _ _ v' => v'.phase = .gone) (fun _ _ => False) := by
  simp only [removeTmp, Code.wp_bind, Code.wp_objects, if_true, Code.wp_sys, Code.wp_pure]
  refine ⟨⟨hphase, rfl⟩, fun r v' hturn => ?_⟩
  obtain ⟨hnext, -, hunwind⟩ := hturn
  cases r with
  | none => exact absurd (hunwind rfl) (by simp [Sys.fails])
  | some n => exact hnext

theorem publish_spec {v : View} (hphase : v.phase = .checked)
    (hplain : getFilterType sTmpName = some .PLAIN) :
    Code.wp (pushRules sName sTmpName aWriter i) (publish sName sTmpName aWriter) false true v
      (fun _ _ v' => v'.phase = .queued) (fun _ v' => v'.phase = .gone) := by
  simp only [publish, Code.wp_scope, Code.wp_bind]
  refine Code.wp_mono (fun _ s₁ v₁ h₁ => ?_) (fun s₁ v₁ h₁ => ?_) (write_spec hphase hplain)
  · obtain ⟨rfl, hwriting, hwhole⟩ := h₁
    simp only [rename, Code.wp_bind, Code.wp_sys]
    refine ⟨⟨hwriting, rfl, rfl, hwhole⟩, fun r v₂ hturn => ?_⟩
    cases r with
    | none => exact removeTmp_spec (Or.inr (hturn.1.trans hwriting))
    | some n =>
        have hqueued : v₂.phase = .queued := hturn.1
        simp only [Code.wp_pure, Code.wp_update, Code.wp_attempt, syncDir, Code.wp_bind,
          Code.wp_sys]
        refine ⟨hqueued, fun r v₃ hturn₃ => ?_⟩
        have hend : v₃.phase = .queued := by
          cases r <;> exact hturn₃.1.trans hqueued
        cases r <;> exact hend
  · obtain ⟨rfl, hphase₁⟩ := h₁
    exact removeTmp_spec hphase₁

/-- A push that returns has queued its file or found one there; one that throws has
left nothing. -/
theorem push_spec (p : Params) (aName : Bytes) (draws : Fin 8 → Fin 62) (aWriter : Callback)
    (i : ℕ) {v : View} (hphase : v.phase = .started) :
    Code.wp (pushRules (p.name aName) (p.tmpName aName (randomStr draws)) aWriter i)
      (push p aName (randomStr draws) aWriter) false () v
      (fun _ _ v' => v'.phase = .started ∨ v'.phase = .queued)
      (fun _ v' => v'.phase = .started ∨ v'.phase = .gone) := by
  simp only [push, Code.wp_bind, Code.wp_sys]
  refine ⟨⟨hphase, rfl⟩, fun r v' hturn => ?_⟩
  cases r with
  | none => exact Or.inl (hturn.1.trans hphase)
  | some n =>
      cases n with
      | zero =>
          simp only [ne_eq, not_true_eq_false, if_false, Code.wp_within]
          exact Code.wp_mono (fun _ _ _ h => Or.inr h) (fun _ _ h => Or.inr h)
            (publish_spec hturn.1 (p.getFilterType_tmpName aName draws))
      | succ n => exact Or.inl (hturn.1.trans hphase)

end Stuff.DiskQueue
