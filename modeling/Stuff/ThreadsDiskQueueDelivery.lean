import Stuff.ThreadsDiskQueue

/-!
# What the disk queue delivers

The invariant follows the file of each push through its names: what is left of the
push keeps to its rules from the phase it is in, its file stands under the temporary
name while it is written and under the final one only when it is whole. Nobody else
can move it, since names differ and the consumer takes no temporary names, so the
files of a listing stay until the consumer removes them.
-/
namespace Stuff.DiskQueue

open CallTrees EventRuns File MachineWords

namespace Disk

variable (d : Disk) (p p' : Path)

@[simp] theorem find_unlink : (d.unlink p).find p' = if p' = p then none else d.find p' := by
  unfold find unlink
  induction d.dir with
  | nil => simp
  | cons e l ih =>
      by_cases hp : e.1 = p
      · rw [List.filter_cons_of_neg (by simp [hp]), ih]
        split
        next => rfl
        next hne => rw [List.find?_cons_of_neg (by simpa [hp] using fun h => hne h.symm)]
      · rw [List.filter_cons_of_pos (by simp [hp])]
        by_cases hp' : e.1 = p'
        · rw [List.find?_cons_of_pos (by simp [hp']), List.find?_cons_of_pos (by simp [hp']),
            if_neg (hp' ▸ hp)]
        · rw [List.find?_cons_of_neg (by simp [hp']), List.find?_cons_of_neg (by simp [hp']), ih]

@[simp] theorem find_link (ino : Ino) :
    (d.link p ino).find p' = if p' = p then some ino else d.find p' := by
  by_cases hp : p' = p
  · simp [find, link, hp]
  · have h := find_unlink d p p'
    rw [if_neg hp] at h ⊢
    rw [← h, find, find, link, List.find?_cons_of_neg (by simpa using fun h => hp h.symm)]

@[simp] theorem find_setFile (i : ℕ) (l : Contents) : (d.setFile i l).find p = d.find p := rfl

@[simp] theorem files_setFile (i : ℕ) (l : Contents) : (d.setFile i l).files i = l := by
  simp [setFile]

@[simp] theorem files_link (ino : Ino) : (d.link p ino).files = d.files := rfl

@[simp] theorem files_unlink : (d.unlink p).files = d.files := rfl

theorem files_setFile_of_ne {i j : ℕ} (l : Contents) (h : j ≠ i) :
    (d.setFile i l).files j = d.files j := by
  simp [setFile, h]

end Disk

/-! ## One call of a push -/

/-- What a call can do to the directory and to the phase of the push that makes it. -/
inductive Moved (sName sTmpName : Path) (aWriter : Callback) (i : ℕ) (d d' : Disk) :
    Phase → Phase → Prop where
  | stays (phase : Phase) (hfind : d'.find = d.find)
      (hfile : phase = .queued → d'.files i = d.files i) :
      Moved sName sTmpName aWriter i d d' phase phase
  | checks (hfind : d'.find = d.find) (habsent : d.find sName = none) :
      Moved sName sTmpName aWriter i d d' .started .checked
  | opens (habsent : d.find sTmpName = none)
      (hfind : ∀ p, d'.find p = if p = sTmpName then some (.made i) else d.find p) :
      Moved sName sTmpName aWriter i d d' .checked .writing
  | renames (hwhole : Whole aWriter (d'.files i)) (ino : Ino) (hino : d.find sTmpName = some ino)
      (hfind : ∀ p, d'.find p =
        if p = sName then some ino else if p = sTmpName then none else d.find p) :
      Moved sName sTmpName aWriter i d d' .writing .queued
  | removes (phase : Phase) (hphase : phase = .checked ∨ phase = .writing)
      (hfind : ∀ p, d'.find p = if p = sTmpName then none else d.find p) :
      Moved sName sTmpName aWriter i d d' phase .gone

section
variable {sName sTmpName : Path} {aWriter : Callback} {i : ℕ} {d d' : Disk} {phase : Phase}
  {c : Sys × Bool} {r : Option ℕ}

/-- What an answer does to the view of the push, to the files of others and to the
directory. -/
theorem answer_spec (hmay : (pushRules sName sTmpName aWriter i).may ⟨phase, d.files i⟩ c)
    (h : d.answer i c.1 r = some d') :
    View.turn i ⟨phase, d.files i⟩ c.1 r (d'.files i) ∧
      (∀ j, j ≠ i → d'.files j = d.files j) ∧
      Moved sName sTmpName aWriter i d d' phase (phase.next c.1 r) := by
  obtain ⟨c, u⟩ := c
  cases c with
  | stat p =>
      obtain ⟨hphase, rfl⟩ := hmay
      cases hphase
      cases r with
      | none => cases h; exact ⟨rfl, fun _ _ => rfl, .stays _ rfl fun _ => rfl⟩
      | some n =>
          simp only [Disk.answer, Option.ite_none_right_eq_some] at h
          obtain ⟨hn, h⟩ := h
          cases h
          refine ⟨rfl, fun _ _ => rfl, ?_⟩
          cases n with
          | zero => exact .checks rfl (by simpa using hn.symm)
          | succ n => exact .stays _ rfl fun _ => rfl
  | openFile p =>
      obtain ⟨hphase, rfl⟩ := hmay
      cases hphase
      cases r with
      | none => cases h; exact ⟨rfl, fun _ _ => rfl, .stays _ rfl fun _ => rfl⟩
      | some n =>
          simp only [Disk.answer, Option.ite_none_right_eq_some] at h
          obtain ⟨⟨hfd, habsent⟩, h⟩ := h
          cases h
          exact ⟨⟨hfd, by simp⟩, fun j hj => Disk.files_setFile_of_ne _ _ hj,
            .opens habsent fun p => by simp⟩
  | rename p target =>
      obtain ⟨hphase, rfl, rfl, hwhole⟩ := hmay
      cases hphase
      cases r with
      | none => cases h; exact ⟨rfl, fun _ _ => rfl, .stays _ rfl fun _ => rfl⟩
      | some n =>
          simp only [Disk.answer, Option.map_eq_some_iff] at h
          obtain ⟨ino, hino, rfl⟩ := h
          exact ⟨rfl, fun _ _ => rfl, .renames hwhole ino hino fun p => by simp⟩
  | remove p =>
      obtain ⟨hphase, rfl⟩ := hmay
      cases r with
      | none => cases h; exact ⟨rfl, fun _ _ => rfl, .stays _ rfl fun _ => rfl⟩
      | some n =>
          simp only [Disk.answer, Option.ite_none_right_eq_some] at h
          cases h.2
          exact ⟨rfl, fun _ _ => rfl, .removes _ hphase fun p => by simp⟩
  | dirSync =>
      cases r <;>
      · cases h
        exact ⟨rfl, fun _ _ => rfl, .stays _ rfl fun _ => rfl⟩
  | _ =>
      -- a call on the open file
      obtain ⟨hphase, -⟩ := hmay
      cases hphase
      simp only [Disk.answer, Option.map_eq_some_iff] at h
      obtain ⟨l, hl, rfl⟩ := h
      exact ⟨by simpa [View.turn] using hl, fun j hj => Disk.files_setFile_of_ne _ _ hj,
        .stays _ rfl fun hqueued => by simp at hqueued⟩

end

/-! ## The invariant -/

def Push.sName (x : Push) (q : Config) : Path := q.producer.name x.aName

def Push.sTmpName (x : Push) (q : Config) : Path := q.producer.tmpName x.aName x.sRandom

/-- Where the file of push `i` stands in each phase. -/
structure Placed (q : Config) (d : Disk) (i : ℕ) (x : Push) (phase : Phase) : Prop where
  here : ∀ path, d.find path = some (.made i) →
    phase = .writing ∧ path = x.sTmpName q ∨ phase = .queued ∧ path = x.sName q
  tmp : phase = .writing → d.find (x.sTmpName q) = some (.made i)
  absent : phase = .checked ∨ phase = .writing → d.find (x.sName q) = none
  whole : phase = .queued → Whole x.aWriter (d.files i)

/-- What holds when a push has come to its end. -/
def Push.Post (r : Except Unit Unit × Unit) (v : View) : Prop :=
  match r.1 with
  | .ok _ => v.phase = .started ∨ v.phase = .queued
  | .error _ => v.phase = .started ∨ v.phase = .gone

/-- What is left of the push keeps to the rules from the phase of its file. -/
structure PushSound (q : Config) (d : Disk) (i : ℕ) (x : Push) (phase : Phase) : Prop where
  code : x.code.wp (pushRules (x.sName q) (x.sTmpName q) x.aWriter i) ⟨phase, d.files i⟩
    Push.Post
  placed : Placed q d i x phase
  random : hash ∉ x.sRandom

theorem PushSound.running {q : Config} {d : Disk} {i : ℕ} {x : Push} {phase : Phase}
    (h : PushSound q d i x phase) (hphase : phase = .checked ∨ phase = .writing) :
    x.running = true := by
  have hcode := h.code
  unfold Push.running
  cases hx : x.code with
  | call c k => rfl
  | abort why =>
      rw [hx] at hcode
      exact hcode.elim
  | done res =>
      rw [hx] at hcode
      obtain ⟨res, u⟩ := res
      rcases hphase with rfl | rfl <;> cases res <;> simp [Tree.wp, Push.Post] at hcode

theorem PushSound.failed {q : Config} {d : Disk} {i : ℕ} {x : Push} {phase : Phase}
    (h : PushSound q d i x phase) (hfailed : x.failed = true) (path : Path) :
    d.find path ≠ some (.made i) := by
  have hcode := h.code
  intro hpath
  have hphase := h.placed.here path hpath
  unfold Push.failed at hfailed
  cases hx : x.code with
  | call c k => simp [hx] at hfailed
  | abort why =>
      rw [hx] at hcode
      exact hcode.elim
  | done res =>
      rw [hx] at hcode hfailed
      obtain ⟨res, u⟩ := res
      cases res with
      | ok a => simp at hfailed
      | error e =>
          rcases hphase with ⟨rfl, -⟩ | ⟨rfl, -⟩ <;> simp [Tree.wp, Push.Post] at hcode

section
variable {q : Config} {d d' : Disk} {i j : ℕ} {x y : Push} {phase phase' phase₂ : Phase}

theorem Placed.moved (h : Placed q d i x phase) (hne : x.sName q ≠ x.sTmpName q)
    (hm : Moved (x.sName q) (x.sTmpName q) x.aWriter i d d' phase phase') :
    Placed q d' i x phase' := by
  cases hm with
  | stays _ hfind hfile =>
      refine ⟨hfind ▸ h.here, hfind ▸ h.tmp, hfind ▸ h.absent, fun hq => ?_⟩
      rw [hfile hq]
      exact h.whole hq
  | checks hfind habsent =>
      refine ⟨fun path hpath => ?_, nofun, fun _ => hfind ▸ habsent, nofun⟩
      rw [hfind] at hpath
      simpa using h.here path hpath
  | opens habsent hfind =>
      refine ⟨fun path hpath => ?_, fun _ => by rw [hfind, if_pos rfl], fun _ => ?_, nofun⟩
      · rw [hfind] at hpath
        split at hpath
        next hp => exact Or.inl ⟨rfl, hp⟩
        next => simpa using h.here path hpath
      · rw [hfind, if_neg hne]
        exact h.absent (Or.inl rfl)
  | renames hwhole ino hino hfind =>
      refine ⟨fun path hpath => ?_, nofun, nofun, fun _ => hwhole⟩
      rw [hfind] at hpath
      split at hpath
      next hp => exact Or.inr ⟨rfl, hp⟩
      next =>
        split at hpath
        next => cases hpath
        next hp => simpa [hp] using h.here path hpath
  | removes _ hphase hfind =>
      refine ⟨fun path hpath => ?_, nofun, nofun, nofun⟩
      rw [hfind] at hpath
      split at hpath
      next => cases hpath
      next hp =>
        rcases hphase with rfl | rfl
        · simpa using h.here path hpath
        · simpa [hp] using h.here path hpath

/-- A push removes nothing but its temporary file: the final name is free when it renames. -/
theorem Moved.kept (hm : Moved (x.sName q) (x.sTmpName q) x.aWriter i d d' phase phase')
    (hi : Placed q d i x phase) {path : Path} {ino : Ino} (htmp : path ≠ x.sTmpName q)
    (h : d.find path = some ino) : d'.find path = some ino := by
  cases hm with
  | stays _ hfind _ => rwa [hfind]
  | checks hfind _ => rwa [hfind]
  | opens _ hfind => rwa [hfind, if_neg htmp]
  | renames _ _ _ hfind =>
      have hname : path ≠ x.sName q := by
        rintro rfl
        rw [hi.absent (Or.inr rfl)] at h
        cases h
      rwa [hfind, if_neg hname, if_neg htmp]
  | removes _ _ hfind => rwa [hfind, if_neg htmp]

theorem Moved.made (hm : Moved (x.sName q) (x.sTmpName q) x.aWriter i d d' phase phase')
    (hi : Placed q d i x phase) {path : Path} {j : ℕ} (h : d'.find path = some (.made j)) :
    j = i ∨ d.find path = some (.made j) := by
  cases hm with
  | stays _ hfind _ => exact Or.inr (hfind ▸ h)
  | checks hfind _ => exact Or.inr (hfind ▸ h)
  | opens _ hfind =>
      rw [hfind] at h
      split at h
      next => cases h; exact Or.inl rfl
      next => exact Or.inr h
  | renames _ ino hino hfind =>
      rw [hi.tmp rfl] at hino
      cases hino
      rw [hfind] at h
      split at h
      next => cases h; exact Or.inl rfl
      next =>
        split at h
        next => cases h
        next => exact Or.inr h
  | removes _ _ hfind =>
      rw [hfind] at h
      split at h
      next => cases h
      next => exact Or.inr h

/-- A push gives only its own names to a file. -/
theorem Moved.absent (hm : Moved (x.sName q) (x.sTmpName q) x.aWriter i d d' phase phase')
    {path : Path} (hname : path ≠ x.sName q) (htmp : path ≠ x.sTmpName q)
    (h : d.find path = none) : d'.find path = none := by
  cases hm with
  | stays _ hfind _ => rwa [hfind]
  | checks hfind _ => rwa [hfind]
  | opens _ hfind => rwa [hfind, if_neg htmp]
  | renames _ _ _ hfind => rwa [hfind, if_neg hname, if_neg htmp]
  | removes _ _ hfind => rwa [hfind, if_neg htmp]

/-- A call of another push, whose names differ from those of a push that is under way. -/
theorem Placed.other (h : Placed q d j y phase₂) (hi : Placed q d i x phase)
    (hm : Moved (x.sName q) (x.sTmpName q) x.aWriter i d d' phase phase') (hij : j ≠ i)
    (hfile : d'.files j = d.files j) (hname : y.sName q ≠ x.sTmpName q)
    (hactive : phase₂ = .checked ∨ phase₂ = .writing →
      y.sName q ≠ x.sName q ∧ y.sTmpName q ≠ x.sTmpName q) :
    Placed q d' j y phase₂ := by
  constructor
  · intro path hpath
    exact h.here path ((hm.made hi hpath).resolve_left hij)
  · intro hwriting
    exact hm.kept hi (hactive (Or.inr hwriting)).2 (h.tmp hwriting)
  · intro hopen
    exact hm.absent (hactive hopen).1 hname (h.absent hopen)
  · intro hqueued
    rw [hfile]
    exact h.whole hqueued

/-- The consumer removes no temporary file. -/
theorem Placed.unlink (h : Placed q d i x phase) {path : Path} (htmp : path ≠ x.sTmpName q) :
    Placed q (d.unlink path) i x phase := by
  refine ⟨fun path' hpath => ?_, fun hw => ?_, fun ha => ?_, h.whole⟩
  · rw [Disk.find_unlink] at hpath
    split at hpath
    next => cases hpath
    next => exact h.here path' hpath
  · rw [Disk.find_unlink, if_neg htmp.symm]
    exact h.tmp hw
  · rw [Disk.find_unlink, h.absent ha, ite_self]

end

/-- A file of the queue, as the consumer sees it. -/
def Visible (q : Config) (d : Disk) (path : Path) : Prop :=
  ∃ ino, d.find path = some ino ∧ q.consumer.takes path ino = true

/-- A pass is the sorted listing, handed out from the front. The last file handed out
may be one that was not removed; if the pass broke off, it is the file at which it did. -/
structure Pass.Ordered (pass : Pass) : Prop where
  sorted : pass.files.Pairwise (· ≤ ·)
  before : ∀ path ∈ pass.before, path ∈ pass.files
  handed : pass.handed <+: pass.files
  last : ∃ last : Option Path, pass.handed = pass.finished ++ last.toList ∧
    ∀ x, pass.failed = some x → last = some x

/-- The pass at work, with the files it has still to finish. -/
structure InPass (q : Config) (d : Disk) (pass : Pass) (todo : List Path) : Prop where
  files : pass.files = pass.finished ++ todo
  sorted : pass.files.Pairwise (· ≤ ·)
  before : ∀ path ∈ pass.before, path ∈ pass.files
  failed : pass.failed = none
  nodup : todo.Nodup
  visible : ∀ path ∈ todo, Visible q d path

structure Listing (q : Config) (d : Disk) (before seen sResult : List Path) : Prop where
  nodup : sResult.Nodup
  visible : ∀ path ∈ sResult, path ∈ seen ∧ Visible q d path
  before : ∀ path ∈ before, Visible q d path ∧ (path ∈ seen → path ∈ sResult)

def PcSound (q : Config) (d : Disk) (returned : List (Path × Ino)) : Pc → Prop
  | .idle => True
  | .exited => True
  | .listing before seen sResult => Listing q d before seen sResult
  | .looping pass rest => InPass q d pass rest ∧ pass.handed = pass.finished
  | .handling pass x rest => InPass q d pass (x :: rest) ∧ pass.handed = pass.finished ++ [x]
  | .removing pass x rest => InPass q d pass (x :: rest) ∧ pass.handed = pass.finished ++ [x] ∧
      ∀ ino, d.find x = some ino → (x, ino) ∈ returned

structure Sound (q : Config) (s : State) : Prop where
  pushes : ∀ i x, s.pushes[i]? = some x → ∃ phase, PushSound q s.disk i x phase
  made : ∀ path i, s.disk.find path = some (.made i) → i < s.pushes.length
  distinct : ∀ (i j : ℕ) (x y : Push), i ≠ j → s.pushes[i]? = some x → s.pushes[j]? = some y →
    x.running = true → y.running = true → x.aName ≠ y.aName
  ordered : ∀ pass ∈ s.passes, pass.Ordered
  allDone : ∀ pass ∈ s.passes, pass.failed = none → pass.finished = pass.files
  pc : PcSound q s.disk s.returned s.pc

/-- Nothing that is called while an exception unwinds the stack of a push fails. -/
def spared (s : State) : Action → Bool
  | .call i r => s.pushes[i]?.all fun x =>
      match x.code with
      | .call (c, true) _ => !c.fails r
      | _ => true
  | _ => true

section
variable {q : Config} {s s' : State} {d d' : Disk} {returned : List (Path × Ino)}

theorem InPass.ordered {pass : Pass} {x : Path} {rest : List Path}
    (h : InPass q d pass (x :: rest)) (hhanded : pass.handed = pass.finished ++ [x]) :
    pass.Ordered := by
  refine ⟨h.sorted, h.before, ?_, some x, hhanded, fun y hy => ?_⟩
  · rw [hhanded, h.files]
    exact ⟨rest, by simp⟩
  · rw [h.failed] at hy
    cases hy

theorem InPass.ordered_fails {pass : Pass} {x : Path} {rest : List Path}
    (h : InPass q d pass (x :: rest)) (hhanded : pass.handed = pass.finished ++ [x]) :
    ({ pass with failed := some x } : Pass).Ordered :=
  ⟨h.sorted, h.before, (h.ordered hhanded).handed, some x, hhanded, fun _ hy => hy⟩

theorem InPass.ordered_looping {pass : Pass} {rest : List Path} (h : InPass q d pass rest)
    (hhanded : pass.handed = pass.finished) : pass.Ordered := by
  refine ⟨h.sorted, h.before, ?_, none, by simpa using hhanded, fun y hy => ?_⟩
  · rw [hhanded, h.files]
    exact ⟨rest, rfl⟩
  · rw [h.failed] at hy
    cases hy

/-- Files of the queue that stay where they are keep the worker going. -/
theorem PcSound.mono (hkept : ∀ path ino, q.consumer.takes path ino = true →
      d.find path = some ino → d'.find path = some ino) {pc : Pc}
    (h : PcSound q d returned pc) : PcSound q d' returned pc := by
  have hvisible : ∀ path, Visible q d path → Visible q d' path := by
    rintro path ⟨ino, hfind, htakes⟩
    exact ⟨ino, hkept path ino htakes hfind, htakes⟩
  have hpass : ∀ pass todo, InPass q d pass todo → InPass q d' pass todo := fun pass todo h =>
    ⟨h.files, h.sorted, h.before, h.failed, h.nodup,
      fun path hp => hvisible path (h.visible path hp)⟩
  cases pc with
  | idle => trivial
  | exited => trivial
  | listing before seen sResult =>
      exact ⟨h.nodup, fun path hp => ⟨(h.visible path hp).1, hvisible path (h.visible path hp).2⟩,
        fun path hp => ⟨hvisible path (h.before path hp).1, (h.before path hp).2⟩⟩
  | looping pass rest => exact ⟨hpass _ _ h.1, h.2⟩
  | handling pass x rest => exact ⟨hpass _ _ h.1, h.2⟩
  | removing pass x rest =>
      refine ⟨hpass _ _ h.1, h.2.1, fun ino hino => ?_⟩
      obtain ⟨ino', hfind, htakes⟩ := h.1.visible x List.mem_cons_self
      rw [hkept x ino' htakes hfind] at hino
      cases hino
      exact h.2.2 _ hfind

variable (hproducer : NotTmp q.producer.ext) (hconsumer : NotTmp q.consumer.ext)

include hproducer in
theorem sName_ne_sTmpName (x y : Push) : x.sName q ≠ y.sTmpName q := by
  intro h
  apply hproducer (q.producer.base ++ slash :: dot :: y.aName ++ hash :: y.sRandom)
  have hsuffix : q.producer.ext <:+ x.sName q := List.suffix_append_of_suffix
    (List.suffix_cons dot q.producer.ext)
  rw [h] at hsuffix
  exact hsuffix

include hconsumer in
theorem ne_sTmpName_of_takes {path : Path} {ino : Ino} (h : q.consumer.takes path ino = true)
    (x : Push) : path ≠ x.sTmpName q := by
  rintro rfl
  apply hconsumer (q.producer.base ++ slash :: dot :: x.aName ++ hash :: x.sRandom)
  simp only [Params.takes, Bool.and_eq_true, List.isSuffixOf_iff_suffix] at h
  exact h.2

include hproducer hconsumer in
theorem Sound.call (h : Sound q s) {i : ℕ} {x : Push} (hx : s.pushes[i]? = some x)
    {c : Sys × Bool} {k : Option ℕ → Tree (Sys × Bool) (Option ℕ) (Except Unit Unit × Unit)}
    (hcode : x.code = .call c k) {r : Option ℕ} {d' : Disk}
    (hans : s.disk.answer i c.1 r = some d') (hspared : c.2 = true → c.1.fails r = false) :
    Sound q { s with disk := d', pushes := s.pushes.set i { x with code := k r } } := by
  obtain ⟨phase, hpush⟩ := h.pushes i x hx
  have hwp := hpush.code
  rw [hcode] at hwp
  obtain ⟨hturn, hfiles, hm⟩ := answer_spec hwp.1 hans
  have hrunning : x.running = true := by rw [Push.running, hcode]
  have hi : i < s.pushes.length := (List.getElem?_eq_some_iff.mp hx).1
  refine ⟨fun j y hy => ?_, fun path j hj => ?_, fun j j' y y' hne hy hy' hr hr' => ?_,
    h.ordered, h.allDone, ?_⟩
  · rw [List.getElem?_set] at hy
    split at hy
    next hji =>
      subst hji
      cases hy
      obtain ⟨hhere, htmp, habsent, hwhole⟩ :=
        hpush.placed.moved (sName_ne_sTmpName hproducer x x) hm
      exact ⟨phase.next c.1 r, hwp.2 r ⟨phase.next c.1 r, d'.files i⟩
        ⟨rfl, hturn, hspared⟩, ⟨hhere, htmp, habsent, hwhole⟩, hpush.random⟩
    next hji =>
      obtain ⟨phase₂, hsound⟩ := h.pushes j y hy
      have hfile := hfiles j (Ne.symm hji)
      refine ⟨phase₂, hfile ▸ hsound.code, ?_, hsound.random⟩
      refine hsound.placed.other hpush.placed hm (Ne.symm hji) hfile
        (sName_ne_sTmpName hproducer y x) fun hactive => ?_
      have hnames := h.distinct j i y x (Ne.symm hji) hy hx (hsound.running hactive) hrunning
      exact ⟨fun heq => hnames (q.producer.name_injective heq),
        fun heq => hnames (q.producer.tmpName_injective hsound.random hpush.random heq)⟩
  · rw [List.length_set]
    rcases hm.made hpush.placed hj with rfl | hold
    · exact hi
    · exact h.made path j hold
  · -- the push was running before the call too, and has the same name
    have hold : ∀ (j : ℕ) (y : Push), (s.pushes.set i { x with code := k r })[j]? = some y →
        y.running = true → ∃ z, s.pushes[j]? = some z ∧ z.running = true ∧ z.aName = y.aName := by
      intro j y hy hr
      rw [List.getElem?_set] at hy
      split at hy
      next hji =>
        subst hji
        cases hy
        exact ⟨x, hx, hrunning, rfl⟩
      next => exact ⟨y, hy, hr, rfl⟩
    obtain ⟨z, hz, hzr, hzname⟩ := hold j y hy hr
    obtain ⟨z', hz', hzr', hzname'⟩ := hold j' y' hy' hr'
    rw [← hzname, ← hzname']
    exact h.distinct j j' z z' hne hz hz' hzr hzr'
  · exact h.pc.mono fun path ino htakes hfind =>
      hm.kept hpush.placed (ne_sTmpName_of_takes hconsumer htakes x) hfind

theorem Sound.push (h : Sound q s) {aName : Bytes} {draws : Fin 8 → Fin 62}
    {aWriter : Callback}
    (hfree : ∀ x ∈ s.pushes, x.running = true → x.aName ≠ aName) :
    Sound q { s with pushes := s.pushes ++ [⟨aName, randomStr draws, aWriter,
      push q.producer aName (randomStr draws) aWriter false ()⟩] } := by
  have hget : ∀ (i : ℕ) (x : Push), (s.pushes ++ [(⟨aName, randomStr draws, aWriter,
      DiskQueue.push q.producer aName (randomStr draws) aWriter false ()⟩ : Push)])[i]? = some x →
      s.pushes[i]? = some x ∨ i = s.pushes.length ∧ x.aName = aName ∧ x = ⟨aName, randomStr draws,
        aWriter, DiskQueue.push q.producer aName (randomStr draws) aWriter false ()⟩ := by
    intro i x hx
    rw [List.getElem?_append] at hx
    split at hx
    next => exact Or.inl hx
    next hi =>
      rw [List.getElem?_singleton] at hx
      split at hx
      next => cases hx; exact Or.inr ⟨by omega, rfl, rfl⟩
      next => cases hx
  refine ⟨fun i x hx => ?_, fun path i hi => ?_, fun i j x y hne hx hy hr hr' => ?_, h.ordered,
    h.allDone, h.pc⟩
  · rcases hget i x hx with hold | ⟨rfl, -, rfl⟩
    · exact h.pushes i x hold
    · have hspec := push_spec q.producer aName draws aWriter s.pushes.length
        (v := ⟨.started, s.disk.files s.pushes.length⟩) rfl
      refine ⟨.started, Tree.wp_mono (fun res v hres => ?_) hspec,
        ⟨fun path hpath => ?_, nofun, by simp, nofun⟩, hash_notMem_randomStr draws⟩
      · obtain ⟨res, u⟩ := res
        cases res <;> exact hres
      · exact absurd (h.made path _ hpath) (Nat.lt_irrefl _)
  · rw [List.length_append]
    exact Nat.lt_of_lt_of_le (h.made path i hi) (Nat.le_add_right _ _)
  · rcases hget i x hx with hold | ⟨hi, hname, -⟩
    · rcases hget j y hy with hold' | ⟨-, hname', -⟩
      · exact h.distinct i j x y hne hold hold' hr hr'
      · rw [hname']
        exact hfree x (List.mem_of_getElem? hold) hr
    · rcases hget j y hy with hold' | ⟨hj, -, -⟩
      · rw [hname]
        exact (hfree y (List.mem_of_getElem? hold') hr').symm
      · exact absurd (hi.trans hj.symm) hne

theorem visible_of_mem_queue {path : Path} (h : path ∈ d.queue q.consumer) :
    Visible q d path := by
  simp only [Disk.queue, List.mem_filter, Bool.and_eq_true, Option.any_eq_true] at h
  exact h.2.2

theorem Listing.start (d : Disk) : Listing q d (d.queue q.consumer) [] [] := by
  refine ⟨List.nodup_nil, by simp, fun path hp => ⟨visible_of_mem_queue hp, by simp⟩⟩

theorem Listing.read {before seen sResult : List Path} (h : Listing q d before seen sResult)
    {path : Path} {ino : Ino} (hfind : d.find path = some ino) (hseen : path ∉ seen) :
    Listing q d before (path :: seen)
      (if q.consumer.takes path ino then sResult ++ [path] else sResult) := by
  have hnew : path ∉ sResult := fun hmem => hseen (h.visible path hmem).1
  cases htakes : q.consumer.takes path ino with
  | true =>
      refine ⟨?_, fun y hy => ?_, fun y hy => ⟨(h.before y hy).1, fun hmem => ?_⟩⟩
      · exact h.nodup.append (List.nodup_singleton path) (List.disjoint_singleton.mpr hnew)
      · rcases List.mem_append.mp hy with hold | hlast
        · exact ⟨List.mem_cons_of_mem _ (h.visible y hold).1, (h.visible y hold).2⟩
        · cases List.mem_singleton.mp hlast
          exact ⟨List.mem_cons_self, ino, hfind, htakes⟩
      · rcases List.mem_cons.mp hmem with rfl | hold
        · simp
        · exact List.mem_append_left _ ((h.before y hy).2 hold)
  | false =>
      refine ⟨h.nodup, fun y hy => ?_, fun y hy => ⟨(h.before y hy).1, fun hmem => ?_⟩⟩
      · exact ⟨List.mem_cons_of_mem _ (h.visible y hy).1, (h.visible y hy).2⟩
      · rcases List.mem_cons.mp hmem with rfl | hold
        · obtain ⟨⟨ino', hfind', htakes'⟩, -⟩ := h.before y hy
          rw [hfind] at hfind'
          cases hfind'
          rw [htakes] at htakes'
          cases htakes'
        · exact (h.before y hy).2 hold

/-- The sorted listing is the work of the pass, and no file of the queue is missing. -/
theorem Listing.inPass {before seen sResult : List Path} (h : Listing q d before seen sResult)
    (hall : ∀ path ∈ before, (d.find path).isSome → path ∈ seen) :
    InPass q d { before := before, files := sResult.insertionSort (· ≤ ·) }
      (sResult.insertionSort (· ≤ ·)) := by
  have hperm := List.perm_insertionSort (· ≤ ·) sResult
  refine ⟨rfl, List.pairwise_insertionSort _ _, fun path hp => ?_, rfl,
    hperm.nodup_iff.mpr h.nodup, fun path hp => (h.visible path (hperm.mem_iff.mp hp)).2⟩
  obtain ⟨⟨ino, hfind, -⟩, hseen⟩ := h.before path hp
  exact hperm.mem_iff.mpr (hseen (hall path hp (by rw [hfind]; rfl)))

/-- The consumer changes only its own place and what it has recorded. -/
theorem Sound.worker (h : Sound q s) {pc : Pc} {m_Stop : Bool} {m_Size : UInt32}
    {returned : List (Path × Ino)} {passes : List Pass} (hpc : PcSound q s.disk returned pc)
    (hordered : ∀ pass ∈ passes, pass.Ordered)
    (hover : ∀ pass ∈ passes, pass.failed = none → pass.finished = pass.files) :
    Sound q { s with pc, m_Stop, m_Size, returned, passes } :=
  ⟨h.pushes, h.made, h.distinct, hordered, hover, hpc⟩

theorem Sound.forall_passes (h : Sound q s) {pass : Pass} (hordered : pass.Ordered)
    (hover : pass.failed = none → pass.finished = pass.files) :
    (∀ p ∈ s.passes ++ [pass], p.Ordered) ∧
      ∀ p ∈ s.passes ++ [pass], p.failed = none → p.finished = p.files := by
  constructor <;> intro p hp
  · rcases List.mem_append.mp hp with hold | hlast
    · exact h.ordered p hold
    · cases List.mem_singleton.mp hlast
      exact hordered
  · rcases List.mem_append.mp hp with hold | hlast
    · exact h.allDone p hold
    · cases List.mem_singleton.mp hlast
      exact hover

include hconsumer in
theorem Sound.remove (h : Sound q s) {pass : Pass} {x : Path} {rest : List Path}
    (hpc : s.pc = .removing pass x rest) :
    Sound q { s with
      pc := .looping { pass with finished := pass.finished ++ [x] } rest
      disk := s.disk.unlink x } := by
  have hsound := h.pc
  rw [hpc] at hsound
  obtain ⟨hpass, hhanded, -⟩ := hsound
  obtain ⟨ino, -, htakes⟩ := hpass.visible x List.mem_cons_self
  obtain ⟨hx, hnodup⟩ := List.nodup_cons.mp hpass.nodup
  refine ⟨fun i y hy => ?_, fun path i hi => ?_, h.distinct, h.ordered, h.allDone, ⟨?_, ?_, ?_, ?_,
    hnodup, fun path hp => ?_⟩, hhanded⟩
  · obtain ⟨phase, hpush⟩ := h.pushes i y hy
    exact ⟨phase, hpush.code, hpush.placed.unlink (ne_sTmpName_of_takes hconsumer htakes y),
      hpush.random⟩
  · simp only [Disk.find_unlink] at hi
    split at hi
    next => cases hi
    next => exact h.made path i hi
  · simpa using hpass.files
  · exact hpass.sorted
  · exact hpass.before
  · exact hpass.failed
  · obtain ⟨ino', hfind, htakes'⟩ := hpass.visible path (List.mem_cons_of_mem _ hp)
    refine ⟨ino', ?_, htakes'⟩
    rw [Disk.find_unlink, if_neg]
    · exact hfind
    · rintro rfl
      exact hx hp

include hproducer hconsumer in
theorem Sound.of_act (h : Sound q s) {a : Action} (hspared : spared s a = true)
    (hact : act q s a = some s') : Sound q s' := by
  have hpc := h.pc
  cases a with
  | push aName draws aWriter =>
      simp only [act, Option.ite_none_right_eq_some] at hact
      obtain ⟨hfree, hact⟩ := hact
      cases hact
      refine h.push fun x hx hr => ?_
      simpa [hr] using List.all_eq_true.mp hfree x hx
  | call i r =>
      obtain ⟨x, c, k, d', hx, hcode, hans, rfl⟩ := act_call hact
      refine h.call hproducer hconsumer hx hcode hans fun hu => ?_
      obtain ⟨c, u⟩ := c
      cases hu
      simpa [spared, hx, hcode] using hspared
  | stop =>
      cases hact
      exact h.worker hpc h.ordered h.allDone
  | openDir =>
      simp only [act] at hact
      split at hact
      next hidle =>
        split at hact
        next => cases hact; exact h.worker trivial h.ordered h.allDone
        next =>
          cases hact
          exact h.worker (Listing.start s.disk) h.ordered h.allDone
      next => cases hact
  | readDir path =>
      simp only [act] at hact
      split at hact
      next before seen sResult ino hlisting hfind =>
        rw [hlisting] at hpc
        simp only [Option.ite_none_right_eq_some] at hact
        obtain ⟨⟨-, hseen⟩, hact⟩ := hact
        cases hact
        exact h.worker (Listing.read hpc hfind hseen) h.ordered h.allDone
      next => cases hact
  | listFails =>
      simp only [act] at hact
      split at hact
      next => cases hact; exact h.worker trivial h.ordered h.allDone
      next => cases hact
  | listed =>
      simp only [act] at hact
      split at hact
      next before seen sResult hlisting =>
        rw [hlisting] at hpc
        split at hact
        next hall =>
          split at hact
          next => cases hact; exact h.worker trivial h.ordered h.allDone
          next =>
            cases hact
            exact h.worker ⟨Listing.inPass hpc hall, rfl⟩ h.ordered h.allDone
        next => cases hact
      next => cases hact
  | next =>
      simp only [act] at hact
      split at hact
      next pass x rest hlooping =>
        rw [hlooping] at hpc
        obtain ⟨hpass, hhanded⟩ := hpc
        cases hact
        refine h.worker ⟨⟨hpass.files, hpass.sorted, hpass.before, hpass.failed, hpass.nodup,
          hpass.visible⟩, ?_⟩ h.ordered h.allDone
        rw [hhanded]
      next pass hlooping =>
        rw [hlooping] at hpc
        obtain ⟨hpass, hhanded⟩ := hpc
        cases hact
        have hfinished : pass.finished = pass.files := by simp [hpass.files]
        obtain ⟨hordered, hover⟩ := h.forall_passes (hpass.ordered_looping hhanded)
          fun _ => hfinished
        exact h.worker trivial hordered hover
      next => cases hact
  | handler returns =>
      cases returns with
      | true =>
          simp only [act] at hact
          split at hact
          next pass x rest hhandling =>
            rw [hhandling] at hpc
            cases hact
            refine h.worker ⟨hpc.1, hpc.2, fun ino hino => ?_⟩ h.ordered h.allDone
            simp [hino]
          next => cases hact
      | false =>
          simp only [act] at hact
          split at hact
          next pass x rest hhandling =>
            rw [hhandling] at hpc
            cases hact
            obtain ⟨hordered, hover⟩ := h.forall_passes (hpc.1.ordered_fails hpc.2)
              (by simp)
            exact h.worker trivial hordered hover
          next => cases hact
  | remove r =>
      cases r with
      | none =>
          obtain ⟨pass, x, rest, hremoving, rfl⟩ := act_remove_none hact
          rw [hremoving] at hpc
          obtain ⟨hordered, hover⟩ := h.forall_passes (hpc.1.ordered_fails hpc.2.1)
            (by simp)
          exact h.worker trivial hordered hover
      | some n =>
          obtain ⟨pass, x, rest, hremoving, rfl⟩ := act_remove_some hact
          exact h.remove hconsumer hremoving

/-! ## Delivery -/

end

/-- The file at work or lying in wait: it was there from the start, or its push has
written all of it. -/
def State.Complete (s : State) : Ino → Prop
  | .old _ => True
  | .made i => ∃ x, s.pushes[i]? = some x ∧ Whole x.aWriter (s.disk.files i)

/-- The pass the worker is in. -/
def Pc.pass : Pc → Option Pass
  | .looping pass _ => some pass
  | .handling pass _ _ => some pass
  | .removing pass _ _ => some pass
  | _ => none

/-- At-least-once delivery. -/
structure Delivers (q : Config) (s : State) : Prop where
  removed : ∀ a path ino, s.disk.find path = some ino → q.consumer.takes path ino = true →
    (step q s a).disk.find path = some ino ∨ (path, ino) ∈ s.returned
  ordered : ∀ pass ∈ s.passes ++ s.pc.pass.toList, pass.Ordered
  allDone : ∀ pass ∈ s.passes, pass.failed = none → pass.finished = pass.files
  whole : ∀ pass x rest, s.pc = .handling pass x rest →
    ∃ ino, s.disk.find x = some ino ∧ q.consumer.takes x ino = true ∧ s.Complete ino
  clean : ∀ (i : ℕ) (x : Push), s.pushes[i]? = some x → x.failed = true →
    ∀ path, s.disk.find path ≠ some (.made i)

section
variable {q : Config} {s : State}

theorem Sound.removed (hconsumer : NotTmp q.consumer.ext) (h : Sound q s) (a : Action)
    {path : Path} {ino : Ino} (hfind : s.disk.find path = some ino)
    (htakes : q.consumer.takes path ino = true) :
    (step q s a).disk.find path = some ino ∨ (path, ino) ∈ s.returned := by
  unfold step
  cases hact : act q s a with
  | none => exact Or.inl hfind
  | some s' =>
      rw [Option.getD_some]
      cases a with
      | call i r =>
          obtain ⟨x, c, k, d', hx, hcode, hans, rfl⟩ := act_call hact
          obtain ⟨phase, hpush⟩ := h.pushes i x hx
          have hwp := hpush.code
          rw [hcode] at hwp
          exact Or.inl ((answer_spec hwp.1 hans).2.2.kept hpush.placed
            (ne_sTmpName_of_takes hconsumer htakes x) hfind)
      | remove r =>
          cases r with
          | none =>
              obtain ⟨_, _, _, _, rfl⟩ := act_remove_none hact
              exact Or.inl hfind
          | some n =>
              obtain ⟨pass, x, rest, hremoving, rfl⟩ := act_remove_some hact
              by_cases hx : path = x
              · subst hx
                have hpc := h.pc
                rw [hremoving] at hpc
                exact Or.inr (hpc.2.2 ino hfind)
              · exact Or.inl (by rwa [Disk.find_unlink, if_neg hx])
      | push aName draws aWriter =>
          simp only [act, Option.ite_none_right_eq_some] at hact
          cases hact.2
          exact Or.inl hfind
      | stop =>
          cases hact
          exact Or.inl hfind
      | handler returns =>
          cases returns <;>
          · simp only [act] at hact
            split at hact <;> cases hact
            exact Or.inl hfind
      | openDir | readDir | listFails | listed | next =>
          simp only [act] at hact
          repeat' split at hact
          all_goals first | cases hact; exact Or.inl hfind | cases hact

theorem Sound.complete (hconsumer : NotTmp q.consumer.ext) (h : Sound q s) {path : Path}
    {ino : Ino} (hfind : s.disk.find path = some ino)
    (htakes : q.consumer.takes path ino = true) : s.Complete ino := by
  cases ino with
  | old regular => trivial
  | made i =>
      have hi := h.made path i hfind
      obtain ⟨phase, hpush⟩ := h.pushes i _ (List.getElem?_eq_getElem hi)
      refine ⟨_, List.getElem?_eq_getElem hi, ?_⟩
      rcases hpush.placed.here path hfind with ⟨-, hpath⟩ | ⟨hqueued, -⟩
      · exact absurd hpath (ne_sTmpName_of_takes hconsumer htakes _)
      · exact hpush.placed.whole hqueued

theorem Sound.delivers (hconsumer : NotTmp q.consumer.ext) (h : Sound q s) : Delivers q s := by
  have hpc := h.pc
  refine ⟨fun a path ino hfind htakes => h.removed hconsumer a hfind htakes, fun pass hp => ?_,
    h.allDone, fun pass x rest hhandling => ?_, fun i x hx hfailed => ?_⟩
  · rcases List.mem_append.mp hp with hold | hcurrent
    · exact h.ordered pass hold
    · cases hstate : s.pc with
      | looping pass' rest =>
          rw [hstate] at hpc hcurrent
          cases List.mem_singleton.mp hcurrent
          exact hpc.1.ordered_looping hpc.2
      | handling pass' x rest =>
          rw [hstate] at hpc hcurrent
          cases List.mem_singleton.mp hcurrent
          exact hpc.1.ordered hpc.2
      | removing pass' x rest =>
          rw [hstate] at hpc hcurrent
          cases List.mem_singleton.mp hcurrent
          exact hpc.1.ordered hpc.2.1
      | _ =>
          rw [hstate] at hcurrent
          cases hcurrent
  · rw [hhandling] at hpc
    obtain ⟨ino, hfind, htakes⟩ := hpc.1.visible x List.mem_cons_self
    exact ⟨ino, hfind, htakes, h.complete hconsumer hfind htakes⟩
  · obtain ⟨phase, hpush⟩ := h.pushes i x hx
    exact hpush.failed hfailed

theorem Sound.start (q : Config) (entries : List (Path × Bool)) :
    Sound q (State.start entries) := by
  refine ⟨nofun, fun path i hfind => ?_, nofun, nofun, nofun, trivial⟩
  simp only [Disk.find, Option.map_eq_some_iff] at hfind
  obtain ⟨e, he, hino⟩ := hfind
  have hmem := List.mem_of_find?_eq_some he
  simp only [State.start, List.mem_map] at hmem
  obtain ⟨e', -, rfl⟩ := hmem
  cases hino

end

/-- Every file of the queue is removed only after the handler returned for it, passes
go in sorted order up to the first failure, what the handler gets is whole, and a push
that fails leaves nothing, as long as no call fails that a push makes while an
exception unwinds its stack. -/
theorem diskQueue_delivers (q : Config) (hproducer : NotTmp q.producer.ext)
    (hconsumer : NotTmp q.consumer.ext) (entries : List (Path × Bool)) (as : List Action)
    (has : Meets (step q) (fun s a => spared s a = true) (State.start entries) as) :
    Delivers q (run (step q) (State.start entries) as) := by
  refine Sound.delivers hconsumer
    (run_invariant (fun s a hs hspared => ?_) (Sound.start q entries) has)
  unfold step
  cases hact : act q s a with
  | none => exact hs
  | some s' => exact hs.of_act hproducer hconsumer hspared hact

/-- The queue `/q` with the extension `bin`. -/
def binQueue : Config := ⟨⟨[0x2f, 0x71], [0x62, 0x69, 0x6e]⟩, ⟨[0x2f, 0x71], [0x62, 0x69, 0x6e]⟩⟩

theorem notTmp_bin : NotTmp [0x62, 0x69, 0x6e] := by
  rintro path ⟨front, h⟩
  have hlast := congrArg List.getLast? h
  simp [dotTmp] at hlast

/-- A writer of three bytes. -/
def threeBytes : Callback := .op (.write [1, 2, 3]) fun ok => if ok then .returns else .throws

/-- The file is queued, and the consumer handles and removes it. -/
def queuedRun : List Action :=
  [.push [0x61] (fun _ => 0) threeBytes, .call 0 (some 0), .call 0 (some 0), .call 0 (some 3),
    .call 0 (some 0), .call 0 (some 0), .call 0 (some 0), .openDir,
    .readDir (binQueue.producer.name [0x61]), .listed, .next, .handler true, .remove (some 1),
    .next]

theorem diskQueue_delivers_queued :
    Meets (step binQueue) (fun s a => spared s a = true) (State.start []) queuedRun ∧
      (run (step binQueue) (State.start []) queuedRun).passes.map Pass.finished =
        [[binQueue.producer.name [0x61]]] ∧
      Delivers binQueue (run (step binQueue) (State.start []) queuedRun) := by
  have has : Meets (step binQueue) (fun s a => spared s a = true) (State.start []) queuedRun := by
    decide
  exact ⟨has, by decide, diskQueue_delivers binQueue notTmp_bin notTmp_bin [] queuedRun has⟩

/-- The disk is full: `sync` fails to write, and so does the destructor of `BufWriter`
while the exception unwinds the stack. -/
def fullRun : List Action :=
  [.push [0x61] (fun _ => 0) threeBytes, .call 0 (some 0), .call 0 (some 0), .call 0 none,
    .call 0 none]

/-- The program is terminated inside the push, and the temporary file stays. -/
theorem diskQueue_leaves_tmp :
    NotTmp binQueue.producer.ext ∧ NotTmp binQueue.consumer.ext ∧
      (run (step binQueue) (State.start []) fullRun).pushes.map Push.failed = [true] ∧
      (run (step binQueue) (State.start []) fullRun).disk.dir =
        [(binQueue.producer.tmpName [0x61] (randomStr fun _ => 0), .made 0)] ∧
      ¬Delivers binQueue (run (step binQueue) (State.start []) fullRun) := by
  have hfailed :
      (run (step binQueue) (State.start []) fullRun).pushes.map Push.failed = [true] := by
    decide
  have hdir : (run (step binQueue) (State.start []) fullRun).disk.dir =
      [(binQueue.producer.tmpName [0x61] (randomStr fun _ => 0), .made 0)] := by
    decide
  refine ⟨notTmp_bin, notTmp_bin, hfailed, hdir, fun h => ?_⟩
  generalize run (step binQueue) (State.start []) fullRun = s at *
  cases hpushes : s.pushes with
  | nil => simp [hpushes] at hfailed
  | cons x xs =>
      simp only [hpushes, List.map_cons, List.cons.injEq] at hfailed
      apply h.clean 0 x (by simp [hpushes]) hfailed.1
        (binQueue.producer.tmpName [0x61] (randomStr fun _ => 0))
      simp [Disk.find, hdir]

end Stuff.DiskQueue
