import Stuff.ContainerStream
import Stuff.EventRuns

/-!
# Calls of an `imemstream`

The check before each access adds the size that is asked for to the offset, in `size_t`. The sum of
a size that is too large may wrap to one that is small enough.
-/
namespace Stuff.ContainerStreamBounds
open EventRuns MachineWords ContainerStream

inductive Call
  | read (aSize : UInt64)
  | skip (aSize : UInt64)
  | substring (aSize : UInt64)
  | rest
  | substrAt (aOffset aSize : UInt64)
  | unget
deriving DecidableEq, Repr

/-- The bytes that a call returns, and the stream it leaves, or an exception. -/
def access (s : Imemstream) : Call → Except String (Bytes × Imemstream)
  | .read aSize => s.substring aSize.toNat
  | .skip aSize => (s.skip aSize.toNat).map fun t => ([], t)
  | .substring aSize => s.substring aSize.toNat
  | .rest => s.rest
  | .substrAt aOffset aSize => (s.substrAt aOffset.toNat aSize.toNat).map fun bytes => (bytes, s)
  | .unget => s.unget.map fun t => ([], t)

/-- An exception leaves the stream as it was. -/
def step (s : Imemstream) (c : Call) : Imemstream :=
  match access s c with
  | .ok (_, t) => t
  | .error _ => s

/-- The `memcpy` of a `read` that was let through goes over the end of the buffer. -/
def Overreads (s : Imemstream) : Call → Prop
  | .read aSize => s.ensure aSize.toNat ∧ s.data.length < s.offset + aSize.toNat
  | _ => False

/-- The bytes that are asked for are there; `unget` asks for one in front of the offset. -/
def Remains (s : Imemstream) : Call → Prop
  | .read aSize => s.offset + aSize.toNat ≤ s.data.length
  | .skip aSize => s.offset + aSize.toNat ≤ s.data.length
  | .substring aSize => s.offset + aSize.toNat ≤ s.data.length
  | .rest => True
  | .substrAt aOffset aSize => aOffset.toNat + aSize.toNat ≤ s.data.length
  | .unget => 0 < s.offset

structure Sound (s : Imemstream) (c : Call) : Prop where
  inside : (step s c).offset ≤ s.data.length
  succeeds : (∃ r, access s c = .ok r) ↔ Remains s c
  defined : ¬ Overreads s c
  fails : ∀ what, access s c = .error what → step s c = s

/-- The sum in the check does not wrap, or not to a position in the buffer. -/
def NoWrap (s : Imemstream) (aOffset aSize : ℕ) : Prop :=
  aOffset + aSize < 2 ^ 64 ∨ 2 ^ 64 + s.data.length < aOffset + aSize

instance (s : Imemstream) (aOffset aSize : ℕ) : Decidable (NoWrap s aOffset aSize) :=
  inferInstanceAs (Decidable (_ ∨ _))

def Checked (s : Imemstream) : Call → Prop
  | .read aSize => NoWrap s s.offset aSize.toNat
  | .skip aSize => NoWrap s s.offset aSize.toNat
  | .substring aSize => NoWrap s s.offset aSize.toNat
  | .rest => True
  | .substrAt aOffset aSize =>
      s.data.length < aOffset.toNat ∨ NoWrap s aOffset.toNat aSize.toNat
  | .unget => True

instance decidableChecked (s : Imemstream) : (c : Call) → Decidable (Checked s c)
  | .read aSize | .skip aSize | .substring aSize =>
      inferInstanceAs (Decidable (NoWrap s s.offset aSize.toNat))
  | .substrAt aOffset aSize => inferInstanceAs
      (Decidable (s.data.length < aOffset.toNat ∨ NoWrap s aOffset.toNat aSize.toNat))
  | .rest | .unget => inferInstanceAs (Decidable True)

/-! ## One call -/

structure Inv (s : Imemstream) : Prop where
  inside : s.offset ≤ s.data.length
  size : s.data.length < 2 ^ 64

theorem step_of_ok {s : Imemstream} {c : Call} {r : Bytes × Imemstream}
    (h : access s c = .ok r) : step s c = r.2 := by
  rw [step, h]

theorem step_of_error {s : Imemstream} {c : Call} {what : String}
    (h : access s c = .error what) : step s c = s := by
  rw [step, h]

section
variable {s : Imemstream}

/-- What the check lets through. -/
theorem Inv.ensure_iff (h : Inv s) (n : UInt64) :
    s.ensure n.toNat ↔ s.offset + n.toNat ≤ s.data.length ∨ ¬ NoWrap s s.offset n.toNat := by
  have hn := n.toNat_lt
  have hinside := h.inside
  have hsize := h.size
  simp only [Imemstream.ensure, NoWrap]
  omega

theorem substring_ok_iff (n : ℕ) : (∃ r, s.substring n = .ok r) ↔ s.ensure n := by
  rw [Imemstream.substring]
  split_ifs with hn
  · exact iff_of_true ⟨_, rfl⟩ hn
  · refine iff_of_false ?_ hn
    rintro ⟨r, hr⟩
    cases hr

/-- The wrapped sum is the new offset, so that is always one in the buffer. -/
theorem substring_inside {n : ℕ} {r : Bytes × Imemstream} (hr : s.substring n = .ok r) :
    r.2.data = s.data ∧ r.2.offset ≤ s.data.length := by
  rw [Imemstream.substring] at hr
  split_ifs at hr with hn
  cases hr
  rw [Imemstream.ensure, Nat.add_comm] at hn
  exact ⟨rfl, hn⟩

theorem map_eq_ok {α β : Type} {f : α → β} {x : Except String α} {b : β}
    (h : x.map f = .ok b) : ∃ a, x = .ok a ∧ f a = b := by
  cases x with
  | error what => cases h
  | ok a => exact ⟨a, rfl, Except.ok.inj h⟩

theorem skip_ok_iff (n : ℕ) :
    (∃ r, (s.skip n).map (fun t => (([] : Bytes), t)) = .ok r) ↔ ∃ r, s.substring n = .ok r := by
  rw [Imemstream.skip]
  cases s.substring n with
  | error what => simp [Except.map]
  | ok r => simp [Except.map]

theorem Inv.rest_ok (h : Inv s) : s.rest = .ok (s.data.drop s.offset,
    { s with offset := s.data.length }) :=
  Imemstream.rest_of_le h.inside h.size

theorem Inv.substrAt_ok_iff (h : Inv s) (aOffset aSize : UInt64) :
    (∃ bytes, s.substrAt aOffset.toNat aSize.toNat = .ok bytes) ↔
      aOffset.toNat + aSize.toNat ≤ s.data.length ∨
        ¬ (s.data.length < aOffset.toNat ∨ NoWrap s aOffset.toNat aSize.toNat) := by
  have ho := aOffset.toNat_lt
  have hn := aSize.toNat_lt
  have hsize := h.size
  rw [Imemstream.substrAt]
  split_ifs with hcheck hbehind
  · refine iff_of_false ?_ ?_
    · rintro ⟨bytes, hbytes⟩
      cases hbytes
    · simp only [NoWrap]
      omega
  · refine iff_of_false ?_ ?_
    · rintro ⟨bytes, hbytes⟩
      cases hbytes
    · omega
  · refine iff_of_true ⟨_, rfl⟩ ?_
    simp only [NoWrap]
    omega

/-- No call leaves the buffer. -/
theorem Inv.step (h : Inv s) (c : Call) : Inv (step s c) ∧ (step s c).data = s.data := by
  have hsame : ∀ {t : Imemstream}, t.data = s.data → t.offset ≤ s.data.length →
      Inv t ∧ t.data = s.data := by
    intro t hdata hoffset
    exact ⟨⟨hdata ▸ hoffset, hdata ▸ h.size⟩, hdata⟩
  cases haccess : access s c with
  | error what =>
      rw [step_of_error haccess]
      exact ⟨h, rfl⟩
  | ok r =>
      rw [step_of_ok haccess]
      cases c with
      | read aSize => exact hsame (substring_inside haccess).1 (substring_inside haccess).2
      | skip aSize =>
          obtain ⟨t, hskip, rfl⟩ := map_eq_ok haccess
          obtain ⟨q, hsub, rfl⟩ := map_eq_ok hskip
          exact hsame (substring_inside hsub).1 (substring_inside hsub).2
      | substring aSize => exact hsame (substring_inside haccess).1 (substring_inside haccess).2
      | rest =>
          rw [access, h.rest_ok] at haccess
          cases haccess
          exact hsame rfl (le_refl _)
      | substrAt aOffset aSize =>
          obtain ⟨bytes, -, rfl⟩ := map_eq_ok haccess
          exact hsame rfl h.inside
      | unget =>
          obtain ⟨t, hunget, rfl⟩ := map_eq_ok haccess
          rw [Imemstream.unget] at hunget
          split_ifs at hunget
          cases hunget
          exact hsame rfl (Nat.le_trans (Nat.sub_le _ _) h.inside)

/-- A call succeeds when the bytes are there, and when the sum wraps into the buffer. -/
theorem Inv.access_ok_iff (h : Inv s) (c : Call) :
    (∃ r, access s c = .ok r) ↔ Remains s c ∨ ¬ Checked s c := by
  cases c with
  | read aSize => exact (substring_ok_iff _).trans (h.ensure_iff aSize)
  | skip aSize =>
      exact ((skip_ok_iff _).trans (substring_ok_iff _)).trans (h.ensure_iff aSize)
  | substring aSize => exact (substring_ok_iff _).trans (h.ensure_iff aSize)
  | rest => exact iff_of_true ⟨_, h.rest_ok⟩ (.inl trivial)
  | substrAt aOffset aSize =>
      refine Iff.trans ?_ (h.substrAt_ok_iff aOffset aSize)
      rw [access]
      cases s.substrAt aOffset.toNat aSize.toNat with
      | error what => simp [Except.map]
      | ok bytes => simp [Except.map]
  | unget =>
      simp only [access, Imemstream.unget, Remains, Checked, not_true, or_false]
      split_ifs with hzero
      · simp [hzero, Except.map]
      · exact iff_of_true ⟨_, rfl⟩ (Nat.pos_of_ne_zero hzero)

theorem Inv.not_remains (h : Inv s) {c : Call} (hc : ¬ Checked s c) : ¬ Remains s c := by
  have hsize := h.size
  cases c with
  | rest => exact absurd trivial hc
  | unget => exact absurd trivial hc
  | _ =>
      simp only [Checked, Remains, NoWrap] at hc ⊢
      omega

theorem Inv.sound_iff (h : Inv s) (c : Call) : Sound s c ↔ Checked s c := by
  constructor
  · intro hsound
    by_contra hc
    exact h.not_remains hc (hsound.succeeds.mp ((h.access_ok_iff c).mpr (.inr hc)))
  · intro hc
    have hok : (∃ r, access s c = .ok r) ↔ Remains s c :=
      (h.access_ok_iff c).trans (or_iff_left (not_not.mpr hc))
    refine ⟨?_, hok, ?_, fun what => step_of_error⟩
    · have hstep := h.step c
      rw [← hstep.2]
      exact hstep.1.inside
    · intro hover
      cases c with
      | read aSize =>
          have hremains := hok.mp ((substring_ok_iff _).mpr hover.1)
          exact absurd hover.2 (not_lt.mpr hremains)
      | _ => exact hover

end

/-! ## Runs -/

/-- From the front of a buffer the offset never leaves it, and all calls of a run succeed just when
their bytes remain, and fail with an exception otherwise, if and only if no sum in a check wraps
into the buffer. -/
theorem run_sound_iff (data : Bytes) (hsize : data.length < 2 ^ 64) (cs : List Call) :
    (run step { data := data } cs).offset ≤ data.length ∧
      (Meets step Sound { data := data } cs ↔ Meets step Checked { data := data } cs) := by
  have hstart : Inv { data := data } := ⟨Nat.zero_le _, hsize⟩
  have hall := meets_true step { data := data } cs
  constructor
  · have hrun : Inv (run step { data := data } cs) ∧
        (run step { data := data } cs).data = data := by
      apply run_invariant (I := fun s => Inv s ∧ s.data = data) _ ⟨hstart, rfl⟩ hall
      intro s c hs _
      exact ⟨(hs.1.step c).1, (hs.1.step c).2.trans hs.2⟩
    have hinside := hrun.1.inside
    rwa [hrun.2] at hinside
  · exact meets_iff (I := Inv) (fun s c hs _ => hs.sound_iff c) (fun s c hs _ _ => (hs.step c).1)
      hstart hall

/-- The last two of three bytes, one of them again, and too many behind the end. -/
theorem run_sound_three :
    Meets step Sound { data := [1, 2, 3] }
      [.skip 1, .substring 2, .unget, .read 2, .substrAt 4 0xffffffffffffffff, .rest] :=
  (run_sound_iff [1, 2, 3] (by decide) _).2.mpr (by decide)

/-- A text in CBOR with a length of eight bytes, all of them `0xff`. -/
def longText : Bytes := [0x7b, 0xff, 0xff, 0xff, 0xff, 0xff, 0xff, 0xff, 0xff, 0x61]

/-- Behind the length, the substring of that length is let through, and the stream goes back. -/
theorem length_wraps :
    ¬ Meets step Sound { data := longText }
        [.read 1, .read 8, .substring 0xffffffffffffffff] ∧
      (run step { data := longText } [.read 1, .read 8]).offset = 9 ∧
      (run step { data := longText } [.read 1, .read 8, .substring 0xffffffffffffffff]).offset =
        8 := by
  refine ⟨?_, rfl, rfl⟩
  intro hsound
  have hremains : 9 + 0xffffffffffffffff ≤ 10 := hsound.2.2.1.succeeds.mp ⟨_, rfl⟩
  exact absurd hremains (by decide)

end Stuff.ContainerStreamBounds
