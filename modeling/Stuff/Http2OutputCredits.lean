import Stuff.Http2OutputWindows

/-!
# Which window increments the sender keeps

A window update for a stream without a body creates an entry with the raised
window, and the `flush` in the same call erases that entry again when its loop
reaches it. An update that arrives before the message is lost this way. `Held`
is what should hold of every pending body; `Keeps` is the condition on a step,
read off the state before it, under which no increment is lost.
-/
namespace Stuff.Http2OutputCredits
open MachineWords Http2Frames Http2Hpack Http2Output Http2Accounts Http2OutputWindows EventRuns

variable {N : Nghttp2}

/-- A pending body has at least the window that all updates so far grant. Id 0
stands for the connection and is no stream. -/
def Held (s : Sender N) : Prop :=
  ∀ id d, id ≠ 0 → s.output.info[id]? = some d → d.body ≠ [] →
    65535 + credited s.updates id ≤ d.budget.toNat + sentOn s id

/-- The entry of `id` still matters: it holds a body or may receive one. -/
def Live (s : Sender N) (id : UInt32) : Prop :=
  (s.output.info.getD id {}).body ≠ [] ∨ ¬ opened s id

/-- The increment does not wrap the window of a live stream. -/
def NoWrap (s : Sender N) (id inc : UInt32) : Prop :=
  id ≠ 0 → Live s id → (s.output.info.getD id {}).budget.toNat + inc.toNat < 2 ^ 32

/-- The step wraps no window of a live stream, and its `flush` reaches no entry
that holds increments for a message still to come. -/
def Keeps (s : Sender N) (e : Sender.Event) : Prop :=
  (∀ u ∈ Sender.update e, NoWrap s u.1 u.2) ∧
  ∀ o ∈ s.flushes e, ∀ x ∈ o.erased, opened s x.1 ∨ x.2.budget = defaultWindowSize

instance (s : Sender N) (id inc : UInt32) : Decidable (NoWrap s id inc) :=
  inferInstanceAs (Decidable (_ → (_ ∨ _) → _))

instance (s : Sender N) (e : Sender.Event) : Decidable (Keeps s e) :=
  @instDecidableAnd _ _ (Option.decidableForallMem (Sender.update e))
    (Option.decidableForallMem (s.flushes e))

/-- The invariant behind `Held`: before its message, a stream's entry holds all
increments, and a stream without an entry has received none. -/
structure Account (s : Sender N) : Prop where
  live : ∀ id d, id ≠ 0 → s.output.info[id]? = some d → d.body ≠ [] ∨ ¬ opened s id →
    65535 + credited s.updates id ≤ d.budget.toNat + sentOn s id
  absent : ∀ id, id ≠ 0 → s.output.info[id]? = none → ¬ opened s id →
    credited s.updates id = 0

theorem account_start : Account (Sender.start : Sender N) where
  live := by simp [Sender.start]
  absent := by simp [Sender.start]

/-- With or without an entry, a stream that still matters starts from a window
that holds all its increments. -/
theorem Account.getD {s : Sender N} (hs : Account s) {id : UInt32} (hid : id ≠ 0)
    (hlive : Live s id) :
    65535 + credited s.updates id ≤ (s.output.info.getD id {}).budget.toNat + sentOn s id := by
  unfold Live at hlive
  rw [Std.TreeMap.getD_eq_getD_getElem?] at hlive ⊢
  cases hd : s.output.info[id]? with
  | none =>
      rw [hd] at hlive
      rcases hlive with h | h
      · exact absurd rfl h
      · have hz := hs.absent id hid hd h
        simp [hz]
  | some d =>
      rw [hd] at hlive
      exact hs.live id d hid hd hlive

theorem Account.chunk {s : Sender N} (hs : Account s) (hw : Within s) {id : UInt32} {d : Info}
    {len : ℕ} (hd : s.output.info[id]? = some d) (hpos : 0 < len)
    (hwindow : len ≤ d.budget.toNat) (hbody : len ≤ d.body.length) :
    Account { s with output := s.output.sendChunk id d len } := by
  have hne : d.body ≠ [] := by
    intro h
    simp [h] at hbody
    omega
  have hopen : opened s id := by
    by_contra h
    exact hne ((hw.unopened id h).2 d hd)
  constructor
  · intro k e hk he hek
    rw [sentOn_chunk s id hbody]
    rw [Output.sendChunk_info] at he
    split_ifs at he with hik hlast
    · cases he
      subst hik
      have hl := hs.live id d hk hd (.inl hne)
      dsimp only
      rw [if_pos rfl, toNat_sub_ofNat hwindow]
      omega
    · simpa [hik] using hs.live k e hk he hek
  · intro k hk he hkopen
    have hik : id ≠ k := by
      rintro rfl
      exact hkopen hopen
    rw [Output.sendChunk_info, if_neg hik] at he
    exact hs.absent k hk he hkopen

/-- Erasing loses nothing when the entry's stream is done or its window is the
one a new entry would start with. -/
theorem Account.erase {s : Sender N} (hs : Account s) (hw : Within s) {id : UInt32} {d : Info}
    (hd : s.output.info[id]? = some d) (hQ : opened s id ∨ d.budget = defaultWindowSize) :
    Account { s with output := { s.output with info := s.output.info.erase id } } := by
  constructor
  · intro k e hk he hek
    rw [Output.erase_info] at he
    split_ifs at he
    exact hs.live k e hk he hek
  · intro k hk he hkopen
    rw [Output.erase_info] at he
    split_ifs at he with hik
    · subst hik
      have hbudget := hQ.resolve_left hkopen
      have hl := hs.live id d hk hd (.inr hkopen)
      have hz := (hw.unopened id hkopen).1
      rw [hbudget, defaultWindowSize_toNat, hz] at hl
      dsimp only
      omega
    · exact hs.absent k hk he hkopen

theorem Account.credit {s : Sender N} (hs : Account s) {id inc : UInt32}
    (hwrap : NoWrap s id inc) :
    Account { s with
      output := s.output.credit id inc
      updates := s.updates ++ [(id, inc)] } := by
  have hpushed := pushed_credit s id inc
  constructor
  · intro k d hk hd hdk
    simp only [sentOn, hpushed, credited_concat]
    rw [Output.credit_info] at hd
    split_ifs at hd with hid
    · cases hd
      obtain ⟨hid, rfl⟩ := hid
      have hsum := hwrap hid hdk
      have hold := hs.getD hid hdk
      simp only [sentOn, if_true] at hold ⊢
      rw [toNat_add_of_lt hsum]
      omega
    · have hl := hs.live k d hk hd hdk
      have hik : id ≠ k := by
        rintro rfl
        exact hid ⟨hk, rfl⟩
      simpa [hik, sentOn] using hl
  · intro k hk hd hkopen
    rw [Output.credit_info] at hd
    split_ifs at hd with hid
    have hik : id ≠ k := by
      rintro rfl
      exact hid ⟨hk, rfl⟩
    simpa [hik] using hs.absent k hk hd hkopen

theorem Account.message {s : Sender N} (hs : Account s) {id : UInt32} (body block : Bytes)
    (d : N.Deflater) (hid : ¬ opened s id) :
    Account { s with
      output := s.output.withMessage id body block d
      messages := s.messages ++ [(id, body)] } := by
  constructor
  · intro k e hk he hek
    rw [sentOn_message]
    rw [Output.withMessage_info] at he
    split_ifs at he with hik
    · cases he
      obtain ⟨-, rfl⟩ := hik
      exact hs.getD hk (.inr hid)
    · exact hs.live k e hk he (hek.imp_right fun h => (not_opened_message s id h).2)
  · intro k hk he hkopen
    obtain ⟨hik, hkopen⟩ := not_opened_message s id hkopen
    rw [Output.withMessage_info, if_neg (fun h => hik h.2)] at he
    exact hs.absent k hk he hkopen

/-- Which entries may be erased once these messages are enqueued. -/
def Erasable (messages : List (UInt32 × Bytes)) (id : UInt32) (d : Info) : Prop :=
  id ∈ messages.map Prod.fst ∨ d.budget = defaultWindowSize

theorem Account.move {s s' : Sender N} (hs : Account s) (hw : Within s)
    (h : Sender.Move Erasable NoWrap s s') : Account s' := by
  cases h with
  | flush hm =>
      cases hm with
      | erase hd hbody hQ => exact hs.erase hw hd hQ
      | chunk hd hpos hbudget hwindow hbody => exact hs.chunk hw hd hpos hwindow hbody
  | credit id inc hC => exact hs.credit hC
  | message body block d hfresh => exact hs.message body block d hfresh
  | other hinfo hbudget hpushed hmessages hupdates =>
      obtain ⟨h₁, h₂⟩ := hs
      constructor <;> simp only [sentOn, opened, hinfo, hpushed, hmessages, hupdates] <;> assumption

theorem account_step {s : Sender N} {e : Sender.Event} (hs : Within s ∧ Account s)
    (he : Sender.Fresh s e ∧ Keeps s e) : Within (s.step e) ∧ Account (s.step e) :=
  Sender.step_keeps (Q := Erasable) (C := NoWrap) (I := fun s => Within s ∧ Account s)
    (fun _ _ h hm => ⟨h.1.move hm, h.2.move h.1 hm⟩) hs he.1 he.2.2 he.2.1

/-- In every run whose steps all meet the condition no increment is lost. -/
theorem increments_held (es : List Sender.Event)
    (h : Meets Sender.step (fun s e => Sender.Fresh s e ∧ Keeps s e)
      (Sender.start : Sender N) es) :
    Held (run Sender.step (Sender.start : Sender N) es) := by
  have ha : Within (run Sender.step (Sender.start : Sender N) es) ∧
      Account (run Sender.step (Sender.start : Sender N) es) :=
    run_invariant (I := fun s => Within s ∧ Account s) (fun _ _ hs he => account_step hs he)
      ⟨within_start, account_start⟩ h
  intro id d hid hd hbody
  exact ha.2.live id d hid hd (.inl hbody)

/-- A body, an empty update for a stream to come, an update for the first stream
and a second body. -/
def keptEvents : List Sender.Event :=
  [.response 1 { resultInt := 200, body := [1, 2, 3] }, .windowUpdate 3 0, .windowUpdate 1 10,
    .response 5 { resultInt := 200, body := [4, 5] }]

theorem increments_held_sample :
    Meets Sender.step (fun s e => Sender.Fresh s e ∧ Keeps s e)
      (Sender.start : Sender staticNghttp2) keptEvents ∧
    Held (run Sender.step (Sender.start : Sender staticNghttp2) keptEvents) :=
  have h : Meets Sender.step (fun s e => Sender.Fresh s e ∧ Keeps s e)
      (Sender.start : Sender staticNghttp2) keptEvents := by decide
  ⟨h, increments_held keptEvents h⟩

/-- The update arrives first: its entry is erased in the same call, and the
body starts with the default window. -/
theorem increment_before_message_lost :
    Meets Sender.step Sender.Fresh (Sender.start : Sender staticNghttp2)
      [.windowUpdate 1 100, .response 1 { resultInt := 200, body := [1] }] ∧
    ¬ Held (run Sender.step (Sender.start : Sender staticNghttp2)
      [.windowUpdate 1 100, .response 1 { resultInt := 200, body := [1] }]) := by
  refine ⟨by decide, ?_⟩
  intro h
  have h₁ := h 1 ⟨[1], 65535⟩ (by decide) (by decide) (by decide)
  revert h₁
  decide

end Stuff.Http2OutputCredits
