import Stuff.Http2Accounts

/-!
# The sender keeps within its windows

Against any peer: whatever is enqueued and whatever window updates arrive, the
DATA payload ever queued stays within what the peer granted, per stream and
for the connection. An entry without body may be created, erased and created
again, so the bound on a stream's window is stated only for entries that hold
a body or may still receive one.
-/
namespace Stuff.Http2OutputWindows
open MachineWords Http2Frames Http2Hpack Http2Output Http2Accounts EventRuns

variable {N : Nghttp2}

/-- The sum of all increments received for a target; stream 0 is the
connection. -/
def credited (updates : List (UInt32 × UInt32)) (id : UInt32) : ℕ :=
  ((updates.filter fun u => u.1 = id).map fun u => u.2.toNat).sum

@[simp] theorem credited_nil (id : UInt32) : credited [] id = 0 := rfl

@[simp] theorem credited_concat (us : List (UInt32 × UInt32)) (k inc id : UInt32) :
    credited (us ++ [(k, inc)]) id = credited us id + if k = id then inc.toNat else 0 := by
  by_cases h : k = id <;> simp [credited, h]

/-- All DATA payload ever queued, over all streams. -/
def sentAny (s : Sender N) : ℕ := total dataAny s.pushed

/-- The DATA payload ever queued for one stream. -/
def sentOn (s : Sender N) (id : UInt32) : ℕ := total (dataOn id) s.pushed

/-- A message was enqueued under this id. -/
def opened (s : Sender N) (id : UInt32) : Prop := id ∈ s.messages.map Prod.fst

instance (s : Sender N) (id : UInt32) : Decidable (opened s id) :=
  inferInstanceAs (Decidable (_ ∈ _))

structure Within (s : Sender N) : Prop where
  connection : s.output.budget.toNat + sentAny s ≤ 65535 + credited s.updates 0
  stream : ∀ id, sentOn s id ≤ 65535 + credited s.updates id
  live : ∀ id d, s.output.info[id]? = some d → d.body ≠ [] ∨ ¬ opened s id →
    d.budget.toNat + sentOn s id ≤ 65535 + credited s.updates id
  unopened : ∀ id, ¬ opened s id →
    sentOn s id = 0 ∧ ∀ d, s.output.info[id]? = some d → d.body = []

theorem within_start : Within (Sender.start : Sender N) where
  connection := by simp [Sender.start, sentAny, Sender.pushed]
  stream := by simp [Sender.start, sentOn, Sender.pushed]
  live := by simp [Sender.start]
  unopened := by simp [Sender.start, sentOn, Sender.pushed]

/-- The window a stream would start or continue with is bounded as well. -/
theorem Within.getD {s : Sender N} (hs : Within s) {id : UInt32} (hid : ¬ opened s id) :
    (s.output.info.getD id {}).budget.toNat ≤ 65535 + credited s.updates id := by
  rw [Std.TreeMap.getD_eq_getD_getElem?]
  cases hd : s.output.info[id]? with
  | none => simp
  | some d =>
      have h := hs.live id d hd (.inr hid)
      simp only [Option.getD_some]
      omega

section Sums
variable (s : Sender N) (id : UInt32)

theorem sentAny_chunk {d : Info} {len : ℕ} (h : len ≤ d.body.length) :
    sentAny { s with output := s.output.sendChunk id d len } = sentAny s + len := by
  simp only [sentAny, Sender.pushed, Output.sendChunk_writeQueue, total_append,
    total_dataAny_chunk id h]
  omega

theorem sentOn_chunk {d : Info} {len : ℕ} (h : len ≤ d.body.length) (k : UInt32) :
    sentOn { s with output := s.output.sendChunk id d len } k =
      sentOn s k + if id = k then len else 0 := by
  simp only [sentOn, Sender.pushed, Output.sendChunk_writeQueue, total_append,
    total_dataOn_chunk k id h]
  omega

theorem sentAny_message (body block : Bytes) (d : N.Deflater) :
    sentAny { s with
      output := s.output.withMessage id body block d
      messages := s.messages ++ [(id, body)] } = sentAny s := by
  simp only [sentAny, Sender.pushed, Output.withMessage, total_append, total_cons, total_nil,
    dataAny_headers, Nat.add_zero]

theorem sentOn_message (body block : Bytes) (d : N.Deflater) (k : UInt32) :
    sentOn { s with
      output := s.output.withMessage id body block d
      messages := s.messages ++ [(id, body)] } k = sentOn s k := by
  simp only [sentOn, Sender.pushed, Output.withMessage, total_append, total_cons, total_nil,
    dataOn_headers, Nat.add_zero]

theorem pushed_credit (inc : UInt32) :
    Sender.pushed { s with
      output := s.output.credit id inc
      updates := s.updates ++ [(id, inc)] } = s.pushed := by
  simp only [Sender.pushed, Output.credit_writeQueue]

theorem not_opened_message {o : Output N} {body : Bytes} {k : UInt32}
    (hk : ¬ opened { s with output := o, messages := s.messages ++ [(id, body)] } k) :
    id ≠ k ∧ ¬ opened s k := by
  simp only [opened, List.map_append, List.mem_append, not_or] at hk ⊢
  refine ⟨?_, hk.1⟩
  rintro rfl
  simp at hk

end Sums

theorem Within.chunk {s : Sender N} (hs : Within s) {id : UInt32} {d : Info} {len : ℕ}
    (hd : s.output.info[id]? = some d) (hpos : 0 < len) (hbudget : len ≤ s.output.budget.toNat)
    (hwindow : len ≤ d.budget.toNat) (hbody : len ≤ d.body.length) :
    Within { s with output := s.output.sendChunk id d len } := by
  have hne : d.body ≠ [] := by
    intro h
    simp [h] at hbody
    omega
  have hlive := hs.live id d hd (.inl hne)
  have hopen : opened s id := by
    by_contra h
    exact hne ((hs.unopened id h).2 d hd)
  refine ⟨?_, ?_, ?_, ?_⟩
  · have hc := hs.connection
    rw [sentAny_chunk s id hbody, Output.sendChunk_budget, toNat_sub_ofNat hbudget]
    dsimp only
    omega
  · intro k
    rw [sentOn_chunk s id hbody]
    dsimp only
    split_ifs with hk
    · subst hk
      omega
    · simpa using hs.stream k
  · intro k e he hek
    rw [sentOn_chunk s id hbody]
    rw [Output.sendChunk_info] at he
    split_ifs at he with hk hlast
    · cases he
      subst hk
      dsimp only
      rw [if_pos rfl, toNat_sub_ofNat hwindow]
      omega
    · simpa [hk] using hs.live k e he hek
  · intro k hk
    have hik : id ≠ k := by
      rintro rfl
      exact hk hopen
    rw [sentOn_chunk s id hbody, if_neg hik]
    refine ⟨by simpa using (hs.unopened k hk).1, ?_⟩
    intro e he
    rw [Output.sendChunk_info, if_neg hik] at he
    exact (hs.unopened k hk).2 e he

theorem Within.erase {s : Sender N} (hs : Within s) (id : UInt32) :
    Within { s with output := { s.output with info := s.output.info.erase id } } := by
  have hsub : ∀ (k : UInt32) (d : Info),
      ({ s.output with info := s.output.info.erase id } : Output N).info[k]? =
      some d → s.output.info[k]? = some d := by
    intro k d h
    rw [Output.erase_info] at h
    split_ifs at h
    exact h
  exact ⟨hs.connection, hs.stream, fun k d h => hs.live k d (hsub k d h),
    fun k hk => ⟨(hs.unopened k hk).1, fun d h => (hs.unopened k hk).2 d (hsub k d h)⟩⟩

theorem Within.credit {s : Sender N} (hs : Within s) (id inc : UInt32) :
    Within { s with
      output := s.output.credit id inc
      updates := s.updates ++ [(id, inc)] } := by
  have hpushed := pushed_credit s id inc
  refine ⟨?_, ?_, ?_, ?_⟩
  · have hc := hs.connection
    simp only [sentAny, hpushed, credited_concat, Output.credit_budget] at hc ⊢
    split_ifs
    · have hle := toNat_add_le s.output.budget inc
      omega
    · simpa using hc
  · intro k
    have hk := hs.stream k
    simp only [sentOn, hpushed, credited_concat] at hk ⊢
    omega
  · intro k d hd hdk
    simp only [sentOn, hpushed, credited_concat]
    rw [Output.credit_info] at hd
    split_ifs at hd with hid
    · cases hd
      obtain ⟨-, rfl⟩ := hid
      have hle := toNat_add_le (s.output.info.getD id {}).budget inc
      have hold : (s.output.info.getD id {}).budget.toNat + sentOn s id ≤
          65535 + credited s.updates id := by
        rcases hdk with hbody | hopen
        · rw [Std.TreeMap.getD_eq_getD_getElem?] at hbody ⊢
          cases hd : s.output.info[id]? with
          | none => simp [hd] at hbody
          | some d => exact hs.live id d hd (.inl (by simpa [hd] using hbody))
        · have hz := (hs.unopened id hopen).1
          have hb := hs.getD hopen
          omega
      simp only [sentOn, if_true] at hold ⊢
      omega
    · have hl := hs.live k d hd hdk
      simp only [sentOn] at hl
      omega
  · intro k hk
    simp only [sentOn, hpushed]
    refine ⟨(hs.unopened k hk).1, ?_⟩
    intro d hd
    rw [Output.credit_info] at hd
    split_ifs at hd with hid
    · cases hd
      obtain ⟨-, rfl⟩ := hid
      dsimp only
      rw [Std.TreeMap.getD_eq_getD_getElem?]
      cases hd : s.output.info[id]? with
      | none => rfl
      | some d => exact (hs.unopened id hk).2 d hd
    · exact (hs.unopened k hk).2 d hd

theorem Within.message {s : Sender N} (hs : Within s) {id : UInt32} (body block : Bytes)
    (d : N.Deflater) (hid : ¬ opened s id) :
    Within { s with
      output := s.output.withMessage id body block d
      messages := s.messages ++ [(id, body)] } := by
  refine ⟨?_, ?_, ?_, ?_⟩
  · rw [sentAny_message]
    exact hs.connection
  · intro k
    rw [sentOn_message]
    exact hs.stream k
  · intro k e he hek
    rw [sentOn_message]
    rw [Output.withMessage_info] at he
    split_ifs at he with hk
    · cases he
      obtain ⟨-, rfl⟩ := hk
      have hz := (hs.unopened id hid).1
      have hb := hs.getD hid
      dsimp only
      omega
    · exact hs.live k e he (hek.imp_right fun h => (not_opened_message s id h).2)
  · intro k hk
    obtain ⟨hne, hk⟩ := not_opened_message s id hk
    rw [sentOn_message]
    refine ⟨(hs.unopened k hk).1, ?_⟩
    intro e he
    rw [Output.withMessage_info, if_neg (fun h => hne h.2)] at he
    exact (hs.unopened k hk).2 e he

theorem Within.move {Q : List (UInt32 × Bytes) → UInt32 → Info → Prop}
    {C : Sender N → UInt32 → UInt32 → Prop} {s s' : Sender N} (hs : Within s)
    (h : Sender.Move Q C s s') : Within s' := by
  cases h with
  | flush hm =>
      cases hm with
      | erase hd hbody hQ => exact hs.erase _
      | chunk hd hpos hbudget hwindow hbody => exact hs.chunk hd hpos hbudget hwindow hbody
  | credit id inc hC => exact hs.credit id inc
  | message body block d hfresh => exact hs.message body block d hfresh
  | other hinfo hbudget hpushed hmessages hupdates =>
      obtain ⟨h₁, h₂, h₃, h₄⟩ := hs
      constructor <;> simp only [sentAny, sentOn, opened, hinfo, hbudget, hpushed, hmessages,
        hupdates] <;> assumption

theorem Within.step {s : Sender N} {e : Sender.Event} (hs : Within s) (he : Sender.Fresh s e) :
    Within (s.step e) :=
  Sender.step_keeps (Q := fun _ _ _ => True) (C := fun _ _ _ => True) (fun _ _ h hm => h.move hm)
    hs he (fun _ _ _ _ => trivial) (fun _ _ => trivial)

theorem resume_updates (s : Sender N) : s.resume.1.updates = s.updates := by
  unfold Sender.resume
  split
  · split_ifs <;> rfl
  · rfl
  · rfl
  · rfl

theorem run_updates (s : Sender N) (es : List Sender.Event) :
    (run Sender.step s es).updates = s.updates ++ es.filterMap Sender.update := by
  induction es generalizing s with
  | nil => simp
  | cons e es ih =>
      rw [run_cons, ih]
      cases e with
      | windowUpdate id inc => simp [Sender.step, Sender.update]
      | resume => simp only [Sender.step, Sender.update, resume_updates, List.filterMap_cons]
      | writeError =>
          have h : (s.step .writeError).updates = s.updates := by
            unfold Sender.step
            dsimp only
            split <;> rfl
          rw [h]
          rfl
      | _ => rfl

/-- No schedule of messages, updates, flushes and writes queues more DATA than
the peer has granted, on any stream or on the whole connection. -/
theorem sent_within_windows (es : List Sender.Event)
    (h : Meets Sender.step Sender.Fresh (Sender.start : Sender N) es) :
    (∀ id, sentOn (run Sender.step (Sender.start : Sender N) es) id ≤
      65535 + credited (es.filterMap Sender.update) id) ∧
    sentAny (run Sender.step (Sender.start : Sender N) es) ≤
      65535 + credited (es.filterMap Sender.update) 0 := by
  have hw : Within (run Sender.step (Sender.start : Sender N) es) :=
    run_invariant (fun _ _ hs he => hs.step he) within_start h
  have hu : (run Sender.step (Sender.start : Sender N) es).updates =
      es.filterMap Sender.update := by
    rw [run_updates]
    rfl
  have hc := hw.connection
  have hs := hw.stream
  rw [hu] at hc hs
  exact ⟨hs, by omega⟩

/-- A response of three bytes, updates before and after it, one write. -/
def sampleEvents : List Sender.Event :=
  [.windowUpdate 1 10, .response 1 { resultInt := 200, body := [1, 2, 3] }, .resume, .resume,
    .windowUpdate 0 5]

theorem sent_within_windows_sample :
    Meets Sender.step Sender.Fresh (Sender.start : Sender staticNghttp2) sampleEvents ∧
    sentOn (run Sender.step (Sender.start : Sender staticNghttp2) sampleEvents) 1 = 3 ∧
    sentOn (run Sender.step (Sender.start : Sender staticNghttp2) sampleEvents) 1 ≤
      65535 + credited (sampleEvents.filterMap Sender.update) 1 :=
  have h : Meets Sender.step Sender.Fresh (Sender.start : Sender staticNghttp2) sampleEvents := by
    decide
  ⟨h, by decide, (sent_within_windows sampleEvents h).1 1⟩

end Stuff.Http2OutputWindows
