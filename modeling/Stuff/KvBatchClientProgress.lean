import Stuff.KvBatchClient

/-!
# Every request is sent and every call returns

Each coroutine has its next step, and no other step takes it back. So under a fair
executor, with a server that answers, every batch takes off and every call returns.
-/
namespace Stuff.KvBatchClient
open CoroWaiter FairRuns Holders

/-- All but the calls of the user. -/
def Internal : Event → Prop
  | .call _ => False
  | _ => True

def BatchPc.next (b : ℕ) : BatchPc → Event
  | .spawned => .starts b
  | .lingering => .expires b
  | .expired => .wakes b
  | _ => .completes b

def CallPc.rank : CallPc → ℕ
  | .putting => 2
  | .suspended => 1
  | .returned _ => 0

def CallPc.next (i : ℕ) : CallPc → Event
  | .putting => .waits i
  | _ => .resumes i

/-- What a step may do to a batch; `queued` says that the batch is in the queue. -/
structure Batch.Moves (queued : Prop) (sBatch sBatch' : Batch) : Prop where
  more : sBatch.info <+: sBatch'.info
  closed : ¬queued → sBatch'.info = sBatch.info
  pc : sBatch'.pc = sBatch.pc ∨ sBatch'.pc.rank < sBatch.pc.rank

theorem Batch.Moves.refl (queued : Prop) (sBatch : Batch) : sBatch.Moves queued sBatch :=
  ⟨List.prefix_refl _, fun _ => rfl, Or.inl rfl⟩

theorem Batch.moves_pc (queued : Prop) {sBatch sBatch' : Batch} (hinfo : sBatch'.info = sBatch.info)
    (hpc : sBatch'.pc = sBatch.pc ∨ sBatch'.pc.rank < sBatch.pc.rank) :
    sBatch.Moves queued sBatch' :=
  ⟨hinfo ▸ List.prefix_refl _, fun _ => hinfo, hpc⟩

theorem Batch.Moves.trans {queued : Prop} {x y z : Batch} (h : x.Moves queued y)
    (h' : y.Moves queued z) : x.Moves queued z := by
  refine ⟨h.more.trans h'.more, fun hnot => (h'.closed hnot).trans (h.closed hnot), ?_⟩
  rcases h.pc with heq | hless
  · rcases h'.pc with heq' | hless'
    · exact Or.inl (heq'.trans heq)
    · exact Or.inr (heq ▸ hless')
  · rcases h'.pc with heq' | hless'
    · exact Or.inr (heq' ▸ hless)
    · exact Or.inr (hless'.trans hless)

theorem Batch.Moves.rank_le {queued : Prop} {x y : Batch} (h : x.Moves queued y) :
    y.pc.rank ≤ x.pc.rank := by
  rcases h.pc with heq | hless
  · rw [heq]
  · exact Nat.le_of_lt hless

theorem Batch.Moves.place {queued : Prop} {x y : Batch} (h : x.Moves queued y) {i j : ℕ}
    (hj : x.info[j]? = some i) : y.info[j]? = some i := by
  obtain ⟨rest, hrest⟩ := h.more
  rw [← hrest, List.getElem?_append_left (List.getElem?_eq_some_iff.mp hj).1]
  exact hj

theorem timeUp_moves (queued : Prop) (sBatch : Batch) : sBatch.Moves queued sBatch.timeUp := by
  apply Batch.moves_pc queued (timeUp_info sBatch)
  unfold Batch.timeUp
  split
  next hpc => exact Or.inr (by simp [hpc, BatchPc.rank])
  next => exact Or.inl rfl

theorem start_moves (queued : Prop) (sBatch : Batch) : sBatch.Moves queued sBatch.start := by
  apply Batch.moves_pc queued (start_info sBatch)
  unfold Batch.start
  split
  next hpc => exact Or.inr (by simp [hpc, BatchPc.rank])
  next => exact Or.inl rfl

section
variable {batch_size : ℕ} {server : Server} {s : BatchClient}

/-! ## What a step does to one batch -/

theorem modify_moves {l : List Batch} {b : ℕ} {sBatch : Batch} {queued : Prop}
    (hb : l[b]? = some sBatch) (b' : ℕ) {f : Batch → Batch}
    (hf : b' = b → sBatch.Moves queued (f sBatch)) :
    ∃ sBatch', (l.modify b' f)[b]? = some sBatch' ∧ sBatch.Moves queued sBatch' := by
  rw [List.getElem?_modify, hb]
  refine ⟨_, rfl, ?_⟩
  split_ifs with heq
  · exact hf heq
  · exact Batch.Moves.refl queued sBatch

theorem set_moves {l : List Batch} {b b' : ℕ} {sBatch sBatch₀ x : Batch} {queued : Prop}
    (hb : l[b]? = some sBatch) (hb' : l[b']? = some sBatch₀) (hx : sBatch₀.Moves queued x) :
    ∃ sBatch', (l.set b' x)[b]? = some sBatch' ∧ sBatch.Moves queued sBatch' := by
  obtain ⟨hlt, -⟩ := List.getElem?_eq_some_iff.mp hb'
  by_cases heq : b' = b
  · subst heq
    rw [hb'] at hb
    cases hb
    exact ⟨x, List.getElem?_set_self hlt, hx⟩
  · exact ⟨sBatch, (List.getElem?_set_ne heq).trans hb, Batch.Moves.refl queued sBatch⟩

theorem push_moves {b : ℕ} {sBatch : Batch} (hb : s.batches[b]? = some sBatch)
    (aRequest : Request) : ∃ sBatch', (s.push aRequest).batches[b]? = some sBatch' ∧
      sBatch.Moves (s.queue = some b) sBatch' := by
  unfold BatchClient.push
  split
  · exact ⟨sBatch, hb, Batch.Moves.refl _ sBatch⟩
  · rename_i b' hqueue
    apply modify_moves hb
    rintro rfl
    exact ⟨List.prefix_append _ _, fun hnot => absurd hqueue hnot, Or.inl rfl⟩

theorem create_push_moves {b : ℕ} {sBatch : Batch} (hb : s.batches[b]? = some sBatch)
    (aRequest : Request) (queued : Prop) :
    ∃ sBatch', (s.create.push aRequest).batches[b]? = some sBatch' ∧
      sBatch.Moves queued sBatch' := by
  obtain ⟨hlt, -⟩ := List.getElem?_eq_some_iff.mp hb
  have hcreate : s.create.batches[b]? = some sBatch := (List.getElem?_append_left hlt).trans hb
  apply modify_moves hcreate
  intro heq
  omega

theorem wake_moves {b : ℕ} {sBatch : Batch} (hb : s.batches[b]? = some sBatch) (b' : ℕ)
    (queued : Prop) : ∃ sBatch', (s.wake b').batches[b]? = some sBatch' ∧
      sBatch.Moves queued sBatch' := by
  unfold BatchClient.wake
  split
  · exact ⟨sBatch, hb, Batch.Moves.refl queued sBatch⟩
  · rename_i sBatch₀ hb'
    split
    · rename_i hpc
      apply set_moves hb hb'
      exact Batch.moves_pc queued rfl (Or.inr (by simp [hpc, BatchPc.rank]))
    · exact ⟨sBatch, hb, Batch.Moves.refl queued sBatch⟩

theorem complete_moves {b : ℕ} {sBatch : Batch} (hb : s.batches[b]? = some sBatch) (b' : ℕ)
    (queued : Prop) : ∃ sBatch', (s.complete server b').batches[b]? = some sBatch' ∧
      sBatch.Moves queued sBatch' := by
  unfold BatchClient.complete
  split
  · exact ⟨sBatch, hb, Batch.Moves.refl queued sBatch⟩
  · rename_i sBatch₀ hb'
    split
    · rename_i hpc
      split
      · apply set_moves hb hb'
        exact Batch.moves_pc queued rfl (Or.inr (by simp [hpc, BatchPc.rank]))
      · apply set_moves hb hb'
        exact Batch.moves_pc queued rfl (Or.inr (by simp [hpc, BatchPc.rank]))
    · exact ⟨sBatch, hb, Batch.Moves.refl queued sBatch⟩

theorem put_moves {b : ℕ} {sBatch : Batch} (hb : s.batches[b]? = some sBatch)
    (aRequest : Request) : ∃ sBatch', (s.put batch_size aRequest).batches[b]? = some sBatch' ∧
      sBatch.Moves (s.queue = some b) sBatch' := by
  unfold BatchClient.put
  split
  · exact create_push_moves hb aRequest _
  · rename_i b' hqueue
    split
    · exact ⟨sBatch, hb, Batch.Moves.refl _ sBatch⟩
    · split_ifs
      · obtain ⟨sBatch₁, hb₁, hmoves₁⟩ := modify_moves hb b'
          fun _ => timeUp_moves (s.queue = some b) sBatch
        obtain ⟨sBatch₂, hb₂, hmoves₂⟩ := create_push_moves
          (s := { s with batches := s.batches.modify b' Batch.timeUp }) hb₁ aRequest
          (s.queue = some b)
        exact ⟨sBatch₂, hb₂, hmoves₁.trans hmoves₂⟩
      · exact push_moves hb aRequest

variable (batch_size server) in
theorem step_moves {b : ℕ} {sBatch : Batch} (hb : s.batches[b]? = some sBatch) (e : Event) :
    ∃ sBatch', (step batch_size server s e).batches[b]? = some sBatch' ∧
      sBatch.Moves (s.queue = some b) sBatch' := by
  cases e with
  | call aRequest => exact put_moves hb aRequest
  | waits i => exact ⟨sBatch, hb, Batch.Moves.refl _ sBatch⟩
  | starts b' => exact modify_moves hb b' fun _ => start_moves _ sBatch
  | expires b' => exact modify_moves hb b' fun _ => timeUp_moves _ sBatch
  | wakes b' => exact wake_moves hb b' _
  | completes b' => exact complete_moves hb b' _
  | resumes i => exact ⟨sBatch, hb, Batch.Moves.refl _ sBatch⟩

/-- A batch that is not in the queue never comes back to it. -/
theorem step_queue {b : ℕ} (hb : b < s.batches.length) (h : s.queue ≠ some b) (e : Event) :
    (step batch_size server s e).queue ≠ some b := by
  have hcreate : ∀ (t : BatchClient) (aRequest : Request), b < t.batches.length →
      (t.create.push aRequest).queue ≠ some b := by
    intro t aRequest hlt heq
    have hlast : some t.batches.length = some b := heq
    rw [Option.some.injEq] at hlast
    omega
  have hpush : ∀ aRequest, (s.push aRequest).queue = s.queue := by
    intro aRequest
    unfold BatchClient.push
    split <;> rfl
  cases e with
  | call aRequest =>
      simp only [step, BatchClient.put]
      split
      · exact hcreate s aRequest hb
      · split
        · exact h
        · split_ifs
          · apply hcreate
            rw [List.length_modify]
            exact hb
          · rw [hpush]
            exact h
  | waits i => exact h
  | starts b' => exact h
  | expires b' => exact h
  | wakes b' =>
      simp only [step, BatchClient.wake]
      split
      · exact h
      · split
        · dsimp only
          split_ifs
          · simp
          · exact h
        · exact h
  | completes b' =>
      simp only [step, BatchClient.complete]
      split
      · exact h
      · split
        · split <;> exact h
        · exact h
  | resumes i => exact h

variable (batch_size server) in
/-- The next step of the coroutine of a batch. -/
theorem step_next_batch {b : ℕ} {sBatch : Batch} (hb : s.batches[b]? = some sBatch)
    (hrank : 0 < sBatch.pc.rank) :
    ∃ sBatch', (step batch_size server s (sBatch.pc.next b)).batches[b]? = some sBatch' ∧
      sBatch'.pc.rank < sBatch.pc.rank := by
  obtain ⟨hlt, -⟩ := List.getElem?_eq_some_iff.mp hb
  cases hpc : sBatch.pc with
  | spawned =>
      refine ⟨sBatch.start, ?_, ?_⟩
      · simp only [BatchPc.next, step, List.getElem?_modify_eq, hb]
        rfl
      · simp [Batch.start, hpc, BatchPc.rank]
  | lingering =>
      refine ⟨sBatch.timeUp, ?_, ?_⟩
      · simp only [BatchPc.next, step, List.getElem?_modify_eq, hb]
        rfl
      · simp [Batch.timeUp, hpc, BatchPc.rank]
  | expired =>
      refine ⟨{ sBatch with pc := .performing (s.requests sBatch) }, ?_, ?_⟩
      · simp only [BatchPc.next, step, BatchClient.wake, hb, hpc]
        exact List.getElem?_set_self hlt
      · simp [BatchPc.rank]
  | performing sRequests =>
      simp only [BatchPc.next, step, BatchClient.complete, hb, hpc]
      split
      · exact ⟨_, List.getElem?_set_self hlt, by simp [BatchPc.rank]⟩
      · exact ⟨_, List.getElem?_set_self hlt, by simp [BatchPc.rank]⟩
  | done =>
      rw [hpc] at hrank
      exact absurd hrank (Nat.lt_irrefl 0)
  | threw =>
      rw [hpc] at hrank
      exact absurd hrank (Nat.lt_irrefl 0)

/-! ## What a step does to one call -/

theorem wait_pc (call : Call) : call.wait.pc = call.pc ∨ call.wait.pc.rank < call.pc.rank := by
  unfold Call.wait
  split
  next hpc => exact Or.inr (by simp [hpc, CallPc.rank])
  next => exact Or.inl rfl

theorem resume_pc (call : Call) :
    call.resume.pc = call.pc ∨ call.resume.pc.rank < call.pc.rank := by
  unfold Call.resume
  split
  next hpc =>
    split_ifs
    · exact Or.inr (by simp [hpc, CallPc.rank])
    · exact Or.inl rfl
  next => exact Or.inl rfl

theorem calls_modify_pc {l : List Call} {i : ℕ} {call : Call} (hcall : l[i]? = some call)
    (i' : ℕ) {f : Call → Call}
    (hf : ∀ call, (f call).pc = call.pc ∨ (f call).pc.rank < call.pc.rank) :
    ∃ call', (l.modify i' f)[i]? = some call' ∧
      (call'.pc = call.pc ∨ call'.pc.rank < call.pc.rank) := by
  rw [List.getElem?_modify, hcall]
  refine ⟨_, rfl, ?_⟩
  split_ifs
  · exact hf call
  · exact Or.inl rfl

theorem push_calls {i : ℕ} {call : Call} (hcall : s.calls[i]? = some call) (aRequest : Request) :
    (s.push aRequest).calls[i]? = some call := by
  unfold BatchClient.push
  split
  · exact hcall
  · exact (List.getElem?_append_left (List.getElem?_eq_some_iff.mp hcall).1).trans hcall

variable (batch_size server) in
theorem step_calls {i : ℕ} {call : Call} (hcall : s.calls[i]? = some call) (e : Event) :
    ∃ call', (step batch_size server s e).calls[i]? = some call' ∧
      (call'.pc = call.pc ∨ call'.pc.rank < call.pc.rank) := by
  have hsame : ∃ call', s.calls[i]? = some call' ∧
      (call'.pc = call.pc ∨ call'.pc.rank < call.pc.rank) := ⟨call, hcall, Or.inl rfl⟩
  cases e with
  | call aRequest =>
      refine ⟨call, ?_, Or.inl rfl⟩
      have hcreate : ∀ t : BatchClient, t.calls = s.calls →
          (t.create.push aRequest).calls[i]? = some call := by
        intro t ht
        apply push_calls
        rw [← hcall, ← ht]
        rfl
      simp only [step, BatchClient.put]
      split
      · exact hcreate s rfl
      · split
        · exact hcall
        · split_ifs
          · exact hcreate _ rfl
          · exact push_calls hcall aRequest
  | waits i' => exact calls_modify_pc hcall i' wait_pc
  | starts b => exact hsame
  | expires b => exact hsame
  | wakes b =>
      simp only [step, BatchClient.wake]
      split
      · exact hsame
      · split
        · exact hsame
        · exact hsame
  | completes b =>
      simp only [step, BatchClient.complete]
      split
      · exact hsame
      · split
        · split
          · exact hsame
          · have hpc : ∀ ys, ∃ call', (BatchClient.answered s.calls ys)[i]? = some call' ∧
                call'.pc = call.pc := by
              intro ys
              have hmap := BatchClient.answered_map (g := Call.pc) (fun _ _ => rfl) s.calls ys i
              rw [hcall, Option.map_some] at hmap
              exact Option.map_eq_some_iff.mp hmap
            obtain ⟨call', hget, heq⟩ := hpc _
            exact ⟨call', hget, Or.inl heq⟩
        · exact hsame
  | resumes i' => exact calls_modify_pc hcall i' resume_pc

variable (batch_size server) in
/-- The next step of a call that has its response. -/
theorem step_next_call {i : ℕ} {call : Call} {y : Response} (hcall : s.calls[i]? = some call)
    (hstage : Stage (some y) call) (hrank : 0 < call.pc.rank) :
    ∃ call', (step batch_size server s (call.pc.next i)).calls[i]? = some call' ∧
      call'.pc.rank < call.pc.rank := by
  obtain ⟨-, ⟨hpc, -⟩ | ⟨hpc, hinvoked⟩ | hpc⟩ := hstage
  · refine ⟨call.wait, ?_, ?_⟩
    · simp only [hpc, CallPc.next, step, List.getElem?_modify_eq, hcall]
      rfl
    · simp [Call.wait, hpc, CallPc.rank]
  · refine ⟨call.resume, ?_, ?_⟩
    · simp only [hpc, CallPc.next, step, List.getElem?_modify_eq, hcall]
      rfl
    · simp [Call.resume, hpc, hinvoked, CallPc.rank]
  · rw [hpc] at hrank
    exact absurd hrank (Nat.lt_irrefl 0)

/-! ## Progress -/

/-- Every request gets its response. -/
def Answers (server : Server) : Prop :=
  ∀ b sRequests, ∃ sResponses, server b sRequests = some sResponses ∧
    sResponses.length = sRequests.length

theorem Sound.response_at (h : Sound batch_size server s) (hserver : Answers server) {b j i : ℕ}
    {sBatch : Batch} (hb : s.batches[b]? = some sBatch) (hj : sBatch.info[j]? = some i)
    (hdone : sBatch.pc = .done) : ∃ y, answerTo server s b sBatch j = some y := by
  obtain ⟨sResponses, hanswer, hlength⟩ := hserver b (s.requests sBatch)
  obtain ⟨hlt, -⟩ := List.getElem?_eq_some_iff.mp hj
  rw [h.requests_length hb] at hlength
  refine ⟨sResponses[j], ?_⟩
  unfold answerTo
  rw [if_pos hdone, hanswer]
  exact List.getElem?_eq_getElem (hlength ▸ hlt)

/-- How far a batch and a call are from their ends. -/
def batchRank (b : ℕ) (s : BatchClient) : ℕ := (s.batches[b]?).elim 0 fun sBatch => sBatch.pc.rank

def callRank (i : ℕ) (s : BatchClient) : ℕ := (s.calls[i]?).elim 0 fun call => call.pc.rank

def nextOfBatch (b : ℕ) (s : BatchClient) : Event :=
  (s.batches[b]?).elim (.completes b) fun sBatch => sBatch.pc.next b

def nextOfCall (i : ℕ) (s : BatchClient) : Event :=
  (s.calls[i]?).elim (.resumes i) fun call => call.pc.next i

theorem internal_next (b : ℕ) (pc : BatchPc) : Internal (pc.next b) := by
  cases pc <;> trivial

theorem internal_nextOfCall (i : ℕ) (pc : CallPc) : Internal (pc.next i) := by
  cases pc <;> trivial

/-- A batch takes off. -/
theorem batch_leaves {sched : ℕ → Event} (hfair : Fair Internal sched)
    {n b : ℕ} (hb : b < (trace (step batch_size server) {} sched n).batches.length) :
    ∃ m, n ≤ m ∧ ∃ sBatch, (trace (step batch_size server) {} sched m).batches[b]? = some sBatch ∧
      sBatch.pc.collects = false := by
  apply reaches_of_next
    (fun s : BatchClient => ∃ sBatch : Batch, s.batches[b]? = some sBatch)
    (fun s : BatchClient => ∃ sBatch : Batch, s.batches[b]? = some sBatch ∧
      sBatch.pc.collects = false)
    (batchRank b) (nextOfBatch b) ?_ ?_ ?_ hfair ⟨_, List.getElem?_eq_getElem hb⟩
  · rintro s e ⟨sBatch, hb⟩
    obtain ⟨sBatch', hb', -⟩ := step_moves batch_size server hb e
    exact ⟨sBatch', hb'⟩
  · rintro s ⟨sBatch, hb⟩ hgoal
    have hrank : 0 < sBatch.pc.rank := by
      cases hpc : sBatch.pc with
      | spawned => decide
      | lingering => decide
      | expired => decide
      | performing sRequests => exact absurd ⟨sBatch, hb, by rw [hpc]; rfl⟩ hgoal
      | done => exact absurd ⟨sBatch, hb, by rw [hpc]; rfl⟩ hgoal
      | threw => exact absurd ⟨sBatch, hb, by rw [hpc]; rfl⟩ hgoal
    obtain ⟨sBatch', hb', hless⟩ :=
      step_next_batch batch_size server hb hrank
    simp only [nextOfBatch, batchRank, hb, hb', Option.elim_some]
    exact ⟨internal_next b sBatch.pc, hless⟩
  · rintro s e ⟨sBatch, hb⟩ hgoal
    obtain ⟨sBatch', hb', hmoves⟩ := step_moves batch_size server hb e
    simp only [nextOfBatch, batchRank, hb, hb', Option.elim_some]
    rcases hmoves.pc with hsame | hless
    · rw [hsame]
      refine Or.inr ⟨rfl, ?_, rfl⟩
      rintro ⟨sBatch'', hb'', hcollects⟩
      rw [Option.some.injEq] at hb''
      rw [← hb'', hsame] at hcollects
      exact hgoal ⟨sBatch, hb, hcollects⟩
    · exact Or.inl hless

theorem Sound.done_of_rank (h : Sound batch_size server s) (hserver : Answers server) {b : ℕ}
    {sBatch : Batch} (hb : s.batches[b]? = some sBatch) (hrank : sBatch.pc.rank = 0) :
    sBatch.pc = .done := by
  cases hpc : sBatch.pc with
  | done => rfl
  | threw =>
      obtain ⟨sResponses, hanswer, -⟩ := hserver b (s.requests sBatch)
      rw [h.threw b sBatch hb hpc] at hanswer
      cases hanswer
  | spawned =>
      rw [hpc] at hrank
      cases hrank
  | lingering =>
      rw [hpc] at hrank
      cases hrank
  | expired =>
      rw [hpc] at hrank
      cases hrank
  | performing sRequests =>
      rw [hpc] at hrank
      cases hrank

theorem sound_trace (server : Server) (hsize : 1 ≤ batch_size) (sched : ℕ → Event) (n : ℕ) :
    Sound batch_size server (trace (step batch_size server) {} sched n) := by
  apply trace_invariant (step batch_size server) ?_ (Sound.start batch_size server)
  intro s e h
  exact h.step hsize e

/-- A call returns. -/
theorem call_returns {sched : ℕ → Event} (hsize : 1 ≤ batch_size) (hserver : Answers server)
    (hfair : Fair Internal sched) {n i : ℕ}
    (hi : i < (trace (step batch_size server) {} sched n).calls.length) :
    ∃ m, n ≤ m ∧ ∃ call y, (trace (step batch_size server) {} sched m).calls[i]? = some call ∧
      call.pc = .returned y := by
  have hsound := sound_trace server hsize sched n
  obtain ⟨b, sBatch₀, j, hb₀, hj₀⟩ :=
    exists_place (hsound.places.mem_iff.mpr (List.mem_range.mpr hi))
  apply reaches_of_next
    (fun s : BatchClient => Sound batch_size server s ∧ (∃ call : Call, s.calls[i]? = some call) ∧
      ∃ sBatch : Batch, s.batches[b]? = some sBatch ∧ sBatch.info[j]? = some i)
    (fun s : BatchClient => ∃ (call : Call) (y : Response), s.calls[i]? = some call ∧
      call.pc = .returned y)
    (fun s => batchRank b s + callRank i s)
    (fun s => if batchRank b s = 0 then nextOfCall i s else nextOfBatch b s)
    ?_ ?_ ?_ hfair ⟨hsound, ⟨_, List.getElem?_eq_getElem hi⟩, sBatch₀, hb₀, hj₀⟩
  · rintro s e ⟨hs, ⟨call, hcall⟩, sBatch, hb, hj⟩
    obtain ⟨call', hcall', -⟩ := step_calls batch_size server hcall e
    obtain ⟨sBatch', hb', hmoves⟩ := step_moves batch_size server hb e
    exact ⟨hs.step hsize e, ⟨call', hcall'⟩, sBatch', hb', hmoves.place hj⟩
  · rintro s ⟨hs, ⟨call, hcall⟩, sBatch, hb, hj⟩ hgoal
    have hbatch : batchRank b s = sBatch.pc.rank := by
      rw [batchRank, hb, Option.elim_some]
    have hcallRank : callRank i s = call.pc.rank := by
      rw [callRank, hcall, Option.elim_some]
    rw [hbatch, hcallRank]
    split_ifs with hrank
    · -- the response is there
      have hdone := hs.done_of_rank hserver hb hrank
      obtain ⟨y, hy⟩ := hs.response_at hserver hb hj hdone
      have hstage := hs.calls b sBatch j i call hb hj hcall
      rw [hy] at hstage
      have hpos : 0 < call.pc.rank := by
        cases hpc : call.pc with
        | putting => decide
        | suspended => decide
        | returned y => exact absurd ⟨call, y, hcall, hpc⟩ hgoal
      obtain ⟨call', hcall', hless⟩ :=
        step_next_call batch_size server hcall hstage hpos
      obtain ⟨sBatch', hb', hmoves⟩ :=
        step_moves batch_size server hb (call.pc.next i)
      simp only [nextOfCall, batchRank, callRank, hcall, hb', hcall', Option.elim_some]
      have hle := hmoves.rank_le
      exact ⟨internal_nextOfCall i call.pc, by omega⟩
    · obtain ⟨sBatch', hb', hless⟩ :=
        step_next_batch batch_size server hb (Nat.pos_of_ne_zero hrank)
      obtain ⟨call', hcall', hcallPc⟩ :=
        step_calls batch_size server hcall (sBatch.pc.next b)
      simp only [nextOfBatch, batchRank, callRank, hb, hb', hcall', Option.elim_some]
      have hle : call'.pc.rank ≤ call.pc.rank := by
        rcases hcallPc with heq | hless
        · rw [heq]
        · exact Nat.le_of_lt hless
      exact ⟨internal_next b sBatch.pc, by omega⟩
  · rintro s e ⟨hs, ⟨call, hcall⟩, sBatch, hb, hj⟩ hgoal
    obtain ⟨call', hcall', hcallPc⟩ :=
      step_calls batch_size server hcall e
    obtain ⟨sBatch', hb', hmoves⟩ := step_moves batch_size server hb e
    simp only [nextOfCall, nextOfBatch, batchRank, callRank, hb, hcall, hb', hcall',
      Option.elim_some]
    have hle := hmoves.rank_le
    rcases hcallPc with hsame | hless
    · rcases hmoves.pc with hsame' | hless'
      · rw [hsame, hsame']
        refine Or.inr ⟨rfl, ?_, rfl⟩
        rintro ⟨call'', y, hcall'', hreturned⟩
        rw [Option.some.injEq] at hcall''
        rw [← hcall'', hsame] at hreturned
        exact hgoal ⟨call, y, hcall, hreturned⟩
      · rw [hsame]
        exact Or.inl (by omega)
    · exact Or.inl (by omega)

/-- A call appends its request, and nothing else does. -/
theorem step_requests (h : Sound batch_size server s) (e : Event) :
    (step batch_size server s e).calls.map (fun call => call.info.request) =
      s.calls.map (fun call => call.info.request) ++
        (match e with
          | .call aRequest => [aRequest]
          | _ => []) := by
  have hmodify : ∀ i {f : Call → Call}, (∀ call, (f call).info.request = call.info.request) →
      (s.calls.modify i f).map (fun call => call.info.request) =
        s.calls.map fun call => call.info.request := by
    intro i f hf
    apply List.ext_getElem?
    intro k
    rw [List.getElem?_map, List.getElem?_map, List.getElem?_modify]
    cases s.calls[k]? with
    | none => rfl
    | some call =>
        by_cases hik : i = k
        · simp [hik, hf]
        · simp [hik]
  cases e with
  | call aRequest =>
      simp only [step, BatchClient.put]
      split
      · simp [BatchClient.push, BatchClient.create]
      · rename_i b hqueue
        obtain ⟨sBatch, hb, -⟩ := h.queued b hqueue
        rw [hb]
        dsimp only
        split_ifs
        · simp [BatchClient.push, BatchClient.create]
        · simp [BatchClient.push, hqueue]
  | waits i => simpa [step] using hmodify i wait_request
  | starts b => simp [step]
  | expires b => simp [step]
  | wakes b =>
      simp only [step, BatchClient.wake, List.append_nil]
      split
      · rfl
      · split <;> rfl
  | completes b =>
      simp only [step, BatchClient.complete, List.append_nil]
      split
      · rfl
      · split
        · split
          · rfl
          · apply List.ext_getElem?
            intro k
            rw [List.getElem?_map, List.getElem?_map]
            exact BatchClient.answered_map answer_request s.calls _ k
        · rfl
  | resumes i => simpa [step] using hmodify i resume_request

/-- A batch that was sent stays as it is. -/
theorem place_fixed {sched : ℕ → Event} (hsize : 1 ≤ batch_size) {n m b : ℕ}
    {sRequests : List Request} (hnm : n ≤ m)
    (hsent : (b, sRequests) ∈ (trace (step batch_size server) {} sched n).sent) (j : ℕ) :
    (trace (step batch_size server) {} sched m).place (b, j) =
      (trace (step batch_size server) {} sched n).place (b, j) := by
  have hrouted := (sound_trace server hsize sched n).routed
  obtain ⟨hqueue, sBatch, hb, -⟩ := hrouted.complete b sRequests hsent
  have hkeeps : ∀ s e, (s.queue ≠ some b ∧
      ∃ sBatch' : Batch, s.batches[b]? = some sBatch' ∧ sBatch'.info = sBatch.info) →
      (step batch_size server s e).queue ≠ some b ∧ ∃ sBatch' : Batch,
        (step batch_size server s e).batches[b]? = some sBatch' ∧ sBatch'.info = sBatch.info := by
    rintro s e ⟨hqueue, sBatch', hb', hinfo⟩
    obtain ⟨sBatch'', hb'', hmoves⟩ := step_moves batch_size server hb' e
    exact ⟨step_queue (List.getElem?_eq_some_iff.mp hb').1 hqueue e, sBatch'', hb'',
      (hmoves.closed hqueue).trans hinfo⟩
  obtain ⟨-, sBatch', hb', hinfo⟩ := trace_keeps hkeeps hnm ⟨hqueue, sBatch, hb, rfl⟩
  simp only [BatchClient.place, hb, hb', Option.bind_some, hinfo]

end

/-! ## Every run -/

/-- The requests of the calls among the first events. -/
def called (sched : ℕ → Event) (n : ℕ) : List Request :=
  (List.range n).filterMap fun k =>
    match sched k with
    | .call aRequest => some aRequest
    | _ => none

theorem trace_called {batch_size : ℕ} (server : Server) (hsize : 1 ≤ batch_size)
    (sched : ℕ → Event) (n : ℕ) :
    (trace (step batch_size server) {} sched n).calls.map (fun call => call.info.request) =
      called sched n := by
  induction n with
  | zero => rfl
  | succ n ih =>
      rw [trace, step_requests (sound_trace server hsize sched n), ih, called, called,
        List.range_succ, List.filterMap_append]
      congr 1
      simp only [List.filterMap_cons, List.filterMap_nil]
      cases sched n <;> rfl

/-- Every request is placed once, every batch is sent once with all its requests and is not
changed after that, and every call returns the response at the place of its request. -/
theorem batchClient_routes {batch_size : ℕ} {server : Server} (hsize : 1 ≤ batch_size)
    (hserver : Answers server) (sched : ℕ → Event) :
    (∀ n, Routed batch_size server (trace (step batch_size server) {} sched n) ∧
      (trace (step batch_size server) {} sched n).calls.map (fun call => call.info.request) =
        called sched n) ∧
    (∀ n m b sRequests, n ≤ m →
      (b, sRequests) ∈ (trace (step batch_size server) {} sched n).sent →
      ∀ j, (trace (step batch_size server) {} sched m).place (b, j) =
        (trace (step batch_size server) {} sched n).place (b, j)) ∧
    (Fair Internal sched →
      (∀ n b, b < (trace (step batch_size server) {} sched n).batches.length →
        ∃ m sRequests, n ≤ m ∧
          (b, sRequests) ∈ (trace (step batch_size server) {} sched m).sent) ∧
      ∀ n i, i < (trace (step batch_size server) {} sched n).calls.length →
        ∃ m call y, n ≤ m ∧
          (trace (step batch_size server) {} sched m).calls[i]? = some call ∧
          call.pc = .returned y) := by
  refine ⟨fun n => ⟨(sound_trace server hsize sched n).routed, trace_called server hsize sched n⟩,
    ?_, fun hfair => ⟨?_, ?_⟩⟩
  · intro n m b sRequests hnm hsent j
    exact place_fixed hsize hnm hsent j
  · intro n b hb
    obtain ⟨m, hnm, sBatch, hb', hcollects⟩ :=
      batch_leaves hfair hb
    exact ⟨m, _, hnm, ((sound_trace server hsize sched m).sent b _).mpr
      ⟨sBatch, hb', hcollects, rfl⟩⟩
  · intro n i hi
    obtain ⟨m, hnm, call, y, hcall, hreturned⟩ := call_returns hsize hserver hfair hi
    exact ⟨m, call, y, hnm, hcall, hreturned⟩

/-- A code for every step of a coroutine. -/
def eventOf (c : ℕ) : Event :=
  match c % 6 with
  | 0 => .waits (c / 6)
  | 1 => .starts (c / 6)
  | 2 => .expires (c / 6)
  | 3 => .wakes (c / 6)
  | 4 => .completes (c / 6)
  | _ => .resumes (c / 6)

theorem eventOf_surjective (e : Event) (he : Internal e) : ∃ c, eventOf c = e := by
  have hcode : ∀ i k, k < 6 → (6 * i + k) % 6 = k ∧ (6 * i + k) / 6 = i := by
    intro i k hk
    omega
  cases e with
  | call aRequest => exact he.elim
  | waits i => exact ⟨6 * i + 0, by simp only [eventOf, hcode i 0 (by decide)]⟩
  | starts b => exact ⟨6 * b + 1, by simp only [eventOf, hcode b 1 (by decide)]⟩
  | expires b => exact ⟨6 * b + 2, by simp only [eventOf, hcode b 2 (by decide)]⟩
  | wakes b => exact ⟨6 * b + 3, by simp only [eventOf, hcode b 3 (by decide)]⟩
  | completes b => exact ⟨6 * b + 4, by simp only [eventOf, hcode b 4 (by decide)]⟩
  | resumes i => exact ⟨6 * i + 5, by simp only [eventOf, hcode i 5 (by decide)]⟩

/-- The server of the tests, when every key has the value of the request. -/
def echo : Server := fun _ sRequests =>
  some (sRequests.map fun aRequest => { key := aRequest.key, value := aRequest.value })

theorem echo_answers : Answers echo :=
  fun _ _ => ⟨_, rfl, List.length_map _⟩

/-- Two calls in a row with room for one request in a batch. -/
def overflowRun : ℕ → Event :=
  enumerated [.call { key := [1] }, .call { key := [2] }] eventOf

theorem batchClient_routes_overflow : 1 ≤ 1 ∧ Answers echo ∧ Fair Internal overflowRun ∧
    (∃ m sRequests, (1, sRequests) ∈ (trace (step 1 echo) {} overflowRun m).sent) ∧
    ∃ m call y, (trace (step 1 echo) {} overflowRun m).calls[1]? = some call ∧
      call.pc = .returned y := by
  have hfair : Fair Internal overflowRun := enumerated_fair eventOf_surjective _
  obtain ⟨-, -, hprogress⟩ := batchClient_routes (Nat.le_refl 1) echo_answers overflowRun
  obtain ⟨hsent, hreturned⟩ := hprogress hfair
  obtain ⟨m, sRequests, -, hm⟩ := hsent 2 1 (by decide)
  obtain ⟨m', call, y, -, hcall, hy⟩ := hreturned 2 1 (by decide)
  exact ⟨Nat.le_refl 1, echo_answers, hfair, ⟨m, sRequests, hm⟩, m', call, y, hcall, hy⟩

end Stuff.KvBatchClient
