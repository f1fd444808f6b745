import Stuff.Http2Flow

/-!
# A sender within its flow

The queues of a sender together with the flow they feed. What the coroutine has
handed to the socket is on the channel while the queue still holds it, so a
flow counts the channel and the part of the write queue behind that. Every
operation of the sender keeps the flow's invariant.
-/
namespace Stuff.Http2SenderFlow
open MachineWords Http2Frames Http2Hpack Http2Output Http2Accounts Http2Parser Http2Net
open CreditWindow Http2Streams Http2Flow EventRuns

variable {N : Nghttp2} {M : Type}

/-! ## The queues of a sender -/

/-- The frames of the write queue that are not yet handed to the socket. -/
def unwritten (s : Sender N) : List Frame :=
  match s.coro with
  | .write n => s.output.writeQueue.drop n
  | _ => s.output.writeQueue

/-- The same for the priority queue. -/
def unsent (s : Sender N) : List Frame :=
  match s.coro with
  | .priority n => s.output.priorityQueue.drop n
  | _ => s.output.priorityQueue

/-- A frame out of the write queue. -/
def IsMessage (f : Frame) : Prop := f.header.type = .headers ∨ f.header.type = .data

/-- A frame out of the priority queue. -/
def IsControl (f : Frame) : Prop :=
  (∃ id, f = windowUpdateFrame id) ∨ ∃ ack, f = createSettings ack

structure Queues (s : Sender N) : Prop where
  write : ∀ n, s.coro = .write n → n ≤ s.output.writeQueue.length
  priority : ∀ n, s.coro = .priority n → n ≤ s.output.priorityQueue.length
  message : ∀ f ∈ s.output.writeQueue, IsMessage f
  control : ∀ f ∈ s.output.priorityQueue, IsControl f

/-- The increment a frame carries for a target. -/
def grantOn (id : UInt32) (f : Frame) : ℕ :=
  if f.header.type = .windowUpdate ∧ f.stream = id then increment f else 0

theorem grantOn_message (k : UInt32) {f : Frame} (h : IsMessage f) : grantOn k f = 0 := by
  rcases h with h | h <;> simp [grantOn, h]

@[simp] theorem grantOn_settings (k : UInt32) (ack : Bool) :
    grantOn k (createSettings ack) = 0 := rfl

@[simp] theorem grantOn_windowUpdate (k id : UInt32) :
    grantOn k (windowUpdateFrame id) = if id = k then 65535 else 0 := by
  simp [grantOn]

theorem control_not_message {f : Frame} (h : IsControl f) :
    f.header.type ≠ .headers ∧ f.header.type ≠ .data := by
  rcases h with ⟨id, rfl⟩ | ⟨ack, rfl⟩ <;> simp [windowUpdateFrame, createSettings]

theorem total_control_any {fs : List Frame} (h : ∀ f ∈ fs, IsControl f) :
    total dataAny fs = 0 := by
  apply total_eq_zero
  intro f hf
  rw [dataAny, if_neg (control_not_message (h f hf)).2]

theorem total_control_on (k : UInt32) {fs : List Frame} (h : ∀ f ∈ fs, IsControl f) :
    total (dataOn k) fs = 0 := by
  apply total_eq_zero
  intro f hf
  rw [dataOn, if_neg (fun hd => (control_not_message (h f hf)).2 hd.1)]

theorem inbound_control (k : UInt32) {fs : List Frame} (h : ∀ f ∈ fs, IsControl f) :
    inbound k fs = [] := by
  apply List.filter_eq_nil_iff.mpr
  intro f hf
  have hne := control_not_message (h f hf)
  simp [hne.1, hne.2]

theorem total_message_grant (k : UInt32) {fs : List Frame} (h : ∀ f ∈ fs, IsMessage f) :
    total (grantOn k) fs = 0 :=
  total_eq_zero fun f hf => grantOn_message k (h f hf)

/-! ## A sender within its flow -/

/-- The flow of a sender whose frames are on `wire`. -/
def flowOf (s : Sender N) (wire : List Frame) (m : Main N M) (exit : Exit)
    (grants : UInt32 → ℕ) : Flow N M :=
  { output := s.output, messages := s.messages, transit := wire ++ unwritten s, main := m,
    exit := exit, grants := grants }

structure Good (s : Sender N) (wire : List Frame) (m : Main N M) (exit : Exit)
    (grants : UInt32 → ℕ) : Prop where
  inv : (flowOf s wire m exit grants).Inv
  queues : Queues s

section Senders
variable {s : Sender N} {wire : List Frame} {m : Main N M} {exit : Exit} {grants : UInt32 → ℕ}

theorem unwritten_append (h : Queues s) {o : Output N} {fs : List Frame}
    (ho : o.writeQueue = s.output.writeQueue ++ fs) :
    unwritten { s with output := o } = unwritten s ++ fs := by
  unfold unwritten
  cases hc : s.coro with
  | write n => simp only [ho, List.drop_append_of_le_length (h.write n hc)]
  | _ => exact ho

theorem unsent_append (h : Queues s) {o : Output N} {fs : List Frame}
    (ho : o.priorityQueue = s.output.priorityQueue ++ fs) :
    unsent { s with output := o } = unsent s ++ fs := by
  unfold unsent
  cases hc : s.coro with
  | priority n => simp only [ho, List.drop_append_of_le_length (h.priority n hc)]
  | _ => exact ho

/-- The write queue grows by frames of messages. -/
theorem Queues.grow (h : Queues s) {o : Output N} {fs : List Frame}
    (ho : o.writeQueue = s.output.writeQueue ++ fs) (hfs : ∀ f ∈ fs, IsMessage f)
    (hp : o.priorityQueue = s.output.priorityQueue) : Queues { s with output := o } := by
  constructor
  · intro n hn
    have hle := h.write n hn
    simp only [ho, List.length_append]
    omega
  · intro n hn
    simp only [hp]
    exact h.priority n hn
  · intro f hf
    simp only [ho, List.mem_append] at hf
    exact hf.elim (h.message f) (hfs f)
  · simp only [hp]
    exact h.control

theorem Good.move {Q : UInt32 → Http2Output.Info → Prop} {o : Output N}
    (h : Good s wire m exit grants) (hm : Output.FlushMove Q s.output o) :
    Good { s with output := o } wire m exit grants ∧
      o.priorityQueue = s.output.priorityQueue := by
  obtain ⟨fs, ho, hfs, hp⟩ : ∃ fs, o.writeQueue = s.output.writeQueue ++ fs ∧
      (∀ f ∈ fs, IsMessage f) ∧ o.priorityQueue = s.output.priorityQueue := by
    cases hm with
    | erase hd hbody hQ => exact ⟨[], by simp, by simp, rfl⟩
    | @chunk id d len hd hpos hbudget hwindow hbody =>
        exact ⟨Output.chunkFrames id d len, rfl,
          fun f hf => .inr (chunkFrames_isData id d len f hf).1, rfl⟩
  refine ⟨⟨?_, h.queues.grow ho hfs hp⟩, hp⟩
  have hinv := h.inv.move hm ho
  simp only [flowOf, unwritten_append h.queues ho, ← List.append_assoc]
  exact hinv

theorem Good.flush (h : Good s wire m exit grants) :
    Good { s with output := s.output.flush } wire m exit grants ∧
      s.output.flush.priorityQueue = s.output.priorityQueue := by
  refine Output.flush_invariant (Q := fun _ _ => True)
    (I := fun o => Good { s with output := o } wire m exit grants ∧
      o.priorityQueue = s.output.priorityQueue) ?_ (fun _ _ => trivial) ⟨h, rfl⟩
  rintro o o' ⟨ho, hp⟩ hm
  have hmove := Good.move (s := { s with output := o }) ho hm
  exact ⟨hmove.1, hmove.2.trans hp⟩

theorem Good.windowUpdate (h : Good s wire m exit grants) (id : UInt32) {g : UInt32 → ℕ}
    (hg : ∀ k, grants k = (if id = k then 65535 else 0) + g k) :
    Good (s.step (.windowUpdate id defaultWindowSize)) wire m exit g ∧
      unsent (s.step (.windowUpdate id defaultWindowSize)) = unsent s := by
  let t : Sender N := { s with
    output := s.output.credit id defaultWindowSize
    updates := s.updates ++ [(id, defaultWindowSize)] }
  have hwrite : t.output.writeQueue = s.output.writeQueue := Output.credit_writeQueue _ _ _
  have hpriority : t.output.priorityQueue = s.output.priorityQueue :=
    Output.credit_priorityQueue _ _ _
  have ht : Good t wire m exit g := by
    constructor
    · have hinv := h.inv.credit id hg
      have hsame : unwritten t = unwritten s := by
        unfold unwritten
        rw [hwrite]
      simp only [flowOf, hsame]
      exact hinv
    · obtain ⟨hn, hp, hmessage, hcontrol⟩ := h.queues
      exact ⟨by rwa [hwrite], by rwa [hpriority], by rwa [hwrite], by rwa [hpriority]⟩
  obtain ⟨hflush, hqueue⟩ := ht.flush
  refine ⟨hflush, ?_⟩
  unfold unsent
  simp only [Sender.step, Output.processWindowUpdate]
  rw [hqueue, hpriority]

theorem Good.noted (h : Good s wire m exit grants) {id : UInt32} (hid : id ≠ 0)
    (hnew : id ∉ s.messages.map Prod.fst) (body : Bytes)
    (deflated : Except String Bytes × N.Deflater) :
    Good (s.noted id body (s.output.enqueueBlock id body deflated)) wire m exit grants ∧
      unsent (s.noted id body (s.output.enqueueBlock id body deflated)) = unsent s := by
  rcases s.output.enqueueBlock_cases id body deflated with ⟨e, -, heq⟩ | ⟨block, -, heq⟩
  · rw [heq]
    obtain ⟨hn, hp, hmessage, hcontrol⟩ := h.queues
    exact ⟨⟨h.inv.congr rfl rfl rfl rfl rfl (fun he => he) rfl rfl (fun _ => rfl)
      (fun _ _ => rfl), ⟨hn, hp, hmessage, hcontrol⟩⟩, rfl⟩
  · rw [heq]
    let t : Sender N := { s with messages := s.messages ++ [(id, body)] }
    have ht : Queues t := by
      obtain ⟨hn, hp, hmessage, hcontrol⟩ := h.queues
      exact ⟨hn, hp, hmessage, hcontrol⟩
    refine ⟨⟨?_, ?_⟩, rfl⟩
    · have hinv := h.inv.message hid hnew body block deflated.2
      have happend := unwritten_append (s := t) ht
        (o := s.output.withMessage id body block deflated.2) rfl
      simp only [flowOf, Sender.noted, Option.isNone_none, if_true]
      simp only [t] at happend
      rw [happend, ← List.append_assoc]
      exact hinv
    · refine ht.grow (o := s.output.withMessage id body block deflated.2) rfl ?_ rfl
      intro f hf
      rw [List.mem_singleton] at hf
      exact .inl (by rw [hf]; rfl)

theorem Good.send (h : Good s wire m exit grants) {f : Frame} (hf : IsControl f) :
    Good (s.step (.send f)) wire m exit grants ∧ unsent (s.step (.send f)) = unsent s ++ [f] := by
  refine ⟨⟨h.inv.congr rfl rfl rfl rfl rfl (fun he => he) rfl rfl (fun _ => rfl)
    (fun _ _ => rfl), ?_⟩, unsent_append h.queues rfl⟩
  obtain ⟨hn, hp, hmessage, hcontrol⟩ := h.queues
  constructor
  · exact hn
  · intro n hc
    have hle := hp n hc
    simp only [Sender.step, Output.send, List.length_append]
    omega
  · exact hmessage
  · intro g hg
    rcases List.mem_append.mp hg with hg | hg
    · exact hcontrol g hg
    · rw [List.mem_singleton] at hg
      rwa [hg]

theorem mergeCount_le (fs : List Frame) (count length : ℕ) :
    mergeCount fs count length ≤ count + fs.length := by
  induction fs generalizing count length with
  | nil => exact Nat.le_refl _
  | cons f fs ih =>
      unfold mergeCount
      split_ifs
      · have := ih (count + 1) (length + f.bytes.length)
        simp only [List.length_cons]
        omega
      · omega

/-- Frames of the priority queue join the channel without any effect on the
messages behind and before them. -/
theorem Good.handPriority (h : Good s wire m exit grants) (hidle : s.coro = .idle) {n : ℕ}
    (hn : n ≤ s.output.priorityQueue.length) :
    Good { s with coro := .priority n } (wire ++ s.output.priorityQueue.take n) m exit grants := by
  have hcontrol : ∀ f ∈ s.output.priorityQueue.take n, IsControl f :=
    fun f hf => h.queues.control f (List.mem_of_mem_take hf)
  have hsame : unwritten { s with coro := .priority n } = unwritten s := by
    simp only [unwritten, hidle]
  constructor
  · refine h.inv.congr rfl rfl rfl rfl rfl (fun he => he) rfl ?_ ?_ ?_
    · simp only [flowOf, hsame, total_append, total_control_any hcontrol, Nat.add_zero]
    · intro k
      simp only [flowOf, hsame, total_append, total_control_on k hcontrol, Nat.add_zero]
    · intro _ k
      simp only [flowOf, hsame, inbound_append, inbound_control k hcontrol, List.append_nil]
  · refine ⟨by simp, ?_, h.queues.message, h.queues.control⟩
    intro n' hn'
    cases hn'
    exact hn

theorem Good.handWrite (h : Good s wire m exit grants) (hidle : s.coro = .idle) {n : ℕ}
    (hn : n ≤ s.output.writeQueue.length) :
    Good { s with coro := .write n } (wire ++ s.output.writeQueue.take n) m exit grants := by
  have htransit : (wire ++ s.output.writeQueue.take n) ++ unwritten { s with coro := .write n } =
      wire ++ unwritten s := by
    simp only [unwritten, hidle, List.append_assoc, List.take_append_drop]
  constructor
  · have hinv := h.inv
    simp only [flowOf, htransit]
    exact hinv
  · refine ⟨?_, by simp, h.queues.message, h.queues.control⟩
    intro n' hn'
    cases hn'
    exact hn

theorem Good.popPriority (h : Good s wire m exit grants) {n : ℕ} (hc : s.coro = .priority n) :
    Good { s with
      output := { s.output with priorityQueue := s.output.priorityQueue.drop n }
      coro := .idle } wire m exit grants := by
  have hsame : unwritten { s with
      output := { s.output with priorityQueue := s.output.priorityQueue.drop n }
      coro := .idle } = unwritten s := by
    simp only [unwritten, hc]
  constructor
  · refine h.inv.congr rfl rfl rfl rfl rfl (fun he => he) rfl ?_ ?_ ?_ <;>
      simp only [flowOf, hsame, implies_true]
  · exact ⟨by simp, by simp, h.queues.message,
      fun f hf => h.queues.control f (List.mem_of_mem_drop hf)⟩

theorem Good.popWrite (h : Good s wire m exit grants) {n : ℕ} (hc : s.coro = .write n)
    (popped : List Frame) :
    Good { s with
      output := { s.output with writeQueue := s.output.writeQueue.drop n }
      coro := .idle
      popped := popped } wire m exit grants := by
  have hsame : unwritten { s with
      output := { s.output with writeQueue := s.output.writeQueue.drop n }
      coro := .idle
      popped := popped } = unwritten s := by
    simp only [unwritten, hc]
  constructor
  · refine h.inv.congr rfl rfl rfl rfl rfl (fun he => he) rfl ?_ ?_ ?_ <;>
      simp only [flowOf, hsame, implies_true]
  · exact ⟨by simp, by simp, fun f hf => h.queues.message f (List.mem_of_mem_drop hf),
      h.queues.control⟩

/-- A resumption keeps the flow of its sender, and moves increments from the
queue to the channel without changing their sum. -/
theorem Good.resume (h : Good s wire m exit grants) :
    Good s.resume.1 (wire ++ s.resume.2) m exit grants ∧
    (∀ k, total (grantOn k) s.resume.2 + total (grantOn k) (unsent s.resume.1) =
      total (grantOn k) (unsent s)) ∧
    ∀ f ∈ s.resume.2, IsMessage f ∨ IsControl f := by
  unfold Sender.resume
  cases hc : s.coro with
  | idle =>
      dsimp only
      split_ifs with hp hw
      · have hn := mergeCount_le s.output.priorityQueue 0 0
        rw [Nat.zero_add] at hn
        refine ⟨h.handPriority hc hn, ?_, ?_⟩
        · intro k
          rw [← total_append]
          simp only [unsent, hc, List.take_append_drop]
        · intro f hf
          exact .inr (h.queues.control f (List.mem_of_mem_take hf))
      · have hn := mergeCount_le s.output.writeQueue 0 0
        rw [Nat.zero_add] at hn
        have hmessage : ∀ f ∈ s.output.writeQueue.take (mergeCount s.output.writeQueue 0 0),
            IsMessage f := fun f hf => h.queues.message f (List.mem_of_mem_take hf)
        refine ⟨h.handWrite hc hn, ?_, fun f hf => .inl (hmessage f hf)⟩
        intro k
        rw [total_message_grant k hmessage]
        simp only [unsent, hc, Nat.zero_add]
      · simpa using h
  | priority n =>
      refine ⟨by simpa using h.popPriority hc, ?_, by simp⟩
      intro k
      simp only [unsent, hc, total_nil, Nat.zero_add]
  | write n =>
      have hpop := h.popWrite hc (s.popped ++ s.output.writeQueue.take n)
      dsimp only
      split_ifs
      · obtain ⟨hflush, hqueue⟩ := hpop.flush
        refine ⟨by simpa using hflush, ?_, by simp⟩
        intro k
        simp only [unsent, hc, hqueue, total_nil, Nat.zero_add]
      · refine ⟨by simpa using hpop, ?_, by simp⟩
        intro k
        simp only [unsent, hc, total_nil, Nat.zero_add]
  | failed => simpa using h

/-- A frame without payload of a message is taken off the channel and leaves
the counters alone. -/
theorem Good.pop {f : Frame} {rest : List Frame} {m' : Main N M}
    (h : Good s (f :: rest) m .done grants) (hany : dataAny f = 0) (hon : ∀ k, dataOn k f = 0)
    (hinbound : exit = .done → ∀ k, inbound k (f :: rest) = inbound k rest)
    (hinfo : m'.info = m.info) (hbudget : m'.budget = m.budget) : Good s rest m' exit grants := by
  refine ⟨h.inv.congr rfl rfl rfl hinfo hbudget (fun _ => rfl) rfl ?_ ?_ ?_, h.queues⟩
  · simp only [flowOf, List.cons_append, total_cons, hany, Nat.zero_add]
  · intro k
    simp only [flowOf, List.cons_append, total_cons, hon, Nat.zero_add]
  · intro hdone k
    have hin := hinbound hdone k
    simp only [flowOf, inbound_append, hin]

theorem Good.popControl {f : Frame} {rest : List Frame} {m' : Main N M}
    (h : Good s (f :: rest) m .done grants) (hf : IsControl f) (hinfo : m'.info = m.info)
    (hbudget : m'.budget = m.budget) : Good s rest m' .done grants := by
  obtain ⟨hheaders, hdata⟩ := control_not_message hf
  refine h.pop ?_ ?_ ?_ hinfo hbudget
  · rw [dataAny, if_neg hdata]
  · intro k
    rw [dataOn, if_neg (fun h => hdata h.1)]
  · intro _ k
    simp [inbound, hheaders, hdata]

end Senders
end Stuff.Http2SenderFlow
