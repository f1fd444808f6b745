import Stuff.KvServer
import Stuff.KvBatchClientProgress

/-!
# The store is linearizable

A client keeps what it has sent, so the server takes every request at most once, with the answer
of the map at that time. Whoever returns has this answer. An answer is never taken from an HTTP
request that failed, although the server may have taken its requests.
-/
namespace Stuff.KvServer
open MachineWords ByteSources Cbor ContainerStream KvBatchClient Linearization EventRuns Holders

/-! ## Bodies are read back -/

/-- The strings of a request are as long as a string can be. -/
def Limits.Fits (limits : Limits) (key : Bytes) (value : Option Bytes) : Prop :=
  key.length ≤ limits.maxSize .string ∧ ∀ v ∈ value, v.length ≤ limits.maxSize .string

section Bodies
variable {limits : Limits}

theorem sound_recordTy (maxSize : Ty .type → ℕ) : Cbor.Sound maxSize recordTy :=
  ⟨trivial, ⟨trivial, neverNull fun _ h => by cases h⟩, trivial⟩

theorem Limits.Fits.valid (hstring : limits.maxSize .string < 2 ^ 64) {key : Bytes}
    {value : Option Bytes} (h : limits.Fits key value) :
    Valid limits.maxSize recordTy (key, value, ()) := by
  refine ⟨⟨Nat.lt_of_le_of_lt h.1 hstring, h.1⟩, ?_, trivial⟩
  intro v hv
  exact ⟨Nat.lt_of_le_of_lt (h.2 v hv) hstring, h.2 v hv⟩

theorem reads_readRecords {l : List (Val recordTy)} (hlt : l.length < 2 ^ 64)
    (hrequests : l.length ≤ limits.requests) (hl : ∀ v ∈ l, Valid limits.maxSize recordTy v) :
    Reads (readRecords feed limits) (writeRecords l) l := by
  apply (reads_readSize _ (by decide) hlt).bind
  apply (reads_resize hrequests).bind_nil
  exact reads_readN fun v hv => reads_read_write recordTy (sound_recordTy _) v (hl v hv)

/-- What a client or the server has written is what the other one reads. -/
theorem fromBody_writeRecords {l : List (Val recordTy)} (hlt : l.length < 2 ^ 64)
    (hrequests : l.length ≤ limits.requests) (hl : ∀ v ∈ l, Valid limits.maxSize recordTy v)
    (hsize : (writeRecords l).length < 2 ^ 64) : fromBody limits (writeRecords l) = .ok l := by
  have hsim := imemstream_simulates hsize False 0 False.elim
  have hsame : Same False (InMemory (writeRecords l)) (readRecords feed limits)
      (readRecords imemstream limits) := by
    apply (same_readSize hsim False.elim cborList).bind
    intro mt
    apply agree_resize
    intro _
    exact (same_readN (same_read hsim limits.maxSize False.elim recordTy) mt).weaken
  obtain ⟨last, hread⟩ := reads_readRecords hlt hrequests hl [] none
  have hagree := hsame _ _ (InMemory.start _) trivial
  rw [List.append_nil] at hread
  rw [hread] at hagree
  obtain ⟨-, t, ht, -⟩ := hagree
  rw [fromBody, ht]
  rfl

end Bodies

/-! ## One client -/

section Client
variable {batch_size : ℕ} {server server' : Server} {client : BatchClient}

/-- The answers to batches that have not come back do not matter. -/
theorem sound_congr (h : KvBatchClient.Sound batch_size server client)
    (hsame : ∀ (b : ℕ) (sBatch : Batch), client.batches[b]? = some sBatch →
      sBatch.pc = .done ∨ sBatch.pc = .threw →
        server b (client.requests sBatch) = server' b (client.requests sBatch)) :
    KvBatchClient.Sound batch_size server' client := by
  refine ⟨h.places, h.queued, h.small, h.once, h.sent, h.performing, ?_, ?_⟩
  · intro b sBatch hb hthrew
    rw [← hsame b sBatch hb (Or.inr hthrew)]
    exact h.threw b sBatch hb hthrew
  · intro b sBatch j i call hb hj hcall
    have hanswer : answerTo server' client b sBatch j = answerTo server client b sBatch j := by
      unfold answerTo
      split_ifs with hdone
      · rw [hsame b sBatch hb (Or.inl hdone)]
      · rfl
    rw [hanswer]
    exact h.calls b sBatch j i call hb hj hcall

/-- A step of a client with the answer to the batch that comes back, if one does. -/
theorem step_server (h : KvBatchClient.Sound batch_size server client)
    (answer : Option (List Response)) (e : KvBatchClient.Event) :
    ∃ server', KvBatchClient.Sound batch_size server' client ∧
      KvBatchClient.step batch_size (fun _ _ => answer) client e =
        KvBatchClient.step batch_size server' client e ∧
      ∀ b sRequests ys, server' b sRequests = some ys →
        server b sRequests = some ys ∨ e = .completes b ∧ answer = some ys := by
  have hquiet : KvBatchClient.step batch_size (fun _ _ => answer) client e =
      KvBatchClient.step batch_size server client e → ∃ server',
        KvBatchClient.Sound batch_size server' client ∧
        KvBatchClient.step batch_size (fun _ _ => answer) client e =
          KvBatchClient.step batch_size server' client e ∧
        ∀ b sRequests ys, server' b sRequests = some ys →
          server b sRequests = some ys ∨ e = .completes b ∧ answer = some ys :=
    fun hsame => ⟨server, h, hsame, fun b sRequests ys hys => Or.inl hys⟩
  cases e with
  | call aRequest => exact hquiet rfl
  | waits i => exact hquiet rfl
  | starts b => exact hquiet rfl
  | expires b => exact hquiet rfl
  | wakes b => exact hquiet rfl
  | resumes i => exact hquiet rfl
  | completes b =>
      by_cases hperforming : ∃ sBatch sRequests, client.batches[b]? = some sBatch ∧
          sBatch.pc = .performing sRequests
      · obtain ⟨sBatch, sRequests, hb, hpc⟩ := hperforming
        refine ⟨fun b' rs => if b' = b then answer else server b' rs, ?_, ?_, ?_⟩
        · apply sound_congr h
          intro b' sBatch' hb' hback
          have hne : b' ≠ b := by
            rintro rfl
            rw [hb] at hb'
            cases hb'
            rw [hpc] at hback
            simp at hback
          rw [if_neg hne]
        · simp only [KvBatchClient.step, BatchClient.complete, if_true]
        · intro b' rs ys hys
          have hanswer : (if b' = b then answer else server b' rs) = some ys := hys
          split_ifs at hanswer with heq
          · exact Or.inr ⟨congrArg _ heq.symm, hanswer⟩
          · exact Or.inl hanswer
      · apply hquiet
        simp only [KvBatchClient.step, BatchClient.complete]
        split
        · rfl
        · rename_i sBatch hb
          split
          · rename_i sRequests hpc
            exact absurd ⟨sBatch, sRequests, hb, hpc⟩ hperforming
          · rfl

theorem collects_false_iff (pc : BatchPc) : pc.collects = false ↔ pc.rank ≤ 1 := by
  cases pc <;> simp [BatchPc.collects, BatchPc.rank]

/-- A batch that has taken off keeps its calls. -/
theorem step_sent (h : KvBatchClient.Sound batch_size server client) {b : ℕ} {sBatch : Batch}
    (hb : client.batches[b]? = some sBatch) (hpc : sBatch.pc.collects = false)
    (server' : Server) (e : KvBatchClient.Event) :
    ∃ sBatch', (KvBatchClient.step batch_size server' client e).batches[b]? = some sBatch' ∧
      sBatch'.info = sBatch.info ∧ sBatch'.pc.collects = false := by
  obtain ⟨sBatch', hb', hmoves⟩ := step_moves batch_size server' hb e
  have hqueue : client.queue ≠ some b := by
    intro hqueue
    obtain ⟨sBatch₀, hb₀, hcollects⟩ := h.queued b hqueue
    rw [hb] at hb₀
    cases hb₀
    rw [hpc] at hcollects
    cases hcollects
  refine ⟨sBatch', hb', hmoves.closed hqueue, ?_⟩
  rw [collects_false_iff] at hpc ⊢
  exact hmoves.rank_le.trans hpc

end Client

/-! ## The loop of the server -/

section Loop
variable {limits : Limits} {m_Data : Data}

theorem length_applyAll (m_Data : Data) (sRequests : List Request) :
    (applyAll m_Data sRequests).2.length = sRequests.length := by
  induction sRequests generalizing m_Data with
  | nil => rfl
  | cons x sRequests ih => rw [applyAll, List.length_cons, ih, List.length_cons]

theorem entries_call (c : ℕ) (m_Data : Data) (l : List (ℕ × Request)) :
    (entries c m_Data l).map Entry.call = l.map fun x => (c, x.1) := by
  induction l generalizing m_Data with
  | nil => rfl
  | cons x l ih => rw [entries, List.map_cons, ih, List.map_cons]

theorem sequential_entries (c : ℕ) (m_Data : Data) (l : List (ℕ × Request)) :
    Sequential apply m_Data (entries c m_Data l) ∧
      final apply m_Data (entries c m_Data l) = (applyAll m_Data (l.map Prod.snd)).1 := by
  induction l generalizing m_Data with
  | nil => exact ⟨trivial, rfl⟩
  | cons x l ih =>
      obtain ⟨hsequential, hfinal⟩ := ih (apply m_Data x.2).1
      exact ⟨⟨rfl, hsequential⟩, hfinal⟩

/-- The entry of a call has its request and its response. -/
theorem entries_getElem? (c : ℕ) (m_Data : Data) (l : List (ℕ × Request)) (j : ℕ) :
    (entries c m_Data l)[j]? = (l[j]?).bind fun x =>
      ((applyAll m_Data (l.map Prod.snd)).2[j]?).map fun y => ⟨(c, x.1), x.2, y⟩ := by
  induction l generalizing m_Data j with
  | nil => rfl
  | cons x l ih =>
      cases j with
      | zero => rfl
      | succ j => exact ih (apply m_Data x.2).1 j

theorem of_mem_entries {c : ℕ} {m_Data : Data} {l : List (ℕ × Request)}
    {e : Entry (ℕ × ℕ) Request Response} (h : e ∈ entries c m_Data l) :
    ∃ x ∈ l, e.call = (c, x.1) ∧ e.op = x.2 := by
  obtain ⟨j, hj⟩ := List.mem_iff_getElem?.mp h
  rw [entries_getElem?, Option.bind_eq_some_iff] at hj
  obtain ⟨x, hx, hy⟩ := hj
  obtain ⟨y, -, rfl⟩ := Option.map_eq_some_iff.mp hy
  exact ⟨x, List.mem_of_getElem? hx, rfl, rfl⟩

/-- The values are strings. -/
def Stored (limits : Limits) (m_Data : Data) : Prop := ∀ key, limits.Fits [] (m_Data key)

theorem stored_apply (h : Stored limits m_Data) {x : Request} (hx : limits.Fits x.key x.value) :
    Stored limits (apply m_Data x).1 ∧
      limits.Fits (apply m_Data x).2.key (apply m_Data x).2.value := by
  unfold apply
  split
  · rename_i value hvalue
    constructor
    · intro key
      refine ⟨Nat.zero_le _, ?_⟩
      simp only [set, Function.update_apply]
      split_ifs
      · exact hvalue ▸ hx.2
      · exact (h key).2
    · exact ⟨hx.1, fun v hv => by cases hv⟩
  · exact ⟨h, hx.1, (h x.key).2⟩

theorem stored_applyAll (h : Stored limits m_Data) {sRequests : List Request}
    (hall : ∀ x ∈ sRequests, limits.Fits x.key x.value) :
    Stored limits (applyAll m_Data sRequests).1 ∧
      ∀ y ∈ (applyAll m_Data sRequests).2, limits.Fits y.key y.value := by
  induction sRequests generalizing m_Data with
  | nil => exact ⟨h, fun y hy => by cases hy⟩
  | cons x sRequests ih =>
      rw [List.forall_mem_cons] at hall
      obtain ⟨hstored, hfits⟩ := stored_apply h hall.1
      obtain ⟨hstored', hfits'⟩ := ih hstored hall.2
      exact ⟨hstored', List.forall_mem_cons.mpr ⟨hfits, hfits'⟩⟩

end Loop

/-! ## The invariant -/

/-- What is true of a client: it is one of some server whose answers have come from here. -/
structure ClientInv (limits : Limits) (batch_size : ℕ)
    (replies : ℕ → Option (Except String HttpResponse)) (client : BatchClient) : Prop where
  sound : ∃ server, KvBatchClient.Sound batch_size server client ∧
    ∀ b sRequests ys, server b sRequests = some ys →
      ∃ sResult, replies b = some sResult ∧ Client.result limits sResult = some ys
  fits : ∀ x ∈ client.calls.map (fun call => call.info.request), limits.Fits x.key x.value

/-- The batch has taken off, and its calls are in the history with the answers that the client
reads. -/
structure Handled (limits : Limits) (log : List (Entry (ℕ × ℕ) Request Response)) (c : ℕ)
    (sBatch : Batch) (sResult : Except String HttpResponse) : Prop where
  left : sBatch.pc.collects = false
  answers : ∀ ys, Client.result limits sResult = some ys → ∀ (j i : ℕ) (y : Response),
    sBatch.info[j]? = some i → ys[j]? = some y → ∃ e ∈ log, e.call = (c, i) ∧ e.reply = y

structure Inv (limits : Limits) (batch_size : ℕ → ℕ) (s : System) : Prop where
  clients : ∀ (c : ℕ) client, s.clients[c]? = some client →
    ClientInv limits (batch_size c) (fun b => s.replies (c, b)) client
  handled : ∀ c b sResult, s.replies (c, b) = some sResult → ∃ client sBatch,
    s.clients[c]? = some client ∧ client.batches[b]? = some sBatch ∧
      Handled limits s.log c sBatch sResult
  stored : Stored limits s.m_Data
  sequential : Sequential apply (fun _ => none) s.log
  data : final apply (fun _ => none) s.log = s.m_Data
  once : (s.log.map Entry.call).Nodup
  logged : ∀ e ∈ s.log, ∃ client b sBatch, s.clients[e.call.1]? = some client ∧
    client.batches[b]? = some sBatch ∧ e.call.2 ∈ sBatch.info ∧ s.replies (e.call.1, b) ≠ none
  invoked : ∀ e ∈ s.log, s.view.invoked e.call = some e.op

section Steps
variable {limits : Limits} {batch_size : ℕ → ℕ} {s : System}

theorem invoked_iff (s : System) (c i : ℕ) (x : Request) : s.view.invoked (c, i) = some x ↔
    ∃ client, s.clients[c]? = some client ∧
      (client.calls.map fun call => call.info.request)[i]? = some x := by
  simp only [System.view, Option.bind_eq_bind, Option.bind_eq_some_iff, List.getElem?_map,
    Option.map_eq_some_iff, Option.pure_def, Option.some.injEq]

theorem returned_iff (s : System) (c i : ℕ) (y : Response) : s.view.returned (c, i) = some y ↔
    ∃ client call, s.clients[c]? = some client ∧ client.calls[i]? = some call ∧
      call.pc = .returned y := by
  simp only [System.view, Option.bind_eq_bind, Option.bind_eq_some_iff]
  constructor
  · rintro ⟨client, hclient, call, hcall, hy⟩
    split at hy
    · rename_i y' hpc
      cases hy
      exact ⟨client, call, hclient, hcall, hpc⟩
    · cases hy
  · rintro ⟨client, call, hclient, hcall, hpc⟩
    refine ⟨client, hclient, call, hcall, ?_⟩
    rw [hpc]

theorem ClientInv.step {size : ℕ} {replies : ℕ → Option (Except String HttpResponse)}
    {client : BatchClient} (h : ClientInv limits size replies client) (hsize : 1 ≤ size)
    {answer : Option (List Response)} {e : KvBatchClient.Event}
    (hanswer : ∀ b ys, e = .completes b → answer = some ys →
      ∃ sResult, replies b = some sResult ∧ Client.result limits sResult = some ys)
    (hcall : ∀ x, e = .call x → limits.Fits x.key x.value) :
    ClientInv limits size replies (KvBatchClient.step size (fun _ _ => answer) client e) ∧
      (client.calls.map fun call => call.info.request) <+:
        (KvBatchClient.step size (fun _ _ => answer) client e).calls.map
          fun call => call.info.request := by
  obtain ⟨server, hsound, hserver⟩ := h.sound
  obtain ⟨server', hsound', heq, hserver'⟩ := step_server hsound answer e
  have hrequests := step_requests hsound' e
  rw [heq, hrequests]
  refine ⟨⟨⟨server', hsound'.step hsize e, ?_⟩, ?_⟩, List.prefix_append _ _⟩
  · intro b sRequests ys hys
    rcases hserver' b sRequests ys hys with hold | ⟨he, hnew⟩
    · exact hserver b sRequests ys hold
    · exact hanswer b ys he hnew
  · intro x hx
    rw [hrequests, List.mem_append] at hx
    rcases hx with hold | hnew
    · exact h.fits x hold
    · cases e with
      | call aRequest =>
          rw [List.mem_singleton] at hnew
          subst hnew
          exact hcall x rfl
      | _ => cases hnew

/-- A client makes a step. The server and what it has answered stay as they are. -/
theorem Inv.moves (h : Inv limits batch_size s) (hsize : ∀ c, 1 ≤ batch_size c) (c : ℕ)
    {answer : Option (List Response)} {e : KvBatchClient.Event}
    (hanswer : ∀ b ys, e = .completes b → answer = some ys →
      ∃ sResult, s.replies (c, b) = some sResult ∧ Client.result limits sResult = some ys)
    (hcall : ∀ x, e = .call x → limits.Fits x.key x.value) :
    Inv limits batch_size (s.moves batch_size c answer e) := by
  have hget : ∀ {c' : ℕ} {client : BatchClient}, s.clients[c']? = some client →
      ∃ client', (s.moves batch_size c answer e).clients[c']? = some client' ∧
        ClientInv limits (batch_size c') (fun b => s.replies (c', b)) client' ∧
        ((client.calls.map fun call => call.info.request) <+:
          client'.calls.map fun call => call.info.request) ∧
        ∀ (b : ℕ) (sBatch : Batch), client.batches[b]? = some sBatch →
          sBatch.pc.collects = false → ∃ sBatch', client'.batches[b]? = some sBatch' ∧
            sBatch'.info = sBatch.info ∧ sBatch'.pc.collects = false := by
    intro c' client hclient
    have hinv := h.clients c' client hclient
    rw [System.moves, List.getElem?_modify, hclient]
    by_cases hc : c = c'
    · subst hc
      obtain ⟨hinv', hprefix⟩ := hinv.step (hsize c) hanswer hcall
      refine ⟨_, congrArg some (if_pos rfl), hinv', hprefix, ?_⟩
      intro b sBatch hb hpc
      obtain ⟨server, hsound, -⟩ := hinv.sound
      exact step_sent hsound hb hpc _ e
    · refine ⟨client, congrArg some (if_neg hc), hinv, List.prefix_refl _, ?_⟩
      exact fun b sBatch hb hpc => ⟨sBatch, hb, rfl, hpc⟩
  refine ⟨?_, ?_, h.stored, h.sequential, h.data, h.once, ?_, ?_⟩
  · intro c' client' hclient'
    have hlt : c' < s.clients.length := by
      have hlt := (List.getElem?_eq_some_iff.mp hclient').1
      rwa [System.moves, List.length_modify] at hlt
    obtain ⟨client'', hclient'', hinv, -⟩ := hget (List.getElem?_eq_getElem hlt)
    rw [hclient''] at hclient'
    cases hclient'
    exact hinv
  · intro c' b sResult hresult
    obtain ⟨client, sBatch, hclient, hb, hleft, hanswers⟩ := h.handled c' b sResult hresult
    obtain ⟨client', hclient', -, -, hbatches⟩ := hget hclient
    obtain ⟨sBatch', hb', hinfo, hpc'⟩ := hbatches b sBatch hb hleft
    refine ⟨client', sBatch', hclient', hb', hpc', ?_⟩
    rw [hinfo]
    exact hanswers
  · intro entry hentry
    obtain ⟨client, b, sBatch, hclient, hb, hmem, hreply⟩ := h.logged entry hentry
    obtain ⟨sResult, hresult⟩ := Option.ne_none_iff_exists'.mp hreply
    obtain ⟨client₀, sBatch₀, hclient₀, hb₀, hleft, -⟩ := h.handled _ b sResult hresult
    rw [hclient] at hclient₀
    cases hclient₀
    rw [hb] at hb₀
    cases hb₀
    obtain ⟨client', hclient', -, -, hbatches⟩ := hget hclient
    obtain ⟨sBatch', hb', hinfo, -⟩ := hbatches b sBatch hb hleft
    exact ⟨client', b, sBatch', hclient', hb', hinfo ▸ hmem, hreply⟩
  · intro entry hentry
    have hinvoked := h.invoked entry hentry
    rw [invoked_iff] at hinvoked ⊢
    obtain ⟨client, hclient, hx⟩ := hinvoked
    obtain ⟨client', hclient', -, ⟨rest, hrest⟩, -⟩ := hget hclient
    refine ⟨client', hclient', ?_⟩
    rw [← hrest]
    exact (List.getElem?_append_left (List.getElem?_eq_some_iff.mp hx).1).trans hx

/-- The requests that a batch has sent, at the places of their calls. -/
structure Posted (limits : Limits) (size : ℕ) (client : BatchClient) (b : ℕ) (info : List ℕ)
    (sRequests : List Request) : Prop where
  batch : ∃ sBatch, client.batches[b]? = some sBatch ∧ sBatch.pc.collects = false ∧
    sBatch.info = info
  nodup : info.Nodup
  length : sRequests.length = info.length
  small : sRequests.length ≤ size
  fits : ∀ x ∈ sRequests, limits.Fits x.key x.value
  calls : ∀ x ∈ info.zip sRequests,
    (client.calls.map fun call => call.info.request)[x.1]? = some x.2
  other : ∀ (b' : ℕ) sBatch', client.batches[b']? = some sBatch' → b' ≠ b →
    ∀ i ∈ info, i ∉ sBatch'.info

theorem ClientInv.posted {size b : ℕ} {replies : ℕ → Option (Except String HttpResponse)}
    {client : BatchClient} (h : ClientInv limits size replies client) {sBatch : Batch}
    {sRequests : List Request} (hb : client.batches[b]? = some sBatch)
    (hsent : client.sent.lookup b = some sRequests) :
    Posted limits size client b sBatch.info sRequests := by
  obtain ⟨server, hsound, -⟩ := h.sound
  have hmem : (b, sRequests) ∈ client.sent := by
    obtain ⟨front, back, heq, -⟩ := List.lookup_eq_some_iff.mp hsent
    rw [heq]
    exact List.mem_append_right front List.mem_cons_self
  obtain ⟨sBatch₀, hb₀, hpc, heq⟩ := (hsound.sent b sRequests).mp hmem
  rw [hb] at hb₀
  cases hb₀
  have hheld : (held Batch.info client.batches).Nodup :=
    hsound.places.nodup_iff.mpr List.nodup_range
  have hlength : sRequests.length = sBatch.info.length := by
    rw [heq]
    exact hsound.requests_length hb
  have hcalls : ∀ x ∈ sBatch.info.zip sRequests,
      (client.calls.map fun call => call.info.request)[x.1]? = some x.2 := by
    rintro ⟨i, x⟩ hmem
    obtain ⟨j, hj⟩ := List.mem_iff_getElem?.mp hmem
    rw [List.getElem?_zip_eq_some] at hj
    have hlt := hsound.mem_lt hb (List.mem_of_getElem? hj.1)
    have hcall : client.calls[i]? = some client.calls[i] := List.getElem?_eq_getElem hlt
    have hat := hsound.request_at hb hj.1 hcall
    rw [← heq, hj.2] at hat
    rw [List.getElem?_map, hcall, Option.map_some]
    exact hat.symm
  refine ⟨⟨sBatch, hb, hpc, rfl⟩, ?_, hlength, ?_, ?_, hcalls, ?_⟩
  · exact (List.nodup_flatMap.mp hheld).1 sBatch (List.mem_of_getElem? hb)
  · rw [hlength]
    exact hsound.small b sBatch hb
  · intro x hx
    obtain ⟨j, hj⟩ := List.mem_iff_getElem?.mp hx
    have hlt : j < sBatch.info.length := by
      rw [← hlength]
      exact (List.getElem?_eq_some_iff.mp hj).1
    have hmem : (sBatch.info[j], x) ∈ sBatch.info.zip sRequests := by
      apply List.mem_of_getElem? (i := j)
      rw [List.getElem?_zip_eq_some]
      exact ⟨List.getElem?_eq_getElem hlt, hj⟩
    exact h.fits x (List.mem_of_getElem? (hcalls _ hmem))
  · intro b' sBatch' hb' hne i hi hi'
    obtain ⟨j, hj⟩ := List.mem_iff_getElem?.mp hi
    obtain ⟨j', hj'⟩ := List.mem_iff_getElem?.mp hi'
    exact hne (place_unique hheld hb' hj' hb hj).1

/-- The answers that the client reads are those of the loop. -/
theorem result_handler (hstring : limits.maxSize .string < 2 ^ 64) {m_Data : Data}
    (hstored : Stored limits m_Data) {sRequests : List Request} (hlt : sRequests.length < 2 ^ 64)
    (hrequests : sRequests.length ≤ limits.requests)
    (hfits : ∀ x ∈ sRequests, limits.Fits x.key x.value) {sBody : Bytes}
    (hbody : fromBody limits sBody = .ok (sRequests.map requestRecord)) :
    (handler limits m_Data true sBody).1 = (applyAll m_Data sRequests).1 ∧
      ∀ ys, Client.result limits (handler limits m_Data true sBody).2 = some ys →
        ys = (applyAll m_Data sRequests).2 := by
  have hmap : (sRequests.map requestRecord).map requestOf = sRequests := by
    rw [List.map_map]
    exact List.map_id sRequests
  have hmap' : ∀ l : List Response, (l.map responseRecord).map responseOf = l := by
    intro l
    rw [List.map_map]
    exact List.map_id l
  have hreplies := (stored_applyAll hstored hfits).2
  have hlength := length_applyAll m_Data sRequests
  simp only [handler, if_true, hbody, hmap, true_and]
  intro ys hys
  unfold str at hys
  split_ifs at hys with hsize
  · have hvalid : ∀ v ∈ (applyAll m_Data sRequests).2.map responseRecord,
        Valid limits.maxSize recordTy v := by
      intro v hv
      obtain ⟨y, hy, rfl⟩ := List.mem_map.mp hv
      exact (hreplies y hy).valid hstring
    have hread : fromBody limits
        (writeRecords ((applyAll m_Data sRequests).2.map responseRecord)) =
          .ok ((applyAll m_Data sRequests).2.map responseRecord) :=
      fromBody_writeRecords (by rw [List.length_map, hlength]; exact hlt)
        (by rw [List.length_map, hlength]; exact hrequests) hvalid
        (Nat.lt_of_le_of_lt hsize hstring)
    simp only [Except.map, Client.result, hread] at hys
    have heq : ((applyAll m_Data sRequests).2.map responseRecord).map responseOf = ys :=
      Option.some.inj hys
    rw [hmap'] at heq
    exact heq.symm
  · cases hys

/-- The server handles what a batch has sent. -/
theorem Inv.serve (h : Inv limits batch_size s) (hstring : limits.maxSize .string < 2 ^ 64)
    (hsize : ∀ c, batch_size c < 2 ^ 64 ∧ batch_size c ≤ limits.requests) {c b : ℕ}
    {client : BatchClient} {info : List ℕ} {sRequests : List Request} {sBody : Bytes}
    (hclient : s.clients[c]? = some client)
    (hposted : Posted limits (batch_size c) client b info sRequests)
    (hsend : Client.body limits sRequests = .ok sBody) (hfree : s.replies (c, b) = none) :
    Inv limits batch_size (s.serve limits c b info sBody) := by
  have hlt : sRequests.length < 2 ^ 64 := Nat.lt_of_le_of_lt hposted.small (hsize c).1
  have hrequests : sRequests.length ≤ limits.requests := hposted.small.trans (hsize c).2
  have hbody : fromBody limits sBody = .ok (sRequests.map requestRecord) := by
    unfold Client.body str at hsend
    split_ifs at hsend with hlong
    cases hsend
    apply fromBody_writeRecords (by rwa [List.length_map]) (by rwa [List.length_map]) ?_
      (Nat.lt_of_le_of_lt hlong hstring)
    intro v hv
    obtain ⟨x, hx, rfl⟩ := List.mem_map.mp hv
    exact (hposted.fits x hx).valid hstring
  have htaken : ((fromBody limits sBody).toOption.getD []).map requestOf = sRequests := by
    rw [hbody]
    change (sRequests.map requestRecord).map requestOf = sRequests
    rw [List.map_map]
    exact List.map_id sRequests
  obtain ⟨hdata, hresult⟩ := result_handler hstring h.stored hlt hrequests hposted.fits hbody
  have hsnd : (info.zip sRequests).map Prod.snd = sRequests :=
    List.map_snd_zip (Nat.le_of_eq hposted.length)
  have hfst : (info.zip sRequests).map Prod.fst = info :=
    List.map_fst_zip (Nat.le_of_eq hposted.length.symm)
  obtain ⟨hsequential, hfinal⟩ := sequential_entries c s.m_Data (info.zip sRequests)
  rw [hsnd] at hfinal
  have hreplied : ∀ c' b', s.replies (c', b') ≠ none → (c', b') ≠ (c, b) := by
    intro c' b' hreply heq
    rw [heq] at hreply
    exact hreply hfree
  obtain ⟨sBatch, hb, hpc, rfl⟩ := hposted.batch
  unfold System.serve
  rw [htaken]
  refine ⟨?_, ?_, ?_, ?_, ?_, ?_, ?_, ?_⟩
  · intro c' client' hclient'
    obtain ⟨⟨server, hsound, hserver⟩, hfits⟩ := h.clients c' client' hclient'
    refine ⟨⟨server, hsound, ?_⟩, hfits⟩
    intro b' rs ys hys
    obtain ⟨sResult, hreply, hread⟩ := hserver b' rs ys hys
    refine ⟨sResult, ?_, hread⟩
    dsimp only
    rw [Function.update_of_ne (hreplied c' b' (by rw [hreply]; simp))]
    exact hreply
  · intro c' b' sResult hreply
    dsimp only at hreply
    by_cases heq : (c', b') = (c, b)
    · cases heq
      rw [Function.update_self, Option.some.injEq] at hreply
      subst hreply
      refine ⟨client, sBatch, hclient, hb, hpc, ?_⟩
      intro ys hys j i y hi hy
      rw [hresult ys hys] at hy
      have hjlt : j < sRequests.length := by
        rw [← length_applyAll s.m_Data sRequests]
        exact (List.getElem?_eq_some_iff.mp hy).1
      have hzip : (sBatch.info.zip sRequests)[j]? = some (i, sRequests[j]) := by
        rw [List.getElem?_zip_eq_some]
        exact ⟨hi, List.getElem?_eq_getElem hjlt⟩
      have hentry := entries_getElem? c s.m_Data (sBatch.info.zip sRequests) j
      rw [hsnd, hzip, Option.bind_some, hy] at hentry
      exact ⟨_, List.mem_append_right _ (List.mem_of_getElem? hentry), rfl, rfl⟩
    · rw [Function.update_of_ne heq] at hreply
      obtain ⟨client', sBatch', hclient', hb', hleft, hanswers⟩ := h.handled c' b' sResult hreply
      refine ⟨client', sBatch', hclient', hb', hleft, ?_⟩
      intro ys hys j i y hi hy
      obtain ⟨entry, hentry, hcall⟩ := hanswers ys hys j i y hi hy
      exact ⟨entry, List.mem_append_left _ hentry, hcall⟩
  · dsimp only
    rw [hdata]
    exact (stored_applyAll h.stored hposted.fits).1
  · rw [sequential_append, h.data]
    exact ⟨h.sequential, hsequential⟩
  · dsimp only
    rw [final_append, h.data, hfinal, hdata]
  · have hcalls : (entries c s.m_Data (sBatch.info.zip sRequests)).map Entry.call =
        sBatch.info.map fun i => (c, i) := by
      rw [entries_call, ← hfst, List.map_map, hfst]
      rfl
    rw [List.map_append, hcalls, List.nodup_append]
    refine ⟨h.once, hposted.nodup.map fun i j hij => (Prod.ext_iff.mp hij).2, ?_⟩
    rintro p hp q hq rfl
    obtain ⟨entry, hentry, rfl⟩ := List.mem_map.mp hp
    obtain ⟨i, hi, heq⟩ := List.mem_map.mp hq
    obtain ⟨client', b', sBatch', hclient', hb', hmem, hreply⟩ := h.logged entry hentry
    rw [← heq] at hclient' hmem hreply
    rw [hclient] at hclient'
    cases hclient'
    have hne : b' ≠ b := fun hbb => hreplied c b' hreply (by rw [hbb])
    exact hposted.other b' sBatch' hb' hne i hi hmem
  · intro entry hentry
    rcases List.mem_append.mp hentry with hold | hnew
    · obtain ⟨client', b', sBatch', hclient', hb', hmem, hreply⟩ := h.logged entry hold
      refine ⟨client', b', sBatch', hclient', hb', hmem, ?_⟩
      dsimp only
      rwa [Function.update_of_ne (hreplied _ b' hreply)]
    · obtain ⟨x, hx, hcall, -⟩ := of_mem_entries hnew
      refine ⟨client, b, sBatch, by rw [hcall]; exact hclient, hb, ?_, ?_⟩
      · rw [hcall, ← hfst]
        exact List.mem_map_of_mem hx
      · dsimp only
        rw [hcall, Function.update_self]
        exact Option.some_ne_none _
  · intro entry hentry
    rcases List.mem_append.mp hentry with hold | hnew
    · exact h.invoked entry hold
    · obtain ⟨x, hx, hcall, hop⟩ := of_mem_entries hnew
      rw [hcall, hop, invoked_iff]
      exact ⟨client, hclient, hposted.calls x hx⟩

/-- A request is made of strings. -/
def Admits (limits : Limits) (_ : System) : Event → Prop
  | .client _ (.call x) => limits.Fits x.key x.value
  | _ => True

theorem Inv.step (h : Inv limits batch_size s) (hstring : limits.maxSize .string < 2 ^ 64)
    (hsize : ∀ c, 1 ≤ batch_size c ∧ batch_size c < 2 ^ 64 ∧ batch_size c ≤ limits.requests)
    {e : Event} (he : Admits limits s e) : Inv limits batch_size (step limits batch_size s e) := by
  have hone : ∀ c, 1 ≤ batch_size c := fun c => (hsize c).1
  have hquiet : ∀ c e', (∀ b, e' ≠ .completes b) → Admits limits s (.client c e') →
      Inv limits batch_size (s.moves batch_size c none e') := by
    intro c e' hne hadmits
    refine h.moves hone c (fun b ys heq => absurd heq (hne b)) ?_
    rintro x rfl
    exact hadmits
  cases e with
  | client c e =>
      cases e with
      | completes b =>
          unfold KvServer.step
          dsimp only
          cases hreply : s.replies (c, b) with
          | none => exact h
          | some sResult =>
              refine h.moves hone c ?_ fun x heq => by cases heq
              intro b' ys heq hys
              cases heq
              exact ⟨sResult, hreply, hys⟩
      | call x => exact hquiet c (.call x) (fun b heq => by cases heq) he
      | waits i => exact hquiet c (.waits i) (fun b heq => by cases heq) he
      | starts b => exact hquiet c (.starts b) (fun b heq => by cases heq) he
      | expires b => exact hquiet c (.expires b) (fun b heq => by cases heq) he
      | wakes b => exact hquiet c (.wakes b) (fun b heq => by cases heq) he
      | resumes i => exact hquiet c (.resumes i) (fun b heq => by cases heq) he
  | fails c b =>
      refine h.moves hone c (fun b' ys _ hys => by cases hys) fun x heq => by cases heq
  | serves c b =>
      unfold KvServer.step
      dsimp only
      split
      · rename_i info sBody hfree hrequest
        simp only [System.request, Option.bind_eq_bind, Option.bind_eq_some_iff, Option.pure_def,
          Option.some.injEq, Prod.mk.injEq] at hrequest
        obtain ⟨client, hclient, sBatch, hb, sRequests, hsent, sBody', hbody, rfl, rfl⟩ := hrequest
        have hsend : Client.body limits sRequests = .ok sBody' := by
          cases hcase : Client.body limits sRequests with
          | error e =>
              rw [hcase] at hbody
              cases hbody
          | ok bs =>
              rw [hcase] at hbody
              cases hbody
              rfl
        exact h.serve hstring (fun c => (hsize c).2) hclient
          ((h.clients c client hclient).posted hb hsent) hsend hfree
      · exact h

/-- The history explains what is seen of the calls. -/
theorem Inv.explains (h : Inv limits batch_size s) :
    Explains apply (fun _ => none) s.view s.log := by
  refine ⟨h.once, h.sequential, h.invoked, ?_⟩
  rintro ⟨c, i⟩ y hy
  rw [returned_iff] at hy
  obtain ⟨client, call, hclient, hcall, hpc⟩ := hy
  obtain ⟨server, hsound, hserver⟩ := (h.clients c client hclient).sound
  obtain ⟨b, j, rs, ys, hplace, -, -, hys, hj⟩ := hsound.routed.returned i call y hcall hpc
  obtain ⟨sResult, hreply, hread⟩ := hserver b rs ys hys
  obtain ⟨client', sBatch, hclient', hb, hhandled⟩ := h.handled c b sResult hreply
  rw [hclient] at hclient'
  cases hclient'
  obtain ⟨sBatch', hb', hi⟩ := Option.bind_eq_some_iff.mp hplace
  rw [hb] at hb'
  cases hb'
  exact hhandled.answers ys hread j i y hi hj

theorem step_log (e : Event) : s.log <+: (step limits batch_size s e).log := by
  unfold step
  split
  · split
    · exact List.prefix_refl _
    · exact List.prefix_refl _
  · exact List.prefix_refl _
  · split
    · exact List.prefix_append _ _
    · exact List.prefix_refl _
  · exact List.prefix_refl _

end Steps

/-- Nobody has called. -/
def start (n : ℕ) : System := { clients := List.replicate n {} }

theorem Inv.start (limits : Limits) (batch_size : ℕ → ℕ) (n : ℕ) :
    Inv limits batch_size (start n) := by
  refine ⟨?_, ?_, ?_, trivial, rfl, List.nodup_nil, List.forall_mem_nil _, List.forall_mem_nil _⟩
  · intro c client hclient
    have heq : client = {} := List.eq_of_mem_replicate (List.mem_of_getElem? hclient)
    subst heq
    refine ⟨⟨fun _ _ => none, Sound.start (batch_size c) _, ?_⟩, fun x hx => by cases hx⟩
    intro b rs ys hys
    cases hys
  · intro c b sResult hreply
    cases hreply
  · exact fun key => ⟨Nat.zero_le _, fun v hv => by cases hv⟩

/-- Any number of clients, whose requests share HTTP calls that may get lost before or after the
server has handled them, see a map that takes the requests one after another. -/
theorem kv_linearizable (limits : Limits) (hstring : limits.maxSize .string < 2 ^ 64)
    (batch_size : ℕ → ℕ)
    (hsize : ∀ c, 1 ≤ batch_size c ∧ batch_size c < 2 ^ 64 ∧ batch_size c ≤ limits.requests)
    (n : ℕ) {es : List Event}
    (hes : Meets (step limits batch_size) (Admits limits) (start n) es) :
    Linearizable apply (fun _ => none) (step limits batch_size) System.view (start n) es :=
  linearizable_of_log (I := Inv limits batch_size) (fun _ _ h he => h.step hstring hsize he)
    (fun _ e _ _ => step_log e) (fun _ h => h.explains) (Inv.start limits batch_size n) hes

/-- A client sets a key, and another one gets it while the first one waits. -/
def setAndGet : List Event :=
  [.client 0 (.call { key := ascii "k", value := some (ascii "v") }), .client 0 (.starts 0),
    .client 0 (.expires 0), .client 0 (.wakes 0), .client 0 (.waits 0),
    .client 1 (.call { key := ascii "k" }), .client 1 (.starts 0), .client 1 (.expires 0),
    .client 1 (.wakes 0), .serves 0 0, .serves 1 0, .client 1 (.waits 0),
    .client 1 (.completes 0), .client 1 (.resumes 0), .fails 0 0]

theorem kv_linearizable_setAndGet :
    Linearizable apply (fun _ => none) (step ⟨fun _ => 1000, 1000⟩ fun _ => 10) System.view
      (start 2) setAndGet := by
  refine kv_linearizable ⟨fun _ => 1000, 1000⟩ (by decide) _ (fun _ => by decide) 2 ?_
  refine ⟨⟨by decide, ?_⟩, trivial, trivial, trivial, trivial, ⟨by decide, ?_⟩, trivial, trivial,
    trivial, trivial, trivial, trivial, trivial, trivial, trivial, trivial⟩
  · intro v hv
    cases hv
    decide
  · intro v hv
    cases hv

example : ((EventRuns.run (step ⟨fun _ => 1000, 1000⟩ fun _ => 10) (start 2)
    setAndGet).view.returned (1, 0)) = some { key := ascii "k", value := some (ascii "v") } := by
  decide

end Stuff.KvServer
