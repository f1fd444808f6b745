import Stuff.EventRuns
import Stuff.Http2InputBuf
import Stuff.Http2Parser
import Stuff.StreamCut

/-!
# The read loop

Client and server read in the same way: collect as many bytes as the parser
asks for, reading from the socket whenever the input buffer runs dry, and hand
them to the parser. The loop is a coroutine, suspended in its read. However the
socket splits the stream, the parser sees it cut at the lengths it asked for.
-/
namespace Stuff.Http2ReadLoop
open MachineWords Http2Frames Http2Hpack Http2InputBuf Http2Parser StreamCut EventRuns

variable {N : Nghttp2} {M σ : Type}

/-- Running towards the next read, suspended in it, or left: through an
exception of the parser, or through a read error or a failed connection. -/
inductive Status
  | running
  | reading
  | ended
  | broken
deriving DecidableEq, Repr

/-- `buffer` is the local `sBuffer`. The last two fields are history: the
buffers given to the parser and the bytes that were read. -/
structure Reader (σ : Type) where
  parser : σ
  input : InputBuf := {}
  buffer : Bytes := []
  status : Status := .running
  failed : Bool := false
  log : List Bytes := []
  received : Bytes := []

inductive Event
  | tick
  | read (bytes : Bytes)
  | error
  | fail

namespace Reader

/-- The parser is called; the client looks at `m_FailReason` before it starts
over. -/
def handOver (P : Consumer σ UInt8) (mode : Mode) (r : Reader σ) : Reader σ :=
  let done := { r with buffer := [], log := r.log ++ [r.buffer] }
  match P.process r.parser r.buffer with
  | none => { done with status := .ended }
  | some parser =>
      { done with
        parser := parser
        status := if mode = .client ∧ r.failed then .broken else .running }

/-- One round of the inner loop. The client leaves it at once when nothing is
asked for. -/
def tick (P : Consumer σ UInt8) (mode : Mode) (r : Reader σ) : Reader σ :=
  if mode = .client ∧ P.hint r.parser = 0 then r.handOver P mode
  else
    let a := r.input.append r.buffer (sizeSub (P.hint r.parser) r.buffer.length)
    if a.2.2 then { r with input := a.1, buffer := a.2.1 }.handOver P mode
    else { r with input := a.1.buffer, buffer := a.2.1, status := .reading }

def step (P : Consumer σ UInt8) (mode : Mode) (r : Reader σ) : Event → Reader σ
  | .tick => if r.status = .running then r.tick P mode else r
  | .read bytes =>
      if r.status = .reading then
        { r with
          input := (r.input.fill bytes).push bytes.length
          status := .running
          received := r.received ++ bytes }
      else r
  | .error => if r.status = .reading then { r with status := .broken } else r
  | .fail => { r with failed := true }

/-- A read returns at least one byte and at most as many as were offered. -/
def Offered (r : Reader σ) : Event → Prop
  | .read bytes => r.status = .reading → 1 ≤ bytes.length ∧ bytes.length ≤ r.input.writeAvail
  | _ => True

instance (r : Reader σ) : (e : Event) → Decidable (Offered r e)
  | .read _ => inferInstanceAs (Decidable (_ → _))
  | .tick | .error | .fail => inferInstanceAs (Decidable True)

/-- What the parser was not given yet. -/
def unread (r : Reader σ) : Bytes := r.buffer ++ r.input.contents

/-- The invariant, for a reader that started with parser state `s₀`. -/
structure Inv (P : Consumer σ UInt8) (s₀ : σ) (r : Reader σ) : Prop where
  bounds : r.input.Bounds
  short : r.status = .running → r.buffer.length ≤ P.hint r.parser
  starving : r.status = .reading →
    r.input.contents = [] ∧ r.buffer.length < P.hint r.parser ∧ r.input.writeAt = 0
  active : r.status = .running ∨ r.status = .reading → ∀ rest,
    r.log ++ cut P r.parser (r.unread ++ rest) = cut P s₀ (r.received ++ rest)
  ended : r.status = .ended → ∀ rest, r.log = cut P s₀ (r.received ++ rest)
  log : ∀ rest, r.log <+: cut P s₀ (r.received ++ rest)

section
variable {P : Consumer σ UInt8} {mode : Mode} {s₀ : σ} {r : Reader σ}

theorem inv_start (P : Consumer σ UInt8) (s₀ : σ) : Inv P s₀ { parser := s₀ } where
  bounds := ⟨Nat.le_refl 0, Nat.zero_le _⟩
  short := by simp
  starving := by simp
  active := by
    intro _ rest
    rfl
  ended := by simp
  log := by simp

/-- A full buffer is the next piece of the stream. -/
theorem Inv.handOver (h : Inv P s₀ r) (hrun : r.status = .running)
    (hfull : r.buffer.length = P.hint r.parser) : Inv P s₀ (r.handOver P mode) := by
  have hactive := h.active (.inl hrun)
  simp only [unread, List.append_assoc] at hactive
  unfold Reader.handOver
  cases hp : P.process r.parser r.buffer with
  | none =>
      have hlog (rest : Bytes) : r.log ++ [r.buffer] = cut P s₀ (r.received ++ rest) := by
        rw [← hactive rest, cut_of_none P hfull hp]
      refine ⟨h.bounds, by simp, by simp, by simp, fun _ => hlog, ?_⟩
      intro rest
      exact (hlog rest) ▸ List.prefix_refl _
  | some s =>
      have hlog (rest : Bytes) : (r.log ++ [r.buffer]) ++ cut P s (r.input.contents ++ rest) =
          cut P s₀ (r.received ++ rest) := by
        rw [← hactive rest, cut_of_some P hfull hp, List.append_assoc, List.singleton_append]
      refine ⟨h.bounds, by simp, ?_, ?_, ?_, ?_⟩
      · dsimp only
        split_ifs <;> simp
      · intro _ rest
        exact hlog rest
      · dsimp only
        split_ifs <;> simp
      · intro rest
        exact ⟨_, hlog rest⟩

theorem Inv.append (h : Inv P s₀ r) (hrun : r.status = .running)
    (hhint : P.hint r.parser < 2 ^ 64) :
    let a := r.input.append r.buffer (sizeSub (P.hint r.parser) r.buffer.length)
    Inv P s₀ { r with input := a.1, buffer := a.2.1 } ∧
    (a.2.2 = true → a.2.1.length = P.hint r.parser) ∧
    (a.2.2 = false → a.1.readAt = a.1.writeAt ∧ a.2.1.length < P.hint r.parser) := by
  have hshort := h.short hrun
  have hsub := sizeSub_of_le hshort hhint
  obtain ⟨hbounds, hsame, hfull, hmore⟩ := InputBuf.append_spec h.bounds r.buffer
    (sizeSub (P.hint r.parser) r.buffer.length)
  have hlen : r.buffer.length + sizeSub (P.hint r.parser) r.buffer.length = P.hint r.parser := by
    omega
  rw [hlen] at hfull hmore
  refine ⟨⟨hbounds, ?_, by simp [hrun], ?_, by simp [hrun], h.log⟩, hfull, hmore⟩
  · intro _
    cases hdone : (r.input.append r.buffer (sizeSub (P.hint r.parser) r.buffer.length)).2.2 with
    | true => exact Nat.le_of_eq (hfull hdone)
    | false => exact Nat.le_of_lt (hmore hdone).2
  · intro _ rest
    simp only [unread, hsame]
    exact h.active (.inl hrun) rest

theorem Inv.tick (h : Inv P s₀ r) (hrun : r.status = .running)
    (hhint : P.hint r.parser < 2 ^ 64) : Inv P s₀ (r.tick P mode) := by
  unfold Reader.tick
  dsimp only
  split_ifs with hnone hfull
  · have hshort := h.short hrun
    exact h.handOver hrun (by omega)
  · obtain ⟨hinv, hlen, -⟩ := h.append hrun hhint
    exact hinv.handOver hrun (hlen hfull)
  · obtain ⟨hinv, -, hmore⟩ := h.append hrun hhint
    obtain ⟨hempty, hlen⟩ := hmore (by simpa using hfull)
    obtain ⟨hbounds, hcontents, hread, hwrite⟩ := InputBuf.buffer_spec hinv.bounds hempty
    refine ⟨hbounds, by simp, fun _ => ⟨hcontents, hlen, hwrite⟩, ?_, by simp, h.log⟩
    intro _ rest
    have hactive := hinv.active (.inl hrun) rest
    have hnil : InputBuf.contents (r.input.append r.buffer
        (sizeSub (P.hint r.parser) r.buffer.length)).1 = [] := by
      rw [InputBuf.contents, hempty, Nat.sub_self, slice_zero]
    simp only [unread, hnil] at hactive
    simp only [unread, hcontents]
    exact hactive

theorem Inv.step (h : Inv P s₀ r) (hhint : ∀ s, P.hint s < 2 ^ 64) {e : Event}
    (he : Offered r e) : Inv P s₀ (r.step P mode e) := by
  cases e with
  | tick =>
      unfold Reader.step
      dsimp only
      split_ifs with hrun
      · exact h.tick hrun (hhint _)
      · exact h
  | read bytes =>
      unfold Reader.step
      dsimp only
      split_ifs with hread
      · obtain ⟨hcontents, hlen, -⟩ := h.starving hread
        obtain ⟨hbounds, hpush⟩ := InputBuf.push_spec h.bounds (he hread).2
        have hactive := h.active (.inr hread)
        refine ⟨hbounds, fun _ => Nat.le_of_lt hlen, by simp, ?_, by simp, ?_⟩
        · intro _ rest
          have hnext := hactive (bytes ++ rest)
          simp only [unread, List.append_assoc] at hnext ⊢
          rw [hpush, List.append_assoc]
          exact hnext
        · intro rest
          have hfront := h.log (bytes ++ rest)
          rw [← List.append_assoc] at hfront
          exact hfront
      · exact h
  | error =>
      unfold Reader.step
      dsimp only
      split_ifs
      · exact ⟨h.bounds, by simp, by simp, by simp, by simp, h.log⟩
      · exact h
  | fail => exact ⟨h.bounds, h.short, h.starving, h.active, h.ended, h.log⟩

/-- What is left to do before the next read. -/
def remaining (P : Consumer σ UInt8) (r : Reader σ) : ℕ := work P r.parser r.unread.length

theorem handOver_remaining (mode : Mode) (hfull : r.buffer.length = P.hint r.parser) :
    (r.handOver P mode).status = .ended ∨
      (r.handOver P mode).remaining P < r.remaining P := by
  unfold Reader.handOver
  cases hp : P.process r.parser r.buffer with
  | none => exact .inl rfl
  | some s =>
      right
      have hle : P.hint r.parser ≤ r.unread.length := by
        simp only [unread, List.length_append]
        omega
      have hlen : r.unread.length - P.hint r.parser = r.input.contents.length := by
        simp only [unread, List.length_append]
        omega
      have hlt := work_lt P hle hp
      rw [hlen] at hlt
      exact hlt

theorem tick_remaining (mode : Mode) (h : Inv P s₀ r) (hrun : r.status = .running)
    (hhint : P.hint r.parser < 2 ^ 64) :
    (r.tick P mode).status ≠ .running ∨ (r.tick P mode).remaining P < r.remaining P := by
  unfold Reader.tick
  dsimp only
  split_ifs with hnone hfull
  · have hshort := h.short hrun
    refine (handOver_remaining mode (by omega)).imp_left ?_
    intro hended
    simp [hended]
  · obtain ⟨-, hlen, -⟩ := h.append hrun hhint
    have hsame := (InputBuf.append_spec h.bounds r.buffer
      (sizeSub (P.hint r.parser) r.buffer.length)).2.1
    have hnext := handOver_remaining (P := P) mode
      (r := { r with
        input := (r.input.append r.buffer (sizeSub (P.hint r.parser) r.buffer.length)).1
        buffer := (r.input.append r.buffer (sizeSub (P.hint r.parser) r.buffer.length)).2.1 })
      (hlen hfull)
    rcases hnext with hended | hlt
    · left
      simp [hended]
    · right
      simpa only [remaining, unread, hsame] using hlt
  · exact .inl (by simp)

/-- The loop does not spin: without any read it comes to a read or to its end. -/
theorem Inv.suspends (h : Inv P s₀ r) (hhint : ∀ s, P.hint s < 2 ^ 64) :
    ∃ k, (run (Reader.step P mode) r (List.replicate k .tick)).status ≠ .running := by
  induction hn : r.remaining P using Nat.strong_induction_on generalizing r with
  | _ n ih =>
      by_cases hrun : r.status = .running
      · have htick : r.step P mode .tick = r.tick P mode := by simp [Reader.step, hrun]
        rcases tick_remaining mode h hrun (hhint _) with hstop | hlt
        · exact ⟨1, by simpa [htick] using hstop⟩
        · obtain ⟨k, hk⟩ := ih _ (hn ▸ hlt) (h.tick hrun (hhint _)) rfl
          exact ⟨k + 1, by simpa [List.replicate_succ, htick] using hk⟩
      · exact ⟨0, by simpa using hrun⟩

end
end Reader

/-! ## The parser as a consumer -/

theorem hint_pos_of_stage {m : Main N M} (h : m.stage = .header ∨ m.stage = .clientWait) :
    0 < m.hint := by
  rcases h with h | h <;> simp [Main.hint, h, Header.sizeOf]

theorem hint_lt (m : Main N M) : m.hint < 2 ^ 64 := by
  have hsize := m.header.size.isLt
  cases h : m.stage <;> simp [Main.hint, h, preface, Header.sizeOf]
  omega

/-- After a call for which nothing was asked, the parser wants a header. -/
theorem process_stage (A : Messages M) (debug : Bool) {m : Main N M} (aBuffer : Bytes)
    (hzero : m.hint = 0) (hdone : (m.process A debug aBuffer).exit = .done) :
    (m.process A debug aBuffer).main.stage = .header ∨
      (m.process A debug aBuffer).main.stage = .clientWait := by
  cases hstage : m.stage with
  | hello => simp [Main.hint, hstage, preface] at hzero
  | header => simp [Main.hint, hstage, Header.sizeOf] at hzero
  | clientWait => simp [Main.hint, hstage, Header.sizeOf] at hzero
  | clientHello => exact .inr (by simp [Main.process, hstage, Main.clientHello])
  | body =>
      simp only [Main.process, hstage, Main.recvBody] at hdone ⊢
      split_ifs at hdone ⊢ with hsize
      · simp [Main.throws] at hdone
      · simp only [Main.packet] at hdone ⊢
        split_ifs at hdone ⊢ with hexit
        · exact .inl rfl
        · exact absurd hdone hexit

/-- `parser::Main` in the read loop: an exit other than a return ends it. -/
def consumer (A : Messages M) (debug : Bool) : Consumer (Main N M) UInt8 where
  hint := Main.hint
  process m aBuffer :=
    let r := m.process A debug aBuffer
    if r.exit = .done then some r.main else none
  progress := by
    intro m aBuffer m' hzero hm
    dsimp only at hm
    split_ifs at hm with hdone
    cases hm
    exact hint_pos_of_stage (process_stage A debug aBuffer hzero hdone)

/-- However the socket splits the stream: the positions of the buffer stay in
bounds, a read is never offered an empty buffer, the parser is given the pieces
that the stream is cut into by its own hints, all of them that the received
bytes contain, and the loop always comes to its next read. -/
theorem segmentation_independent (A : Messages M) (debug : Bool) (mode : Mode)
    (es : List Event)
    (h : Meets (Reader.step (consumer A debug) mode) Reader.Offered
      { parser := (Main.start mode : Main N M) } es) :
    let r := run (Reader.step (consumer A debug) mode) { parser := (Main.start mode : Main N M) } es
    (r.input.readAt ≤ r.input.writeAt ∧ r.input.writeAt ≤ 131072) ∧
    (r.status = .reading → 0 < r.input.writeAvail) ∧
    (∀ rest, r.log <+: cut (consumer A debug) (Main.start mode : Main N M)
      (r.received ++ rest)) ∧
    (r.status = .reading ∨ r.status = .ended →
      r.log = cut (consumer A debug) (Main.start mode : Main N M) r.received) ∧
    ∃ k, (run (Reader.step (consumer A debug) mode) r (List.replicate k .tick)).status ≠
      .running := by
  intro r
  have hinv : r.Inv (consumer A debug) (Main.start mode) :=
    run_invariant (I := Reader.Inv (consumer A debug) (Main.start mode : Main N M))
      (fun _ _ hr he => hr.step hint_lt he) (Reader.inv_start _ _) h
  refine ⟨⟨hinv.bounds.read, hinv.bounds.write⟩, ?_, hinv.log, ?_, hinv.suspends hint_lt⟩
  · intro hreading
    rw [hinv.bounds.writeAvail, (hinv.starving hreading).2.2]
    decide
  · rintro (hreading | hended)
    · obtain ⟨hcontents, hlen, -⟩ := hinv.starving hreading
      have hlog := hinv.active (.inr hreading) []
      simp only [Reader.unread, hcontents, List.append_nil] at hlog
      rw [cut_of_lt _ hlen, List.append_nil] at hlog
      exact hlog
    · simpa using hinv.ended hended []

/-- The preface and a header of a SETTINGS frame without body, read in three
parts that do not fit the parser's pieces. -/
def threeReads : List Event :=
  [.tick, .read (preface.take 10), .tick, .read (preface.drop 10 ++ [0, 0]), .tick, .tick,
    .read [0, 4, 0, 0, 0, 0, 0], .tick, .tick, .tick]

theorem segmentation_independent_sample :
    let r := run (Reader.step (consumer keptMessages true) .server)
      { parser := (Main.start .server : Main staticNghttp2 _) } threeReads
    r.status = .reading ∧
      r.log = cut (consumer keptMessages true) (Main.start .server : Main staticNghttp2 _)
        r.received :=
  have hreading : (run (Reader.step (consumer keptMessages true) .server)
      { parser := (Main.start .server : Main staticNghttp2 _) } threeReads).status =
      .reading := by
    decide
  ⟨hreading, (segmentation_independent keptMessages true .server threeReads
    (by decide)).2.2.2.1 (.inl hreading)⟩

end Stuff.Http2ReadLoop
