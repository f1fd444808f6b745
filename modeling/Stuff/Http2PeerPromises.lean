import Stuff.Http2Peer

/-!
# Every promise is completed once

A submitted promise is held by an active stream or a pending request, or it is
completed. The peer loses promises in two ways: an `initiate` called by
`async_i` that throws drops the promise it was given, and a stream id that is
still active when it is used again drops the promise of the older request. A
message for a stream that is not active has no defined outcome. In all other
runs each promise is in exactly one place, and after a failure all are
completed.
-/
namespace Stuff.Http2PeerPromises
open Http2Frames Http2Hpack Http2Output Http2Peer EventRuns
open Std (TreeMap)

variable {N : Nghttp2} {R : Type}

/-- The promises that were completed. -/
def done (p : Peer N R) : List ℕ := p.completed.map Prod.fst

/-- Where the promises are. -/
def holders (p : Peer N R) : List ℕ :=
  done p ++ p.active ++ p.pending.map PendingStream.promise

theorem holders_length (p : Peer N R) :
    (holders p).length = p.completed.length + p.streams.size + p.pending.length := by
  simp [holders, done, Peer.active, TreeMap.length_toList, Nat.add_assoc]

/-- What is expected of a peer: no promise is completed twice, none is dropped,
after a failure all are completed, and no assertion failed on the way. -/
structure Kept (p : Peer N R) : Prop where
  once : (done p).Nodup
  held : ∀ q < p.submitted, q ∈ done p ∨ q ∈ p.active ∨ q ∈ p.pending.map PendingStream.promise
  failed : p.failReason ≠ "" → ∀ q < p.submitted, q ∈ done p
  exit : p.exit = .done

/-- Every submitted promise is in exactly one place. -/
structure Sound (p : Peer N R) : Prop where
  holders : (holders p).Perm (List.range p.submitted)
  failed : p.failReason ≠ "" → p.streams.toList = [] ∧ p.pending = []
  exit : p.exit = .done

theorem Sound.kept {p : Peer N R} (h : Sound p) : Kept p := by
  have hmem (q : ℕ) (hq : q < p.submitted) : q ∈ Http2PeerPromises.holders p :=
    h.holders.mem_iff.mpr (List.mem_range.mpr hq)
  constructor
  · have hnodup := h.holders.nodup_iff.mpr List.nodup_range
    unfold Http2PeerPromises.holders at hnodup
    rw [List.append_assoc] at hnodup
    exact (List.nodup_append.mp hnodup).1
  · intro q hq
    have := hmem q hq
    simpa [Http2PeerPromises.holders, or_assoc] using this
  · intro hfail q hq
    obtain ⟨hstreams, hpending⟩ := h.failed hfail
    have := hmem q hq
    simpa [Http2PeerPromises.holders, Peer.active, hstreams, hpending] using this
  · exact h.exit

/-- A peer that dropped a promise has fewer places than promises. -/
theorem Kept.submitted_le {p : Peer N R} (h : Kept p) : p.submitted ≤ (holders p).length := by
  have hsub : List.range p.submitted ⊆ holders p := by
    intro q hq
    have := h.held q (List.mem_range.mp hq)
    simpa [holders, or_assoc] using this
  have hle := (List.nodup_range.subperm hsub).length_le
  simpa using hle

theorem sound_start : Sound ({} : Peer N R) := by
  exact ⟨List.Perm.refl _, fun h => absurd rfl h, rfl⟩

/-! ## The moves of a promise -/

section Moves
variable {p : Peer N R}

theorem perm_range_succ {xs : List ℕ} {n : ℕ} (h : xs.Perm (List.range n)) :
    (n :: xs).Perm (List.range (n + 1)) := by
  rw [List.range_succ]
  exact (h.cons n).trans (List.perm_append_singleton n _).symm

theorem holders_completed (q : ℕ) (outcome : Outcome R) :
    (holders { p with completed := p.completed ++ [(q, outcome)] }).Perm (q :: holders p) := by
  simp only [holders, done, Peer.active, List.map_append, List.map_cons, List.map_nil,
    List.append_assoc, List.singleton_append]
  exact List.perm_middle

theorem holders_pending (q : ℕ) (aRequest : ClientRequest) :
    (holders { p with pending := p.pending ++ [⟨aRequest, q⟩] }).Perm (q :: holders p) := by
  simp only [holders, done, Peer.active, List.map_append, List.map_cons, List.map_nil]
  rw [← List.append_assoc]
  exact List.perm_append_comm

theorem holders_started (hfresh : p.serial ∉ p.streams) (o : Output N) (q : ℕ) :
    (holders (p.started o q)).Perm (q :: holders p) := by
  have hvalues := insert_values hfresh q
  simp only [holders, done, Peer.active, Peer.started, List.append_assoc]
  exact ((hvalues.append_right _).append_left _).trans List.perm_middle

theorem holders_freed {id : UInt32} {q : ℕ} (hq : p.streams[id]? = some q) (response : R) :
    (holders (p.freed id q response)).Perm (holders p) := by
  have hvalues := erase_values hq
  simp only [holders, done, Peer.active, Peer.freed, List.map_append, List.map_cons, List.map_nil,
    List.append_assoc, List.singleton_append]
  exact ((hvalues.append_right _).append_left _).symm

/-- A failure completes what the streams and the pending requests held. -/
theorem holders_fail (aMsg : String) : holders (p.fail aMsg) = holders p := by
  have hempty : (TreeMap.toList ({} : TreeMap UInt32 ℕ)).map Prod.snd = [] := rfl
  simp only [holders, done, Peer.fail, Peer.active, hempty, List.map_append, List.map_map,
    Function.comp_def, List.map_nil, List.append_nil, List.append_assoc]

theorem Sound.fail (h : Sound p) (aMsg : String) : Sound (p.fail aMsg) := by
  refine ⟨?_, fun _ => ⟨rfl, rfl⟩, h.exit⟩
  rw [holders_fail]
  exact h.holders

end Moves

/-! ## The exact condition -/

/-- A request that `async_i` initiates has a url with a scheme and gets an id
that is not in use; a message is for an active stream, and a pending request
that it lets in gets an id that is not in use. -/
def Careful (p : Peer N R) : Peer.Event R → Prop
  | .async aRequest => p.failReason = "" → p.streams.size < concurrentStreams →
      ParserUrl.WellFormed aRequest.url ∧ p.serial ∉ p.streams
  | .message aID _ => aID ∈ p.streams ∧ ∀ w rest, p.pending = w :: rest →
      ParserUrl.WellFormed w.request.url → p.serial ∉ p.streams.erase aID
  | .exception _ | .error _ => True

section Steps
variable {p p' : Peer N R}

theorem Sound.nofail (h : Sound p) {id : UInt32} {q : ℕ} (hq : p.streams[id]? = some q) :
    p.failReason = "" := by
  by_contra hfail
  have hmem := TreeMap.mem_toList_iff_getElem?_eq_some.mpr hq
  rw [(h.failed hfail).1] at hmem
  simp at hmem

theorem Sound.freed (h : Sound p) {id : UInt32} {q : ℕ} (hq : p.streams[id]? = some q)
    (response : R) : Sound (p.freed id q response) :=
  ⟨(holders_freed hq response).trans h.holders, fun hf => absurd (h.nofail hq) hf, h.exit⟩

theorem Sound.move (hN : DeflateTotal N) (h : Sound p) {e : Peer.Event R} (hmove : p.Move e p')
    (hcareful : Careful p e) : Sound p' := by
  cases hmove with
  | refused hfail =>
      refine ⟨?_, h.failed, h.exit⟩
      exact (holders_completed (p := p) p.submitted (.exception p.failReason)).trans
        (perm_range_succ h.holders)
  | @queued r hfail hfull =>
      refine ⟨?_, fun hf => absurd hfail hf, h.exit⟩
      exact (holders_pending (p := p) p.submitted r).trans (perm_range_succ h.holders)
  | dropped o hfail hroom hno =>
      exact absurd ((p.accepted_iff hN _).mpr (hcareful hfail hroom).1) hno
  | initiated o hfail hroom hyes =>
      refine ⟨?_, fun hf => absurd hfail hf, h.exit⟩
      exact (holders_started (hcareful hfail hroom).2 o p.submitted).trans
        (perm_range_succ h.holders)
  | unknown hid hexit => exact absurd hcareful.1 hid
  | completed hq hpending => exact h.freed hq _
  | @replaced id response q w rest o hq hpending hyes =>
      have hfreed := h.freed hq response
      have hstarted := holders_started (p := { p.freed id q response with pending := rest })
        (hcareful.2 w rest hpending ((p.accepted_iff hN _).mp hyes)) o w.promise
      refine ⟨hstarted.trans (List.Perm.trans ?_ hfreed.holders),
        fun hf => absurd (h.nofail hq) hf, h.exit⟩
      simp only [Peer.freed, hpending]
      exact List.perm_middle.symm
  | @broken id response q w rest o e hq hpending hno =>
      have hfreed := h.freed hq response
      exact Sound.fail (p := { p.freed id q response with serial := p.serial + 2, output := o })
        ⟨hfreed.holders, hfreed.failed, hfreed.exit⟩ _
  | exception what => exact h.fail _
  | error what => exact h.fail _

/-- What is kept was done with care: a promise that was dropped leaves fewer
places than promises. -/
theorem careful_of_kept (hN : DeflateTotal N) (h : Sound p) {e : Peer.Event R}
    (hmove : p.Move e p') (hkept : Kept p') : Careful p e := by
  have hlength := h.holders.length_eq
  rw [holders_length, List.length_range] at hlength
  have hle := hkept.submitted_le
  rw [holders_length] at hle
  cases hmove with
  | refused hfail => exact fun hno => absurd hno hfail
  | queued hfail hfull => exact fun _ hroom => absurd hfull (Nat.not_le.mpr hroom)
  | dropped o hfail hroom hno =>
      dsimp only at hle
      omega
  | initiated o hfail hroom hyes =>
      refine fun _ _ => ⟨(p.accepted_iff hN _).mp hyes, fun hused => ?_⟩
      have hcontains := TreeMap.mem_iff_contains.mp hused
      simp only [Peer.started, TreeMap.size_insert, hcontains, if_true] at hle
      omega
  | unknown hid hexit => exact absurd hkept.exit hexit
  | completed hq hpending =>
      refine ⟨mem_of_getElem? hq, fun w rest hw => ?_⟩
      rw [hpending] at hw
      cases hw
  | @replaced id response q w rest o hq hpending hyes =>
      have hactive : id ∈ p.streams := mem_of_getElem? hq
      have hsize := size_erase_add_one hq
      refine ⟨hactive, fun w' rest' hw _ hused => ?_⟩
      have hcontains := TreeMap.mem_iff_contains.mp hused
      simp only [Peer.started, Peer.freed, TreeMap.size_insert, hcontains, if_true,
        List.length_append, List.length_cons, List.length_nil] at hle
      rw [hpending, List.length_cons] at hlength
      omega
  | @broken id response q w rest o e hq hpending hno =>
      refine ⟨mem_of_getElem? hq, fun w' rest' hw hyes => ?_⟩
      rw [hpending, List.cons.injEq] at hw
      rw [← hw.1] at hyes
      exact absurd ((p.accepted_iff hN _).mpr hyes) hno
  | exception what => trivial
  | error what => trivial

end Steps

/-- Whatever is submitted, received and failed in whatever order: the peer keeps
its promises at every step exactly when every step is careful. -/
theorem promises_kept_iff (hN : DeflateTotal N) (debug : Bool) (es : List (Peer.Event R)) :
    Meets (Peer.step debug) (fun p e => Kept (p.step debug e)) ({} : Peer N R) es ↔
      Meets (Peer.step debug) Careful ({} : Peer N R) es := by
  have hall := meets_true (Peer.step debug) ({} : Peer N R) es
  apply meets_iff (I := Sound) ?_ ?_ sound_start hall
  · intro p e hp _
    have hmove := Peer.step_move debug hp.exit e
    exact ⟨careful_of_kept hN hp hmove, fun he => (hp.move hN hmove he).kept⟩
  · intro p e hp _ hk
    have hmove := Peer.step_move debug hp.exit e
    exact hp.move hN hmove (careful_of_kept hN hp hmove hk)

theorem promises_kept_get :
    Meets (Peer.step true) (fun p e => Kept (p.step true e)) ({} : Peer staticNghttp2 Response)
      [.async getRequest, .message 1 okResponse, .exception "closed"] := by
  rw [promises_kept_iff staticNghttp2_total]
  refine ⟨fun _ _ => ⟨by decide, by decide⟩, ⟨by decide, ?_⟩, trivial, trivial⟩
  intro w rest hpending
  cases hpending

/-- An `ftp` url; it does not parse. -/
def ftpRequest : ClientRequest :=
  { method := [0x47, 0x45, 0x54], url := [0x66, 0x74, 0x70, 0x3a, 0x2f, 0x2f, 0x68] }

/-- The promise of the request is neither registered nor completed. -/
theorem promise_dropped :
    ¬ Meets (Peer.step true) (fun p e => Kept (p.step true e)) ({} : Peer staticNghttp2 Response)
      [.async ftpRequest] := by
  rintro ⟨hkept, -⟩
  have hheld := hkept.held 0 (by decide)
  revert hheld
  decide

end Stuff.Http2PeerPromises
