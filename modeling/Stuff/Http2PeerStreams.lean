import Stuff.Http2Peer
import Mathlib.Data.List.Range

/-!
# The streams of a peer

With well-formed urls and messages for active streams only, the peer never has
more streams than the limit. As long as the serial has not wrapped, which takes
`2 ^ 31` requests, it keeps requests waiting only when it is full, and initiates
them in the order in which they were submitted, under the odd ids in turn. Once
the serial wrapped, a request can get the id of a stream that is still active,
and then a place is free while requests wait.
-/
namespace Stuff.Http2PeerStreams
open MachineWords Http2Frames Http2Hpack Http2Output Http2Peer EventRuns
open Std (TreeMap)

variable {N : Nghttp2} {R : Type}

/-- Urls are well formed and messages are for active streams. -/
def Admitted (p : Peer N R) : Peer.Event R → Prop
  | .async aRequest => ParserUrl.WellFormed aRequest.url
  | .message aID _ => aID ∈ p.streams
  | .exception _ | .error _ => True

instance (p : Peer N R) : (e : Peer.Event R) → Decidable (Admitted p e)
  | .async aRequest => inferInstanceAs (Decidable (ParserUrl.WellFormed aRequest.url))
  | .message aID _ => inferInstanceAs (Decidable (aID ∈ p.streams))
  | .exception _ | .error _ => inferInstanceAs (Decidable True)

/-- The id of the stream that is initiated as number `i`. -/
def idOf (i : ℕ) : UInt32 := UInt32.ofNat (2 * i + 1)

theorem idOf_succ (i : ℕ) : idOf i + 2 = idOf (i + 1) := by
  unfold idOf
  rw [← UInt32.toNat_inj, UInt32.toNat_add, UInt32.toNat_ofNat', UInt32.toNat_ofNat']
  change ((2 * i + 1) % 2 ^ 32 + 2) % 2 ^ 32 = _
  omega

theorem idOf_toNat {i : ℕ} (h : i < 2 ^ 31) : (idOf i).toNat = 2 * i + 1 := by
  unfold idOf
  rw [UInt32.toNat_ofNat']
  omega

/-- The ids are given out in turn, and only ids that were given out are in
use. -/
structure Numbered (p : Peer N R) : Prop where
  serial : p.serial = idOf p.initiated.length
  ids : p.initiated.map Prod.fst = (List.range p.initiated.length).map idOf
  streams : ∀ id ∈ p.streams, id ∈ p.initiated.map Prod.fst

/-- The order of the requests: those initiated, then those pending, are all that
were submitted. -/
structure InOrder (p : Peer N R) : Prop where
  full : p.pending ≠ [] → p.streams.size = concurrentStreams
  initiated : p.initiated.map Prod.snd = List.range p.initiated.length
  waiting : p.failReason = "" → List.range p.initiated.length ++
    p.pending.map PendingStream.promise = List.range p.submitted

structure Regular (p : Peer N R) : Prop where
  exit : p.exit = .done
  size : p.streams.size ≤ concurrentStreams
  wellFormed : ∀ w ∈ p.pending, ParserUrl.WellFormed w.request.url
  numbered : Numbered p
  count : p.initiated.length + p.pending.length ≤ p.submitted
  failed : p.failReason ≠ "" → p.pending = []
  order : p.submitted < 2 ^ 31 → InOrder p

theorem regular_start : Regular ({} : Peer N R) where
  exit := rfl
  size := Nat.zero_le _
  wellFormed := by simp
  numbered := ⟨rfl, rfl, by simp⟩
  count := Nat.le_refl _
  failed := fun h => absurd rfl h
  order := fun _ => ⟨by simp, rfl, fun _ => rfl⟩

namespace Numbered
variable {p : Peer N R}

/-- The next id is not in use as long as the serial has not wrapped. -/
theorem fresh (h : Numbered p) (hcount : p.initiated.length < 2 ^ 31) : p.serial ∉ p.streams := by
  intro hused
  have hmem := h.streams _ hused
  rw [h.ids, h.serial, List.mem_map] at hmem
  obtain ⟨i, hi, heq⟩ := hmem
  rw [List.mem_range] at hi
  have hnat := congrArg UInt32.toNat heq
  rw [idOf_toNat (by omega), idOf_toNat hcount] at hnat
  omega

theorem started (h : Numbered p) (o : Output N) (q : ℕ) : Numbered (p.started o q) := by
  constructor
  · simp only [Peer.started, List.length_append, List.length_cons, List.length_nil, h.serial]
    exact idOf_succ _
  · simp only [Peer.started, List.length_append, List.length_cons, List.length_nil,
      List.map_append, h.ids, h.serial, List.range_succ, List.map_cons, List.map_nil]
  · intro id hid
    simp only [Peer.started, TreeMap.mem_insert, List.map_append, List.mem_append] at hid ⊢
    rcases hid with hid | hid
    · right
      simp [(Std.LawfulEqOrd.eq_of_compare hid).symm]
    · exact .inl (h.streams id hid)

theorem freed (h : Numbered p) (id : UInt32) (q : ℕ) (response : R) :
    Numbered (p.freed id q response) := by
  refine ⟨h.serial, h.ids, ?_⟩
  intro k hk
  simp only [Peer.freed] at hk
  exact h.streams k (TreeMap.mem_of_mem_erase hk)

end Numbered

section Sizes
variable (p : Peer N R)

theorem size_started_le (o : Output N) (q : ℕ) :
    (p.started o q).streams.size ≤ p.streams.size + 1 :=
  TreeMap.size_insert_le

theorem size_started (o : Output N) (q : ℕ) (hfresh : p.serial ∉ p.streams) :
    (p.started o q).streams.size = p.streams.size + 1 := by
  unfold Peer.started
  rw [TreeMap.size_insert, if_neg (mt TreeMap.mem_iff_contains.mpr hfresh)]

theorem size_freed {id : UInt32} {q : ℕ} (hq : p.streams[id]? = some q) (response : R) :
    (p.freed id q response).streams.size + 1 = p.streams.size :=
  size_erase_add_one hq

end Sizes

/-! ## Every step keeps the order -/

namespace Regular
variable {p : Peer N R}

theorem fail (h : Regular p) {aMsg : String} (hmsg : aMsg ≠ "") : Regular (p.fail aMsg) := by
  have hreason : (p.fail aMsg).failReason ≠ "" := by
    simp only [Peer.fail]
    split_ifs with hnone
    · exact hmsg
    · exact hnone
  have hcount := h.count
  refine ⟨h.exit, Nat.zero_le _, by simp [Peer.fail],
    ⟨h.numbered.serial, h.numbered.ids, by simp [Peer.fail]⟩, ?_, fun _ => rfl, ?_⟩
  · simp only [Peer.fail, List.length_nil]
    omega
  · intro hlt
    exact ⟨fun hne => absurd rfl hne, (h.order hlt).initiated, fun hnone => absurd hnone hreason⟩

/-- A request that is initiated at once finds no one waiting. -/
theorem initiated (h : Regular p) (hfail : p.failReason = "")
    (hroom : p.streams.size < concurrentStreams) (o : Output N) :
    Regular { p.started o p.submitted with submitted := p.submitted + 1 } := by
  have hnumbered := h.numbered.started o p.submitted
  have hsize := size_started_le p o p.submitted
  have hcount := h.count
  refine ⟨h.exit, by dsimp only; omega, h.wellFormed,
    ⟨hnumbered.serial, hnumbered.ids, hnumbered.streams⟩, ?_, fun hne => absurd hfail hne, ?_⟩
  · simp only [Peer.started, List.length_append, List.length_cons, List.length_nil]
    omega
  · intro hlt
    have hlt : p.submitted + 1 < 2 ^ 31 := hlt
    obtain ⟨hfull, hinitiated, hwaiting⟩ := h.order (by omega)
    have hnone : p.pending = [] := by
      by_contra hne
      have := hfull hne
      omega
    have hall := hwaiting hfail
    rw [hnone, List.map_nil, List.append_nil] at hall
    have hlen := congrArg List.length hall
    rw [List.length_range, List.length_range] at hlen
    refine ⟨fun hne => absurd hnone hne, ?_, fun _ => ?_⟩
    · simp [Peer.started, hinitiated, hlen, List.range_succ]
    · simp [Peer.started, hnone, hlen]

theorem completed (h : Regular p) {id : UInt32} {q : ℕ} (hq : p.streams[id]? = some q)
    (hpending : p.pending = []) (response : R) : Regular (p.freed id q response) := by
  have hsize := size_freed p hq response
  have hold := h.size
  refine ⟨h.exit, by omega, h.wellFormed, h.numbered.freed id q response, h.count, h.failed, ?_⟩
  intro hlt
  obtain ⟨-, hinitiated, hwaiting⟩ := h.order hlt
  exact ⟨fun hne => absurd hpending hne, hinitiated, hwaiting⟩

/-- A pending request takes the place of the stream that was completed. -/
theorem replaced (h : Regular p) {id : UInt32} {q : ℕ} {w : PendingStream}
    {rest : List PendingStream} (hq : p.streams[id]? = some q) (hpending : p.pending = w :: rest)
    (response : R) (o : Output N) :
    Regular { (p.freed id q response).started o w.promise with pending := rest } := by
  have hnumbered := (h.numbered.freed id q response).started o w.promise
  have hfreed := size_freed p hq response
  have hsize := size_started_le (p.freed id q response) o w.promise
  have hold := h.size
  have hcount := h.count
  rw [hpending, List.length_cons] at hcount
  refine ⟨h.exit, by dsimp only; omega, ?_,
    ⟨hnumbered.serial, hnumbered.ids, hnumbered.streams⟩, ?_, ?_, ?_⟩
  · intro w' hw'
    exact h.wellFormed w' (by rw [hpending]; exact List.mem_cons_of_mem _ hw')
  · simp only [Peer.started, Peer.freed, List.length_append, List.length_cons, List.length_nil]
    omega
  · intro hne
    have hnone := h.failed hne
    rw [hpending] at hnone
    cases hnone
  · intro hlt
    have hlt : p.submitted < 2 ^ 31 := hlt
    obtain ⟨hfull, hinitiated, hwaiting⟩ := h.order hlt
    have hfresh := (h.numbered.freed id q response).fresh (by simp only [Peer.freed]; omega)
    have hstarted := size_started (p.freed id q response) o w.promise hfresh
    have hwas := hfull (by simp [hpending])
    -- the first pending request is the next one after those initiated
    have hnext : p.failReason = "" := by
      by_contra hne
      rw [h.failed hne] at hpending
      cases hpending
    have hall := hwaiting hnext
    rw [hpending, List.map_cons] at hall
    have hpromise : w.promise = p.initiated.length := by
      have hget := congrArg (fun l => l[p.initiated.length]?) hall
      simp only [List.getElem?_append_right (Nat.le_of_eq (List.length_range)), List.length_range,
        Nat.sub_self, List.getElem?_cons_zero] at hget
      rw [List.getElem?_range (by omega)] at hget
      exact Option.some.inj hget
    refine ⟨fun _ => by dsimp only; omega, ?_, fun _ => ?_⟩
    · simp [Peer.started, Peer.freed, hinitiated, hpromise, List.range_succ]
    · rw [hpromise] at hall
      simpa [Peer.started, Peer.freed, List.range_succ] using hall

theorem queued (h : Regular p) (hfail : p.failReason = "")
    (hfull : concurrentStreams ≤ p.streams.size) {r : ClientRequest}
    (hr : ParserUrl.WellFormed r.url) :
    Regular { p with
      pending := p.pending ++ [⟨r, p.submitted⟩]
      submitted := p.submitted + 1 } := by
  have hcount := h.count
  constructor
  · exact h.exit
  · exact h.size
  · intro w hw
    rcases List.mem_append.mp hw with hw | hw
    · exact h.wellFormed w hw
    · rw [List.mem_singleton.mp hw]
      exact hr
  · exact ⟨h.numbered.serial, h.numbered.ids, h.numbered.streams⟩
  · simp only [List.length_append, List.length_cons, List.length_nil]
    omega
  · exact fun hne => absurd hfail hne
  · intro hlt
    have hlt : p.submitted + 1 < 2 ^ 31 := hlt
    obtain ⟨-, hinitiated, hwaiting⟩ := h.order (by omega)
    refine ⟨fun _ => Nat.le_antisymm h.size hfull, hinitiated, fun _ => ?_⟩
    simp only [List.map_append, List.map_cons, List.map_nil, List.range_succ]
    rw [← List.append_assoc, hwaiting hfail]

theorem refused (h : Regular p) (hfail : p.failReason ≠ "") (outcome : Outcome R) :
    Regular { p with
      completed := p.completed ++ [(p.submitted, outcome)]
      submitted := p.submitted + 1 } := by
  have hcount := h.count
  refine ⟨h.exit, h.size, h.wellFormed, ⟨h.numbered.serial, h.numbered.ids, h.numbered.streams⟩,
    Nat.le_succ_of_le hcount, h.failed, ?_⟩
  intro hlt
  have hlt : p.submitted + 1 < 2 ^ 31 := hlt
  obtain ⟨hfull, hinitiated, -⟩ := h.order (by omega)
  exact ⟨hfull, hinitiated, fun hnone => absurd hnone hfail⟩

theorem move (hN : DeflateTotal N) (h : Regular p) {p' : Peer N R} {e : Peer.Event R}
    (hmove : p.Move e p') (he : Admitted p e) : Regular p' := by
  cases hmove with
  | refused hfail => exact h.refused hfail _
  | queued hfail hfull => exact h.queued hfail hfull he
  | dropped o hfail hroom hno => exact absurd ((p.accepted_iff hN _).mpr he) hno
  | initiated o hfail hroom hyes => exact h.initiated hfail hroom o
  | unknown hid hexit => exact absurd he hid
  | completed hq hpending => exact h.completed hq hpending _
  | replaced o hq hpending hyes => exact h.replaced hq hpending _ o
  | @broken id response q w rest o e hq hpending hno =>
      have hw := h.wellFormed w (by simp [hpending])
      exact absurd ((p.accepted_iff hN _).mpr hw) hno
  | exception what => exact h.fail (by simp)
  | error what => exact h.fail (by simp)

end Regular

theorem regular_run (hN : DeflateTotal N) (debug : Bool) {es : List (Peer.Event R)}
    (h : Meets (Peer.step debug) Admitted ({} : Peer N R) es) :
    Regular (run (Peer.step debug) ({} : Peer N R) es) :=
  run_invariant (I := Regular)
    (fun _ e hp he => hp.move hN (Peer.step_move debug hp.exit e) he) regular_start h

theorem ids_increase (n : ℕ) (hn : n ≤ 2 ^ 31) :
    ((List.range n).map idOf).Pairwise (· < ·) := by
  rw [List.pairwise_map]
  apply (List.pairwise_lt_range (n := n)).imp_of_mem
  intro i j hi hj hij
  rw [List.mem_range] at hi hj
  rw [UInt32.lt_iff_toNat_lt, idOf_toNat (by omega), idOf_toNat (by omega)]
  omega

theorem ids_odd {n : ℕ} {id : UInt32} (h : id ∈ (List.range n).map idOf) : id.toNat % 2 = 1 := by
  obtain ⟨i, -, rfl⟩ := List.mem_map.mp h
  unfold idOf
  rw [UInt32.toNat_ofNat']
  omega

/-- The peer never has more streams than the limit. While fewer than `2 ^ 31`
requests were made, requests wait only when the peer is full, the ids are odd
and increase, and the requests are initiated in the order in which they were
submitted: those initiated are the first ones, and as long as nothing failed
those pending are the rest. -/
theorem streams_limited_and_ordered (hN : DeflateTotal N) (debug : Bool)
    (es : List (Peer.Event R)) (h : Meets (Peer.step debug) Admitted ({} : Peer N R) es) :
    let p := run (Peer.step debug) ({} : Peer N R) es
    p.streams.size ≤ concurrentStreams ∧
    (p.submitted < 2 ^ 31 →
      (p.pending ≠ [] → p.streams.size = concurrentStreams) ∧
      (∀ id ∈ p.initiated.map Prod.fst, id.toNat % 2 = 1) ∧
      (p.initiated.map Prod.fst).Pairwise (· < ·) ∧
      (∀ id ∈ p.streams, id ∈ p.initiated.map Prod.fst) ∧
      p.initiated.map Prod.snd = List.range p.initiated.length ∧
      (p.failReason = "" → p.initiated.map Prod.snd ++ p.pending.map PendingStream.promise =
        List.range p.submitted)) := by
  have hp := regular_run hN debug h
  refine ⟨hp.size, fun hlt => ?_⟩
  obtain ⟨hfull, hinitiated, hwaiting⟩ := hp.order hlt
  have hcount := hp.count
  refine ⟨hfull, ?_, ?_, hp.numbered.streams, hinitiated, ?_⟩
  · intro id hid
    rw [hp.numbered.ids] at hid
    exact ids_odd hid
  · rw [hp.numbered.ids]
    exact ids_increase _ (by omega)
  · intro hnone
    rw [hinitiated]
    exact hwaiting hnone

theorem streams_limited_and_ordered_get :
    let es : List (Peer.Event Response) :=
      [.async getRequest, .async getRequest, .message 1 okResponse]
    Meets (Peer.step true) Admitted ({} : Peer staticNghttp2 Response) es ∧
    (run (Peer.step true) ({} : Peer staticNghttp2 Response) es).streams.size ≤
      concurrentStreams := by
  have h : Meets (Peer.step true) Admitted ({} : Peer staticNghttp2 Response)
      [.async getRequest, .async getRequest, .message 1 okResponse] := by decide
  exact ⟨h, (streams_limited_and_ordered staticNghttp2_total true _ h).1⟩

/-! ## A serial that wrapped -/

/-- One event of a run, by cases on what it can do. -/
theorem leads_of_move (debug : Bool) {p : Peer N R} (e : Peer.Event R) {P : Peer N R → Prop}
    (hexit : p.exit = .done) (he : Admitted p e) (h : ∀ p', p.Move e p' → P p') :
    Leads (Peer.step debug) Admitted p [e] P :=
  ⟨⟨he, trivial⟩, h _ (Peer.step_move debug hexit e)⟩

/-- No failure and nobody waiting; the first stream is still active. -/
structure Quiet (p : Peer N R) (n k : ℕ) : Prop where
  regular : Regular p
  failReason : p.failReason = ""
  pending : p.pending = []
  initiated : p.initiated.length = n
  size : p.streams.size = k
  first : 0 < n → idOf 0 ∈ p.streams

theorem quiet_start : Quiet ({} : Peer N R) 0 0 :=
  ⟨regular_start, rfl, rfl, rfl, rfl, fun h => absurd h (Nat.lt_irrefl 0)⟩

namespace Quiet
variable {p : Peer N R} {n k : ℕ} {r : ClientRequest} (debug : Bool)

theorem async (hN : DeflateTotal N) (hr : ParserUrl.WellFormed r.url) (h : Quiet p n k)
    (hn : n < 2 ^ 31) (hk : k < concurrentStreams) :
    Leads (Peer.step debug) Admitted p [.async r] fun q =>
      Quiet q (n + 1) (k + 1) ∧ idOf n ∈ q.streams := by
  apply leads_of_move debug (.async r) h.regular.exit hr
  intro p' hmove
  have hregular := h.regular.move hN hmove hr
  cases hmove with
  | refused hfail => exact absurd h.failReason hfail
  | queued hfail hfull =>
      rw [h.size] at hfull
      omega
  | dropped o hfail hroom hno => exact absurd ((p.accepted_iff hN _).mpr hr) hno
  | initiated o hfail hroom hyes =>
      have hserial : p.serial = idOf n := by rw [h.regular.numbered.serial, h.initiated]
      have hfresh := h.regular.numbered.fresh (by rw [h.initiated]; exact hn)
      have hsize := size_started p o p.submitted hfresh
      refine ⟨⟨hregular, hfail, h.pending, ?_, ?_, ?_⟩, ?_⟩
      · simp [Peer.started, h.initiated]
      · rw [hsize, h.size]
      · intro _
        rcases Nat.eq_zero_or_pos n with hzero | hpos
        · rw [← hzero, ← hserial]
          exact TreeMap.mem_insert_self
        · exact TreeMap.mem_insert.mpr (.inr (h.first hpos))
      · rw [← hserial]
        exact TreeMap.mem_insert_self

theorem message (hN : DeflateTotal N) (h : Quiet p n k) {id : UInt32} (hid : id ∈ p.streams)
    (hne : id ≠ idOf 0) (response : R) :
    Leads (Peer.step debug) Admitted p [.message id response] fun q => Quiet q n (k - 1) := by
  apply leads_of_move debug (.message id response) h.regular.exit hid
  intro p' hmove
  have hregular := h.regular.move hN hmove hid
  cases hmove with
  | unknown hno hexit => exact absurd hid hno
  | completed hq hpending =>
      have hsize := size_freed p hq response
      rw [h.size] at hsize
      refine ⟨hregular, h.failReason, h.pending, h.initiated, by omega, fun hpos => ?_⟩
      exact TreeMap.mem_erase.mpr ⟨mt Std.LawfulEqOrd.eq_of_compare hne, h.first hpos⟩
  | replaced o hq hpending hyes => simp [h.pending] at hpending
  | broken o e hq hpending hno => simp [h.pending] at hpending

/-- Requests that are answered at once. -/
theorem cycles (hN : DeflateTotal N) (hr : ParserUrl.WellFormed r.url) (response : R) (m : ℕ)
    (h : Quiet p n k) (hpos : 0 < n) (hn : n + m ≤ 2 ^ 31) (hk : k < concurrentStreams) :
    Leads (Peer.step debug) Admitted p
      ((List.range' n m).flatMap fun i => [.async r, .message (idOf i) response]) fun q =>
      Quiet q (n + m) k := by
  induction m generalizing p n with
  | zero => exact ⟨trivial, h⟩
  | succ m ih =>
      rw [List.range'_succ, List.flatMap_cons]
      have hne : idOf n ≠ idOf 0 := by
        intro heq
        have hnat := congrArg UInt32.toNat heq
        rw [idOf_toNat (by omega), idOf_toNat (by omega)] at hnat
        omega
      have hone : Leads (Peer.step debug) Admitted p [.async r, .message (idOf n) response]
          fun q => Quiet q (n + 1) k :=
        (h.async debug hN hr (by omega) hk).append
          fun q hq => hq.1.message debug hN hq.2 hne response
      apply hone.append
      intro q hq
      have hrest := ih hq (by omega) (by omega)
      rwa [show n + 1 + m = n + (m + 1) by omega] at hrest

/-- Requests that are not answered. -/
theorem fill (hN : DeflateTotal N) (hr : ParserUrl.WellFormed r.url) (m : ℕ)
    (h : Quiet p n k) (hn : n + m ≤ 2 ^ 31) (hk : k + m ≤ concurrentStreams) :
    Leads (Peer.step debug) Admitted p (List.replicate m (.async r)) fun q =>
      Quiet q (n + m) (k + m) := by
  induction m generalizing p n k with
  | zero => exact ⟨trivial, h⟩
  | succ m ih =>
      have hone : Leads (Peer.step debug) Admitted p
          (.async r :: List.replicate m (.async r)) fun q => Quiet q (n + 1 + m) (k + 1 + m) :=
        (h.async debug hN hr (by omega) (by omega)).append
          fun q hq => ih hq.1 (by omega) (by omega)
      rwa [show n + 1 + m = n + (m + 1) by omega, show k + 1 + m = k + (m + 1) by omega] at hone

end Quiet

/-- A full peer whose serial wrapped; the id it comes to next is in use. -/
structure Wrapped (p : Peer N R) (m : ℕ) : Prop where
  exit : p.exit = .done
  failReason : p.failReason = ""
  pending : p.pending.length = m
  wellFormed : ∀ w ∈ p.pending, ParserUrl.WellFormed w.request.url
  serial : p.serial = idOf 0
  first : idOf 0 ∈ p.streams
  last : idOf (2 ^ 31 - 1) ∈ p.streams
  size : p.streams.size = concurrentStreams

theorem Quiet.wrapped {p : Peer N R} (h : Quiet p (2 ^ 31) concurrentStreams)
    (hlast : idOf (2 ^ 31 - 1) ∈ p.streams) : Wrapped p 0 where
  exit := h.regular.exit
  failReason := h.failReason
  pending := by rw [h.pending, List.length_nil]
  wellFormed := h.regular.wellFormed
  serial := by
    rw [h.regular.numbered.serial, h.initiated]
    decide
  first := h.first (by decide)
  last := hlast
  size := h.size

namespace Wrapped
variable {p : Peer N R} {m : ℕ} {r : ClientRequest} (debug : Bool)

theorem async (hr : ParserUrl.WellFormed r.url) (h : Wrapped p m) :
    Leads (Peer.step debug) Admitted p [.async r] fun q => Wrapped q (m + 1) := by
  apply leads_of_move debug (.async r) h.exit hr
  intro p' hmove
  have hsize := h.size
  cases hmove with
  | refused hfail => exact absurd h.failReason hfail
  | queued hfail hfull =>
      refine ⟨h.exit, hfail, by simp [h.pending], ?_, h.serial, h.first, h.last, hsize⟩
      intro w hw
      rcases List.mem_append.mp hw with hw | hw
      · exact h.wellFormed w hw
      · rw [List.mem_singleton.mp hw]
        exact hr
  | dropped o hfail hroom hno => omega
  | initiated o hfail hroom hyes => omega

/-- The request that is let in takes the id of the first stream, so a place
stays free. -/
theorem message (hN : DeflateTotal N) (h : Wrapped p (m + 1)) (response : R) :
    Leads (Peer.step debug) Admitted p [.message (idOf (2 ^ 31 - 1)) response] fun q =>
      q.pending.length = m ∧ q.streams.size + 1 = concurrentStreams := by
  apply leads_of_move debug (.message _ response) h.exit h.last
  intro p' hmove
  have hwaiting := h.pending
  cases hmove with
  | unknown hno hexit => exact absurd h.last hno
  | completed hq hpending => simp [hpending] at hwaiting
  | @replaced id _ q w rest o hq hpending hyes =>
      have hsize := size_freed p hq response
      have hne : idOf (2 ^ 31 - 1) ≠ idOf 0 := by decide
      have hused : (p.freed (idOf (2 ^ 31 - 1)) q response).streams.contains (idOf 0) = true := by
        rw [← TreeMap.mem_iff_contains]
        exact TreeMap.mem_erase.mpr ⟨mt Std.LawfulEqOrd.eq_of_compare hne, h.first⟩
      rw [hpending, List.length_cons] at hwaiting
      refine ⟨by dsimp only; omega, ?_⟩
      have hserial : (p.freed (idOf (2 ^ 31 - 1)) q response).serial = idOf 0 := h.serial
      unfold Peer.started
      rw [TreeMap.size_insert, hserial, if_pos hused, hsize, h.size]
  | @broken id _ q w rest o e hq hpending hno =>
      have hw := h.wellFormed w (by simp [hpending])
      exact absurd ((p.accepted_iff hN _).mpr hw) hno

end Wrapped

/-- The first request is never answered, the others are until `99` are left of
the `2 ^ 31` ids; then two requests have to wait, and the last stream is
answered. -/
def wrappingRun (response : R) : List (Peer.Event R) :=
  let get : Peer.Event R := .async getRequest
  let answered := (List.range' 1 (2 ^ 31 - 100)).flatMap fun i => [get, .message (idOf i) response]
  [get] ++ answered ++ List.replicate 98 get ++ [get] ++ [get] ++ [get] ++
    [.message (idOf (2 ^ 31 - 1)) response]

theorem wrappingRun_leads (hN : DeflateTotal N) (debug : Bool) (response : R) :
    Leads (Peer.step debug) Admitted ({} : Peer N R) (wrappingRun response) fun q =>
      q.pending.length = 1 ∧ q.streams.size + 1 = concurrentStreams := by
  have hr : ParserUrl.WellFormed getRequest.url := by decide
  have hone := quiet_start.async (N := N) (R := R) debug hN hr (by decide) (by decide)
  have hcycles := hone.append fun q hq =>
    hq.1.cycles debug hN hr response (2 ^ 31 - 100) (by decide) (by decide) (by decide)
  have hfill := hcycles.append fun q hq => hq.fill debug hN hr 98 (by decide) (by decide)
  have hfull := hfill.append fun q hq => hq.async debug hN hr (by decide) (by decide)
  have hfirst := hfull.append fun q hq => (hq.1.wrapped hq.2).async debug hr
  have hsecond := hfirst.append fun q hq => hq.async debug hr
  exact hsecond.append fun q hq => hq.message debug hN response

theorem Wrapped.room {p : Peer N R}
    (h : p.pending.length = 1 ∧ p.streams.size + 1 = concurrentStreams) :
    p.pending ≠ [] ∧ p.streams.size = 99 := by
  refine ⟨?_, Nat.succ.inj h.2⟩
  intro hnone
  have hlength := h.1
  rw [hnone] at hlength
  cases hlength

/-- A place is free and a request waits. -/
theorem wrapped_serial_leaves_room :
    Leads (Peer.step true) Admitted ({} : Peer staticNghttp2 Response)
      (wrappingRun okResponse) fun p => p.pending ≠ [] ∧ p.streams.size = 99 :=
  Leads.mono (wrappingRun_leads staticNghttp2_total true okResponse) fun _ h => Wrapped.room h

end Stuff.Http2PeerStreams
