import Stuff.CreditWindow
import Stuff.Http2Net
import Stuff.Http2OutputFraming

/-!
# One stream between its two ends

The body of a stream travels from one side to the parser of the other, window
updates travel back. `Ledger` relates the two counters of the stream to what is
on its way, and `Phase` says which frames the parser has still to expect. A
stream passes through the four cases of either in order.
-/
namespace Stuff.Http2Streams
open MachineWords Http2Frames Http2Hpack Http2Output Http2Accounts Http2Parser Http2Net
open Http2OutputFraming (ends not_ends ends_of_flags)
open CreditWindow

variable {N : Nghttp2} {M : Type}

/-! ## The counters of a stream -/

/-- What an entry, or its absence, means for the rest of a body. -/
def bodyOf (e : Option Http2Output.Info) : Bytes := (e.getD {}).body

/-- The window of the sender for a stream. -/
def windowOf (e : Option Http2Output.Info) : ℕ := (e.getD {}).budget.toNat

/-- The counter of the receiver for a stream. -/
def counterOf (e : Option (Http2Parser.Info M)) : ℕ := (e.getD {}).budget.toNat

@[simp] theorem bodyOf_none : bodyOf none = [] := rfl
@[simp] theorem bodyOf_some (d : Http2Output.Info) : bodyOf (some d) = d.body := rfl
@[simp] theorem windowOf_none : windowOf none = 65535 := rfl
@[simp] theorem windowOf_some (d : Http2Output.Info) : windowOf (some d) = d.budget.toNat := rfl
@[simp] theorem counterOf_none : counterOf (none : Option (Http2Parser.Info M)) = 65535 := rfl
@[simp] theorem counterOf_some (d : Http2Parser.Info M) :
    counterOf (some d) = d.budget.toNat := rfl

/-- The counters of one stream: the entry of the sender, the payload and the
increments on their way, the counter of the receiver. Once the body is sent
the sender forgets its window, and updates that arrive late make a new entry
that starts with a default window: `c` is what arrived late. -/
inductive Ledger (opened : Prop) (entry : Option Http2Output.Info) (bytes grants counter : ℕ) :
    Prop
  | unopened (hopened : ¬ opened) (hentry : entry = none) (hbytes : bytes = 0)
      (hgrants : grants = 0) (hcounter : counter = 65535)
  | sending (hopened : opened) (hbody : bodyOf entry ≠ [])
      (h : Account 65535 (windowOf entry) bytes grants 0 counter)
  | sent {c x : ℕ} (hopened : opened) (hbody : bodyOf entry = [])
      (hwindow : windowOf entry = 65535 + c) (h : Account 65535 c bytes grants x counter)
  | finished {c : ℕ} (hopened : opened) (hbody : bodyOf entry = [])
      (hwindow : windowOf entry = 65535 + c) (hbytes : bytes = 0)
      (hgrants : c + grants < 2 * 65535) (hcounter : counter = 65535)

namespace Ledger
variable {opened : Prop} {entry : Option Http2Output.Info} {bytes grants counter : ℕ}

theorem chunk {d : Http2Output.Info} {len : ℕ}
    (h : Ledger opened (some d) bytes grants counter) (hpos : 0 < len)
    (hwindow : len ≤ d.budget.toNat) (hlen : len ≤ d.body.length) :
    Ledger opened
      (if len = d.body.length then none
        else some ⟨d.body.drop len, d.budget - UInt32.ofNat len⟩)
      (bytes + len) grants counter := by
  have hne : d.body ≠ [] := by
    intro hnil
    simp [hnil] at hlen
    omega
  cases h with
  | unopened hopened hentry => cases hentry
  | sending hopened hbody hacc =>
      have hsend := hacc.send hwindow
      split_ifs with hlast
      · have hrelease := hsend.release (Nat.le_refl _)
        rw [Nat.sub_self] at hrelease
        exact .sent (c := 0) hopened rfl rfl hrelease
      · refine .sending hopened ?_ ?_
        · simp only [bodyOf_some, ne_eq, List.drop_eq_nil_iff]
          omega
        · rw [windowOf_some, toNat_sub_ofNat hwindow]
          exact hsend
  | sent hopened hbody => exact absurd hbody hne
  | finished hopened hbody => exact absurd hbody hne

theorem erase {d : Http2Output.Info} (h : Ledger opened (some d) bytes grants counter)
    (hnil : d.body = []) : Ledger opened none bytes grants counter := by
  cases h with
  | unopened hopened hentry => cases hentry
  | sending hopened hbody => exact absurd hnil hbody
  | sent hopened hbody hwindow hacc =>
      have hrelease := hacc.release (Nat.le_refl _)
      rw [Nat.sub_self] at hrelease
      exact .sent (c := 0) hopened rfl rfl hrelease
  | finished hopened hbody hwindow hbytes hgrants hcounter =>
      exact .finished (c := 0) hopened rfl rfl hbytes (by omega) hcounter

/-- The window an update is added to leaves room for it. -/
theorem credit_lt (h : Ledger opened entry bytes grants counter) :
    windowOf entry + grants < 3 * 65535 := by
  cases h with
  | unopened hopened hentry hbytes hgrants hcounter =>
      rw [hentry, windowOf_none, hgrants]
      omega
  | sending hopened hbody hacc =>
      have := hacc.credit_lt
      omega
  | sent hopened hbody hwindow hacc =>
      have := hacc.credit_lt
      omega
  | finished hopened hbody hwindow hbytes hgrants => omega

theorem credit (h : Ledger opened entry bytes (65535 + grants) counter) :
    Ledger opened (some { entry.getD {} with budget := (entry.getD {}).budget + defaultWindowSize })
      bytes grants counter := by
  have hlt := h.credit_lt
  have hsum : ((entry.getD {}).budget + defaultWindowSize).toNat = windowOf entry + 65535 :=
    toNat_add_of_lt (by rw [defaultWindowSize_toNat]; unfold windowOf at hlt; omega)
  have hsame : bodyOf (some { entry.getD {} with
      budget := (entry.getD {}).budget + defaultWindowSize }) = bodyOf entry := by
    rw [bodyOf_some, bodyOf]
  cases h with
  | unopened hopened hentry hbytes hgrants hcounter => omega
  | sending hopened hbody hacc =>
      refine .sending hopened (by rwa [hsame]) ?_
      rw [windowOf_some, hsum]
      exact hacc.credit
  | @sent c x hopened hbody hwindow hacc =>
      refine .sent (c := c + 65535) (x := x) hopened (by rwa [hsame]) ?_ hacc.credit
      rw [windowOf_some, hsum]
      omega
  | @finished c hopened hbody hwindow hbytes hgrants hcounter =>
      refine .finished (c := c + 65535) hopened (by rwa [hsame]) ?_ hbytes (by omega) hcounter
      rw [windowOf_some, hsum]
      omega

theorem message (h : Ledger opened entry bytes grants counter) (hnew : ¬ opened) (body : Bytes) :
    Ledger True (if body ≠ [] then some { entry.getD {} with body := body } else entry)
      bytes grants counter := by
  cases h with
  | unopened hopened hentry hbytes hgrants hcounter =>
      subst hentry hbytes hgrants hcounter
      split_ifs with hbody
      · exact .sending trivial hbody (Account.start (by omega))
      · have hstart : Account 65535 65535 0 0 0 65535 := Account.start (by omega)
        exact .sent (c := 0) trivial rfl rfl (hstart.release (Nat.le_refl _))
  | sending hopened => exact absurd hopened hnew
  | sent hopened => exact absurd hopened hnew
  | finished hopened => exact absurd hopened hnew

theorem counter_lt (h : Ledger opened entry bytes grants counter) : counter < 2 * 65535 := by
  cases h with
  | unopened hopened hentry hbytes hgrants hcounter => omega
  | sending hopened hbody hacc => exact hacc.high
  | sent hopened hbody hwindow hacc => exact hacc.high
  | finished hopened hbody hwindow hbytes hgrants hcounter => omega

/-- The payload a frame carries is covered by the counter of the receiver. -/
theorem bytes_le (h : Ledger opened entry bytes grants counter) (hpos : 0 < bytes) :
    bytes ≤ counter := by
  cases h with
  | unopened hopened hentry hbytes => omega
  | sending hopened hbody hacc => exact hacc.bytes_le
  | sent hopened hbody hwindow hacc => exact hacc.bytes_le
  | finished hopened hbody hwindow hbytes => omega

/-- A DATA frame with more to come. -/
theorem receive {n : ℕ} (h : Ledger opened entry (n + bytes) grants counter) (hpos : 0 < n) :
    Ledger opened entry bytes (grants + granted 65535 (counter - n))
      (counter - n + granted 65535 (counter - n)) := by
  cases h with
  | unopened hopened hentry hbytes => omega
  | sending hopened hbody hacc => exact .sending hopened hbody hacc.receive
  | sent hopened hbody hwindow hacc => exact .sent hopened hbody hwindow hacc.receive
  | finished hopened hbody hwindow hbytes => omega

/-- The DATA frame that ends the stream: its counter goes away. -/
theorem finish {n : ℕ} (h : Ledger opened entry n grants counter) (hpos : 0 < n)
    (hbody : bodyOf entry = []) : Ledger opened entry 0 grants 65535 := by
  cases h with
  | unopened hopened hentry hbytes => omega
  | sending hopened hbody' => exact absurd hbody hbody'
  | sent hopened hbody hwindow hacc => exact .finished hopened hbody hwindow rfl hacc.credit_lt rfl
  | finished hopened hbody hwindow hbytes => omega

end Ledger

/-! ## The frames of a stream -/

/-- The frames a parser has still to expect on an open stream, when the sender
holds `rest` of the body: the last of all ends the stream. -/
structure Tail (id : UInt32) (rest : Bytes) (fs : List Frame) : Prop where
  data : ∀ f ∈ fs, IsData id f ∧ Sized f
  going : rest ≠ [] → ∀ f ∈ fs, ends f = false
  last : rest = [] → ∃ init f, fs = init ++ [f] ∧ (∀ g ∈ init, ends g = false) ∧ ends f = true

namespace Tail
variable {id : UInt32} {rest : Bytes} {fs : List Frame}

theorem nil (h : rest ≠ []) : Tail id rest [] :=
  ⟨by simp, by simp, fun hnil => absurd hnil h⟩

theorem chunk {d : Http2Output.Info} {len : ℕ} (h : Tail id d.body fs) (hpos : 0 < len)
    (hlen : len ≤ d.body.length) :
    Tail id (d.body.drop len) (fs ++ Output.chunkFrames id d len) := by
  have hne : d.body ≠ [] := by
    intro hnil
    simp [hnil] at hlen
    omega
  have htake : d.body.take len ≠ [] := by
    intro hnil
    have hlen' := congrArg List.length hnil
    simp only [List.length_take, List.length_nil] at hlen'
    omega
  obtain ⟨init, f, hframes, hinit, hf⟩ := dataFrames_flags id (len = d.body.length)
    (d.body.take len).length (d.body.take len) le_rfl htake
  have hchunk : Output.chunkFrames id d len = init ++ [f] := hframes
  have hgoing (g : Frame) (hg : g ∈ fs ++ init) : ends g = false := by
    rcases List.mem_append.mp hg with hg | hg
    · exact h.going hne g hg
    · exact not_ends (hinit g hg)
  constructor
  · intro g hg
    rcases List.mem_append.mp hg with hg | hg
    · exact h.data g hg
    · exact ⟨chunkFrames_isData id d len g hg, chunkFrames_sized id d len g hg⟩
  · intro hrest g hg
    have hlast : len ≠ d.body.length := by
      rintro rfl
      simp at hrest
    rw [hchunk, ← List.append_assoc] at hg
    rcases List.mem_append.mp hg with hg | hg
    · exact hgoing g hg
    · rw [List.mem_singleton] at hg
      subst hg
      exact not_ends (by simpa [hlast] using hf)
  · intro hrest
    have hlast : len = d.body.length := by
      have := List.drop_eq_nil_iff.mp hrest
      omega
    refine ⟨fs ++ init, f, by rw [hchunk, List.append_assoc], hgoing, ?_⟩
    exact ends_of_flags (by simpa [hlast] using hf)

/-- A frame that does not end the stream leaves a tail. -/
theorem next {f : Frame} (h : Tail id rest (f :: fs)) (hf : ends f = false) : Tail id rest fs := by
  constructor
  · intro g hg
    exact h.data g (by simp [hg])
  · intro hrest g hg
    exact h.going hrest g (by simp [hg])
  · intro hrest
    obtain ⟨init, g, hsplit, hinit, hg⟩ := h.last hrest
    cases init with
    | nil =>
        simp only [List.nil_append, List.cons.injEq] at hsplit
        rw [hsplit.1, hg] at hf
        cases hf
    | cons a init =>
        simp only [List.cons_append, List.cons.injEq] at hsplit
        exact ⟨init, g, hsplit.2, fun x hx => hinit x (by simp [hx]), hg⟩

/-- Behind the frame that ends the stream there is nothing. -/
theorem final {f : Frame} (h : Tail id rest (f :: fs)) (hf : ends f = true) :
    rest = [] ∧ fs = [] := by
  by_cases hrest : rest = []
  · refine ⟨hrest, ?_⟩
    obtain ⟨init, g, hsplit, hinit, hg⟩ := h.last hrest
    cases init with
    | nil =>
        simp only [List.nil_append, List.cons.injEq] at hsplit
        exact hsplit.2
    | cons a init =>
        simp only [List.cons_append, List.cons.injEq] at hsplit
        have ha := hinit a (by simp)
        rw [← hsplit.1, hf] at ha
        cases ha
  · have hgoing := h.going hrest f (by simp)
    rw [hf] at hgoing
    cases hgoing

end Tail

/-- The HEADERS frame of a message. -/
def headersFrame (id : UInt32) (body block : Bytes) : Frame :=
  Frame.make .headers (if body.isEmpty then Flags.endHeaders ||| Flags.endStream
    else Flags.endHeaders) id block

theorem dataAny_headersFrame (id : UInt32) (body block : Bytes) :
    dataAny (headersFrame id body block) = 0 := rfl

theorem dataOn_headersFrame (k id : UInt32) (body block : Bytes) :
    dataOn k (headersFrame id body block) = 0 := rfl

theorem ends_headersFrame (id : UInt32) (body block : Bytes) :
    ends (headersFrame id body block) = body.isEmpty := by
  cases body <;> simp [headersFrame, ends, Header.has] <;> decide

/-- A stream as its receiver sees it: the entry of the parser, and the HEADERS
and DATA frames on their way. -/
inductive Phase (id : UInt32) (opened : Prop) (rest : Bytes)
    (entry : Option (Http2Parser.Info M)) : List Frame → Prop
  | unopened (hopened : ¬ opened) (hrest : rest = []) (hentry : entry = none) :
      Phase id opened rest entry []
  | queued {hd : Frame} {datas : List Frame} (hopened : opened) (hentry : entry = none)
      (htype : hd.header.type = .headers) (hflag : hd.header.has Flags.endHeaders = true)
      (hpad : hd.header.has Flags.padded = false)
      (htail : if ends hd then rest = [] ∧ datas = [] else Tail id rest datas) :
      Phase id opened rest entry (hd :: datas)
  | receiving {d : Http2Parser.Info M} {fs : List Frame} (hopened : opened)
      (hentry : entry = some d) (hmessage : d.message.isSome) (hnoBody : d.noBody = false)
      (htail : Tail id rest fs) : Phase id opened rest entry fs
  | finished (hopened : opened) (hrest : rest = []) (hentry : entry = none) :
      Phase id opened rest entry []

namespace Phase
variable {id : UInt32} {opened : Prop} {rest : Bytes} {entry : Option (Http2Parser.Info M)}
variable {fs : List Frame}

theorem chunk {d : Http2Output.Info} {len : ℕ} (h : Phase id opened d.body entry fs)
    (hpos : 0 < len) (hlen : len ≤ d.body.length) :
    Phase id opened (d.body.drop len) entry (fs ++ Output.chunkFrames id d len) := by
  have hne : d.body ≠ [] := by
    intro hnil
    simp [hnil] at hlen
    omega
  cases h with
  | unopened hopened hrest => exact absurd hrest hne
  | @queued hd datas hopened hentry htype hflag hpad htail =>
      by_cases hends : ends hd
      · rw [if_pos hends] at htail
        exact absurd htail.1 hne
      · rw [if_neg hends] at htail
        refine .queued hopened hentry htype hflag hpad ?_
        rw [if_neg hends]
        exact htail.chunk hpos hlen
  | receiving hopened hentry hmessage hnoBody htail =>
      exact .receiving hopened hentry hmessage hnoBody (htail.chunk hpos hlen)
  | finished hopened hrest => exact absurd hrest hne

theorem message (h : Phase id opened rest entry fs) (hnew : ¬ opened) (body block : Bytes) :
    Phase id True body entry (fs ++ [headersFrame id body block]) := by
  cases h with
  | unopened hopened hrest hentry =>
      apply Phase.queued trivial hentry rfl
      · cases body <;> simp [headersFrame, Header.has] <;> decide
      · cases body <;> simp [headersFrame, Header.has] <;> decide
      · rw [ends_headersFrame]
        cases body with
        | nil => simp
        | cons b body => exact Tail.nil (by simp)
  | queued hopened => exact absurd hopened hnew
  | receiving hopened => exact absurd hopened hnew
  | finished hopened => exact absurd hopened hnew

/-- Before its HEADERS frame a stream has no entry. -/
theorem headers {f : Frame} (h : Phase id opened rest entry (f :: fs))
    (hf : f.header.type = .headers) :
    opened ∧ entry = none ∧ f.header.has Flags.endHeaders = true ∧
      f.header.has Flags.padded = false ∧
      if ends f then rest = [] ∧ fs = [] else Tail id rest fs := by
  cases h with
  | queued hopened hentry htype hflag hpad htail => exact ⟨hopened, hentry, hflag, hpad, htail⟩
  | receiving hopened hentry hmessage hnoBody htail =>
      have := (htail.data f (by simp)).1.1
      rw [hf] at this
      cases this

/-- A DATA frame finds the entry of its stream with a message. -/
theorem data {f : Frame} (h : Phase id opened rest entry (f :: fs))
    (hf : f.header.type = .data) :
    opened ∧ (∃ d, entry = some d ∧ d.message.isSome ∧ d.noBody = false) ∧
      Tail id rest (f :: fs) := by
  cases h with
  | queued hopened hentry htype hflag hpad htail =>
      rw [hf] at htype
      cases htype
  | @receiving d _ hopened hentry hmessage hnoBody htail =>
      exact ⟨hopened, ⟨d, hentry, hmessage, hnoBody⟩, htail⟩

end Phase

end Stuff.Http2Streams
