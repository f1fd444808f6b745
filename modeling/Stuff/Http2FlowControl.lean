import Stuff.Http2SenderFlow

/-!
# Flow control between two endpoints

Both endpoints run the same code, so each direction of the connection is a
flow, and the invariant of the network is the invariant of its two flows
together with what is known about the channels and the parsers. Whatever the
interleaving, the counters of the two ends agree up to what is on its way, so
no assertion of `process_data` fails and no counter wraps.
-/
namespace Stuff.Http2FlowControl
open MachineWords Http2Frames Http2Hpack Http2Output Http2Accounts Http2Parser Http2Net
open Exit (Reported reported_done reported_thrown)
open Http2OutputFraming (ends pending)
open CreditWindow Http2Streams Http2Flow Http2SenderFlow EventRuns

variable {N : Nghttp2} {M : Type}

/-- The increments on their way back to a side, for each target. -/
def grants (n : Net N M) (x : Side) (id : UInt32) : ℕ :=
  total (grantOn id) (n.wire x.other) + total (grantOn id) (unsent (n.ends x.other).sender)

/-- The flow that starts at a side is in order. -/
def GoodSide (n : Net N M) (x : Side) : Prop :=
  Good (n.ends x).sender (n.wire x) (n.ends x.other).main (n.ends x.other).exit (grants n x)

/-- A client that waits for the server's SETTINGS frame will read it next. -/
def AtFrame (n : Net N M) (x : Side) : Prop :=
  (n.ends x).main.stage = .header ∨ (n.ends x).main.stage = .clientWait ∧
    ∃ rest, n.wire x.other = createSettings false :: rest

structure Agreeing (n : Net N M) : Prop where
  good : ∀ x, GoodSide n x
  carried : ∀ x, ∀ f ∈ n.wire x, IsMessage f ∨ IsControl f
  atFrame : ∀ x, (n.ends x).exit = .done → AtFrame n x
  reported : ∀ x, Reported (n.ends x).exit

theorem Side.forall_iff {P : Side → Prop} (x : Side) : (∀ y, P y) ↔ P x ∧ P x.other := by
  constructor
  · exact fun h => ⟨h x, h x.other⟩
  · rintro ⟨hx, hy⟩ z
    rcases x.eq_or_eq_other z with rfl | rfl
    · exact hx
    · exact hy

theorem good_start (m : Main N M) (hinfo : m.info = {}) (hbudget : m.budget = defaultWindowSize) :
    Good (Sender.start : Sender N) [createSettings false] m .done (fun _ => 0) := by
  constructor
  · constructor
    · exact ⟨by simp [Flow.opened, flowOf, Sender.start], by simp [flowOf, Sender.start]⟩
    · simp only [flowOf, hbudget]
      exact Account.start (by omega)
    · intro k hk
      refine .unopened ?_ ?_ rfl rfl ?_
      · simp [Flow.opened, flowOf, Sender.start]
      · simp [flowOf, Sender.start]
      · simp [flowOf, hinfo]
    · intro _ k
      refine .unopened ?_ ?_ ?_
      · simp [Flow.opened, flowOf, Sender.start]
      · simp [flowOf, Sender.start]
      · simp [flowOf, hinfo]
  · exact ⟨by simp [Sender.start], by simp [Sender.start], by simp [Sender.start],
      by simp [Sender.start]⟩

theorem agreeing_start (A : Messages M) (debug : Bool) :
    Agreeing (Net.start A debug : Net N M) := by
  constructor
  · intro x
    cases x with
    | client => exact good_start _ rfl rfl
    | server => exact good_start _ rfl rfl
  · intro x f hf
    simp only [Net.start, List.mem_singleton] at hf
    exact .inr (.inr ⟨false, hf⟩)
  · intro x _
    cases x with
    | client => exact .inr ⟨rfl, [], rfl⟩
    | server => exact .inl rfl
  · intro x
    cases x <;> exact reported_done

/-! ## Steps of one side alone -/

section Acts
variable {n : Net N M} (x : Side) (e : Sender.Event)

@[simp] theorem act_self : (n.act x e).ends x =
    { n.ends x with sender := (n.ends x).sender.step e } := by
  simp [Net.act]

@[simp] theorem act_other : (n.act x e).ends x.other = n.ends x.other := by
  simp [Net.act]

@[simp] theorem act_wire : (n.act x e).wire = n.wire := rfl

theorem Agreeing.act (h : Agreeing n)
    (hgood : Good ((n.ends x).sender.step e) (n.wire x) (n.ends x.other).main
      (n.ends x.other).exit (grants n x))
    (hunsent : unsent ((n.ends x).sender.step e) = unsent (n.ends x).sender) :
    Agreeing (n.act x e) := by
  constructor
  · rw [Side.forall_iff x]
    constructor
    · have hgrants : grants (n.act x e) x = grants n x := by
        funext k
        simp only [grants, act_other, act_wire]
      simp only [GoodSide, act_self, act_other, act_wire, hgrants]
      exact hgood
    · have hgrants : grants (n.act x e) x.other = grants n x.other := by
        funext k
        simp only [grants, Side.other_other, act_self, act_wire, hunsent]
      have hother := h.good x.other
      simp only [GoodSide, Side.other_other, act_self, act_other, act_wire, hgrants] at hother ⊢
      exact hother
  · exact h.carried
  · have hframe := h.atFrame
    rw [Side.forall_iff x] at hframe ⊢
    simpa only [AtFrame, Side.other_other, act_self, act_other, act_wire] using hframe
  · have hreported := h.reported
    rw [Side.forall_iff x] at hreported ⊢
    simpa only [act_self, act_other] using hreported

theorem Agreeing.resume (h : Agreeing n) : Agreeing (n.resume x) := by
  obtain ⟨hgood, hsum, hcarried⟩ := (h.good x).resume
  have hself : (n.resume x).ends x =
      { n.ends x with sender := (n.ends x).sender.resume.1 } := act_self x .resume
  have hother : (n.resume x).ends x.other = n.ends x.other := act_other x .resume
  have hwire : (n.resume x).wire x = n.wire x ++ (n.ends x).sender.resume.2 := by
    simp [Net.resume]
  have hwire' : (n.resume x).wire x.other = n.wire x.other := by
    simp [Net.resume]
  constructor
  · rw [Side.forall_iff x]
    constructor
    · have hgrants : grants (n.resume x) x = grants n x := by
        funext k
        simp only [grants, hother, hwire']
      simp only [GoodSide, hself, hother, hwire, hgrants]
      exact hgood
    · have hgrants : grants (n.resume x) x.other = grants n x.other := by
        funext k
        have := hsum k
        simp only [grants, Side.other_other, hself, hwire, total_append]
        omega
      have hgood' := h.good x.other
      simp only [GoodSide, Side.other_other, hself, hother, hwire', hgrants] at hgood' ⊢
      exact hgood'
  · have hcarried' := h.carried
    rw [Side.forall_iff x] at hcarried' ⊢
    rw [hwire, hwire']
    refine ⟨?_, hcarried'.2⟩
    intro f hf
    rcases List.mem_append.mp hf with hf | hf
    · exact hcarried'.1 f hf
    · exact hcarried f hf
  · have hframe := h.atFrame
    rw [Side.forall_iff x] at hframe ⊢
    simp only [AtFrame, Side.other_other, hself, hother, hwire, hwire'] at hframe ⊢
    refine ⟨hframe.1, ?_⟩
    intro hexit
    rcases hframe.2 hexit with hstage | ⟨hstage, rest, hrest⟩
    · exact .inl hstage
    · exact .inr ⟨hstage, rest ++ (n.ends x).sender.resume.2, by rw [hrest, List.cons_append]⟩
  · have hreported := h.reported
    rw [Side.forall_iff x] at hreported ⊢
    simpa only [hself, hother] using hreported

end Acts

/-! ## Deliveries -/

/-- What a delivered frame leaves behind at its receiver, for the flow it
belongs to and for the flow back. -/
structure Delivered (n : Net N M) (x : Side) (f : Frame) (rest : List Frame)
    (e : Endpoint N M) : Prop where
  back : ∀ g : UInt32 → ℕ, (∀ k, grants n x k = grantOn k f + g k) →
    Good e.sender (n.wire x) (n.ends x.other).main (n.ends x.other).exit g
  forth : Good (n.ends x.other).sender rest e.main e.exit
    (fun k => total (grantOn k) (n.wire x) + total (grantOn k) (unsent e.sender))
  stage : e.exit = .done → e.main.stage = .header
  reported : Reported e.exit

section Deliver
variable {n : Net N M} {x : Side} {f : Frame} {rest : List Frame}

theorem Agreeing.ready (h : Agreeing n) (hwire : n.wire x.other = f :: rest)
    (hexit : (n.ends x).exit = .done) : (n.ends x).Ready f := by
  refine ⟨hexit, ?_⟩
  rcases h.atFrame x hexit with hstage | ⟨hstage, rest', hrest⟩
  · exact .inl hstage
  · rw [hwire, List.cons.injEq] at hrest
    refine .inr ⟨hstage, ?_⟩
    rw [hrest.1]
    rfl

/-- The flow towards a side, seen from there. -/
theorem Agreeing.towards (h : Agreeing n) (hwire : n.wire x.other = f :: rest)
    (hexit : (n.ends x).exit = .done) :
    Good (n.ends x.other).sender (f :: rest) (n.ends x).main .done (grants n x.other) := by
  have hgood := h.good x.other
  simp only [GoodSide, Side.other_other, hwire, hexit] at hgood
  exact hgood

theorem grants_towards (n : Net N M) (x : Side) :
    grants n x.other =
      fun k => total (grantOn k) (n.wire x) + total (grantOn k) (unsent (n.ends x).sender) := by
  funext k
  simp only [grants, Side.other_other]

theorem delivered_windowUpdate (A : Messages M) (debug : Bool) (h : Agreeing n) {id : UInt32}
    (hwire : n.wire x.other = windowUpdateFrame id :: rest) (hexit : (n.ends x).exit = .done) :
    Delivered n x (windowUpdateFrame id) rest
      ((n.ends x).receive A debug (windowUpdateFrame id)) := by
  rw [Endpoint.receive_windowUpdate A debug (h.ready hwire hexit)]
  have htowards := h.towards hwire hexit
  rw [grants_towards] at htowards
  have hcredit {g : UInt32 → ℕ} (hg : ∀ k, grants n x k = (if id = k then 65535 else 0) + g k) :=
    Good.windowUpdate (h.good x) id hg
  constructor
  · intro g hg
    simp only [grantOn_windowUpdate] at hg
    exact (hcredit hg).1
  · have hunsent : unsent ((n.ends x).sender.step (.windowUpdate id defaultWindowSize)) =
        unsent (n.ends x).sender := by
      refine (hcredit (g := fun k => grants n x k - if id = k then 65535 else 0) ?_).2
      intro k
      have hle : (if id = k then 65535 else 0) ≤ grants n x k := by
        rw [grants, hwire, total_cons, grantOn_windowUpdate]
        omega
      omega
    rw [hunsent]
    exact htowards.popControl (.inl ⟨id, rfl⟩) rfl rfl
  · intro _
    rfl
  · exact reported_done

theorem delivered_settings (A : Messages M) (debug : Bool) (h : Agreeing n) {ack : Bool}
    (hwire : n.wire x.other = createSettings ack :: rest) (hexit : (n.ends x).exit = .done) :
    Delivered n x (createSettings ack) rest ((n.ends x).receive A debug (createSettings ack)) := by
  rw [Endpoint.receive_settings A debug (h.ready hwire hexit)]
  have htowards := h.towards hwire hexit
  rw [grants_towards] at htowards
  have hreply : IsControl (createSettings true) := .inr ⟨true, rfl⟩
  have hsend := Good.send (h.good x) hreply
  constructor
  · intro g hg
    have hsame : grants n x = g := by
      funext k
      rw [hg k, grantOn_settings, Nat.zero_add]
    rw [← hsame]
    cases ack with
    | true => exact h.good x
    | false => exact hsend.1
  · have hsum (k : UInt32) : total (grantOn k) (unsent (if ack = true then (n.ends x).sender
        else (n.ends x).sender.step (.send (createSettings true)))) =
        total (grantOn k) (unsent (n.ends x).sender) := by
      cases ack with
      | true => rfl
      | false =>
          simp only [Bool.false_eq_true, if_false, hsend.2, total_append, total_cons,
            grantOn_settings, total_nil, Nat.add_zero]
    simp only [hsum]
    exact htowards.popControl (.inr ⟨ack, rfl⟩) rfl rfl
  · intro _
    rfl
  · exact reported_done

theorem foldl_call_headers (A : Messages M) (m : Main N M) (s : Sender N) :
    (m.processHeaders A).calls.foldl Endpoint.call s = s := by
  have hcreated {id : UInt32} {created : List (ApiCall M)}
      (h : ∀ c ∈ created, c = .newMessage id) : created.foldl Endpoint.call s = s := by
    induction created with
    | nil => rfl
    | cons c created ih =>
        have hc := h c (by simp)
        subst hc
        exact ih (fun c hc => h c (by simp [hc]))
  by_cases hid : m.header.stream = 0
  · simp [Main.processHeaders, hid, Main.throws]
  · cases m.processHeaders_result A hid with
    | kept hnew hcalls => rw [hcalls, hcreated hnew]
    | pushed hnew hcalls =>
        rw [hcalls, List.foldl_append, hcreated hnew]
        rfl

/-- A header block without padding is decompressed or refused. -/
theorem headers_reported (A : Messages M) {m : Main N M} (hpad : m.header.has Flags.padded = false)
    (hlen : m.body.length < 2 ^ 24) : Reported (m.processHeaders A).exit := by
  rw [Main.processHeaders_reported_iff A m hlen]
  rintro - ⟨hfits, hover⟩
  simp only [padLength, hpad, Bool.false_eq_true, if_false] at hover
  omega

theorem delivered_headers (A : Messages M) (debug : Bool) (h : Agreeing n)
    (hwire : n.wire x.other = f :: rest) (hexit : (n.ends x).exit = .done)
    (htype : f.header.type = .headers) :
    Delivered n x f rest ((n.ends x).receive A debug f) := by
  have hready := h.ready hwire hexit
  have htowards := h.towards hwire hexit
  rw [grants_towards] at htowards
  have hsame {g : UInt32 → ℕ} (hg : ∀ k, grants n x k = grantOn k f + g k) : grants n x = g := by
    funext k
    rw [hg k, grantOn_message k (.inl htype), Nat.zero_add]
  by_cases hsized : Sized f
  · have hpacket : ((n.ends x).loaded f).processPacket A debug =
        ((n.ends x).loaded f).processHeaders A := by
      simp only [Main.processPacket, Endpoint.loaded_header, htype]
    rw [Endpoint.receive_eq A debug hready hsized]
    simp only [hpacket, foldl_call_headers]
    constructor
    · intro g hg
      rw [← hsame hg]
      exact h.good x
    · have hinv := htowards.inv.headers rfl rfl htype A (m := (n.ends x).loaded f) rfl rfl rfl
      refine ⟨hinv.congr rfl rfl rfl ?_ ?_ (fun he => he) rfl rfl (fun _ => rfl)
        (fun _ _ => rfl), htowards.queues⟩ <;> simp only [flowOf] <;> split_ifs <;> rfl
    · intro hdone
      dsimp only at hdone ⊢
      rw [if_pos hdone]
    · have hphase := htowards.inv.phase rfl f.stream
      simp only [flowOf, List.cons_append] at hphase
      rw [Flow.Inv.inbound_head (.inl htype)] at hphase
      obtain ⟨-, -, -, hpad, -⟩ := hphase.headers htype
      refine headers_reported A hpad ?_
      rw [Endpoint.loaded_body, hsized]
      exact f.header.size.isLt
  · rw [Endpoint.receive_unsized A debug hready hsized]
    constructor
    · intro g hg
      rw [← hsame hg]
      exact h.good x
    · refine htowards.pop ?_ ?_ (by simp) rfl rfl
      · rw [dataAny, if_neg (by simp [htype])]
      · intro k
        rw [dataOn, if_neg (by simp [htype])]
    · intro hdone
      cases hdone
    · exact reported_thrown _

/-- A top-up is one more update in the priority queue, or nothing. -/
theorem Good.topUp {s : Sender N} {wire : List Frame} {m : Main N M} {exit : Exit}
    {g : UInt32 → ℕ} (h : Good s wire m exit g) (id : UInt32) {current : UInt32} {len : ℕ}
    (hlen : len ≤ current.toNat) :
    Good ((Main.topUp id (current - UInt32.ofNat len) true).1.foldl
      (Endpoint.call (M := M)) s) wire m exit g ∧
    ∀ k, total (grantOn k) (unsent ((Main.topUp id (current - UInt32.ofNat len) true).1.foldl
      (Endpoint.call (M := M)) s)) =
      total (grantOn k) (unsent s) + if id = k then granted 65535 (current.toNat - len) else 0 := by
  rw [Main.topUp_calls id hlen]
  by_cases hlow : Main.Low current len
  · have hsend := h.send (f := windowUpdateFrame id) (.inl ⟨id, rfl⟩)
    have hdue : granted 65535 (current.toNat - len) = 65535 := if_pos hlow
    simp only [hlow, and_self, if_true, List.foldl_cons, List.foldl_nil, Endpoint.call, hdue]
    refine ⟨hsend.1, ?_⟩
    intro k
    rw [hsend.2, total_append, total_cons, total_nil, grantOn_windowUpdate, Nat.add_zero]
  · have hdue : granted 65535 (current.toNat - len) = 0 := if_neg hlow
    simpa [hlow, hdue] using h

/-- The updates that `process_data` sends for a frame. -/
theorem Good.account {s : Sender N} {wire : List Frame} {m : Main N M} {exit : Exit}
    {g : UInt32 → ℕ} (h : Good s wire m exit g) (F : Flow N M) {e : Endpoint N M}
    (hmain : F.main = e.main) {d : Http2Parser.Info M} (hid : f.stream ≠ 0)
    (hb : f.payload.length ≤ e.main.budget.toNat) (hw : f.payload.length ≤ d.budget.toNat)
    (y : M) :
    Good (((e.loaded f).account f.stream d y).calls.foldl Endpoint.call s) wire m exit g ∧
    ∀ k, total (grantOn k)
      (unsent (((e.loaded f).account f.stream d y).calls.foldl Endpoint.call s)) =
      total (grantOn k) (unsent s) + Flow.Inv.due F f d k := by
  obtain ⟨hgood, hsum⟩ := Good.topUp h 0 hb
  obtain ⟨hgood', hsum'⟩ := Good.topUp hgood f.stream hw
  have hends : (e.loaded f).header.has Flags.endStream = ends f := rfl
  rw [Main.account_calls, List.foldl_append, hends]
  cases hends' : ends f with
  | true =>
      refine ⟨hgood, ?_⟩
      intro k
      refine (hsum k).trans ?_
      simp only [Flow.Inv.due, hends', hmain]
      by_cases hk : k = 0
      · simp [hk]
      · simp [hk, Ne.symm hk]
  | false =>
      refine ⟨hgood', ?_⟩
      intro k
      refine (hsum' k).trans ?_
      rw [hsum k]
      simp only [Flow.Inv.due, hends', hmain]
      by_cases hk : k = 0
      · simp [hk, hid]
      · by_cases hik : f.stream = k <;> simp [hk, Ne.symm hk, hik]

theorem delivered_data (A : Messages M) (debug : Bool) (h : Agreeing n)
    (hwire : n.wire x.other = f :: rest) (hexit : (n.ends x).exit = .done)
    (htype : f.header.type = .data) :
    Delivered n x f rest ((n.ends x).receive A debug f) := by
  have htowards := h.towards hwire hexit
  obtain ⟨hid, hsized, -, hb, d, y, hd, hy, -, hw⟩ := htowards.inv.data_fits rfl rfl htype
  have hpacket : ((n.ends x).loaded f).processPacket A debug =
      ((n.ends x).loaded f).account f.stream d (A.appendBody y f.payload) := by
    simp only [Main.processPacket, Endpoint.loaded_header, htype]
    exact Main.processData_eq A debug _ hid hd hy hb hw
  have hinv := htowards.inv.data rfl rfl htype (m := (n.ends x).loaded f) rfl rfl rfl rfl hd
    (A.appendBody y f.payload)
  rw [Endpoint.receive_eq A debug (h.ready hwire hexit) hsized]
  simp only [hpacket, Main.account_exit, if_true]
  obtain ⟨hgood, hsum⟩ := Good.account (h.good x) (flowOf (n.ends x.other).sender (f :: rest)
    (n.ends x).main .done (grants n x.other)) rfl hid hb hw (A.appendBody y f.payload)
  constructor
  · intro g hg
    have hsame : grants n x = g := by
      funext k
      rw [hg k, grantOn_message k (.inr htype), Nat.zero_add]
    rw [← hsame]
    exact hgood
  · refine ⟨?_, htowards.queues⟩
    refine hinv.congr rfl rfl rfl rfl rfl (fun he => he) ?_ rfl (fun _ => rfl) (fun _ _ => rfl)
    funext k
    have hk := hsum k
    simp only [flowOf, grants_towards] at hk ⊢
    omega
  · intro _
    rfl
  · exact reported_done

theorem Agreeing.delivered (A : Messages M) (debug : Bool) (h : Agreeing n)
    (hwire : n.wire x.other = f :: rest) (hexit : (n.ends x).exit = .done) :
    Delivered n x f rest ((n.ends x).receive A debug f) := by
  have hmem : f ∈ n.wire x.other := by rw [hwire]; simp
  rcases h.carried x.other f hmem with (htype | htype) | ⟨id, rfl⟩ | ⟨ack, rfl⟩
  · exact delivered_headers A debug h hwire hexit htype
  · exact delivered_data A debug h hwire hexit htype
  · exact delivered_windowUpdate A debug h hwire hexit
  · exact delivered_settings A debug h hwire hexit

theorem Agreeing.deliver (A : Messages M) (debug : Bool) (h : Agreeing n) (x : Side) :
    Agreeing (n.deliver A debug x) := by
  unfold Net.deliver
  cases hwire : n.wire x.other with
  | nil => exact h
  | cons f rest =>
      dsimp only
      by_cases hexit : (n.ends x).exit = .done
      swap
      · rw [if_neg hexit]
        exact h
      rw [if_pos hexit]
      obtain ⟨hback, hforth, hstage, hreported⟩ := h.delivered A debug hwire hexit
      constructor
      · rw [Side.forall_iff x]
        constructor
        · simp only [GoodSide, Function.update_self, Function.update_of_ne (Side.other_ne x),
            Function.update_of_ne (Side.ne_other x)]
          apply hback
          intro k
          simp only [grants, Function.update_self, Function.update_of_ne (Side.other_ne x), hwire,
            total_cons]
          omega
        · simp only [GoodSide, Side.other_other, Function.update_self,
            Function.update_of_ne (Side.other_ne x)]
          have hgrants : grants { ends := Function.update n.ends x ((n.ends x).receive A debug f)
                                  wire := Function.update n.wire x.other rest } x.other =
              fun k => total (grantOn k) (n.wire x) +
                total (grantOn k) (unsent ((n.ends x).receive A debug f).sender) := by
            funext k
            simp only [grants, Side.other_other, Function.update_self,
              Function.update_of_ne (Side.ne_other x)]
          rw [hgrants]
          exact hforth
      · have hcarried := h.carried
        rw [Side.forall_iff x] at hcarried ⊢
        rw [hwire] at hcarried
        simp only [Function.update_self, Function.update_of_ne (Side.ne_other x)]
        exact ⟨hcarried.1, fun g hg => hcarried.2 g (by simp [hg])⟩
      · have hframe := h.atFrame
        rw [Side.forall_iff x] at hframe ⊢
        simp only [AtFrame, Side.other_other, Function.update_self,
          Function.update_of_ne (Side.ne_other x), Function.update_of_ne (Side.other_ne x)]
          at hframe ⊢
        exact ⟨fun hdone => .inl (hstage hdone), hframe.2⟩
      · have hold := h.reported
        rw [Side.forall_iff x] at hold ⊢
        simp only [Function.update_self, Function.update_of_ne (Side.other_ne x)]
        exact ⟨hreported, hold.2⟩

end Deliver

theorem Agreeing.step (A : Messages M) (debug : Bool) {n : Net N M} (h : Agreeing n)
    {e : Side × Event} (he : Net.Fresh n e) : Agreeing (n.step A debug e) := by
  obtain ⟨x, e⟩ := e
  cases e with
  | response id r =>
      have hnoted := Good.noted (h.good x) he.1 he.2 r.body
        (deflateResponse (n.ends x).sender.output.deflater r)
      exact h.act x (.response id r) hnoted.1 hnoted.2
  | request id r =>
      have hnoted := Good.noted (h.good x) he.1 he.2 r.body
        (deflateRequest (n.ends x).sender.output.deflater r)
      exact h.act x (.request id r) hnoted.1 hnoted.2
  | flush =>
      obtain ⟨hgood, hqueue⟩ := Good.flush (h.good x)
      refine h.act x .flush hgood ?_
      simp only [unsent, Sender.step, hqueue]
  | resume => exact h.resume x
  | deliver => exact h.deliver A debug x

/-- What every schedule preserves. -/
theorem agreeing_run (A : Messages M) (debug : Bool) {es : List (Side × Event)}
    (h : Meets (Net.step A debug) Net.Fresh (Net.start A debug : Net N M) es) :
    Agreeing (run (Net.step A debug) (Net.start A debug : Net N M) es) :=
  run_invariant (fun _ _ hn he => hn.step A debug he) (agreeing_start A debug) h

/-! ## The agreement -/

/-- The DATA payload queued or in transit from a side. -/
def bytesAny (n : Net N M) (x : Side) : ℕ :=
  total dataAny (n.wire x) + total dataAny (unwritten (n.ends x).sender)

/-- The same for one stream. -/
def bytesOn (n : Net N M) (x : Side) (id : UInt32) : ℕ :=
  total (dataOn id) (n.wire x) + total (dataOn id) (unwritten (n.ends x).sender)

/-- The two ends of the direction that starts at `x`: their counters agree,
none is near the limits of its type, the next DATA frame satisfies the
assertions of `process_data`, and no addition of an increment wraps. -/
structure Agreement (n : Net N M) (x : Side) : Prop where
  connection : (n.ends x.other).main.budget.toNat =
    (n.ends x).sender.output.budget.toNat + bytesAny n x + grants n x 0
  stream : ∀ id, pending (n.ends x).sender.output id ≠ [] →
    counterOf (n.ends x.other).main.info[id]? =
      windowOf (n.ends x).sender.output.info[id]? + bytesOn n x id + grants n x id
  bounded : (n.ends x).sender.output.budget.toNat < 2 * 65535 ∧
    (n.ends x.other).main.budget.toNat < 2 * 65535 ∧ ∀ id : UInt32, id ≠ 0 →
      windowOf (n.ends x).sender.output.info[id]? < 3 * 65535 ∧
      counterOf (n.ends x.other).main.info[id]? < 2 * 65535
  data : ∀ f rest, n.wire x = f :: rest → (n.ends x.other).exit = .done →
    f.header.type = .data → f.payload.length ≤ (n.ends x.other).main.budget.toNat ∧
      ∃ d, (n.ends x.other).main.info[f.stream]? = some d ∧ d.message.isSome ∧
        f.payload.length ≤ d.budget.toNat
  update : ∀ f ∈ n.wire x.other, f.header.type = .windowUpdate →
    (if f.stream = 0 then (n.ends x).sender.output.budget.toNat
      else windowOf (n.ends x).sender.output.info[f.stream]?) + increment f < 2 ^ 32
  exit : Reported (n.ends x.other).exit

theorem grantOn_le_grants {n : Net N M} {x : Side} {f : Frame} (hf : f ∈ n.wire x.other)
    (htype : f.header.type = .windowUpdate) : increment f ≤ grants n x f.stream := by
  have hle : grantOn f.stream f ≤ total (grantOn f.stream) (n.wire x.other) :=
    le_total (grantOn f.stream) hf
  rw [grantOn, if_pos ⟨htype, rfl⟩] at hle
  unfold grants
  omega

theorem Agreeing.agreement {n : Net N M} (h : Agreeing n) (x : Side) : Agreement n x := by
  have hinv := (h.good x).inv
  have hconnection := hinv.connection
  simp only [flowOf, total_append] at hconnection
  have hledger (k : UInt32) (hk : k ≠ 0) := hinv.ledger k hk
  simp only [flowOf, total_append] at hledger
  constructor
  · have := hconnection.sum
    unfold bytesAny
    omega
  · intro k hk
    have hk₀ : k ≠ 0 := by
      rintro rfl
      exact hk (Http2OutputFraming.pending_of_none hinv.zero.2)
    have hbody : bodyOf (n.ends x).sender.output.info[k]? ≠ [] := by
      rwa [pending, Std.TreeMap.getD_eq_getD_getElem?] at hk
    cases hledger k hk₀ with
    | unopened _ hentry =>
        rw [hentry] at hbody
        exact absurd rfl hbody
    | sending _ _ hacc =>
        have := hacc.sum
        unfold bytesOn
        omega
    | sent _ hnil => exact absurd hnil hbody
    | finished _ hnil => exact absurd hnil hbody
  · have hlt := hconnection.credit_lt
    refine ⟨by omega, hconnection.high, ?_⟩
    intro k hk
    have hcredit := (hledger k hk).credit_lt
    exact ⟨by omega, (hledger k hk).counter_lt⟩
  · intro f rest hwire hexit htype
    have htransit : n.wire x ++ unwritten (n.ends x).sender =
        f :: (rest ++ unwritten (n.ends x).sender) := by
      rw [hwire, List.cons_append]
    have hfits := hinv.data_fits hexit htransit htype
    obtain ⟨-, -, -, hb, d, y, hd, hy, -, hw⟩ := hfits
    exact ⟨hb, d, hd, by rw [hy]; rfl, hw⟩
  · intro f hf htype
    have hle := grantOn_le_grants hf htype
    split_ifs with hzero
    · have hlt := hconnection.credit_lt
      rw [hzero] at hle
      omega
    · have hcredit := (hledger f.stream hzero).credit_lt
      omega
  · exact h.reported x.other

/-- For every interleaving of messages, flushes, writes and deliveries, the
counters of the two ends of either direction agree up to the DATA payload and
the increments on their way. -/
theorem counters_agree (A : Messages M) (debug : Bool) (es : List (Side × Event))
    (h : Meets (Net.step A debug) Net.Fresh (Net.start A debug : Net N M) es) (x : Side) :
    Agreement (run (Net.step A debug) (Net.start A debug : Net N M) es) x :=
  (agreeing_run A debug h).agreement x

/-- The server responds with one byte; the client has read it and its window
updates wait to be written. -/
def updateWaiting : List (Side × Event) :=
  [(.server, .response 1 { resultInt := 200, body := [7] }), (.server, .resume),
    (.server, .resume), (.server, .resume), (.client, .deliver), (.client, .deliver),
    (.client, .deliver)]

theorem counters_agree_sample :
    Meets (Net.step keptMessages true) Net.Fresh
      (Net.start keptMessages true : Net staticNghttp2 _) updateWaiting ∧
    Agreement (run (Net.step keptMessages true)
      (Net.start keptMessages true : Net staticNghttp2 _) updateWaiting) .server :=
  have h : Meets (Net.step keptMessages true) Net.Fresh
      (Net.start keptMessages true : Net staticNghttp2 _) updateWaiting := by decide
  ⟨h, counters_agree keptMessages true updateWaiting h .server⟩

/-- The increments on their way count on the side of the sender: here the
client's counter is not the server's window plus the data on its way minus
them. -/
theorem increments_not_subtracted :
    Meets (Net.step keptMessages true) Net.Fresh
      (Net.start keptMessages true : Net staticNghttp2 _) updateWaiting ∧
    let n := run (Net.step keptMessages true)
      (Net.start keptMessages true : Net staticNghttp2 _) updateWaiting
    ((n.ends .client).main.budget.toNat : ℤ) ≠
      (n.ends .server).sender.output.budget.toNat + bytesAny n .server - grants n .server 0 := by
  decide

end Stuff.Http2FlowControl
