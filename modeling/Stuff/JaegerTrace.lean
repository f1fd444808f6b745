import Stuff.ByteOrder
import Stuff.EventRuns
import Stuff.ParserSimple
import Stuff.TextEscapes

/-!
# Traces over several processes

`Jaeger::Span` is the handle of a record in the `Store` of its trace. A child of a span has
its record in the same store; a remote process gets the `traceparent` of a span in a header
and has a store of its own. A store is sent to the queue of its process when the last of its
spans is gone. The records of a store are kept with the spans here, in their order.
-/
namespace Stuff.JaegerTrace
open MachineWords Loops ByteOrder TextEscapes ParserSimple Splitting EventRuns

/-! ## The header -/

structure Params where
  traceIdHigh : UInt64 := 0
  traceIdLow : UInt64 := 0
  parentId : UInt64 := 0
deriving DecidableEq, Repr

/-- The memory of `htobe64(x)`. -/
def htobe64 (x : UInt64) : Bytes := bigEndian 8 x.toNat

/-- `be64toh` of a number with this memory. -/
def be64toh (bs : Bytes) : UInt64 := UInt64.ofNat (ofBigEndian bs)

def dash : UInt8 := 0x2d

/-- `std::invalid_argument("Jaeger::Params: version not supported")`. -/
def badVersion : Bytes := ascii "Jaeger::Params: version not supported"

/-- `std::out_of_range` of `substr`. -/
def badSubstr : Bytes := ascii "basic_string_view::substr"

/-- `Parser::from_hex<uint64_t>`, and `be64toh` behind it. -/
def fromHex64 (x : Bytes) (turns : ℕ) : Option (Except Bytes UInt64) :=
  match fromHex x turns with
  | none => none
  | some (.error what) => some (.error what)
  | some (.ok sTmp) =>
      if sTmp.length ≠ 8 then some (.error badLength) else some (.ok (be64toh sTmp))

namespace Params

def traceparent (p : Params) : Bytes :=
  ascii "00-" ++ toHex (htobe64 p.traceIdHigh) ++ toHex (htobe64 p.traceIdLow) ++
    [dash] ++ toHex (htobe64 p.parentId) ++ [dash] ++ ascii "00"

def binaryTraceId (p : Params) : Bytes := htobe64 p.traceIdHigh ++ htobe64 p.traceIdLow

/-- What `parse` does with one part of the text; `sSerial` counts the parts. -/
def parsePart (turns sSerial : ℕ) (sNew : Params) (aParam : Bytes) :
    Option (Except Bytes Params) :=
  match sSerial with
  | 1 => some (if aParam ≠ ascii "00" then .error badVersion else .ok sNew)
  | 2 =>
      match fromHex64 (aParam.take 16) turns with
      | none => none
      | some (.error what) => some (.error what)
      | some (.ok high) =>
          if aParam.length < 16 then some (.error badSubstr)
          else
            match fromHex64 (aParam.drop 16) turns with
            | none => none
            | some (.error what) => some (.error what)
            | some (.ok low) => some (.ok { sNew with traceIdHigh := high, traceIdLow := low })
  | 3 =>
      match fromHex64 aParam turns with
      | none => none
      | some (.error what) => some (.error what)
      | some (.ok parent) => some (.ok { sNew with parentId := parent })
  | _ => some (.ok sNew)

def parseParts (turns : ℕ) : ℕ → Params → List Bytes → Option (Except Bytes Params)
  | _, sNew, [] => some (.ok sNew)
  | sSerial, sNew, aParam :: rest =>
      match parsePart turns (sSerial + 1) sNew aParam with
      | none => none
      | some (.error what) => some (.error what)
      | some (.ok sNew') => parseParts turns (sSerial + 1) sNew' rest

def parse (aParent : Bytes) (turns : ℕ) : Option (Except Bytes Params) :=
  parseParts turns 0 {} ((simple { pos := 0, text := aParent } dash).map View.text)

end Params

@[simp] theorem length_htobe64 (x : UInt64) : (htobe64 x).length = 8 := length_bigEndian _ _

theorem be64toh_htobe64 (x : UInt64) : be64toh (htobe64 x) = x := by
  rw [be64toh, htobe64, ofBigEndian_bigEndian x.toNat_lt, UInt64.ofNat_toNat]

theorem fromHex64_toHex (x : UInt64) {turns : ℕ} (hturns : 8 < turns) :
    fromHex64 (toHex (htobe64 x)) turns = some (.ok x) := by
  have hlen := length_htobe64 x
  rw [fromHex64, fromHex_toHex (by omega) (by omega)]
  dsimp only
  rw [if_neg (by simp), be64toh_htobe64]

theorem dash_notMem_toHex (s : Bytes) : dash ∉ toHex s := by
  have hdigits (n : ℕ) (hn : n < 16) : sDict.getD n 0 ≠ dash := by
    revert hn n
    decide
  intro hmem
  obtain ⟨i, -, hi⟩ := List.mem_flatMap.mp hmem
  have hlt := i.toNat_lt
  rw [digits, List.mem_cons, List.mem_singleton] at hi
  rcases hi with hi | hi
  · exact hdigits _ (by rw [toNat_high]; omega) hi.symm
  · exact hdigits _ (by rw [toNat_low]; omega) hi.symm

/-- The header comes back as what it was made of. -/
theorem parse_traceparent (p : Params) {turns : ℕ} (hturns : 8 < turns) :
    Params.parse p.traceparent turns = some (.ok p) := by
  have hshape : p.traceparent = ascii "00" ++ dash ::
      ((toHex (htobe64 p.traceIdHigh) ++ toHex (htobe64 p.traceIdLow)) ++ dash ::
        (toHex (htobe64 p.parentId) ++ dash :: ascii "00")) := by
    simp [Params.traceparent, ascii, dash]
  have hid : dash ∉ toHex (htobe64 p.traceIdHigh) ++ toHex (htobe64 p.traceIdLow) := by
    rw [List.mem_append, not_or]
    exact ⟨dash_notMem_toHex _, dash_notMem_toHex _⟩
  have hzero : dash ∉ ascii "00" := by decide
  have hlen : (toHex (htobe64 p.traceIdHigh)).length = 16 := by
    rw [length_toHex, length_htobe64]
  have htake : (toHex (htobe64 p.traceIdHigh) ++ toHex (htobe64 p.traceIdLow)).take 16 =
      toHex (htobe64 p.traceIdHigh) := by
    rw [← hlen, List.take_left]
  have hdrop : (toHex (htobe64 p.traceIdHigh) ++ toHex (htobe64 p.traceIdLow)).drop 16 =
      toHex (htobe64 p.traceIdLow) := by
    rw [← hlen, List.drop_left]
  have hparts : (simple { pos := 0, text := p.traceparent } dash).map View.text =
      [ascii "00", toHex (htobe64 p.traceIdHigh) ++ toHex (htobe64 p.traceIdLow),
        toHex (htobe64 p.parentId), ascii "00"] := by
    rw [texts_simple, hshape, parts_append_cons hzero, parts_append_cons hid,
      parts_append_cons (dash_notMem_toHex _), parts_of_notMem hzero (by decide)]
  have hsecond :
      ¬ (toHex (htobe64 p.traceIdHigh) ++ toHex (htobe64 p.traceIdLow)).length < 16 := by
    rw [List.length_append, hlen]
    omega
  rw [Params.parse, hparts]
  simp only [Params.parseParts, Params.parsePart, Nat.zero_add, Nat.reduceAdd, ne_eq,
    not_true_eq_false, if_false, htake, hdrop, fromHex64_toHex _ hturns, hsecond]

/-! ## Spans -/

/-- The fields of `trace::Span` that are set when a span starts, fails and ends. -/
structure Record where
  name : Bytes
  traceId : Bytes
  spanId : Bytes
  parentSpanId : Option Bytes
  start : UInt64
  endTime : Option UInt64 := none
  status : Option Bytes := none
deriving DecidableEq, Repr

/-- A span with its record in the store; `held` as long as the object is not destroyed. The
last field is history: the span it was started from. -/
structure Span where
  store : ℕ
  spanId : UInt64
  xCount : ℕ
  record : Record
  alive : Bool := true
  held : Bool := true
  origin : Option ℕ := none
deriving DecidableEq, Repr

structure Store where
  params : Params
  queue : ℕ
deriving DecidableEq, Repr

/-- A call of `m_Queue->send`, with the store that is destroyed. -/
structure Sent where
  store : ℕ
  queue : ℕ
  spans : List Record
deriving DecidableEq, Repr

structure State where
  stores : List Store := []
  spans : List Span := []
  sent : List Sent := []
deriving DecidableEq, Repr

/-- What a span starts with: its name, `random8`, `uncaught_exceptions` and the time. -/
structure Begin where
  name : Bytes
  spanId : UInt64
  uncaught : ℕ
  now : UInt64
deriving DecidableEq, Repr

inductive Event
  | start (aParams : Params) (queue : ℕ) (b : Begin)
  | remote (of queue : ℕ) (b : Begin)
  | child (of : ℕ) (b : Begin)
  | setError (of : ℕ) (aMessage : Bytes)
  | close (of uncaught : ℕ) (now : UInt64)
  | drop (of uncaught : ℕ) (now : UInt64)
deriving DecidableEq, Repr

/-- `"error"`. -/
def errorMessage : Bytes := ascii "error"

namespace Span

/-- The span of a store with these parameters, as the constructor leaves it. -/
def init (store : ℕ) (params : Params) (b : Begin) (aParentSpanId : UInt64)
    (origin : Option ℕ) : Span where
  store := store
  spanId := b.spanId
  xCount := b.uncaught
  origin := origin
  record :=
    { name := b.name
      traceId := params.binaryTraceId
      spanId := htobe64 b.spanId
      parentSpanId :=
        if aParentSpanId ≠ 0 ∨ params.parentId ≠ 0 then
          some (htobe64 (if aParentSpanId = 0 then params.parentId else aParentSpanId))
        else none
      start := b.now }

def setError (h : Span) (aMessage : Bytes) : Span :=
  { h with record := { h.record with status := some aMessage } }

def close (h : Span) (uncaught : ℕ) (now : UInt64) : Span :=
  if h.alive then
    let failed := if h.xCount ≠ uncaught then h.setError errorMessage else h
    { failed with record := { failed.record with endTime := some now }, alive := false }
  else h

end Span

namespace State

/-- The spans of a store, in the order in which they were made. -/
def ofStore (s : State) (k : ℕ) : List Span := s.spans.filter fun h => h.store = k

/-- The spans that keep a store from being destroyed. -/
def holders (s : State) (k : ℕ) : List Span := (s.ofStore k).filter Span.held

/-- `m_Spans` of a store. -/
def scopeSpans (s : State) (k : ℕ) : List Record := (s.ofStore k).map Span.record

def start (s : State) (aParams : Params) (queue : ℕ) (b : Begin) (origin : Option ℕ) : State :=
  { s with
    stores := s.stores ++ [⟨aParams, queue⟩]
    spans := s.spans ++ [Span.init s.stores.length aParams b 0 origin] }

/-- `Span::traceparent`. -/
def traceparent (s : State) (h : Span) : Bytes :=
  match s.stores[h.store]? with
  | none => []
  | some st => Params.traceparent { st.params with parentId := h.spanId }

/-- The destructor of a store, once nothing holds it any more. -/
def release (s : State) (k : ℕ) : State :=
  match s.stores[k]? with
  | none => s
  | some st =>
      if s.holders k = [] then { s with sent := s.sent ++ [⟨k, st.queue, s.scopeSpans k⟩] }
      else s

def step (s : State) : Event → State
  | .start aParams queue b => s.start aParams queue b none
  | .remote i queue b =>
      match s.spans[i]? with
      | none => s
      | some h =>
          let aTraceParent := s.traceparent h
          match Params.parse aTraceParent (aTraceParent.length + 1) with
          | some (.ok aParams) => s.start aParams queue b (some i)
          | _ => s
  | .child i b =>
      match s.spans[i]? with
      | none => s
      | some h =>
          match s.stores[h.store]? with
          | none => s
          | some st =>
              { s with spans := s.spans ++ [Span.init h.store st.params b h.spanId (some i)] }
  | .setError i aMessage =>
      match s.spans[i]? with
      | none => s
      | some h => { s with spans := s.spans.set i (h.setError aMessage) }
  | .close i uncaught now =>
      match s.spans[i]? with
      | none => s
      | some h => { s with spans := s.spans.set i (h.close uncaught now) }
  | .drop i uncaught now =>
      match s.spans[i]? with
      | none => s
      | some h =>
          { s with spans := s.spans.set i { h.close uncaught now with held := false } }.release
            h.store

/-- A span that is used was not destroyed, and no span has the id zero. A header may arrive when
the span that it was made of is gone. -/
def Ok (s : State) : Event → Prop
  | .start _ _ b => b.spanId ≠ 0
  | .remote i _ b => b.spanId ≠ 0 ∧ s.spans[i]?.isSome
  | .child i b => b.spanId ≠ 0 ∧ ∃ h ∈ s.spans[i]?, h.held
  | .setError i _ | .close i _ _ | .drop i _ _ => ∃ h ∈ s.spans[i]?, h.held

instance (s : State) : (e : Event) → Decidable (Ok s e)
  | .start _ _ _ => inferInstanceAs (Decidable (_ ≠ _))
  | .remote _ _ _ | .child _ _ => inferInstanceAs (Decidable (_ ∧ _))
  | .setError _ _ | .close _ _ _ | .drop _ _ _ => inferInstanceAs (Decidable (∃ _, _))

end State

/-! ## What a span keeps -/

/-- The parts of a span that no call changes. -/
structure Span.Keeps (h x : Span) : Prop where
  store : x.store = h.store
  spanId : x.spanId = h.spanId
  origin : x.origin = h.origin
  ids : x.record.traceId = h.record.traceId ∧ x.record.spanId = h.record.spanId ∧
    x.record.parentSpanId = h.record.parentSpanId

theorem Span.Keeps.refl (h : Span) : h.Keeps h := ⟨rfl, rfl, rfl, rfl, rfl, rfl⟩

theorem Span.keeps_setError (h : Span) (aMessage : Bytes) : h.Keeps (h.setError aMessage) :=
  ⟨rfl, rfl, rfl, rfl, rfl, rfl⟩

theorem Span.keeps_close (h : Span) (uncaught : ℕ) (now : UInt64) :
    h.Keeps (h.close uncaught now) := by
  unfold Span.close
  split
  case isTrue =>
    dsimp only
    split <;> exact ⟨rfl, rfl, rfl, rfl, rfl, rfl⟩
  case isFalse => exact Span.Keeps.refl h

theorem Span.held_close (h : Span) (uncaught : ℕ) (now : UInt64) :
    (h.close uncaught now).held = h.held := by
  unfold Span.close
  split
  case isTrue =>
    dsimp only
    split <;> rfl
  case isFalse => rfl

theorem Span.alive_close (h : Span) (uncaught : ℕ) (now : UInt64) :
    (h.close uncaught now).alive = false := by
  unfold Span.close
  split
  case isTrue => rfl
  case isFalse halive => exact Bool.eq_false_iff.mpr halive

theorem Span.endTime_close {h : Span} (hended : h.alive = false → h.record.endTime.isSome)
    (uncaught : ℕ) (now : UInt64) : (h.close uncaught now).record.endTime.isSome := by
  unfold Span.close
  split
  case isTrue => rfl
  case isFalse halive => exact hended (Bool.eq_false_iff.mpr halive)

/-- The record names the record of the span it was started from, and has its trace. -/
def Span.Follows (h p : Span) : Prop :=
  h.record.parentSpanId = some p.record.spanId ∧ h.record.traceId = p.record.traceId

theorem Span.Follows.keeps {h p h' p' : Span} (hf : h.Follows p) (hh : h.Keeps h')
    (hp : p.Keeps p') : h'.Follows p' := by
  constructor
  case left => rw [hh.ids.2.2, hp.ids.2.1, hf.1]
  case right => rw [hh.ids.1, hp.ids.1, hf.2]

/-- Every span follows the one it was started from, which is older. -/
def Linked (spans : List Span) : Prop :=
  ∀ (i : ℕ) (h : Span), spans[i]? = some h → ∀ o, h.origin = some o →
    o < i ∧ ∃ p, spans[o]? = some p ∧ h.Follows p

section Update

variable {spans : List Span} {i : ℕ} {h x : Span}

theorem keeps_of_getElem?_set (hi : spans[i]? = some h) (hx : h.Keeps x) {j : ℕ} {y : Span}
    (hj : (spans.set i x)[j]? = some y) : ∃ z, spans[j]? = some z ∧ z.Keeps y := by
  rw [List.getElem?_set] at hj
  split at hj
  case isTrue heq =>
    subst heq
    split at hj
    case isTrue =>
      cases hj
      exact ⟨h, hi, hx⟩
    case isFalse => cases hj
  case isFalse => exact ⟨y, hj, Span.Keeps.refl y⟩

theorem getElem?_set_of_keeps (hi : spans[i]? = some h) (hx : h.Keeps x) {j : ℕ} {z : Span}
    (hj : spans[j]? = some z) : ∃ y, (spans.set i x)[j]? = some y ∧ z.Keeps y := by
  obtain ⟨hlt, -⟩ := List.getElem?_eq_some_iff.mp hi
  by_cases heq : i = j
  · subst heq
    rw [hi] at hj
    cases hj
    exact ⟨x, by rw [List.getElem?_set_self hlt], hx⟩
  · exact ⟨z, by rw [List.getElem?_set_ne heq, hj], Span.Keeps.refl z⟩

theorem Linked.set (hl : Linked spans) (hi : spans[i]? = some h) (hx : h.Keeps x) :
    Linked (spans.set i x) := by
  intro j y hj o ho
  obtain ⟨z, hz, hzy⟩ := keeps_of_getElem?_set hi hx hj
  obtain ⟨hlt, p, hp, hf⟩ := hl j z hz o (by rw [← hzy.origin, ho])
  obtain ⟨q, hq, hpq⟩ := getElem?_set_of_keeps hi hx hp
  exact ⟨hlt, q, hq, hf.keeps hzy hpq⟩

theorem Linked.concat (hl : Linked spans)
    (hx : ∀ o, x.origin = some o → ∃ p, spans[o]? = some p ∧ x.Follows p) :
    Linked (spans ++ [x]) := by
  intro j y hj o ho
  rw [List.getElem?_append] at hj
  split at hj
  case isTrue =>
    obtain ⟨hlt, p, hp, hf⟩ := hl j y hj o ho
    obtain ⟨hlen, -⟩ := List.getElem?_eq_some_iff.mp hp
    exact ⟨hlt, p, by rw [List.getElem?_append_left hlen, hp], hf⟩
  case isFalse hge =>
    have hy : y = x := List.mem_singleton.mp (List.mem_of_getElem? hj)
    subst hy
    obtain ⟨p, hp, hf⟩ := hx o ho
    obtain ⟨hlen, -⟩ := List.getElem?_eq_some_iff.mp hp
    exact ⟨by omega, p, by rw [List.getElem?_append_left hlen, hp], hf⟩

/-- A list is filtered alike when the place that changes is left out before and after. -/
theorem filter_set {p : Span → Bool} (hi : spans[i]? = some h) (hh : p h = false)
    (hx : p x = false) : (spans.set i x).filter p = spans.filter p := by
  induction spans generalizing i with
  | nil => cases hi
  | cons y ys ih =>
      cases i with
      | zero =>
          rw [List.getElem?_cons_zero, Option.some.injEq] at hi
          subst hi
          rw [List.set_cons_zero, List.filter_cons_of_neg (by rw [hx]; decide),
            List.filter_cons_of_neg (by rw [hh]; decide)]
      | succ j =>
          rw [List.getElem?_cons_succ] at hi
          rw [List.set_cons_succ, List.filter_cons, List.filter_cons, ih hi]

end Update

/-! ## What a run keeps -/

namespace State

/-- What a queue has of a store: all of its spans, once none of them holds it. -/
def due (s : State) (k : ℕ) : List Sent :=
  match s.stores[k]? with
  | none => []
  | some st => if s.holders k = [] then [⟨k, st.queue, s.scopeSpans k⟩] else []

theorem mem_due {s : State} {k : ℕ} {m : Sent} (hm : m ∈ s.due k) :
    m.store = k ∧ s.holders k = [] ∧ m.spans = s.scopeSpans k := by
  unfold due at hm
  split at hm
  · cases hm
  · split at hm
    case isTrue hnil =>
      rw [List.mem_singleton] at hm
      subst hm
      exact ⟨rfl, hnil, rfl⟩
    case isFalse => cases hm

theorem release_eq (s : State) (k : ℕ) : s.release k = { s with sent := s.sent ++ s.due k } := by
  unfold release due
  split
  · rw [List.append_nil]
  · split
    case isTrue => rfl
    case isFalse => rw [List.append_nil]

theorem due_eq_nil {s : State} {h : Span} (hmem : h ∈ s.spans) (hheld : h.held) :
    s.due h.store = [] := by
  have hne : s.holders h.store ≠ [] := by
    refine List.ne_nil_of_mem (a := h) ?_
    rw [holders, ofStore, List.mem_filter, List.mem_filter]
    exact ⟨⟨hmem, decide_eq_true rfl⟩, hheld⟩
  unfold due
  split
  · rfl
  · rw [if_neg hne]

theorem due_congr {s t : State} {k : ℕ} (hstore : t.stores[k]? = s.stores[k]?)
    (hspans : t.ofStore k = s.ofStore k) : t.due k = s.due k := by
  rw [due, due, hstore, holders, holders, scopeSpans, scopeSpans, hspans]

theorem filter_due (s : State) (j k : ℕ) :
    (s.due j).filter (fun m => m.store = k) = if j = k then s.due j else [] := by
  split
  case isTrue heq =>
    refine List.filter_eq_self.mpr fun m hm => decide_eq_true ?_
    rw [(mem_due hm).1, heq]
  case isFalse hne =>
    refine List.filter_eq_nil_iff.mpr fun m hm => ?_
    rw [(mem_due hm).1, decide_eq_true_iff]
    exact hne

end State

/-- A span belongs to a store, whose trace it has, and is closed before it is destroyed. -/
structure Fits (stores : List Store) (h : Span) : Prop where
  stored : ∃ st, stores[h.store]? = some st ∧ h.record.traceId = st.params.binaryTraceId
  spanId : h.record.spanId = htobe64 h.spanId
  nonzero : h.spanId ≠ 0
  closed : h.held = false → h.alive = false
  ended : h.alive = false → h.record.endTime.isSome

structure Inv (s : State) : Prop where
  fits : ∀ h ∈ s.spans, Fits s.stores h
  linked : Linked s.spans
  sent : ∀ k, s.sent.filter (fun m => m.store = k) = s.due k

theorem inv_nil : Inv {} where
  fits := by
    intro h hmem
    cases hmem
  linked := by
    intro i h hi
    cases hi
  sent := fun _ => rfl

section Fits

variable {stores : List Store} {h : Span}

theorem Fits.append (hf : Fits stores h) (more : List Store) : Fits (stores ++ more) h := by
  obtain ⟨st, hst, htrace⟩ := hf.stored
  obtain ⟨hlt, -⟩ := List.getElem?_eq_some_iff.mp hst
  exact { hf with stored := ⟨st, by rw [List.getElem?_append_left hlt, hst], htrace⟩ }

theorem fits_init {k : ℕ} {st : Store} (hst : stores[k]? = some st) {b : Begin}
    (hb : b.spanId ≠ 0) (aParentSpanId : UInt64) (origin : Option ℕ) :
    Fits stores (Span.init k st.params b aParentSpanId origin) where
  stored := ⟨st, hst, rfl⟩
  spanId := rfl
  nonzero := hb
  closed := by
    intro hheld
    cases hheld
  ended := by
    intro halive
    cases halive

theorem Fits.setError (hf : Fits stores h) (aMessage : Bytes) :
    Fits stores (h.setError aMessage) :=
  ⟨hf.stored, hf.spanId, hf.nonzero, hf.closed, hf.ended⟩

theorem Fits.close (hf : Fits stores h) (uncaught : ℕ) (now : UInt64) :
    Fits stores (h.close uncaught now) := by
  have hk := h.keeps_close uncaught now
  constructor
  case stored =>
    rw [hk.store, hk.ids.1]
    exact hf.stored
  case spanId => rw [hk.ids.2.1, hk.spanId, hf.spanId]
  case nonzero => rw [hk.spanId]; exact hf.nonzero
  case closed => exact fun _ => h.alive_close uncaught now
  case ended => exact fun _ => Span.endTime_close hf.ended uncaught now

theorem Fits.drop (hf : Fits stores h) (uncaught : ℕ) (now : UInt64) :
    Fits stores { h.close uncaught now with held := false } := by
  have hc := hf.close uncaught now
  exact ⟨hc.stored, hc.spanId, hc.nonzero, fun _ => h.alive_close uncaught now, hc.ended⟩

end Fits

/-- A new span takes nothing from what is due, if its store is new or held already. -/
theorem due_concat {s : State} {stores : List Store} {x : Span} (hheld : x.held)
    (hdue : s.due x.store = []) (hstores : ∀ k, k ≠ x.store → stores[k]? = s.stores[k]?)
    (k : ℕ) :
    State.due { s with stores := stores, spans := s.spans ++ [x] } k = s.due k := by
  by_cases hk : k = x.store
  · subst hk
    rw [hdue]
    exact State.due_eq_nil (List.mem_append_right _ List.mem_cons_self) hheld
  · refine State.due_congr (hstores k hk) ?_
    rw [State.ofStore, State.ofStore, List.filter_append,
      List.filter_cons_of_neg (by rw [decide_eq_true_iff]; exact fun heq => hk heq.symm),
      List.filter_nil, List.append_nil]

/-- A call on a span changes nothing that is due of another store. -/
theorem due_set {s : State} {i : ℕ} {h x : Span} (hi : s.spans[i]? = some h) (hx : h.Keeps x)
    {k : ℕ} (hk : h.store ≠ k) :
    State.due { s with spans := s.spans.set i x } k = s.due k := by
  refine State.due_congr rfl (filter_set hi ?_ ?_)
  · exact decide_eq_false hk
  · rw [hx.store]
    exact decide_eq_false hk

namespace Inv

variable {s : State}

theorem start (hs : Inv s) {aParams : Params} {queue : ℕ} {b : Begin} {origin : Option ℕ}
    (hb : b.spanId ≠ 0)
    (ho : ∀ o, origin = some o → ∃ p, s.spans[o]? = some p ∧ aParams.parentId = p.spanId ∧
      aParams.binaryTraceId = p.record.traceId) : Inv (s.start aParams queue b origin) := by
  constructor
  case fits =>
    intro h hmem
    rcases List.mem_append.mp hmem with hmem | hmem
    · exact (hs.fits h hmem).append _
    · rw [List.mem_singleton] at hmem
      subst hmem
      have hst : (s.stores ++ [⟨aParams, queue⟩])[s.stores.length]? = some ⟨aParams, queue⟩ :=
        List.getElem?_concat_length
      exact fits_init hst hb 0 origin
  case linked =>
    refine hs.linked.concat fun o horigin => ?_
    obtain ⟨p, hp, hid, htrace⟩ := ho o horigin
    have hfits := hs.fits p (List.mem_of_getElem? hp)
    refine ⟨p, hp, ?_, htrace⟩
    have hne : aParams.parentId ≠ 0 := by
      rw [hid]
      exact hfits.nonzero
    dsimp only [Span.init]
    rw [if_pos (Or.inr hne), if_pos rfl, hid, hfits.spanId]
  case sent =>
    intro k
    refine (hs.sent k).trans (due_concat rfl ?_ ?_ k).symm
    · show s.due s.stores.length = []
      rw [State.due, List.getElem?_eq_none le_rfl]
    · intro j hj
      have hj : j ≠ s.stores.length := hj
      rcases Nat.lt_or_gt_of_ne hj with hlt | hgt
      · rw [List.getElem?_append_left hlt]
      · rw [List.getElem?_eq_none (Nat.le_of_lt hgt), List.getElem?_eq_none]
        rw [List.length_append, List.length_singleton]
        omega

theorem child (hs : Inv s) {i : ℕ} {h : Span} (hi : s.spans[i]? = some h) (hheld : h.held)
    {st : Store} (hst : s.stores[h.store]? = some st) {b : Begin} (hb : b.spanId ≠ 0) :
    Inv { s with spans := s.spans ++ [Span.init h.store st.params b h.spanId (some i)] } := by
  have hmem := List.mem_of_getElem? hi
  have hfits := hs.fits h hmem
  constructor
  case fits =>
    intro x hx
    rcases List.mem_append.mp hx with hx | hx
    · exact hs.fits x hx
    · rw [List.mem_singleton] at hx
      subst hx
      exact fits_init hst hb _ _
  case linked =>
    refine hs.linked.concat fun o horigin => ?_
    cases horigin
    refine ⟨h, hi, ?_, ?_⟩
    · dsimp only [Span.init]
      rw [if_pos (Or.inl hfits.nonzero), if_neg hfits.nonzero, hfits.spanId]
    · obtain ⟨st', hst', htrace⟩ := hfits.stored
      rw [hst, Option.some.injEq] at hst'
      subst hst'
      exact htrace.symm
  case sent =>
    intro k
    have hdue : s.due h.store = [] := State.due_eq_nil hmem hheld
    exact (hs.sent k).trans (due_concat
      (x := Span.init h.store st.params b h.spanId (some i)) rfl hdue (fun _ _ => rfl) k).symm

theorem fits_set (hs : Inv s) {i : ℕ} {x : Span} (hx : Fits s.stores x) :
    ∀ y ∈ s.spans.set i x, Fits s.stores y := by
  intro y hy
  rcases List.mem_or_eq_of_mem_set hy with hy | hy
  · exact hs.fits y hy
  · rw [hy]
    exact hx

/-- A call that does not destroy its span. -/
theorem set (hs : Inv s) {i : ℕ} {h x : Span} (hi : s.spans[i]? = some h) (hheld : h.held)
    (hk : h.Keeps x) (hxheld : x.held) (hx : Fits s.stores x) :
    Inv { s with spans := s.spans.set i x } := by
  constructor
  case fits => exact hs.fits_set hx
  case linked => exact hs.linked.set hi hk
  case sent =>
    intro k
    refine (hs.sent k).trans ?_
    by_cases hstore : h.store = k
    · subst hstore
      obtain ⟨hlt, -⟩ := List.getElem?_eq_some_iff.mp hi
      rw [State.due_eq_nil (List.mem_of_getElem? hi) hheld, ← hk.store]
      exact (State.due_eq_nil (s := { s with spans := s.spans.set i x })
        (List.mem_set hlt x) hxheld).symm
    · exact (due_set hi hk hstore).symm

/-- The last span of a store sends it. -/
theorem drop (hs : Inv s) {i : ℕ} {h x : Span} (hi : s.spans[i]? = some h) (hheld : h.held)
    (hk : h.Keeps x) (hx : Fits s.stores x) :
    Inv (State.release { s with spans := s.spans.set i x } h.store) := by
  rw [State.release_eq]
  constructor
  case fits => exact hs.fits_set hx
  case linked => exact hs.linked.set hi hk
  case sent =>
    intro k
    show (s.sent ++ State.due { s with spans := s.spans.set i x } h.store).filter
      (fun m => m.store = k) = State.due { s with spans := s.spans.set i x } k
    rw [List.filter_append, hs.sent k, State.filter_due]
    by_cases hstore : h.store = k
    · subst hstore
      rw [State.due_eq_nil (List.mem_of_getElem? hi) hheld, List.nil_append, if_pos rfl]
    · rw [if_neg hstore, List.append_nil, due_set hi hk hstore]

end Inv

/-- A remote process reads the ids of the span that called it. -/
theorem parse_state_traceparent {s : State} {h : Span} {st : Store}
    (hst : s.stores[h.store]? = some st) :
    Params.parse (s.traceparent h) ((s.traceparent h).length + 1) =
      some (.ok { st.params with parentId := h.spanId }) := by
  have heq : s.traceparent h = Params.traceparent { st.params with parentId := h.spanId } := by
    rw [State.traceparent, hst]
  rw [heq]
  refine parse_traceparent _ ?_
  simp only [Params.traceparent, List.length_append, length_toHex, length_htobe64]
  omega

theorem step_inv {s : State} {e : Event} (hs : Inv s) (he : s.Ok e) : Inv (s.step e) := by
  cases e with
  | start aParams queue b => exact hs.start he fun o ho => by cases ho
  | remote i queue b =>
      obtain ⟨hb, hsome⟩ := he
      obtain ⟨h, hi⟩ := Option.isSome_iff_exists.mp hsome
      obtain ⟨st, hst, htrace⟩ := (hs.fits h (List.mem_of_getElem? hi)).stored
      simp only [State.step, hi, parse_state_traceparent hst]
      refine hs.start hb fun o ho => ?_
      cases ho
      exact ⟨h, hi, rfl, htrace.symm⟩
  | child i b =>
      obtain ⟨hb, h, hi, hheld⟩ := he
      have hi : s.spans[i]? = some h := hi
      obtain ⟨st, hst, -⟩ := (hs.fits h (List.mem_of_getElem? hi)).stored
      simp only [State.step, hi, hst]
      exact hs.child hi hheld hst hb
  | setError i aMessage =>
      obtain ⟨h, hi, hheld⟩ := he
      have hi : s.spans[i]? = some h := hi
      have hfits := hs.fits h (List.mem_of_getElem? hi)
      simp only [State.step, hi]
      exact hs.set hi hheld (h.keeps_setError aMessage) hheld (hfits.setError aMessage)
  | close i uncaught now =>
      obtain ⟨h, hi, hheld⟩ := he
      have hi : s.spans[i]? = some h := hi
      have hfits := hs.fits h (List.mem_of_getElem? hi)
      simp only [State.step, hi]
      refine hs.set hi hheld (h.keeps_close uncaught now) ?_ (hfits.close uncaught now)
      rw [h.held_close]
      exact hheld
  | drop i uncaught now =>
      obtain ⟨h, hi, hheld⟩ := he
      have hi : s.spans[i]? = some h := hi
      have hfits := hs.fits h (List.mem_of_getElem? hi)
      have hk := h.keeps_close uncaught now
      simp only [State.step, hi]
      exact hs.drop hi hheld ⟨hk.store, hk.spanId, hk.origin, hk.ids⟩ (hfits.drop uncaught now)

/-- What was sent has all spans of its store, and all of them have ended. -/
theorem Inv.ended {s : State} (hs : Inv s) {m : Sent} (hm : m ∈ s.sent) :
    m.spans = s.scopeSpans m.store ∧ ∀ r ∈ m.spans, r.endTime.isSome := by
  have hdue : m ∈ s.due m.store := by
    rw [← hs.sent m.store, List.mem_filter]
    exact ⟨hm, decide_eq_true rfl⟩
  obtain ⟨-, hnil, hspans⟩ := State.mem_due hdue
  refine ⟨hspans, fun r hr => ?_⟩
  rw [hspans] at hr
  obtain ⟨h, hh, rfl⟩ := List.mem_map.mp hr
  have hfits := hs.fits h (List.mem_filter.mp hh).1
  have hheld : h.held = false := Bool.eq_false_iff.mpr (List.filter_eq_nil_iff.mp hnil h hh)
  exact hfits.ended (hfits.closed hheld)

/-- In every run of processes that call each other, a store is sent to its queue once, when the
last of its spans is destroyed and not before, with all of its spans, which have all ended. The
record of every span names the span it was started from and has its trace id, also when that
span is in another process. -/
theorem spans_sent_once {events : List Event} (hevents : Meets State.step State.Ok {} events) :
    let s := run State.step {} events
    (∀ k, s.sent.filter (fun m => m.store = k) = s.due k) ∧
      (∀ m ∈ s.sent, ∀ r ∈ m.spans, r.endTime.isSome) ∧
      ∀ (i : ℕ) (h : Span), s.spans[i]? = some h → ∀ o, h.origin = some o →
        o < i ∧ ∃ p, s.spans[o]? = some p ∧ h.Follows p := by
  intro s
  have hs : Inv s := run_invariant (fun _ _ => step_inv) inv_nil hevents
  exact ⟨hs.sent, fun m hm => (hs.ended hm).2, hs.linked⟩

/-- A service with an inner span calls another one, which is the last to stop. -/
def twoServices : List Event :=
  [.start ⟨1, 2, 0⟩ 0 ⟨ascii "request", 10, 0, 100⟩, .child 0 ⟨ascii "call", 11, 0, 110⟩,
    .remote 1 1 ⟨ascii "serve", 12, 0, 120⟩, .setError 2 errorMessage, .close 1 0 130,
    .drop 0 1 140, .drop 1 0 150, .drop 2 0 160]

theorem spans_sent_once_twoServices :
    let s := run State.step {} twoServices
    s.sent.map (fun m => (m.queue, m.spans.map Record.name)) =
        [(0, [ascii "request", ascii "call"]), (1, [ascii "serve"])] ∧
      ∀ m ∈ s.sent, ∀ r ∈ m.spans, r.endTime.isSome := by
  have hevents : Meets State.step State.Ok {} twoServices := by decide +kernel
  exact ⟨by decide +kernel, (spans_sent_once hevents).2.1⟩

end Stuff.JaegerTrace
