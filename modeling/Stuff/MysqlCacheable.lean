import Stuff.EventRuns
import Stuff.MachineWords
import Stuff.OrderedMap

/-!
# `MySQL::Cacheable`

The rows of a query are kept in Redis day by day, and only the days that are not there
are asked for. The key of a row is made of the table, the day and the condition of the
query; the text of the query is not part of it. Keys may expire at any time.
-/
namespace Stuff.MysqlCacheable

open EventRuns MachineWords OrderedMap

variable {Row : Type}

/-- What the code relies on: days and their texts, the rows of a query that is filled with
a table, dates and a condition, the date of a row, and whether Redis throws when it is
asked for no keys. -/
structure World (Row : Type) where
  toDate : Bytes → ℤ
  formatDate : ℤ → Bytes
  rows : Bytes → Bytes → List Bytes → Bytes → List Row
  date : Row → Bytes
  throwsOnNone : Bool

structure CacheableQuery (W : World Row) where
  table : Bytes
  from_ : Bytes
  to_ : Bytes
  where_ : Bytes
  query : Bytes
  parse : Row → Bytes × Bytes
  ordered : W.toDate from_ ≤ W.toDate to_
  dated : ∀ row, (parse row).1 = W.date row

abbrev DateSet := List (Bytes × Unit)

abbrev Response := List (Bytes × Bytes)

abbrev Redis := Bytes → Option Bytes

variable {W : World Row}

namespace CacheableQuery

/-- `for (x = sFrom; x != sTo; x++)` -/
def days (t : CacheableQuery W) : List Bytes :=
  (List.range (W.toDate t.to_ - W.toDate t.from_).toNat).map fun n =>
    W.formatDate (W.toDate t.from_ + n)

def colon : UInt8 := 0x3a

/-- `sKey` -/
def key (t : CacheableQuery W) (sDay : Bytes) : Bytes :=
  t.table ++ [colon] ++ sDay ++ [colon] ++ t.where_

/-- One day goes to `sCached` or to `sMissing`. -/
def prepareDay (t : CacheableQuery W) (redis : Redis) (r : DateSet × Response) (sDay : Bytes) :
    DateSet × Response :=
  match redis (t.key sDay) with
  | some sValue => (r.1, assign less sDay sValue r.2)
  | none => (emplace less sDay () r.1, r.2)

/-- `prepare`, from the values that `mget` returns for the days. -/
def prepare (t : CacheableQuery W) (redis : Redis) : DateSet × Response :=
  t.days.foldl (t.prepareDay redis) ([], [])

/-- The rows for some dates are put into a response. -/
def fetch (t : CacheableQuery W) (sDates : List Bytes) (sResponse : Response) : Response :=
  (W.rows t.query t.table sDates t.where_).foldl (fun m row =>
    emplace less (t.parse row).1 (t.parse row).2 m) sResponse

/-- The cache is updated; `expire` leaves the value. -/
def store (t : CacheableQuery W) (sMissing : DateSet) (sResponse : Response) (redis : Redis) :
    Redis :=
  sResponse.foldl (fun redis e =>
    if (sMissing.lookup e.1).isSome then
      fun k => if k = t.key e.1 then some e.2 else redis k
    else redis) redis

/-- `Cacheable::operator()`, or `none` if it throws. -/
def call (t : CacheableQuery W) (redis : Redis) : Option (Response × Redis) :=
  if t.days.isEmpty && W.throwsOnNone then none
  else
    let (sMissing, sCached) := t.prepare redis
    let sResponse :=
      if sMissing.isEmpty then sCached else t.fetch (sMissing.map (·.1)) sCached
    some (sResponse, t.store sMissing sResponse redis)

/-- The same query on an empty cache. -/
def direct (t : CacheableQuery W) : Option Response := (t.call fun _ => none).map (·.1)

end CacheableQuery

structure State (W : World Row) where
  redis : Redis := fun _ => none
  results : List (CacheableQuery W × Option Response) := []

inductive Event (W : World Row)
  | call (t : CacheableQuery W)
  | expire (gone : Bytes → Bool)

def step (s : State W) : Event W → State W
  | .call t =>
      match t.call s.redis with
      | some (sResponse, redis) =>
          { redis := redis, results := s.results ++ [(t, some sResponse)] }
      | none => { s with results := s.results ++ [(t, none)] }
  | .expire gone => { s with redis := fun k => if gone k then none else s.redis k }

/-- Every call so far has returned what it would have returned on an empty cache. -/
def Agrees (s : State W) : Prop := ∀ r ∈ s.results, r.2 = r.1.direct

/-! ## One call -/

/-- The days that are found, and the others. -/
structure Prepared (t : CacheableQuery W) (redis : Redis) (days : List Bytes)
    (r : DateSet × Response) : Prop where
  missing : Sorted less r.1
  cached : Sorted less r.2
  isMissing : ∀ day, r.1.lookup day =
    if day ∈ days ∧ redis (t.key day) = none then some () else none
  isCached : ∀ day, r.2.lookup day = if day ∈ days then redis (t.key day) else none

section Call
variable {t : CacheableQuery W} {redis : Redis}

theorem Prepared.day {days : List Bytes} {r : DateSet × Response} (h : Prepared t redis days r)
    (sDay : Bytes) : Prepared t redis (days ++ [sDay]) (t.prepareDay redis r sDay) := by
  cases hday : redis (t.key sDay) with
  | none =>
      simp only [CacheableQuery.prepareDay, hday]
      constructor
      case missing => exact sorted_insertWith less_strict id () h.missing
      case cached => exact h.cached
      case isMissing =>
        intro day
        rw [emplace, lookup_insertWith less_strict id () h.missing, h.isMissing day]
        by_cases heq : day = sDay
        · simp [heq, hday]
        · simp [heq]
      case isCached =>
        intro day
        rw [h.isCached day]
        by_cases heq : day = sDay
        · simp [heq, hday]
        · simp [heq]
  | some sValue =>
      simp only [CacheableQuery.prepareDay, hday]
      constructor
      case missing => exact h.missing
      case cached => exact sorted_insertWith less_strict _ sValue h.cached
      case isMissing =>
        intro day
        rw [h.isMissing day]
        by_cases heq : day = sDay
        · simp [heq, hday]
        · simp [heq]
      case isCached =>
        intro day
        rw [assign, lookup_insertWith less_strict _ sValue h.cached, h.isCached sDay,
          h.isCached day]
        by_cases heq : day = sDay
        · subst heq
          simp only [hday, if_true, List.mem_append, List.mem_singleton, or_true]
          split
          case isTrue => rfl
          case isFalse => rfl
        · simp [heq]

theorem prepared (t : CacheableQuery W) (redis : Redis) :
    Prepared t redis t.days (t.prepare redis) := by
  unfold CacheableQuery.prepare
  induction t.days using List.reverseRecOn with
  | nil => exact ⟨List.Pairwise.nil, List.Pairwise.nil, by simp, by simp⟩
  | append_singleton days sDay ih =>
      rw [List.foldl_append]
      exact ih.day sDay

/-- The rows of some dates, in the order in which they come. -/
def answer (t : CacheableQuery W) (sDates : List Bytes) : List (Bytes × Bytes) :=
  (W.rows t.query t.table sDates t.where_).map t.parse

theorem fetch_spec (t : CacheableQuery W) (sDates : List Bytes) {m : Response}
    (hm : Sorted less m) : Sorted less (t.fetch sDates m) ∧
      ∀ day, (t.fetch sDates m).lookup day = (m.lookup day).or ((answer t sDates).lookup day) := by
  have h : t.fetch sDates m = emplaceAll less m (answer t sDates) := by
    rw [emplaceAll, answer, List.foldl_map]
    rfl
  rw [h]
  exact ⟨sorted_emplaceAll less_strict _ hm, lookup_emplaceAll less_strict _ hm⟩

/-- The row that a query has for a day, when it is asked for this day. -/
def row (t : CacheableQuery W) (day : Bytes) : Option Bytes := (answer t [day]).lookup day

/-- The query answers each of its days by itself: the rows of a set of dates are those of
the dates one by one. -/
def Daily (t : CacheableQuery W) : Prop :=
  ∀ sDates : List Bytes, sDates ≠ [] → (sDates.Pairwise fun a b => less a b = true) →
    (∀ day ∈ sDates, day ∈ t.days) →
    ∀ day, (answer t sDates).lookup day = if sDates.contains day then row t day else none

/-- What the cache has for the days of the query are its own rows. -/
def Right (t : CacheableQuery W) (redis : Redis) : Prop :=
  ∀ day ∈ t.days, ∀ v, redis (t.key day) = some v → row t day = some v

theorem mem_keys_iff (m : DateSet) (day : Bytes) : day ∈ m.map (·.1) ↔ (m.lookup day).isSome := by
  induction m with
  | nil => simp
  | cons x m ih =>
      rw [lookup_cons]
      by_cases heq : day = x.1
      · simp [heq]
      · simp only [List.map_cons, List.mem_cons, heq, false_or, ih, if_false]

/-- The response, whatever is in the cache. -/
def response (t : CacheableQuery W) (redis : Redis) : Response :=
  if (t.prepare redis).1.isEmpty then (t.prepare redis).2
  else t.fetch ((t.prepare redis).1.map (·.1)) (t.prepare redis).2

theorem response_spec (hdaily : Daily t) (hright : Right t redis) :
    Sorted less (response t redis) ∧
      ∀ day, (response t redis).lookup day = if day ∈ t.days then row t day else none := by
  have hp := prepared t redis
  have hday : ∀ day ∈ t.days, ∀ v, redis (t.key day) = some v → some v = row t day :=
    fun day hmem v hv => (hright day hmem v hv).symm
  unfold response
  cases hempty : (t.prepare redis).1 with
  | nil =>
      refine ⟨hp.cached, fun day => ?_⟩
      simp only [List.isEmpty_nil, if_true, hp.isCached day]
      by_cases hmem : day ∈ t.days
      · have hnot := hp.isMissing day
        rw [hempty] at hnot
        cases hv : redis (t.key day) with
        | none => simp [hmem, hv] at hnot
        | some v => simp [hmem, hday day hmem v hv]
      · simp [hmem]
  | cons x missing =>
      have hmem : ∀ day, day ∈ (x :: missing).map (·.1) ↔
          day ∈ t.days ∧ redis (t.key day) = none := by
        intro day
        rw [mem_keys_iff, ← hempty, hp.isMissing day]
        split
        case isTrue h => simp [h]
        case isFalse h => simpa using h
      have hsorted := hp.missing
      rw [hempty] at hsorted
      obtain ⟨hs, hlookup⟩ := fetch_spec t ((x :: missing).map (·.1)) hp.cached
      refine ⟨hs, fun day => (hlookup day).trans ?_⟩
      rw [hp.isCached day, hdaily _ (by simp) (List.pairwise_map.mpr hsorted)
        (fun day h => ((hmem day).mp h).1) day]
      simp only [List.contains_iff_mem]
      by_cases hin : day ∈ t.days
      · cases hv : redis (t.key day) with
        | none => simp only [hin, if_true, (hmem day).mpr ⟨hin, hv⟩, Option.none_or]
        | some v =>
            rw [if_pos hin, if_pos hin, ← hday day hin v hv]
            rfl
      · have hnot : day ∉ (x :: missing).map (·.1) := fun h => hin ((hmem day).mp h).1
        simp only [hin, hnot, if_false, Option.none_or]

/-- What the cache has after a call. -/
theorem store_spec (sMissing : DateSet) (sResponse : Response) {redis : Redis} {k v : Bytes}
    (h : t.store sMissing sResponse redis k = some v) :
    redis k = some v ∨
      ∃ e ∈ sResponse, (sMissing.lookup e.1).isSome ∧ k = t.key e.1 ∧ v = e.2 := by
  unfold CacheableQuery.store at h
  induction sResponse generalizing redis with
  | nil => exact .inl h
  | cons e sResponse ih =>
      rw [List.foldl_cons] at h
      rcases ih h with hold | ⟨e', he', hrest⟩
      · split at hold
        case isTrue hmissing =>
          simp only at hold
          by_cases hk : k = t.key e.1
          · rw [if_pos hk] at hold
            exact .inr ⟨e, List.mem_cons_self, hmissing, hk, (Option.some.inj hold).symm⟩
          · rw [if_neg hk] at hold
            exact .inl hold
        case isFalse => exact .inl hold
      · exact .inr ⟨e', List.mem_cons_of_mem e he', hrest⟩

theorem call_eq (t : CacheableQuery W) (redis : Redis) : t.call redis =
    if t.days.isEmpty && W.throwsOnNone then none
    else some (response t redis, t.store (t.prepare redis).1 (response t redis) redis) := rfl

theorem right_empty (t : CacheableQuery W) : Right t fun _ => none :=
  fun _ _ _ h => by cases h

/-- A call whose days are right in the cache returns what the query itself would. -/
theorem call_direct (hdaily : Daily t) (hright : Right t redis) :
    (t.call redis).map (·.1) = t.direct := by
  simp only [CacheableQuery.direct, call_eq]
  split
  case isTrue => rfl
  case isFalse =>
    obtain ⟨hs, hlookup⟩ := response_spec hdaily hright
    obtain ⟨hs', hlookup'⟩ := response_spec hdaily (right_empty t)
    have heq := eq_of_lookup less_strict hs hs' fun day => (hlookup day).trans (hlookup' day).symm
    simp only [Option.map_some, heq]

end Call

/-! ## All calls -/

/-- No earlier query has put another row under a key of this one. -/
def Shares (s : State W) (t : CacheableQuery W) : Prop :=
  ∀ r ∈ s.results, ∀ day' ∈ r.1.days, ∀ day ∈ t.days, r.1.key day' = t.key day →
    ∀ v, row r.1 day' = some v → row t day = some v

def Distinct (s : State W) : Event W → Prop
  | .call t => Daily t ∧ Shares s t
  | .expire _ => True

structure Inv (s : State W) : Prop where
  cached : ∀ {k v : Bytes}, s.redis k = some v →
    ∃ r ∈ s.results, ∃ day ∈ r.1.days, k = r.1.key day ∧ row r.1 day = some v
  agrees : Agrees s

theorem Inv.right {s : State W} (hs : Inv s) {t : CacheableQuery W} (h : Shares s t) :
    Right t s.redis := by
  intro day hday v hv
  obtain ⟨r, hr, day', hday', hkey, hrow⟩ := hs.cached hv
  exact h r hr day' hday' day hday hkey.symm v hrow

theorem Inv.call {s : State W} (hs : Inv s) {t : CacheableQuery W} (hdaily : Daily t)
    (hshares : Shares s t) : Inv (step s (.call t)) := by
  have hright := hs.right hshares
  have hdirect := call_direct hdaily hright
  have hagrees : ∀ o, o = t.direct → ∀ r ∈ s.results ++ [(t, o)], r.2 = r.1.direct := by
    intro o ho r hr
    rcases List.mem_append.mp hr with hold | hnew
    · exact hs.agrees r hold
    · cases List.mem_singleton.mp hnew
      exact ho
  have hcached : ∀ o {k v : Bytes}, s.redis k = some v → ∃ r ∈ s.results ++ [(t, o)],
      ∃ day ∈ r.1.days, k = r.1.key day ∧ row r.1 day = some v := by
    intro o k v hv
    obtain ⟨r, hr, hrest⟩ := hs.cached hv
    exact ⟨r, List.mem_append_left _ hr, hrest⟩
  simp only [step]
  split
  case h_1 sResponse redis hcall =>
    rw [hcall] at hdirect
    refine ⟨?_, hagrees _ hdirect⟩
    intro k v hv
    rw [call_eq, Option.ite_none_left_eq_some, Option.some.injEq, Prod.mk.injEq] at hcall
    obtain ⟨-, rfl, rfl⟩ := hcall
    rcases store_spec _ _ hv with hold | ⟨e, he, -, rfl, rfl⟩
    · exact hcached _ hold
    · obtain ⟨hsorted, hlookup⟩ := response_spec hdaily hright
      have hrow := hlookup e.1
      rw [lookup_of_mem less_strict hsorted he] at hrow
      rw [eq_comm, Option.ite_none_right_eq_some] at hrow
      exact ⟨_, List.mem_append_right _ (List.mem_singleton_self _), e.1, hrow.1, rfl, hrow.2⟩
  case h_2 hcall =>
    rw [hcall] at hdirect
    exact ⟨fun hv => hcached _ hv, hagrees _ hdirect⟩

theorem Inv.step {s : State W} (hs : Inv s) (e : Event W) (he : Distinct s e) :
    Inv (step s e) := by
  cases e with
  | call t => exact hs.call he.1 he.2
  | expire gone =>
      refine ⟨?_, hs.agrees⟩
      intro k v hv
      simp only [MysqlCacheable.step] at hv
      split at hv
      case isTrue => cases hv
      case isFalse => exact hs.cached hv

/-- Every sequence of calls whose queries have the same row wherever they have the same
key. -/
theorem cacheable_agrees (W : World Row) (es : List (Event W)) (h : Meets step Distinct {} es) :
    Agrees (run step {} es) := by
  have hinit : Inv ({} : State W) := by
    constructor
    case cached =>
      intro k v hv
      cases hv
    case agrees =>
      intro r hr
      cases hr
  exact (run_invariant (fun _ e hs he => hs.step e he) hinit h).agrees

/-- Each day is its own text, and a query has for each date a row with its own text. -/
def echoWorld : World (Bytes × Bytes) where
  toDate text := text.length
  formatDate day := List.replicate day.toNat 0x64
  rows aQuery _ sDates _ := sDates.map fun sDate => (sDate, aQuery)
  date := Prod.fst
  throwsOnNone := true

/-- The query `aQuery` of one table and one condition, for the days from one to `n`. -/
def echoQuery (aQuery : UInt8) (n : ℕ) : CacheableQuery echoWorld where
  table := [0x73]
  from_ := [0x64]
  to_ := List.replicate (n + 1) 0x64
  where_ := [0x77]
  query := [aQuery]
  parse := id
  ordered := by simp [echoWorld]
  dated _ := rfl

theorem answer_echoQuery (aQuery : UInt8) (n : ℕ) (sDates : List Bytes) (day : Bytes) :
    (answer (echoQuery aQuery n) sDates).lookup day =
      if day ∈ sDates then some [aQuery] else none := by
  have hanswer : answer (echoQuery aQuery n) sDates =
      sDates.map fun sDate => (sDate, [aQuery]) := List.map_id _
  rw [hanswer]
  clear hanswer
  induction sDates with
  | nil => rfl
  | cons sDate sDates ih =>
      rw [List.map_cons, lookup_cons, ih]
      by_cases heq : day = sDate
      · simp [heq]
      · simp [heq]

theorem row_echoQuery (aQuery : UInt8) (n : ℕ) (day : Bytes) :
    row (echoQuery aQuery n) day = some [aQuery] := by
  rw [row, answer_echoQuery, if_pos (List.mem_singleton_self day)]

theorem daily_echoQuery (aQuery : UInt8) (n : ℕ) : Daily (echoQuery aQuery n) := by
  intro sDates _ _ _ day
  rw [row_echoQuery, answer_echoQuery]
  simp only [List.contains_iff_mem]

/-- A part of a range, then more of it with a key that has expired. -/
theorem cacheable_agrees_range :
    let es : List (Event echoWorld) := [.call (echoQuery 0x61 2), .expire (· = [0x64]),
      .call (echoQuery 0x61 3)]
    Meets step Distinct {} es ∧ Agrees (run step {} es) ∧
      (run step {} es).results.map (·.2) =
        [some [([0x64], [0x61]), ([0x64, 0x64], [0x61])],
          some [([0x64], [0x61]), ([0x64, 0x64], [0x61]), ([0x64, 0x64, 0x64], [0x61])]] := by
  intro es
  have hshares : ∀ o, Shares { results := [(echoQuery 0x61 2, o)] } (echoQuery 0x61 3) := by
    intro o r hr day' _ day _ _ v hv
    cases List.mem_singleton.mp hr
    rw [row_echoQuery] at hv ⊢
    exact hv
  have hmeets : Meets step Distinct {} es :=
    ⟨⟨daily_echoQuery 0x61 2, fun r hr => by cases hr⟩, trivial,
      ⟨daily_echoQuery 0x61 3, hshares _⟩, trivial⟩
  exact ⟨hmeets, cacheable_agrees echoWorld es hmeets, by decide⟩

/-- Two queries of the same table, day and condition: the second one is given the row of
the first. -/
theorem cacheable_mixes_queries :
    let es : List (Event echoWorld) := [.call (echoQuery 0x61 1), .call (echoQuery 0x62 1)]
    (run step {} es).results.map (·.2) = [some [([0x64], [0x61])], some [([0x64], [0x61])]] ∧
      (echoQuery 0x62 1).direct = some [([0x64], [0x62])] ∧ ¬ Agrees (run step {} es) := by
  refine ⟨by decide, by decide, ?_⟩
  intro h
  have hall := List.map_congr_left h
  exact absurd hall (by decide)

end Stuff.MysqlCacheable
