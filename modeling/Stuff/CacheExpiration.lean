import Stuff.CacheLfu
import Stuff.CacheLru
import Stuff.CacheSLru

/-!
# Entries with a deadline

`ExpirationAdapter` keeps a time with each value of an inner cache. It finds out
that an entry is too old after the inner `Get`, and then removes it. The three
inner caches differ in what `Remove` demands.
-/
namespace Stuff.CacheExpiration
open StoreLog EventRuns
open Function (update)

variable {Key Value : Type} [DecidableEq Key]

/-! ## The inner caches -/

inductive Kind
  | lru
  | slru
  | lfu
deriving DecidableEq, Repr

/-- The template argument, with the cache itself. -/
inductive Inner (Key Value : Type)
  | lru (c : CacheLru.LRU Key Value)
  | slru (c : CacheSLru.SLRU Key Value)
  | lfu (c : CacheLfu.LFU Key Value)

namespace Inner

def make (aMaxSize : ℕ) : Kind → Inner Key Value
  | .lru => .lru { maxSize := aMaxSize }
  | .slru => .slru { maxSize := aMaxSize }
  | .lfu => .lfu { maxSize := aMaxSize }

def kind : Inner Key Value → Kind
  | .lru _ => .lru
  | .slru _ => .slru
  | .lfu _ => .lfu

def get (aKey : Key) : Inner Key Value → Option (Inner Key Value × Option Value)
  | .lru c => (c.get aKey).map fun x => (.lru x.1, x.2)
  | .slru c => (c.get aKey).map fun x => (.slru x.1, x.2)
  | .lfu c => (c.get aKey).map fun x => (.lfu x.1, x.2)

/-- With what is thrown; only one of the three throws. -/
def put (aKey : Key) (aValue : Value) :
    Inner Key Value → Option (Inner Key Value × Except String Unit)
  | .lru c => (c.put aKey aValue).map fun c => (.lru c, .ok ())
  | .slru c => (c.put aKey aValue).map fun x => (.slru x.1, x.2)
  | .lfu c => (c.put aKey aValue).map fun x => (.lfu x.1, .ok ())

def remove (aKey : Key) : Inner Key Value → Option (Inner Key Value × Except String Unit)
  | .lru c => (c.remove aKey).map fun c => (.lru c, .ok ())
  | .slru c => (c.remove aKey).map fun x => (.slru x.1, x.2)
  | .lfu c => (c.remove aKey).map fun c => (.lfu c, .ok ())

def contents : Inner Key Value → Key → Option Value
  | .lru c => c.contents
  | .slru c => c.contents
  | .lfu c => c.contents

def Valid : Inner Key Value → Prop
  | .lru c => CacheLru.Valid c
  | .slru c => CacheSLru.Valid c
  | .lfu c => CacheLfu.Valid c

theorem valid_make (aMaxSize : ℕ) (kind : Kind) : (make aMaxSize kind : Inner Key Value).Valid := by
  cases kind with
  | lru => exact CacheLru.valid_start aMaxSize
  | slru => exact CacheSLru.valid_start aMaxSize
  | lfu => exact CacheLfu.valid_start aMaxSize 20

variable {c : Inner Key Value}

theorem Valid.get (h : c.Valid) (k : Key) :
    ∃ c', c.get k = some (c', c.contents k) ∧ c'.Valid ∧ c'.contents = c.contents ∧
      c'.kind = c.kind := by
  cases c with
  | lru c =>
      obtain ⟨c', hget, hc, hcontents, -⟩ := CacheLru.Valid.get h k
      exact ⟨.lru c', by simp only [Inner.get, hget, Option.map_some, contents], hc, hcontents, rfl⟩
  | slru c =>
      obtain ⟨c', hget, hc, hcontents, -⟩ := CacheSLru.Valid.get h k
      exact ⟨.slru c', by simp only [Inner.get, hget, Option.map_some, contents], hc, hcontents,
        rfl⟩
  | lfu c =>
      obtain ⟨c', hget, hc, hcontents, -⟩ := CacheLfu.Valid.get h k
      exact ⟨.lfu c', by simp only [Inner.get, hget, Option.map_some, contents], hc, hcontents, rfl⟩

theorem Valid.put (h : c.Valid) (k : Key) (v : Value) :
    ∃ c' r, c.put k v = some (c', r) ∧ c'.Valid := by
  cases c with
  | lru c =>
      obtain ⟨c', -, hput, hc, -⟩ := CacheLru.Valid.put h k v
      exact ⟨.lru c', .ok (), by simp only [Inner.put, hput, Option.map_some], hc⟩
  | slru c =>
      obtain ⟨c', -, hput, hc, -⟩ := CacheSLru.Valid.put h k v
      exact ⟨.slru c', .ok (), by simp only [Inner.put, hput, Option.map_some], hc⟩
  | lfu c =>
      obtain ⟨c', evicted, hput, hc, -⟩ := CacheLfu.Valid.put h k v 1
      exact ⟨.lfu c', .ok (), by simp only [Inner.put, hput, Option.map_some], hc⟩

/-- A key that is there is removed, unless the cache is a segmented one and
throws. -/
theorem Valid.remove (h : c.Valid) {k : Key} (hk : c.contents k ≠ none) :
    ∃ c' r, c.remove k = some (c', r) ∧ c'.Valid ∧
      (c.kind ≠ .slru → r = .ok () ∧ c'.contents = update c.contents k none) := by
  cases c with
  | lru c =>
      obtain ⟨c', hremove, hc, hcontents, -⟩ := CacheLru.Valid.remove h hk
      exact ⟨.lru c', .ok (), by simp only [Inner.remove, hremove, Option.map_some], hc,
        fun _ => ⟨rfl, hcontents⟩⟩
  | slru c =>
      obtain ⟨c', r, hremove, hc⟩ := CacheSLru.Valid.remove h hk
      exact ⟨.slru c', r, by simp only [Inner.remove, hremove, Option.map_some], hc,
        fun hkind => absurd rfl hkind⟩
  | lfu c =>
      obtain ⟨c', hremove, hc, hcontents, -⟩ := CacheLfu.Valid.remove h k
      exact ⟨.lfu c', .ok (), by simp only [Inner.remove, hremove, Option.map_some], hc,
        fun _ => ⟨rfl, hcontents⟩⟩

/-- Only one of the caches looks whether the key is there. -/
theorem Valid.remove_absent (h : c.Valid) {k : Key} (hk : c.contents k = none) :
    c.remove k = if c.kind = .lfu then some (c, .ok ()) else none := by
  cases c with
  | lru c =>
      have hlookup := (h.index.valueAt_eq_none Prod.snd).mp hk
      simp only [Inner.remove, CacheLru.LRU.remove, hlookup]
      rfl
  | slru c =>
      have hlookup := (h.split.index.valueAt_eq_none CacheSLru.Entry.value).mp hk
      simp only [Inner.remove, CacheSLru.SLRU.remove, hlookup]
      rfl
  | lfu c =>
      obtain ⟨q, hq⟩ := h.represents
      have hlookup := (hq.index.valueAt_eq_none CacheRingAge.Entry.value).mp hk
      simp only [Inner.remove, CacheLfu.LFU.remove, hlookup]
      rfl

/-- The segmented cache throws whenever the key was got just before. -/
theorem Valid.remove_got (h : c.Valid) (hkind : c.kind = .slru) {k : Key}
    (hk : c.contents k ≠ none) {c' : Inner Key Value} {r : Option Value}
    (hget : c.get k = some (c', r)) : ∃ c'' msg, c'.remove k = some (c'', .error msg) := by
  cases c with
  | lru c => cases hkind
  | lfu c => cases hkind
  | slru c =>
      obtain ⟨c₁, hget₁, hc, -, -, hprot⟩ := CacheSLru.Valid.get h k
      simp only [Inner.get, hget₁, Option.map_some, Option.some.injEq, Prod.mk.injEq] at hget
      obtain ⟨rfl, -⟩ := hget
      obtain ⟨i, hi⟩ := Option.ne_none_iff_exists'.mp
        fun hnone => hk ((h.split.index.valueAt_eq_none CacheSLru.Entry.value).mpr hnone)
      obtain ⟨hlookup, e, he, hflag⟩ := hprot i hi
      refine ⟨.slru c₁, "S_LRU::Remove on protected list", ?_⟩
      simp [Inner.remove, CacheSLru.SLRU.remove, hlookup, he, hflag]

end Inner

/-! ## The adapter -/

structure Entry (Value : Type) where
  createdAt : UInt64 := 0
  value : Value
deriving DecidableEq, Repr

structure ExpirationAdapter (Key Value : Type) where
  cache : Inner Key (Entry Value)
  deadline : UInt64

namespace ExpirationAdapter

def make (kind : Kind) (aMaxSize : ℕ) (aDeadline : UInt64) : ExpirationAdapter Key Value :=
  { cache := Inner.make aMaxSize kind, deadline := aDeadline }

/-- The test of the source; the sum is a 64-bit one. -/
def Expired (s : ExpirationAdapter Key Value) (sPtr : Entry Value) (aNow : UInt64) : Prop :=
  sPtr.createdAt + s.deadline ≤ aNow

instance (s : ExpirationAdapter Key Value) (sPtr : Entry Value) (aNow : UInt64) :
    Decidable (s.Expired sPtr aNow) := inferInstanceAs (Decidable (_ ≤ _))

/-- The adapter afterwards, and the result or what was thrown. -/
def get (s : ExpirationAdapter Key Value) (aKey : Key) (aNow : UInt64) :
    Option (ExpirationAdapter Key Value × Except String (Option Value)) :=
  match s.cache.get aKey with
  | none => none
  | some (cache, none) => some ({ s with cache := cache }, .ok none)
  | some (cache, some sPtr) =>
      if s.Expired sPtr aNow then
        (cache.remove aKey).map fun x => ({ s with cache := x.1 }, x.2.map fun _ => none)
      else some ({ s with cache := cache }, .ok (some sPtr.value))

def put (s : ExpirationAdapter Key Value) (aKey : Key) (aValue : Value) (aNow : UInt64) :
    Option (ExpirationAdapter Key Value × Except String Unit) :=
  (s.cache.put aKey { createdAt := aNow, value := aValue }).map fun x =>
    ({ s with cache := x.1 }, x.2)

def remove (s : ExpirationAdapter Key Value) (aKey : Key) :
    Option (ExpirationAdapter Key Value × Except String Unit) :=
  (s.cache.remove aKey).map fun x => ({ s with cache := x.1 }, x.2)

end ExpirationAdapter

variable {s : ExpirationAdapter Key Value} {k : Key} {aNow : UInt64}

omit [DecidableEq Key] in
theorem not_expired {sPtr : Entry Value} (h : ¬ s.Expired sPtr aNow) :
    aNow.toNat < sPtr.createdAt.toNat + s.deadline.toNat := by
  have hlt : aNow.toNat < (sPtr.createdAt + s.deadline).toNat :=
    UInt64.lt_iff_toNat_lt.mp (UInt64.not_le.mp h)
  rw [UInt64.toNat_add] at hlt
  exact Nat.lt_of_lt_of_le hlt (Nat.mod_le _ _)

theorem get_absent (h : s.cache.Valid) (hk : s.cache.contents k = none) (aNow : UInt64) :
    ∃ s', s.get k aNow = some (s', .ok none) ∧ s'.cache.Valid := by
  obtain ⟨cache, hget, hcache, -⟩ := h.get k
  rw [hk] at hget
  refine ⟨{ s with cache := cache }, ?_, hcache⟩
  simp only [ExpirationAdapter.get, hget]

theorem get_live (h : s.cache.Valid) {sPtr : Entry Value} (hk : s.cache.contents k = some sPtr)
    (hlive : ¬ s.Expired sPtr aNow) :
    ∃ s', s.get k aNow = some (s', .ok (some sPtr.value)) ∧ s'.cache.Valid := by
  obtain ⟨cache, hget, hcache, -⟩ := h.get k
  rw [hk] at hget
  refine ⟨{ s with cache := cache }, ?_, hcache⟩
  simp only [ExpirationAdapter.get, hget, if_neg hlive]

/-- An entry too old is removed, except that the segmented cache throws. -/
theorem get_expired (h : s.cache.Valid) {sPtr : Entry Value} (hk : s.cache.contents k = some sPtr)
    (hold : s.Expired sPtr aNow) :
    ∃ s' r, s.get k aNow = some (s', r) ∧ s'.cache.Valid ∧
      (s.cache.kind ≠ .slru → r = .ok none ∧ s'.cache.contents k = none) ∧
      (s.cache.kind = .slru → ∃ msg, r = .error msg) := by
  obtain ⟨cache, hget, hcache, hsame, hkind⟩ := h.get k
  rw [hk] at hget
  have hpresent : cache.contents k ≠ none := by
    rw [hsame, hk]
    exact Option.some_ne_none _
  obtain ⟨cache', r, hremove, hcache', hother⟩ := hcache.remove hpresent
  refine ⟨{ s with cache := cache' }, r.map fun _ => none, ?_, hcache', ?_, ?_⟩
  · simp only [ExpirationAdapter.get, hget, if_pos hold, hremove, Option.map_some]
  · intro hne
    obtain ⟨hr, hcontents⟩ := hother (hkind ▸ hne)
    rw [hr, hcontents, Function.update_self]
    exact ⟨rfl, rfl⟩
  · intro hslru
    obtain ⟨c, msg, hthrown⟩ := h.remove_got hslru (hk ▸ Option.some_ne_none _) hget
    rw [hremove] at hthrown
    cases hthrown
    exact ⟨msg, rfl⟩

/-! ## Runs -/

inductive Op (Key Value : Type)
  | get (aKey : Key) (aNow : UInt64)
  | put (aKey : Key) (aValue : Value) (aNow : UInt64)
  | remove (aKey : Key)

/-- An exception leaves the adapter in the state that it was thrown in. -/
def adapterStep (s : ExpirationAdapter Key Value) :
    Op Key Value → Option (ExpirationAdapter Key Value)
  | .get aKey aNow => (s.get aKey aNow).map Prod.fst
  | .put aKey aValue aNow => (s.put aKey aValue aNow).map Prod.fst
  | .remove aKey => (s.remove aKey).map Prod.fst

/-- A get throws nothing, returns no value that is too old, and removes an entry
that is; a remove of a key that is not there changes nothing. -/
def Behaves (s : ExpirationAdapter Key Value) : Op Key Value → Prop
  | .get aKey aNow => ∃ s' r, s.get aKey aNow = some (s', .ok r) ∧
      (∀ v, r = some v → ∃ sPtr, s.cache.contents aKey = some sPtr ∧ sPtr.value = v ∧
        aNow.toNat < sPtr.createdAt.toNat + s.deadline.toNat) ∧
      ∀ sPtr, s.cache.contents aKey = some sPtr → s.Expired sPtr aNow →
        r = none ∧ s'.cache.contents aKey = none
  | .put _ _ _ => True
  | .remove aKey => s.cache.contents aKey = none → s.remove aKey = some (s, .ok ())

/-- No get from the segmented cache meets an entry that is too old, and only keys
that are there are removed, unless the cache is an LFU one. -/
def Suits (s : ExpirationAdapter Key Value) : Op Key Value → Prop
  | .get aKey aNow => s.cache.kind = .slru →
      ∀ sPtr, s.cache.contents aKey = some sPtr → ¬ s.Expired sPtr aNow
  | .put _ _ _ => True
  | .remove aKey => s.cache.kind = .lfu ∨ s.cache.contents aKey ≠ none

theorem behaves_get_iff (h : s.cache.Valid) (k : Key) (aNow : UInt64) :
    Behaves s (.get k aNow) ↔ Suits s (.get k aNow) := by
  cases hk : s.cache.contents k with
  | none =>
      obtain ⟨s', hget, -⟩ := get_absent h hk aNow
      apply iff_of_true
      · exact ⟨s', none, hget, by simp, by simp [hk]⟩
      · intro _ sPtr hsome
        cases hk.symm.trans hsome
  | some sPtr =>
      by_cases hold : s.Expired sPtr aNow
      · obtain ⟨s', r, hget, -, hother, hthrown⟩ := get_expired h hk hold
        by_cases hkind : s.cache.kind = .slru
        · obtain ⟨msg, rfl⟩ := hthrown hkind
          apply iff_of_false
          · rintro ⟨s₁, r₁, hget₁, -⟩
            cases hget.symm.trans hget₁
          · exact fun hsuits => hsuits hkind sPtr hk hold
        · obtain ⟨rfl, hgone⟩ := hother hkind
          apply iff_of_true
          · exact ⟨s', none, hget, by simp, fun _ _ _ => ⟨rfl, hgone⟩⟩
          · exact fun hslru => absurd hslru hkind
      · obtain ⟨s', hget, -⟩ := get_live h hk hold
        apply iff_of_true
        · refine ⟨s', some sPtr.value, hget, ?_, ?_⟩
          · intro v hv
            exact ⟨sPtr, hk, Option.some.inj hv, not_expired hold⟩
          · intro x hx hexpired
            cases hk.symm.trans hx
            exact absurd hexpired hold
        · intro _ x hx
          cases hk.symm.trans hx
          exact hold

theorem behaves_remove_iff (h : s.cache.Valid) (k : Key) :
    Behaves s (.remove k) ↔ Suits s (.remove k) := by
  cases hk : s.cache.contents k with
  | some sPtr =>
      apply iff_of_true
      · intro hnone
        cases hk.symm.trans hnone
      · exact Or.inr (hk ▸ Option.some_ne_none sPtr)
  | none =>
      have hremove := h.remove_absent hk
      by_cases hkind : s.cache.kind = .lfu
      · simp [Behaves, Suits, ExpirationAdapter.remove, hremove, hkind]
      · simp [Behaves, Suits, ExpirationAdapter.remove, hremove, hkind, hk]

theorem adapterStep_valid (h : s.cache.Valid) {e : Op Key Value} (he : Suits s e) :
    Holds (fun s => s.cache.Valid) (adapterStep s e) := by
  cases e with
  | get aKey aNow =>
      cases hk : s.cache.contents aKey with
      | none =>
          obtain ⟨s', hget, hs'⟩ := get_absent h hk aNow
          exact ⟨s', by simp only [adapterStep, hget, Option.map_some], hs'⟩
      | some sPtr =>
          by_cases hold : s.Expired sPtr aNow
          · obtain ⟨s', r, hget, hs', -⟩ := get_expired h hk hold
            exact ⟨s', by simp only [adapterStep, hget, Option.map_some], hs'⟩
          · obtain ⟨s', hget, hs'⟩ := get_live h hk hold
            exact ⟨s', by simp only [adapterStep, hget, Option.map_some], hs'⟩
  | put aKey aValue aNow =>
      obtain ⟨cache, r, hput, hcache⟩ := h.put aKey { createdAt := aNow, value := aValue }
      refine ⟨{ s with cache := cache }, ?_, hcache⟩
      simp only [adapterStep, ExpirationAdapter.put, hput, Option.map_some]
  | remove aKey =>
      cases hk : s.cache.contents aKey with
      | none =>
          have hlfu := he.resolve_right (not_not.mpr hk)
          refine ⟨s, ?_, h⟩
          simp only [adapterStep, ExpirationAdapter.remove, h.remove_absent hk, if_pos hlfu,
            Option.map_some]
      | some sPtr =>
          obtain ⟨cache, r, hremove, hcache, -⟩ := h.remove (hk ▸ Option.some_ne_none sPtr)
          refine ⟨{ s with cache := cache }, ?_, hcache⟩
          simp only [adapterStep, ExpirationAdapter.remove, hremove, Option.map_some]

/-- The steps of a run all behave exactly if they all suit the inner cache. -/
theorem behaves_iff_suits (kind : Kind) (aMaxSize : ℕ) (aDeadline : UInt64)
    (es : List (Op Key Value)) :
    Meets (lift adapterStep) (On Behaves)
      (some (ExpirationAdapter.make kind aMaxSize aDeadline)) es ↔
    Meets (lift adapterStep) (On Suits)
      (some (ExpirationAdapter.make kind aMaxSize aDeadline)) es := by
  apply lift_meets_iff (I := fun s => s.cache.Valid)
  · intro s e h
    cases e with
    | get aKey aNow => exact behaves_get_iff h aKey aNow
    | put aKey aValue aNow => exact Iff.rfl
    | remove aKey => exact behaves_remove_iff h aKey
  · intro s e h he
    exact adapterStep_valid h he
  · exact Inner.valid_make aMaxSize kind

/-- A segmented cache with an entry that is ten milliseconds old: the get of it
throws. An empty LRU cache: the remove of any key has no result. -/
theorem not_behaves_expired :
    ((run (lift adapterStep) (some (ExpirationAdapter.make .slru 2 2 : ExpirationAdapter ℕ ℕ))
        [.put 1 5 0]).bind fun s => s.get 1 10).map Prod.snd =
      some (.error "S_LRU::Remove on protected list") ∧
    ((ExpirationAdapter.make .lru 2 2 : ExpirationAdapter ℕ ℕ).remove 1).isNone := by
  constructor
  · rfl
  · rfl

end Stuff.CacheExpiration
