import Stuff.BloomFilter
import Stuff.CacheLfu

/-!
# The LFU cache behind a bloom filter

`BF_LFU` admits a key to a full cache only if the filter has seen it. The filter
forgets keys and the cache does not, so a put of a stored key can be turned away
and leave the value of an older put in place.
-/
namespace Stuff.CacheBfLfu
open BloomFilter CacheLfu StoreLog EventRuns
open Function (update)

variable {Key Value : Type} [DecidableEq Key] (hash : Key → List UInt32)

structure BfLfu (Key Value : Type) where
  parent : LFU Key Value
  bloom : Filter

namespace BfLfu

def make (aSize : ℕ) (aCost aBloomBits aRotate : UInt32) : BfLfu Key Value :=
  { parent := { maxSize := aSize, cost := aCost }, bloom := Filter.make aBloomBits aRotate }

def get (c : BfLfu Key Value) (aKey : Key) : Option (BfLfu Key Value × Option Value) :=
  (c.parent.get aKey).map fun x => ({ c with parent := x.1 }, x.2)

/-- `Put` of the parent class. -/
def parentPut (c : BfLfu Key Value) (aKey : Key) (aValue : Value) (sCost : UInt32) :
    Option (BfLfu Key Value) :=
  (c.parent.put aKey aValue sCost).map fun x => { c with parent := x.1 }

/-- The hash is the 128-bit one of a library; here it is any function. -/
def put (c : BfLfu Key Value) (aKey : Key) (aValue : Value) : Option (BfLfu Key Value) :=
  let sHash := hash aKey
  if !c.bloom.check sHash then
    let c := { c with bloom := c.bloom.put sHash }
    if c.parent.size ≥ c.parent.maxSize then some c
    else c.parentPut aKey aValue 1
  else c.parentPut aKey aValue (1 + c.parent.cost)

/-- The put is turned away. -/
def Rejects (c : BfLfu Key Value) (aKey : Key) : Prop :=
  c.bloom.check (hash aKey) = false ∧ c.parent.maxSize ≤ c.parent.size

instance (c : BfLfu Key Value) (aKey : Key) : Decidable (c.Rejects hash aKey) :=
  inferInstanceAs (Decidable (_ ∧ _))

end BfLfu

variable {hash}

theorem parentPut_spec {c : BfLfu Key Value} (h : Valid c.parent) (aKey : Key) (aValue : Value)
    (sCost : UInt32) :
    ∃ c' evicted, c.parentPut aKey aValue sCost = some c' ∧ Valid c'.parent ∧
      c'.parent.contents = dropKeys (update c.parent.contents aKey (some aValue)) evicted := by
  obtain ⟨parent, evicted, hput, hparent, hcontents, -⟩ := h.put aKey aValue sCost
  refine ⟨{ c with parent := parent }, evicted, ?_, hparent, hcontents⟩
  simp only [BfLfu.parentPut, hput, Option.map_some]

theorem put_of_rejects {c : BfLfu Key Value} {aKey : Key} (h : c.Rejects hash aKey)
    (aValue : Value) :
    c.put hash aKey aValue = some { c with bloom := c.bloom.put (hash aKey) } := by
  simp [BfLfu.put, h.1, h.2]

theorem put_of_accepts {c : BfLfu Key Value} (hvalid : Valid c.parent) {aKey : Key}
    (h : ¬ c.Rejects hash aKey) (aValue : Value) :
    ∃ c' evicted, c.put hash aKey aValue = some c' ∧ Valid c'.parent ∧
      c'.parent.contents = dropKeys (update c.parent.contents aKey (some aValue)) evicted := by
  unfold BfLfu.put
  dsimp only
  split_ifs with hcheck hfull
  · exact absurd ⟨by simpa using hcheck, hfull⟩ h
  · exact parentPut_spec (c := { c with bloom := c.bloom.put (hash aKey) }) hvalid aKey aValue 1
  · exact parentPut_spec hvalid aKey aValue _

/-! ## Runs -/

inductive Op (Key Value : Type)
  | get (aKey : Key)
  | put (aKey : Key) (aValue : Value)

/-- The cache, and the value of the most recent put of each key. -/
structure State (Key Value : Type) where
  cache : BfLfu Key Value
  last : Key → Option Value := fun _ => none

variable (hash) in
def bfStep (s : State Key Value) : Op Key Value → Option (State Key Value)
  | .get aKey => (s.cache.get aKey).map fun x => { s with cache := x.1 }
  | .put aKey aValue =>
      (s.cache.put hash aKey aValue).map fun c =>
        { cache := c, last := update s.last aKey (some aValue) }

/-- A get returns null or the value of the most recent put, whatever the key. -/
def NoStale (s : State Key Value) : Prop :=
  ∀ k, ∃ c r, s.cache.get k = some (c, r) ∧ (r = none ∨ r = s.last k)

variable (hash) in
/-- No put is turned away while another value is stored under its key. -/
def Replaces (s : State Key Value) : Op Key Value → Prop
  | .get _ => True
  | .put aKey aValue => s.cache.Rejects hash aKey →
      s.cache.parent.contents aKey = none ∨ s.cache.parent.contents aKey = some aValue

/-- The same in terms of the contents. -/
structure Fresh (s : State Key Value) : Prop where
  valid : Valid s.cache.parent
  last : ∀ k, s.cache.parent.contents k = none ∨ s.cache.parent.contents k = s.last k

theorem noStale_iff {s : State Key Value} (hvalid : Valid s.cache.parent) :
    NoStale s ↔ ∀ k, s.cache.parent.contents k = none ∨ s.cache.parent.contents k = s.last k := by
  refine forall_congr' fun k => ?_
  obtain ⟨parent, hget, -⟩ := hvalid.get k
  have hresult : s.cache.get k =
      some ({ s.cache with parent := parent }, s.cache.parent.contents k) := by
    simp only [BfLfu.get, hget, Option.map_some]
  constructor
  · rintro ⟨c, r, hr, hlast⟩
    rw [hresult] at hr
    cases hr
    exact hlast
  · intro hlast
    exact ⟨_, _, hresult, hlast⟩

variable (hash) in
/-- A step from a fresh state leads to a fresh one exactly if the put replaces. -/
theorem bfStep_fresh {s : State Key Value} (h : Fresh s) (e : Op Key Value) :
    ∃ s', bfStep hash s e = some s' ∧ Valid s'.cache.parent ∧
      ((∀ k, s'.cache.parent.contents k = none ∨ s'.cache.parent.contents k = s'.last k) ↔
        Replaces hash s e) := by
  cases e with
  | get aKey =>
      obtain ⟨parent, hget, hparent, hsame, -⟩ := h.valid.get aKey
      refine ⟨{ s with cache := { s.cache with parent := parent } }, ?_, hparent, ?_⟩
      · simp only [bfStep, BfLfu.get, hget, Option.map_some]
      · dsimp only
        rw [hsame]
        exact iff_of_true h.last trivial
  | put aKey aValue =>
      by_cases hreject : s.cache.Rejects hash aKey
      · refine ⟨{ cache := { s.cache with bloom := s.cache.bloom.put (hash aKey) }
                  last := update s.last aKey (some aValue) }, ?_, h.valid, ?_⟩
        · simp only [bfStep, put_of_rejects hreject, Option.map_some]
        · constructor
          · intro hlast _
            have hkey := hlast aKey
            dsimp only at hkey
            rwa [Function.update_self] at hkey
          · intro hreplaces k
            dsimp only
            rcases eq_or_ne k aKey with heq | hne
            · rw [heq, Function.update_self]
              exact hreplaces hreject
            · rw [Function.update_of_ne hne]
              exact h.last k
      · obtain ⟨c, evicted, hput, hc, hcontents⟩ := put_of_accepts h.valid hreject aValue
        refine ⟨{ cache := c, last := update s.last aKey (some aValue) }, ?_, hc, ?_⟩
        · simp only [bfStep, hput, Option.map_some]
        · apply iff_of_true
          · intro k
            dsimp only
            rw [hcontents]
            exact last_put h.last aKey aValue evicted k
          · exact fun hrejects => absurd hrejects hreject

/-- No state of a run gives a stale value exactly if every put that the filter
turns away from the full cache finds no other value under its key. -/
theorem no_stale_iff_replaces (aSize : ℕ) (aCost aBloomBits aRotate : UInt32)
    (es : List (Op Key Value)) :
    Meets (lift (bfStep hash)) (On fun s e => Holds NoStale (bfStep hash s e))
      (some { cache := BfLfu.make aSize aCost aBloomBits aRotate }) es ↔
    Meets (lift (bfStep hash)) (On (Replaces hash))
      (some { cache := BfLfu.make aSize aCost aBloomBits aRotate }) es := by
  have hstart : Fresh ({ cache := BfLfu.make aSize aCost aBloomBits aRotate } :
      State Key Value) := by
    constructor
    · exact valid_start aSize aCost
    · exact fun k => Or.inl rfl
  apply lift_meets_iff _ _ hstart
  · intro s e h
    obtain ⟨s', hstep, hvalid, hiff⟩ := bfStep_fresh hash h e
    rw [← hiff, ← noStale_iff hvalid]
    constructor
    · rintro ⟨t, ht, hstale⟩
      cases hstep.symm.trans ht
      exact hstale
    · intro hstale
      exact ⟨s', hstep, hstale⟩
  · intro s e h hreplaces
    obtain ⟨s', hstep, hvalid, hiff⟩ := bfStep_fresh hash h e
    exact ⟨s', hstep, hvalid, hiff.mpr hreplaces⟩

/-- A cache of one entry and a filter that remembers one key: the second put of
the first key is turned away. -/
def rejectedRun : List (Op ℕ ℕ) := [.put 1 10, .put 2 20, .put 1 11]

theorem stale_after_rejected_put :
    let start : State ℕ ℕ := { cache := BfLfu.make 1 20 8 0 }
    let s := run (lift (bfStep fun k => [UInt32.ofNat k])) (some start) rejectedRun
    (s.map fun s => s.last 1) = some (some 11) ∧
      ((s.bind fun s => s.cache.get 1).map Prod.snd) = some (some 10) := by
  decide

end Stuff.CacheBfLfu
