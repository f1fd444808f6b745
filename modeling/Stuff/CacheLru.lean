import Stuff.EventRuns
import Stuff.NodeIndex
import Stuff.Recency
import Stuff.StoreLog

/-!
# The LRU cache

A list of nodes in the order of their last use, and an index from keys to the
nodes. A use splices a node to the front; a put that makes the list too long
removes the last node through its own key.
-/
namespace Stuff.CacheLru
open NodeIndex Recency StoreLog EventRuns
open Function (update)

variable {Key Value : Type} [DecidableEq Key]

/-- The nodes are pairs on a heap, and iterators are their addresses. New nodes
get the addresses in turn. -/
structure LRU (Key Value : Type) where
  lru : List ℕ := []
  heap : Heap (Key × Value) := fun _ => none
  index : Index Key := ∅
  maxSize : ℕ
  fresh : ℕ := 0

namespace LRU

def size (c : LRU Key Value) : ℕ := c.index.size

/-- The node is spliced to the front. -/
def update (c : LRU Key Value) (i : ℕ) : LRU Key Value := { c with lru := i :: c.lru.erase i }

def insert (c : LRU Key Value) (key : Key) (value : Value) : LRU Key Value :=
  { c with
    lru := c.fresh :: c.lru
    heap := Function.update c.heap c.fresh (some (key, value))
    index := c.index.insert key c.fresh
    fresh := c.fresh + 1 }

/-- The iterator is used without a look whether there is one: no result for a key
that is not in the index. -/
def remove (c : LRU Key Value) (key : Key) : Option (LRU Key Value) :=
  match c.index.lookup key with
  | none => none
  | some i =>
      match c.heap i with
      | none => none
      | some _ => some { c with
          lru := c.lru.erase i
          heap := Function.update c.heap i none
          index := c.index.erase key }

def shrink (c : LRU Key Value) : Option (LRU Key Value) :=
  if c.lru.length ≤ c.maxSize then some c
  else do
    let last ← c.lru.getLast?
    let e ← c.heap last
    c.remove e.1

def get (c : LRU Key Value) (key : Key) : Option (LRU Key Value × Option Value) :=
  match c.index.lookup key with
  | none => some (c, none)
  | some i =>
      match c.heap i with
      | none => none
      | some e => some (c.update i, some e.2)

def put (c : LRU Key Value) (key : Key) (value : Value) : Option (LRU Key Value) :=
  match c.index.lookup key with
  | none => (c.insert key value).shrink
  | some i =>
      match c.heap i with
      | none => none
      | some e =>
          let c := c.update i
          some { c with heap := Function.update c.heap i (some (e.1, value)) }

/-- The keys, the last used one first. -/
def keys (c : LRU Key Value) : List Key := keysOf Prod.fst c.heap c.lru

def contents (c : LRU Key Value) : Key → Option Value := valueAt Prod.snd c.heap c.index

end LRU

/-! ## The list and the index -/

/-- The index maps the keys of the list to their nodes. -/
structure Represents (c : LRU Key Value) : Prop where
  index : Indexed Prod.fst c.heap c.index c.lru
  fresh : ∀ i ∈ c.lru, i < c.fresh

structure Valid (c : LRU Key Value) : Prop extends Represents c where
  size : c.lru.length ≤ c.maxSize

theorem valid_start (maxSize : ℕ) : Valid ({ maxSize := maxSize } : LRU Key Value) := by
  constructor
  · exact ⟨indexed_empty _ _, by simp⟩
  · exact Nat.zero_le _

namespace Represents
variable {c : LRU Key Value} {k : Key} {i : ℕ}

/-- The node under a key of the index. -/
theorem node (h : Represents c) (hk : c.index.lookup k = some i) :
    i ∈ c.lru ∧ ∃ v, c.heap i = some (k, v) ∧ c.contents k = some v := by
  obtain ⟨hmem, e, he, hkey⟩ := h.index.found k i hk
  refine ⟨hmem, e.2, ?_, ?_⟩
  · rw [he, ← hkey]
  · rw [← hkey]
    exact h.index.valueAt_node Prod.snd hmem he

theorem mem_keys (h : Represents c) : k ∈ c.keys ↔ c.index.lookup k ≠ none := by
  unfold LRU.keys
  rw [h.index.mem_keysOf, ← AList.lookup_isSome, Option.isSome_iff_ne_none]

/-- A use brings the key to the front. -/
theorem updated (h : Represents c) (hi : i ∈ c.lru) {v : Value} (he : c.heap i = some (k, v)) :
    Represents (c.update i) ∧ (c.update i).keys = k :: c.keys.erase k ∧
      (c.update i).lru.length = c.lru.length := by
  have hperm := List.perm_cons_erase hi
  refine ⟨⟨h.index.perm hperm.symm, ?_⟩, ?_, hperm.symm.length_eq⟩
  · intro j hj
    exact h.fresh j (hperm.mem_iff.mpr hj)
  · unfold LRU.keys LRU.update
    rw [keysOf_cons he, h.index.keys_erase hi he]

theorem contents_eq_none (h : Represents c) : c.contents k = none ↔ k ∉ c.keys := by
  rw [h.mem_keys, not_not]
  exact h.index.valueAt_eq_none Prod.snd

theorem remove (h : Represents c) (hk : c.index.lookup k = some i) :
    ∃ c', c.remove k = some c' ∧ Represents c' ∧ c'.keys = c.keys.erase k ∧
      c'.lru = c.lru.erase i ∧ c'.contents = Function.update c.contents k none ∧
      c'.maxSize = c.maxSize := by
  obtain ⟨hi, v, he, -⟩ := h.node hk
  have hgone : i ∉ c.lru.erase i := fun hmem => (h.index.nodup.mem_erase_iff.mp hmem).1 rfl
  refine ⟨{ c with
    lru := c.lru.erase i
    heap := Function.update c.heap i none
    index := c.index.erase k }, ?_, ⟨h.index.erase hi he, ?_⟩, ?_, rfl, ?_, rfl⟩
  · unfold LRU.remove
    simp only [hk, he]
  · intro j hj
    exact h.fresh j (List.mem_of_mem_erase hj)
  · unfold LRU.keys
    dsimp only
    rw [keysOf_update hgone, h.index.keys_erase hi he]
  · exact h.index.valueAt_erase Prod.snd he

theorem inserted (h : Represents c) (hk : c.index.lookup k = none) (v : Value) :
    Represents (c.insert k v) ∧ (c.insert k v).keys = k :: c.keys ∧
      (c.insert k v).contents = Function.update c.contents k (some v) := by
  have hfresh : c.fresh ∉ c.lru := fun hmem => Nat.lt_irrefl _ (h.fresh _ hmem)
  refine ⟨⟨h.index.insert (e := (k, v)) hfresh hk, ?_⟩, ?_, ?_⟩
  · intro j hj
    rcases List.mem_cons.mp hj with heq | hmem
    · rw [heq]
      exact Nat.lt_succ_self _
    · exact Nat.lt_succ_of_lt (h.fresh j hmem)
  · unfold LRU.keys LRU.insert
    rw [keysOf_cons (Function.update_self _ _ _), keysOf_update hfresh]
  · exact h.index.valueAt_insert (e := (k, v)) Prod.snd hfresh

/-- One node too many: the last one goes, found through its key. -/
theorem shrink (h : Represents c) (hlen : c.lru.length ≤ c.maxSize + 1) :
    ∃ c' evicted, c.shrink = some c' ∧ Valid c' ∧ c'.keys = c.keys.take c.maxSize ∧
      c'.contents = dropKeys c.contents evicted ∧ c'.maxSize = c.maxSize := by
  have hkeys : c.keys.length = c.lru.length := h.index.keysOf_length
  unfold LRU.shrink
  split_ifs with hfull
  · refine ⟨c, [], rfl, ⟨h, hfull⟩, ?_, (dropKeys_nil _).symm, rfl⟩
    rw [List.take_of_length_le (hkeys ▸ hfull)]
  · obtain ⟨last, hlast⟩ := exists_last hfull
    obtain ⟨rest, hrest⟩ := List.getLast?_eq_some_iff.mp hlast
    have hmem : last ∈ c.lru := by simp [hrest]
    obtain ⟨e, he, hlookup⟩ := h.index.listed last hmem
    obtain ⟨c', hremove, hc, hkeys', hlru, hcontents, hmax⟩ := h.remove hlookup
    have hback : c.keys = keysOf Prod.fst c.heap rest ++ [e.1] := by
      unfold LRU.keys keysOf
      rw [hrest, List.filterMap_append]
      simp [he]
    have hrestlen : c.keys.length = (keysOf Prod.fst c.heap rest).length + 1 := by
      rw [hback, List.length_append, List.length_singleton]
    refine ⟨c', [e.1], ?_, ⟨hc, ?_⟩, ?_, ?_, hmax⟩
    · simp [hlast, he, hremove]
    · rw [hlru, List.length_erase_of_mem hmem, hmax]
      exact Nat.sub_le_of_le_add hlen
    · have hnodup : c.keys.Nodup := h.index.keysOf_nodup
      rw [hkeys']
      rw [hback] at hnodup ⊢
      rw [erase_last hnodup, List.take_left' (by omega)]
    · rw [hcontents, dropKeys_singleton]

end Represents

/-! ## The operations -/

namespace Valid
variable {c : LRU Key Value} {k : Key}

theorem get (h : Valid c) (k : Key) :
    ∃ c', c.get k = some (c', c.contents k) ∧ Valid c' ∧ c'.contents = c.contents ∧
      c'.keys = (if c.contents k = none then c.keys else k :: c.keys.erase k) ∧
      c'.maxSize = c.maxSize := by
  unfold LRU.get
  cases hk : c.index.lookup k with
  | none =>
      have hnone : c.contents k = none := (h.index.valueAt_eq_none Prod.snd).mpr hk
      rw [hnone, if_pos rfl]
      exact ⟨c, rfl, h, rfl, rfl, rfl⟩
  | some i =>
      obtain ⟨hi, v, he, hvalue⟩ := h.node hk
      obtain ⟨hc, hkeys, hlen⟩ := h.updated hi he
      rw [hvalue, if_neg (Option.some_ne_none v)]
      exact ⟨c.update i, by simp only [he], ⟨hc, hlen ▸ h.size⟩, rfl, hkeys, rfl⟩

theorem put (h : Valid c) (k : Key) (v : Value) :
    ∃ c' evicted, c.put k v = some c' ∧ Valid c' ∧
      c'.contents = dropKeys (Function.update c.contents k (some v)) evicted ∧
      c'.keys = (if k ∈ c.keys then k :: c.keys.erase k else (k :: c.keys).take c.maxSize) ∧
      c'.maxSize = c.maxSize := by
  unfold LRU.put
  cases hk : c.index.lookup k with
  | none =>
      obtain ⟨hinserted, hkeys, hcontents⟩ := h.inserted hk v
      obtain ⟨c', evicted, hshrink, hc, htake, hdrop, hmax⟩ :=
        hinserted.shrink (Nat.add_le_add_right h.size 1)
      refine ⟨c', evicted, hshrink, hc, hcontents ▸ hdrop, ?_, hmax⟩
      rw [if_neg fun hmem => h.mem_keys.mp hmem hk, htake, hkeys]
      rfl
  | some i =>
      obtain ⟨hi, v₀, he, -⟩ := h.node hk
      obtain ⟨hc, hkeys, hlen⟩ := h.updated hi he
      have hassign := hc.index.assign he (k, v) rfl
      have hpresent : k ∈ c.keys := h.mem_keys.mpr (hk ▸ Option.some_ne_none i)
      rw [if_pos hpresent]
      refine ⟨{ c.update i with heap := Function.update c.heap i (some (k, v)) }, [],
        by simp only [he]; rfl, ⟨⟨hassign, hc.fresh⟩, hlen ▸ h.size⟩, ?_, ?_, rfl⟩
      · rw [dropKeys_nil]
        exact h.index.valueAt_assign Prod.snd hi he (k, v)
      · rw [← hkeys]
        exact keysOf_assign he (k, v) rfl _

theorem remove (h : Valid c) (hk : c.contents k ≠ none) :
    ∃ c', c.remove k = some c' ∧ Valid c' ∧ c'.contents = Function.update c.contents k none ∧
      c'.maxSize = c.maxSize := by
  cases hlookup : c.index.lookup k with
  | none => exact absurd ((h.index.valueAt_eq_none Prod.snd).mpr hlookup) hk
  | some i =>
      obtain ⟨c', hremove, hc, -, hlru, hcontents, hmax⟩ := h.toRepresents.remove hlookup
      refine ⟨c', hremove, ⟨hc, ?_⟩, hcontents, hmax⟩
      rw [hlru, hmax]
      exact Nat.le_trans List.length_erase_le h.size

end Valid

/-! ## Runs -/

inductive Op (Key Value : Type)
  | get (key : Key)
  | put (key : Key) (value : Value)
  | remove (key : Key)
deriving DecidableEq

/-- The cache, the keys used so far with the newest first, and the values put
last. -/
structure State (Key Value : Type) where
  cache : LRU Key Value
  uses : List Key := []
  last : Key → Option Value := fun _ => none

/-- A get is a use if the key is in the cache. -/
def lruStep (s : State Key Value) : Op Key Value → Option (State Key Value)
  | .get key => (s.cache.get key).map fun x =>
      { s with cache := x.1, uses := if key ∈ s.cache.keys then key :: s.uses else s.uses }
  | .put key value => (s.cache.put key value).map fun c =>
      { cache := c, uses := key :: s.uses, last := Function.update s.last key (some value) }
  | .remove key => (s.cache.remove key).map fun c => { s with cache := c }

/-- Only keys in the cache are removed. -/
def Present (s : State Key Value) : Op Key Value → Prop
  | .remove key => key ∈ s.cache.keys
  | _ => True

instance (s : State Key Value) : (e : Op Key Value) → Decidable (Present s e)
  | .get _ => inferInstanceAs (Decidable True)
  | .put _ _ => inferInstanceAs (Decidable True)
  | .remove key => inferInstanceAs (Decidable (key ∈ s.cache.keys))

def Unremoved (_ : State Key Value) (e : Op Key Value) : Prop := ∀ key, e ≠ .remove key

/-- The cache is within its capacity and holds no value that is not the last one
put. -/
structure Stored (maxSize : ℕ) (s : State Key Value) : Prop where
  valid : Valid s.cache
  max : s.cache.maxSize = maxSize
  last : ∀ k, s.cache.contents k = none ∨ s.cache.contents k = s.last k

/-- The keys are the most recent ones of the history. -/
structure Recent (maxSize : ℕ) (s : State Key Value) : Prop extends Stored maxSize s where
  keys : s.cache.keys = s.uses.eraseDups.take maxSize

theorem lruStep_stored {maxSize : ℕ} (s : State Key Value) (e : Op Key Value)
    (h : Stored maxSize s) (he : Present s e) : Holds (Stored maxSize) (lruStep s e) := by
  cases e with
  | get key =>
      obtain ⟨c, hget, hc, hcontents, -, hmax⟩ := h.valid.get key
      refine ⟨_, by simp only [lruStep, hget, Option.map_some]; rfl, hc, hmax.trans h.max, ?_⟩
      intro k
      dsimp only
      rw [hcontents]
      exact h.last k
  | put key value =>
      obtain ⟨c, evicted, hput, hc, hcontents, -, hmax⟩ := h.valid.put key value
      refine ⟨_, by simp only [lruStep, hput, Option.map_some]; rfl, hc, hmax.trans h.max, ?_⟩
      intro k
      dsimp only
      rw [hcontents]
      exact last_put h.last key value evicted k
  | remove key =>
      have hpresent : s.cache.contents key ≠ none := fun hnone =>
        h.valid.contents_eq_none.mp hnone he
      obtain ⟨c, hremove, hc, hcontents, hmax⟩ := h.valid.remove hpresent
      refine ⟨_, by simp only [lruStep, hremove, Option.map_some]; rfl, hc, hmax.trans h.max, ?_⟩
      intro k
      dsimp only
      rw [hcontents]
      rcases eq_or_ne k key with heq | hne
      · rw [heq, Function.update_self]
        exact Or.inl rfl
      · rw [Function.update_of_ne hne]
        exact h.last k

theorem lruStep_recent {maxSize : ℕ} (s : State Key Value) (e : Op Key Value)
    (h : Recent maxSize s) (he : Unremoved s e) : Holds (Recent maxSize) (lruStep s e) := by
  have hpresent : Present s e := by
    cases e with
    | get key => trivial
    | put key value => trivial
    | remove key => exact absurd rfl (he key)
  obtain ⟨s', hs', hstored⟩ := lruStep_stored s e h.toStored hpresent
  refine ⟨s', hs', hstored, ?_⟩
  cases e with
  | get key =>
      obtain ⟨c, hget, -, -, hkeys, -⟩ := h.valid.get key
      simp only [lruStep, hget, Option.map_some, Option.some.injEq] at hs'
      subst hs'
      dsimp only
      rw [hkeys]
      by_cases hmem : key ∈ s.cache.keys
      · rw [if_neg fun hnone => h.valid.contents_eq_none.mp hnone hmem, if_pos hmem, h.keys]
        rw [h.keys] at hmem
        rw [eraseDups_cons_erase, take_hit hmem]
      · rw [if_pos (h.valid.contents_eq_none.mpr hmem), if_neg hmem, h.keys]
  | put key value =>
      obtain ⟨c, evicted, hput, -, -, hkeys, -⟩ := h.valid.put key value
      simp only [lruStep, hput, Option.map_some, Option.some.injEq] at hs'
      subst hs'
      dsimp only
      rw [hkeys, h.max, h.keys, eraseDups_cons_erase]
      split_ifs with hmem
      · rw [take_hit hmem]
      · rw [take_miss hmem]
  | remove key => exact absurd rfl (he key)

/-- What `Get` returns: the value of the last put, or nothing if the key is not there. -/
theorem Stored.get {maxSize : ℕ} {s : State Key Value} (h : Stored maxSize s) (k : Key) :
    ∃ c, s.cache.get k = some (c, if k ∈ s.cache.keys then s.last k else none) := by
  obtain ⟨c, hget, -⟩ := h.valid.get k
  refine ⟨c, ?_⟩
  rw [hget]
  split_ifs with hmem
  · rcases h.last k with hnone | hlast
    · exact absurd hmem (h.valid.contents_eq_none.mp hnone)
    · rw [hlast]
  · rw [h.valid.contents_eq_none.mpr hmem]

/-- In every run the index maps the keys of the list to their nodes, the keys are
distinct and within the capacity, and each has the value of its last put, which is what
`Get` returns; without removes, the list is the most recently used keys of the history. -/
theorem lru_refines_recency (maxSize : ℕ) (es : List (Op Key Value))
    (h : Meets (lift lruStep) (On Present) (some { cache := { maxSize := maxSize } }) es) :
    Holds (fun s => Indexed Prod.fst s.cache.heap s.cache.index s.cache.lru ∧
        s.cache.keys.Nodup ∧ s.cache.keys.length ≤ maxSize ∧
        (∀ i ∈ s.cache.lru, ∃ k v, s.cache.heap i = some (k, v) ∧ s.last k = some v) ∧
        ∀ k, ∃ c, s.cache.get k = some (c, if k ∈ s.cache.keys then s.last k else none))
      (run (lift lruStep) (some { cache := { maxSize := maxSize } }) es) ∧
    ((∀ e ∈ es, ∀ key, e ≠ .remove key) →
      Holds (fun s => s.cache.keys = s.uses.eraseDups.take maxSize)
        (run (lift lruStep) (some { cache := { maxSize := maxSize } }) es)) := by
  have hstart : Stored maxSize ({ cache := { maxSize := maxSize } } : State Key Value) :=
    ⟨valid_start maxSize, rfl, fun _ => Or.inl rfl⟩
  constructor
  · apply (lift_invariant lruStep_stored hstart h).mono
    intro s hs
    have hindex := hs.valid.index
    refine ⟨hindex, hindex.keysOf_nodup, ?_, ?_, hs.get⟩
    · rw [← hs.max]
      exact hindex.keysOf_length ▸ hs.valid.size
    · intro i hi
      obtain ⟨e, he, hlookup⟩ := hindex.listed i hi
      have hvalue := hindex.valueAt_node Prod.snd hi he
      refine ⟨e.1, e.2, he, ?_⟩
      rcases hs.last e.1 with hnone | hsome
      · cases hvalue.symm.trans hnone
      · exact hsome.symm.trans hvalue
  · intro hkept
    have hall : Meets (lift lruStep) (On Unremoved)
        (some ({ cache := { maxSize := maxSize } } : State Key Value)) es := by
      apply meets_of_forall
      intro e he t
      cases t with
      | none => trivial
      | some s => exact hkept e he
    have hrecent : Recent maxSize ({ cache := { maxSize := maxSize } } : State Key Value) :=
      ⟨hstart, by simp [LRU.keys, keysOf]⟩
    apply (lift_invariant lruStep_recent hrecent hall).mono
    intro s hs
    exact hs.keys

/-- A get saves the first key, the second one is evicted, and the third one is
removed. -/
def evictingRun : List (Op ℕ ℕ) := [.put 1 10, .put 2 20, .get 1, .put 3 30, .get 2, .put 1 11]

theorem lru_refines_recency_evicting :
    let start : State ℕ ℕ := { cache := { maxSize := 2 } }
    let es := evictingRun ++ [.remove 3]
    Meets (lift lruStep) (On Present) (some start) es ∧
    Holds (fun s => Indexed Prod.fst s.cache.heap s.cache.index s.cache.lru ∧
        s.cache.keys.Nodup ∧ s.cache.keys.length ≤ 2 ∧
        (∀ i ∈ s.cache.lru, ∃ k v, s.cache.heap i = some (k, v) ∧ s.last k = some v) ∧
        ∀ k, ∃ c, s.cache.get k = some (c, if k ∈ s.cache.keys then s.last k else none))
      (run (lift lruStep) (some start) es) ∧
    Holds (fun s => s.cache.keys = s.uses.eraseDups.take 2)
      (run (lift lruStep) (some start) evictingRun) ∧
    (run (lift lruStep) (some start) evictingRun).map (fun s => (s.cache.keys, s.uses)) =
      some ([1, 3], [1, 3, 1, 2, 1]) := by
  intro start es
  have hes : Meets (lift lruStep) (On Present) (some start) es := by decide
  have hrun : Meets (lift lruStep) (On Present) (some start) evictingRun := by decide
  exact ⟨hes, (lru_refines_recency 2 es hes).1,
    (lru_refines_recency 2 evictingRun hrun).2 (by simp [evictingRun]), by decide⟩

end Stuff.CacheLru
