import Stuff.CacheRingAge
import Stuff.NodeIndex
import Stuff.StoreLog

/-!
# The LFU cache

`LFU` keeps its entries in the ring of buckets and an index from keys to the
nodes. Eviction takes the entry that the clock comes to first and erases its key
in the handler of the ring's `Shrink`.
-/
namespace Stuff.CacheLfu
open CacheRingAge AgedQueue NodeIndex StoreLog EventRuns
open Function (update)

variable {Key Value : Type} [DecidableEq Key]

/-- New nodes get the addresses in turn. Whether an allocator uses the address
of a dead node again makes no difference: no iterator to it is left. -/
structure LFU (Key Value : Type) where
  age : RingAge Key Value bucketCount := {}
  keys : Index Key := ∅
  maxSize : ℕ
  cost : UInt32 := 20
  fresh : ℕ := 0

namespace LFU

def size (c : LFU Key Value) : ℕ := c.keys.size

/-- With the keys that the handler erased. No result means that the loop of the
ring does not end. -/
def shrink (c : LFU Key Value) : Option (LFU Key Value × List Key) :=
  if c.size ≤ c.maxSize then some (c, [])
  else
    match c.age.shrink with
    | none => none
    | some (aItem, age) =>
        some ({ c with age := age, keys := c.keys.erase aItem.key }, [aItem.key])

def get (c : LFU Key Value) (aKey : Key) : Option (LFU Key Value × Option Value) :=
  match c.keys.lookup aKey with
  | none => some (c, none)
  | some sIt => do
      let age ← c.age.refresh sIt c.cost
      let entry ← age.heap sIt
      some ({ c with age := age }, some entry.value)

/-- A new node at the end of the list that its cost gives. -/
def added (c : LFU Key Value) (aKey : Key) (aValue : Value) (aCost : UInt32) : LFU Key Value :=
  { c with
    age := c.age.insert c.fresh { key := aKey, value := aValue } aCost
    keys := c.keys.insert aKey c.fresh
    fresh := c.fresh + 1 }

def put (c : LFU Key Value) (aKey : Key) (aValue : Value) (aCost : UInt32 := 1) :
    Option (LFU Key Value × List Key) :=
  match c.keys.lookup aKey with
  | some sIt => do
      let age ← c.age.assign sIt aValue
      let age ← age.refresh sIt c.cost
      some ({ c with age := age }, [])
  | none => (c.added aKey aValue aCost).shrink

def remove (c : LFU Key Value) (aKey : Key) : Option (LFU Key Value) :=
  match c.keys.lookup aKey with
  | none => some c
  | some sIt => do
      let age ← c.age.remove sIt
      some { c with age := age, keys := c.keys.erase aKey }

/-- What the cache holds under a key. -/
def contents (c : LFU Key Value) : Key → Option Value := valueAt Entry.value c.age.heap c.keys

end LFU

/-! ## The index and the ring -/

/-- The index finds the nodes of the queue that the ring refines. -/
structure Represents (c : LFU Key Value) (q : Queue ℕ (Key × Value)) : Prop where
  ring : Refines c.age q
  index : Indexed Entry.key c.age.heap c.keys (q.items.map Item.name)
  fresh : ∀ it ∈ q.items.map Item.name, it < c.fresh

structure Valid (c : LFU Key Value) : Prop where
  represents : ∃ q, Represents c q
  size : c.size ≤ c.maxSize

theorem valid_start (maxSize : ℕ) (cost : UInt32) :
    Valid ({ maxSize := maxSize, cost := cost } : LFU Key Value) := by
  constructor
  · exact ⟨{}, refines_start, indexed_empty _ _, by simp⟩
  · exact Nat.zero_le _

namespace Represents
variable {c : LFU Key Value} {q : Queue ℕ (Key × Value)} {k : Key} {it : ℕ}

/-- A key of the index is that of an item. -/
theorem item (h : Represents c q) (hk : c.keys.lookup k = some it) :
    ∃ x ∈ q.items, x.name = it ∧ x.payload.1 = k := by
  obtain ⟨hmem, e, he, hkey⟩ := h.index.found k it hk
  obtain ⟨x, hx, rfl⟩ := List.mem_map.mp hmem
  rw [h.ring.heap x hx] at he
  cases he
  exact ⟨x, hx, rfl, hkey⟩

theorem contents_item (h : Represents c q) {x : Item ℕ (Key × Value)} (hx : x ∈ q.items) :
    c.contents x.payload.1 = some x.payload.2 := by
  exact h.index.valueAt_node Entry.value (List.mem_map_of_mem hx) (h.ring.heap x hx)

/-- The ring moves a node, or overwrites it, and the key stays. -/
theorem touched (h : Represents c q) {age : RingAge Key Value bucketCount}
    {q' : Queue ℕ (Key × Value)} {x : Item ℕ (Key × Value)} {e : Entry Key Value}
    (hring : Refines age q') (hnames : (q'.items.map Item.name).Perm (q.items.map Item.name))
    (hx : x ∈ q.items) (hheap : age.heap = update c.age.heap x.name (some e))
    (hkey : e.key = x.payload.1) :
    Represents { c with age := age } q' ∧
      LFU.contents { c with age := age } = update c.contents x.payload.1 (some e.value) := by
  have he := h.ring.heap x hx
  constructor
  · constructor
    · exact hring
    · rw [hheap]
      exact (h.index.assign he e hkey).perm hnames
    · intro it hit
      exact h.fresh it (hnames.mem_iff.mp hit)
  · unfold LFU.contents
    rw [hheap, h.index.valueAt_assign Entry.value (List.mem_map_of_mem hx) he e]
    rfl

/-- The ring lost an item, and the index its key. -/
theorem dropped (h : Represents c q) {age : RingAge Key Value bucketCount}
    {q' : Queue ℕ (Key × Value)} {x : Item ℕ (Key × Value)} (hring : Refines age q')
    (hx : x ∈ q.items) (hitems : q'.items = q.without x.name) :
    Represents { c with age := age, keys := c.keys.erase x.payload.1 } q' ∧
      LFU.contents { c with age := age, keys := c.keys.erase x.payload.1 } =
        update c.contents x.payload.1 none ∧
      LFU.size { c with age := age, keys := c.keys.erase x.payload.1 } = c.size - 1 := by
  have he := h.ring.heap x hx
  have hheap := h.ring.heap_without hring hitems
  have hnames : q'.items.map Item.name = (q.items.map Item.name).erase x.name := by
    rw [hitems, h.ring.valid.names_without]
  have hindex := h.index.erase (List.mem_map_of_mem hx) he
  rw [← hheap, ← hnames] at hindex
  refine ⟨⟨hring, hindex, ?_⟩, ?_, ?_⟩
  · intro it hit
    rw [hnames] at hit
    exact h.fresh it (List.mem_of_mem_erase hit)
  · unfold LFU.contents
    rw [hheap]
    exact h.index.valueAt_erase Entry.value he
  · unfold LFU.size
    rw [h.index.size_eq, ← List.length_erase_of_mem (List.mem_map_of_mem hx), ← hnames]
    exact hindex.size_eq

theorem added (h : Represents c q) (hk : c.keys.lookup k = none) (v : Value) (cost : UInt32) :
    (∃ q', Represents (c.added k v cost) q' ∧ q'.items ≠ []) ∧
      (c.added k v cost).contents = update c.contents k (some v) ∧
      (c.added k v cost).size = c.size + 1 := by
  have hfresh : c.fresh ∉ q.items.map Item.name := fun hmem => Nat.lt_irrefl _ (h.fresh _ hmem)
  have hring := h.ring.insert sized_bucketCount hfresh { key := k, value := v } cost
  have hindex := h.index.insert
    (e := { key := k, value := v, bucket := c.age.boundInc c.age.clock cost }) hfresh hk
  have hnames : ((q.insert bucketCount.toNat c.fresh (k, v) cost.toNat).items.map Item.name).Perm
      (c.fresh :: q.items.map Item.name) := by
    unfold Queue.insert
    rw [List.map_append]
    exact List.perm_append_comm
  refine ⟨⟨q.insert bucketCount.toNat c.fresh (k, v) cost.toNat, ⟨hring, ?_, ?_⟩, ?_⟩, ?_, ?_⟩
  · exact hindex.perm hnames
  · intro it hit
    rcases List.mem_cons.mp (hnames.mem_iff.mp hit) with heq | hmem
    · rw [heq]
      exact Nat.lt_succ_self _
    · exact Nat.lt_succ_of_lt (h.fresh it hmem)
  · simp [Queue.insert]
  · exact h.index.valueAt_insert Entry.value hfresh
  · unfold LFU.size
    rw [h.index.size_eq]
    exact hindex.size_eq

theorem shrink (h : Represents c q) (hitems : q.items ≠ []) (hsize : c.size ≤ c.maxSize + 1) :
    ∃ c' evicted, c.shrink = some (c', evicted) ∧ Valid c' ∧
      c'.contents = dropKeys c.contents evicted ∧ c'.maxSize = c.maxSize ∧ c'.cost = c.cost := by
  unfold LFU.shrink
  split_ifs with hfull
  · exact ⟨c, [], rfl, ⟨⟨q, h⟩, hfull⟩, (dropKeys_nil _).symm, rfl, rfl⟩
  · obtain ⟨x, age, q', hloop, hqueue, hring⟩ := h.ring.shrink sized_bucketCount hitems
    obtain ⟨hx, hwithout⟩ := Queue.shrink_eq_some hqueue
    obtain ⟨hrepresents, hcontents, hless⟩ := h.dropped hring hx hwithout
    refine ⟨{ c with age := age, keys := c.keys.erase x.payload.1 }, [x.payload.1], ?_,
      ⟨⟨q', hrepresents⟩, ?_⟩, ?_, rfl, rfl⟩
    · rw [hloop]
      rfl
    · rw [hless]
      exact Nat.sub_le_of_le_add hsize
    · rw [hcontents, dropKeys_singleton]

end Represents

/-! ## The operations -/

namespace Valid
variable {c : LFU Key Value}

/-- The result is what the cache holds, and the cache holds the same as before. -/
theorem get (h : Valid c) (k : Key) :
    ∃ c', c.get k = some (c', c.contents k) ∧ Valid c' ∧ c'.contents = c.contents ∧
      c'.maxSize = c.maxSize ∧ c'.cost = c.cost := by
  obtain ⟨q, hq⟩ := h.represents
  unfold LFU.get
  cases hk : c.keys.lookup k with
  | none =>
      rw [show c.contents k = none from (hq.index.valueAt_eq_none Entry.value).mpr hk]
      exact ⟨c, rfl, h, rfl, rfl, rfl⟩
  | some it =>
      obtain ⟨x, hx, rfl, rfl⟩ := hq.item hk
      obtain ⟨age, time, hrefresh, hring, hheap⟩ := hq.ring.moved sized_bucketCount hx c.cost
      have hvalue := hq.contents_item hx
      obtain ⟨hrepresents, hcontents⟩ :=
        hq.touched hring (hq.ring.valid.move_names hx time) hx hheap rfl
      refine ⟨{ c with age := age }, ?_, ⟨⟨_, hrepresents⟩, h.size⟩, ?_, rfl, rfl⟩
      · simp [hrefresh, hheap, hvalue, entryOf]
      · rw [hcontents]
        change update c.contents x.payload.1 (some x.payload.2) = _
        rw [← hvalue, Function.update_eq_self]

theorem put (h : Valid c) (k : Key) (v : Value) (cost : UInt32) :
    ∃ c' evicted, c.put k v cost = some (c', evicted) ∧ Valid c' ∧
      c'.contents = dropKeys (update c.contents k (some v)) evicted ∧
      c'.maxSize = c.maxSize ∧ c'.cost = c.cost := by
  obtain ⟨q, hq⟩ := h.represents
  unfold LFU.put
  cases hk : c.keys.lookup k with
  | none =>
      obtain ⟨⟨q', hadded, hitems⟩, hcontents, hsize⟩ := hq.added hk v cost
      have hroom := Nat.add_le_add_right h.size 1
      rw [← hsize] at hroom
      rw [← hcontents]
      exact hadded.shrink hitems hroom
  | some it =>
      obtain ⟨x, hx, rfl, rfl⟩ := hq.item hk
      obtain ⟨age, hassign, hring, hheap⟩ := hq.ring.assign hx v
      obtain ⟨hassigned, hcontents⟩ :=
        hq.touched hring (by rw [Queue.assign_names]) hx hheap rfl
      have hx' : { x with payload := (x.payload.1, v) } ∈
          (q.assign x.name (x.payload.1, v)).items := by
        unfold Queue.assign
        exact List.mem_map.mpr ⟨x, hx, if_pos rfl⟩
      obtain ⟨age', time, hrefresh, hring', hheap'⟩ := hring.moved sized_bucketCount hx' c.cost
      obtain ⟨hmoved, hcontents'⟩ :=
        hassigned.touched hring' (hring.valid.move_names hx' time) hx' hheap' rfl
      refine ⟨{ c with age := age' }, [], ?_, ⟨⟨_, hmoved⟩, h.size⟩, ?_, rfl, rfl⟩
      · simp only [hassign, Option.bind_eq_bind, Option.bind_some]
        dsimp only at hrefresh
        rw [hrefresh, Option.bind_some]
      · rw [dropKeys_nil]
        refine hcontents'.trans ?_
        rw [hcontents]
        exact Function.update_idem _ _ _

theorem remove (h : Valid c) (k : Key) :
    ∃ c', c.remove k = some c' ∧ Valid c' ∧ c'.contents = update c.contents k none ∧
      c'.maxSize = c.maxSize ∧ c'.cost = c.cost := by
  obtain ⟨q, hq⟩ := h.represents
  unfold LFU.remove
  cases hk : c.keys.lookup k with
  | none =>
      have hnone : c.contents k = none := (hq.index.valueAt_eq_none Entry.value).mpr hk
      refine ⟨c, rfl, h, ?_, rfl, rfl⟩
      rw [← hnone, Function.update_eq_self]
  | some it =>
      obtain ⟨x, hx, rfl, rfl⟩ := hq.item hk
      obtain ⟨age, hremove, hring⟩ := hq.ring.remove sized_bucketCount hx
      obtain ⟨hrepresents, hcontents, hless⟩ := hq.dropped hring hx rfl
      refine ⟨{ c with age := age, keys := c.keys.erase x.payload.1 }, ?_,
        ⟨⟨_, hrepresents⟩, ?_⟩, hcontents, rfl, rfl⟩
      · simp [hremove]
      · rw [hless]
        exact Nat.le_trans (Nat.sub_le _ _) h.size

end Valid

/-! ## Runs -/

inductive Op (Key Value : Type)
  | get (aKey : Key)
  | put (aKey : Key) (aValue : Value) (aCost : UInt32)
  | remove (aKey : Key)

/-- The cache and its log, newest entry first. -/
def lfuStep (s : LFU Key Value × List (Fate Key Value)) :
    Op Key Value → Option (LFU Key Value × List (Fate Key Value))
  | .get aKey => (s.1.get aKey).map fun x => (x.1, s.2)
  | .put aKey aValue aCost =>
      (s.1.put aKey aValue aCost).map fun x =>
        (x.1, x.2.map .evicted ++ .put aKey aValue :: s.2)
  | .remove aKey => (s.1.remove aKey).map fun c => (c, .removed aKey :: s.2)

/-- The cache holds what its log says. -/
def Logged (maxSize : ℕ) (s : LFU Key Value × List (Fate Key Value)) : Prop :=
  Valid s.1 ∧ s.1.contents = current s.2 ∧ s.1.maxSize = maxSize

theorem lfuStep_logged {maxSize : ℕ} (s : LFU Key Value × List (Fate Key Value))
    (e : Op Key Value) (h : Logged maxSize s) : Holds (Logged maxSize) (lfuStep s e) := by
  obtain ⟨hvalid, hcontents, hmax⟩ := h
  cases e with
  | get aKey =>
      obtain ⟨c, hget, hc, hsame, hmax', -⟩ := hvalid.get aKey
      refine ⟨(c, s.2), ?_, hc, hsame.trans hcontents, hmax'.trans hmax⟩
      simp only [lfuStep, hget, Option.map_some]
  | put aKey aValue aCost =>
      obtain ⟨c, evicted, hput, hc, hdrop, hmax', -⟩ := hvalid.put aKey aValue aCost
      refine ⟨(c, evicted.map .evicted ++ .put aKey aValue :: s.2), ?_, hc, ?_, hmax'.trans hmax⟩
      · simp only [lfuStep, hput, Option.map_some]
      · rw [hdrop, hcontents, current_evicted, current]
  | remove aKey =>
      obtain ⟨c, hremove, hc, hless, hmax', -⟩ := hvalid.remove aKey
      refine ⟨(c, .removed aKey :: s.2), ?_, hc, ?_, hmax'.trans hmax⟩
      · simp only [lfuStep, hremove, Option.map_some]
      · rw [hless, hcontents, current]

/-- The index and the lists hold the same nodes, and the fields of a node say
where it is. -/
structure InStep (c : LFU Key Value) : Prop where
  keyed : ∀ k it, c.keys.lookup k = some it →
    ∃ e, c.age.heap it = some e ∧ e.key = k ∧ e.bucket < bucketCount ∧
      it ∈ c.age.ring e.bucket.toNat
  listed : ∀ b < bucketCount.toNat, ∀ it ∈ c.age.ring b,
    ∃ e, c.age.heap it = some e ∧ e.bucket.toNat = b ∧ c.keys.lookup e.key = some it
  nodup : ∀ b < bucketCount.toNat, (c.age.ring b).Nodup

theorem Represents.inStep {c : LFU Key Value} {q : Queue ℕ (Key × Value)} (h : Represents c q) :
    InStep c := by
  constructor
  · intro k it hk
    obtain ⟨x, hx, rfl, rfl⟩ := h.item hk
    have hlt := Nat.mod_lt x.time sized_bucketCount.pos
    have hbucket := bucket_toNat sized_bucketCount x
    refine ⟨entryOf bucketCount x, h.ring.heap x hx, rfl, ?_, ?_⟩
    · rw [UInt32.lt_iff_toNat_lt, hbucket]
      exact hlt
    · rw [hbucket, h.ring.ring _ hlt]
      apply List.mem_map_of_mem
      rw [List.mem_filter, decide_eq_true_eq]
      exact ⟨hx, rfl⟩
  · intro b hb it hit
    rw [h.ring.ring b hb] at hit
    obtain ⟨x, hx, rfl⟩ := List.mem_map.mp hit
    rw [List.mem_filter, decide_eq_true_eq] at hx
    obtain ⟨e, he, hlookup⟩ := h.index.listed x.name (List.mem_map_of_mem hx.1)
    rw [h.ring.heap x hx.1] at he
    cases he
    exact ⟨entryOf bucketCount x, h.ring.heap x hx.1,
      (bucket_toNat sized_bucketCount x).trans hx.2, hlookup⟩
  · intro b hb
    rw [h.ring.ring b hb]
    exact h.ring.valid.names.sublist (List.filter_sublist.map Item.name)

/-- Every run has a result, so no eviction goes on for ever. In it the index and
the ring are in step, the cache is within its capacity, and a get returns what
the log says: the value put last, if the key was not removed or evicted since. -/
theorem lfu_in_step (maxSize : ℕ) (cost : UInt32) (es : List (Op Key Value)) :
    Holds (fun s => InStep s.1 ∧ s.1.size ≤ maxSize ∧
        ∀ k, ∃ c, s.1.get k = some (c, current s.2 k))
      (run (lift lfuStep)
        (some (({ maxSize := maxSize, cost := cost } : LFU Key Value), [])) es) := by
  have hstart : Logged maxSize (({ maxSize := maxSize, cost := cost } : LFU Key Value), []) :=
    ⟨valid_start maxSize cost, rfl, rfl⟩
  apply (lift_run lfuStep_logged hstart es).mono
  intro s h
  obtain ⟨hvalid, hcontents, hmax⟩ := h
  obtain ⟨q, hq⟩ := hvalid.represents
  refine ⟨hq.inStep, hmax ▸ hvalid.size, ?_⟩
  intro k
  obtain ⟨c, hget, -⟩ := hvalid.get k
  rw [hcontents] at hget
  exact ⟨c, hget⟩

end Stuff.CacheLfu
