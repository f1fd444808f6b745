import Stuff.EventRuns
import Stuff.NodeIndex
import Stuff.Recency
import Stuff.StoreLog

/-!
# The segmented LRU cache

New entries go to the normal list; a use brings an entry to the front of the
protected list, and an entry too many there goes back to the front of the normal
list. Each node has a flag that says which list it is in.
-/
namespace Stuff.CacheSLru
open NodeIndex Recency StoreLog EventRuns
open Function (update)

variable {Key Value : Type} [DecidableEq Key]

structure Entry (Key Value : Type) where
  key : Key
  value : Value
  prot : Bool := false
deriving DecidableEq, Repr

structure SLRU (Key Value : Type) where
  mNormal : List ℕ := []
  mProtected : List ℕ := []
  heap : Heap (Entry Key Value) := fun _ => none
  index : Index Key := ∅
  maxSize : ℕ
  fresh : ℕ := 0

namespace SLRU

def size (c : SLRU Key Value) : ℕ := c.index.size

/-- From the normal list to the front of the protected one. -/
def promoted (c : SLRU Key Value) (i : ℕ) (e : Entry Key Value) : SLRU Key Value :=
  { c with
    mNormal := c.mNormal.erase i
    mProtected := i :: c.mProtected
    heap := Function.update c.heap i (some { e with prot := true }) }

/-- From the protected list to the front of the normal one. -/
def demoted (c : SLRU Key Value) (i : ℕ) (e : Entry Key Value) : SLRU Key Value :=
  { c with
    mNormal := i :: c.mNormal
    mProtected := c.mProtected.erase i
    heap := Function.update c.heap i (some { e with prot := false }) }

/-- No result if the iterator is not valid. -/
def update (c : SLRU Key Value) (i : ℕ) : Option (SLRU Key Value) :=
  match c.heap i with
  | none => none
  | some e =>
      if e.prot then some { c with mProtected := i :: c.mProtected.erase i }
      else
        let c := c.promoted i e
        if c.mProtected.length > c.maxSize / 2 then do
          let sIter ← c.mProtected.getLast?
          let last ← c.heap sIter
          some (c.demoted sIter last)
        else some c

def insert (c : SLRU Key Value) (key : Key) (value : Value) : SLRU Key Value :=
  { c with
    mNormal := c.fresh :: c.mNormal
    heap := Function.update c.heap c.fresh (some { key := key, value := value, prot := false })
    index := c.index.insert key c.fresh
    fresh := c.fresh + 1 }

/-- The cache afterwards, and what was thrown. No result for a key that is not in
the index: the iterator is used without a look. -/
def remove (c : SLRU Key Value) (key : Key) : Option (SLRU Key Value × Except String Unit) :=
  match c.index.lookup key with
  | none => none
  | some i =>
      match c.heap i with
      | none => none
      | some e =>
          if e.prot then some (c, .error "S_LRU::Remove on protected list")
          else some ({ c with
            mNormal := c.mNormal.erase i
            heap := Function.update c.heap i none
            index := c.index.erase key }, .ok ())

def shrink (c : SLRU Key Value) : Option (SLRU Key Value × Except String Unit) :=
  if c.mNormal.length ≤ c.maxSize / 2 then some (c, .ok ())
  else do
    let last ← c.mNormal.getLast?
    let e ← c.heap last
    c.remove e.key

def get (c : SLRU Key Value) (key : Key) : Option (SLRU Key Value × Option Value) :=
  match c.index.lookup key with
  | none => some (c, none)
  | some i => do
      let c ← c.update i
      let e ← c.heap i
      some (c, some e.value)

/-- The value behind an iterator is overwritten. -/
def assign (c : SLRU Key Value) (i : ℕ) (value : Value) : Option (SLRU Key Value) := do
  let e ← c.heap i
  some { c with heap := Function.update c.heap i (some { e with value := value }) }

def put (c : SLRU Key Value) (key : Key) (value : Value) :
    Option (SLRU Key Value × Except String Unit) :=
  match c.index.lookup key with
  | none => (c.insert key value).shrink
  | some i => do
      let c ← c.update i
      let c ← c.assign i value
      some (c, .ok ())

def contents (c : SLRU Key Value) : Key → Option Value := valueAt Entry.value c.heap c.index

end SLRU

/-! ## Two lists and a flag -/

/-- The nodes of two lists, and the flag that those of each list have. -/
structure Split (f g : Bool) (heap : Heap (Entry Key Value)) (index : Index Key)
    (a b : List ℕ) : Prop where
  index : Indexed Entry.key heap index (a ++ b)
  left : ∀ i ∈ a, ∀ e, heap i = some e → e.prot = f
  right : ∀ i ∈ b, ∀ e, heap i = some e → e.prot = g

namespace Split
variable {f g : Bool} {heap : Heap (Entry Key Value)} {index : Index Key} {a b : List ℕ}
  {i : ℕ} {e : Entry Key Value}

theorem swap (h : Split f g heap index a b) : Split g f heap index b a :=
  ⟨h.index.perm List.perm_append_comm, h.right, h.left⟩

theorem not_mem_right (h : Split f g heap index a b) (hi : i ∈ a) : i ∉ b := by
  intro hb
  exact (List.nodup_append.mp h.index.nodup).2.2 i hi i hb rfl

theorem nodup_left (h : Split f g heap index a b) : a.Nodup :=
  (List.nodup_append.mp h.index.nodup).1

theorem front (h : Split f g heap index a b) (hi : i ∈ b) :
    Split f g heap index a (i :: b.erase i) := by
  have hperm := List.perm_cons_erase hi
  constructor
  · exact h.index.perm (List.Perm.append_left a hperm.symm)
  · exact h.left
  · intro j hj
    exact h.right j (hperm.mem_iff.mpr hj)

/-- A node changes the list and the flag. -/
theorem move (h : Split f g heap index a b) (hi : i ∈ a) (he : heap i = some e) :
    Split f g (update heap i (some { e with prot := g })) index (a.erase i) (i :: b) := by
  have hperm : (a.erase i ++ i :: b).Perm (a ++ b) :=
    List.perm_middle.trans (List.Perm.append_right b (List.perm_cons_erase hi).symm)
  constructor
  · exact (h.index.assign he { e with prot := g } rfl).perm hperm
  · intro j hj e' he'
    obtain ⟨hne, hmem⟩ := h.nodup_left.mem_erase_iff.mp hj
    rw [Function.update_of_ne hne] at he'
    exact h.left j hmem e' he'
  · intro j hj e' he'
    rcases List.mem_cons.mp hj with heq | hmem
    · rw [heq, Function.update_self] at he'
      cases he'
      rfl
    · have hne : j ≠ i := fun heq => h.not_mem_right hi (heq ▸ hmem)
      rw [Function.update_of_ne hne] at he'
      exact h.right j hmem e' he'

theorem push (h : Split f g heap index a b) (hfresh : i ∉ a ++ b)
    (hkey : index.lookup e.key = none) (hflag : e.prot = f) :
    Split f g (update heap i (some e)) (index.insert e.key i) (i :: a) b := by
  constructor
  · exact h.index.insert hfresh hkey
  · intro j hj e' he'
    rcases List.mem_cons.mp hj with heq | hmem
    · rw [heq, Function.update_self] at he'
      cases he'
      exact hflag
    · have hne : j ≠ i := fun heq => hfresh (List.mem_append_left b (heq ▸ hmem))
      rw [Function.update_of_ne hne] at he'
      exact h.left j hmem e' he'
  · intro j hj e' he'
    have hne : j ≠ i := fun heq => hfresh (List.mem_append_right a (heq ▸ hj))
    rw [Function.update_of_ne hne] at he'
    exact h.right j hj e' he'

theorem erase (h : Split f g heap index a b) (hi : i ∈ a) (he : heap i = some e) :
    Split f g (update heap i none) (index.erase e.key) (a.erase i) b := by
  have hindex := h.index.erase (List.mem_append_left b hi) he
  rw [List.erase_append_left b hi] at hindex
  constructor
  · exact hindex
  · intro j hj e' he'
    obtain ⟨hne, hmem⟩ := h.nodup_left.mem_erase_iff.mp hj
    rw [Function.update_of_ne hne] at he'
    exact h.left j hmem e' he'
  · intro j hj e' he'
    have hne : j ≠ i := fun heq => h.not_mem_right hi (heq ▸ hj)
    rw [Function.update_of_ne hne] at he'
    exact h.right j hj e' he'

/-- A node changes its value only. -/
theorem assign (h : Split f g heap index a b) (he : heap i = some e) (value : Value) :
    Split f g (update heap i (some { e with value := value })) index a b := by
  have hflag : ∀ j e', update heap i (some { e with value := value }) j = some e' →
      ∃ e₀, heap j = some e₀ ∧ e'.prot = e₀.prot := by
    intro j e' he'
    rcases eq_or_ne j i with heq | hne
    · rw [heq, Function.update_self] at he'
      cases he'
      exact ⟨e, heq ▸ he, rfl⟩
    · rw [Function.update_of_ne hne] at he'
      exact ⟨e', he', rfl⟩
  constructor
  · exact h.index.assign he { e with value := value } rfl
  · intro j hj e' he'
    obtain ⟨e₀, he₀, heq⟩ := hflag j e' he'
    exact heq.trans (h.left j hj e₀ he₀)
  · intro j hj e' he'
    obtain ⟨e₀, he₀, heq⟩ := hflag j e' he'
    exact heq.trans (h.right j hj e₀ he₀)

end Split

/-! ## The cache between its operations -/

structure Represents (c : SLRU Key Value) : Prop where
  split : Split false true c.heap c.index c.mNormal c.mProtected
  fresh : ∀ i ∈ c.mNormal ++ c.mProtected, i < c.fresh

structure Valid (c : SLRU Key Value) : Prop extends Represents c where
  normal : c.mNormal.length ≤ c.maxSize / 2
  prot : c.mProtected.length ≤ c.maxSize / 2

theorem valid_start (maxSize : ℕ) : Valid ({ maxSize := maxSize } : SLRU Key Value) := by
  constructor
  · exact ⟨⟨indexed_empty _ _, by simp, by simp⟩, by simp⟩
  · exact Nat.zero_le _
  · exact Nat.zero_le _

namespace Represents
variable {c : SLRU Key Value} {k : Key} {i : ℕ} {e : Entry Key Value}

theorem promoted (h : Represents c) (hi : i ∈ c.mNormal) (he : c.heap i = some e) :
    Represents (c.promoted i e) ∧ (c.promoted i e).contents = c.contents := by
  refine ⟨⟨h.split.move hi he, ?_⟩, ?_⟩
  · intro j hj
    apply h.fresh j
    rcases List.mem_append.mp hj with hmem | hmem
    · exact List.mem_append_left _ (List.mem_of_mem_erase hmem)
    · rcases List.mem_cons.mp hmem with heq | hmem
      · exact List.mem_append_left _ (heq ▸ hi)
      · exact List.mem_append_right _ hmem
  · exact h.split.index.valueAt_keep Entry.value (List.mem_append_left _ hi) he rfl

theorem demoted (h : Represents c) (hi : i ∈ c.mProtected) (he : c.heap i = some e) :
    Represents (c.demoted i e) ∧ (c.demoted i e).contents = c.contents := by
  refine ⟨⟨(h.split.swap.move hi he).swap, ?_⟩, ?_⟩
  · intro j hj
    apply h.fresh j
    rcases List.mem_append.mp hj with hmem | hmem
    · rcases List.mem_cons.mp hmem with heq | hmem
      · exact List.mem_append_right _ (heq ▸ hi)
      · exact List.mem_append_left _ hmem
    · exact List.mem_append_right _ (List.mem_of_mem_erase hmem)
  · exact h.split.index.valueAt_keep Entry.value (List.mem_append_right _ hi) he rfl

theorem demoted_last (h : Represents c) (hlast : c.mProtected.getLast? = some i) :
    ∃ e, c.heap i = some e ∧ Represents (c.demoted i e) ∧ (c.demoted i e).contents = c.contents ∧
      (c.demoted i e).mProtected.length = c.mProtected.length - 1 := by
  have hmem := List.mem_of_getLast? hlast
  obtain ⟨e, he, -⟩ := h.split.index.listed i (List.mem_append_right _ hmem)
  obtain ⟨hdemoted, hsame⟩ := h.demoted hmem he
  exact ⟨e, he, hdemoted, hsame, List.length_erase_of_mem hmem⟩

theorem inserted (h : Represents c) (hk : c.index.lookup k = none) (v : Value) :
    Represents (c.insert k v) ∧
      (c.insert k v).contents = Function.update c.contents k (some v) := by
  have hfresh : c.fresh ∉ c.mNormal ++ c.mProtected :=
    fun hmem => Nat.lt_irrefl _ (h.fresh _ hmem)
  refine ⟨⟨h.split.push (e := { key := k, value := v }) hfresh hk rfl, ?_⟩, ?_⟩
  · intro j hj
    rcases List.mem_cons.mp hj with heq | hmem
    · rw [heq]
      exact Nat.lt_succ_self _
    · exact Nat.lt_succ_of_lt (h.fresh j hmem)
  · exact h.split.index.valueAt_insert (e := { key := k, value := v }) Entry.value hfresh

/-- The node under a key is in the list that its flag names. -/
theorem node (h : Represents c) (hk : c.index.lookup k = some i) :
    ∃ e, c.heap i = some e ∧ e.key = k ∧ c.contents k = some e.value ∧
      (e.prot = true ∧ i ∈ c.mProtected ∨ e.prot = false ∧ i ∈ c.mNormal) := by
  obtain ⟨hmem, e, he, hkey⟩ := h.split.index.found k i hk
  refine ⟨e, he, hkey, ?_, ?_⟩
  · rw [← hkey]
    exact h.split.index.valueAt_node Entry.value hmem he
  · rcases List.mem_append.mp hmem with hnormal | hprot
    · exact Or.inr ⟨h.split.left i hnormal e he, hnormal⟩
    · exact Or.inl ⟨h.split.right i hprot e he, hprot⟩

theorem remove (h : Represents c) (hk : c.index.lookup k = some i) (he : c.heap i = some e)
    (hi : i ∈ c.mNormal) :
    ∃ c', c.remove k = some (c', .ok ()) ∧ Represents c' ∧
      c'.contents = Function.update c.contents k none ∧ c'.mNormal = c.mNormal.erase i ∧
      c'.mProtected = c.mProtected ∧ c'.maxSize = c.maxSize := by
  obtain ⟨e₀, he₀, hkey, -⟩ := h.node hk
  cases he.symm.trans he₀
  have hflag := h.split.left i hi e he
  have hsplit := h.split.erase hi he
  have hcontents := h.split.index.valueAt_erase Entry.value he
  rw [hkey] at hsplit hcontents
  refine ⟨{ c with
    mNormal := c.mNormal.erase i
    heap := Function.update c.heap i none
    index := c.index.erase k }, ?_, ⟨hsplit, ?_⟩, hcontents, rfl, rfl, rfl⟩
  · unfold SLRU.remove
    simp [hk, he, hflag]
  · intro j hj
    apply h.fresh j
    rcases List.mem_append.mp hj with hmem | hmem
    · exact List.mem_append_left _ (List.mem_of_mem_erase hmem)
    · exact List.mem_append_right _ hmem

end Represents

/-- The key of the last node of the normal list. -/
def LastNormal (c : SLRU Key Value) (k : Key) : Prop :=
  ∃ i e, c.mNormal.getLast? = some i ∧ c.heap i = some e ∧ e.key = k ∧ e.prot = false

theorem Represents.shrink {c : SLRU Key Value} (h : Represents c)
    (hnormal : c.mNormal.length ≤ c.maxSize / 2 + 1) (hprot : c.mProtected.length ≤ c.maxSize / 2) :
    ∃ c' evicted, c.shrink = some (c', .ok ()) ∧ Valid c' ∧
      c'.contents = dropKeys c.contents evicted ∧ (∀ k ∈ evicted, LastNormal c k) ∧
      c'.maxSize = c.maxSize := by
  unfold SLRU.shrink
  split_ifs with hfull
  · exact ⟨c, [], rfl, ⟨h, hfull, hprot⟩, (dropKeys_nil _).symm, by simp, rfl⟩
  · obtain ⟨last, hlast⟩ := exists_last hfull
    have hmem : last ∈ c.mNormal := List.mem_of_getLast? hlast
    obtain ⟨e, he, hlookup⟩ := h.split.index.listed last (List.mem_append_left _ hmem)
    obtain ⟨c', hremove, hc, hcontents, hless, hsame, hmax⟩ := h.remove hlookup he hmem
    refine ⟨c', [e.key], ?_, ⟨hc, ?_, ?_⟩, ?_, ?_, hmax⟩
    · simp [hlast, he, hremove]
    · rw [hless, List.length_erase_of_mem hmem, hmax]
      exact Nat.sub_le_of_le_add hnormal
    · rw [hsame, hmax]
      exact hprot
    · rw [hcontents, dropKeys_singleton]
    · intro k hk
      rw [List.mem_singleton.mp hk]
      exact ⟨last, e, hlast, he, rfl, h.split.left last hmem e he⟩

namespace Valid
variable {c : SLRU Key Value} {k : Key} {i : ℕ} {e : Entry Key Value}

/-- A node of the protected list comes to its front. -/
theorem refreshed (h : Valid c) (hi : i ∈ c.mProtected) :
    Valid { c with mProtected := i :: c.mProtected.erase i } := by
  have hperm := List.perm_cons_erase hi
  constructor
  · constructor
    · exact h.split.front hi
    · intro j hj
      exact h.fresh j ((List.Perm.append_left c.mNormal hperm).mem_iff.mpr hj)
  · exact h.normal
  · exact hperm.length_eq ▸ h.prot

/-- A use of an entry leaves it in the protected list. The list does not lose it
again at once: where there is a normal entry, it has room for one at least. -/
theorem update (h : Valid c) (hk : c.index.lookup k = some i) (he : c.heap i = some e) :
    ∃ c', c.update i = some c' ∧ Valid c' ∧ c'.heap i = some { e with prot := true } ∧
      c'.contents = c.contents ∧ c'.index = c.index ∧ c'.maxSize = c.maxSize := by
  obtain ⟨e₀, he₀, -, -, hlist⟩ := h.node hk
  cases he.symm.trans he₀
  unfold SLRU.update
  rw [he]
  dsimp only
  rcases hlist with ⟨hflag, hi⟩ | ⟨hflag, hi⟩
  · rw [if_pos hflag]
    refine ⟨_, rfl, h.refreshed hi, ?_, rfl, rfl, rfl⟩
    rw [← hflag]
    exact he
  · rw [if_neg (by simp [hflag])]
    obtain ⟨hpromoted, hsame⟩ := h.promoted hi he
    have hself : (c.promoted i e).heap i = some { e with prot := true } :=
      Function.update_self _ _ _
    have hnormal := h.normal
    have hprot := h.prot
    have hroom : 0 < c.mNormal.length := List.length_pos_of_mem hi
    have herase : (c.promoted i e).mNormal.length = c.mNormal.length - 1 :=
      List.length_erase_of_mem hi
    split_ifs with hlong
    · change c.maxSize / 2 < c.mProtected.length + 1 at hlong
      have hne : c.mProtected ≠ [] := by
        intro hnil
        rw [hnil, List.length_nil] at hlong
        omega
      have hlast : (c.promoted i e).mProtected.getLast? = some (c.mProtected.getLast hne) := by
        change (i :: c.mProtected).getLast? = _
        rw [List.getLast?_cons, List.getLast?_eq_some_getLast hne]
        rfl
      have hother : c.mProtected.getLast hne ≠ i :=
        fun heq => h.split.not_mem_right hi (heq ▸ List.getLast_mem hne)
      obtain ⟨last, hheap, hdemoted, hsame', hshort⟩ := hpromoted.demoted_last hlast
      refine ⟨(c.promoted i e).demoted _ last, by simp [hlast, hheap], ⟨hdemoted, ?_, ?_⟩, ?_,
        hsame'.trans hsame, rfl, rfl⟩
      · change (c.promoted i e).mNormal.length + 1 ≤ c.maxSize / 2
        omega
      · rw [hshort]
        exact hprot
      · rw [← hself]
        exact Function.update_of_ne hother.symm _ _
    · refine ⟨c.promoted i e, rfl, ⟨hpromoted, ?_, Nat.le_of_not_lt hlong⟩, hself, hsame, rfl, rfl⟩
      change (c.promoted i e).mNormal.length ≤ c.maxSize / 2
      omega

/-- The result is what the cache holds, and it is protected from then on. -/
theorem get (h : Valid c) (k : Key) :
    ∃ c', c.get k = some (c', c.contents k) ∧ Valid c' ∧ c'.contents = c.contents ∧
      c'.maxSize = c.maxSize ∧
      ∀ i, c.index.lookup k = some i → c'.index.lookup k = some i ∧
        ∃ e, c'.heap i = some e ∧ e.prot = true := by
  unfold SLRU.get
  cases hk : c.index.lookup k with
  | none =>
      rw [show c.contents k = none from (h.split.index.valueAt_eq_none Entry.value).mpr hk]
      exact ⟨c, rfl, h, rfl, rfl, by simp⟩
  | some i =>
      obtain ⟨e, he, -, hvalue, -⟩ := h.node hk
      obtain ⟨c', hupdate, hc, hheap, hcontents, hindex, hmax⟩ := h.update hk he
      refine ⟨c', ?_, hc, hcontents, hmax, ?_⟩
      · simp [hupdate, hheap, hvalue]
      · intro j hj
        cases hj
        exact ⟨hindex ▸ hk, _, hheap, rfl⟩

theorem put (h : Valid c) (k : Key) (v : Value) :
    ∃ c' evicted, c.put k v = some (c', .ok ()) ∧ Valid c' ∧
      c'.contents = dropKeys (Function.update c.contents k (some v)) evicted ∧
      (∀ k' ∈ evicted, c.index.lookup k = none ∧ LastNormal (c.insert k v) k') ∧
      c'.maxSize = c.maxSize := by
  unfold SLRU.put
  cases hk : c.index.lookup k with
  | none =>
      obtain ⟨hinserted, hcontents⟩ := h.inserted hk v
      obtain ⟨c', evicted, hshrink, hc, hdrop, hlast, hmax⟩ :=
        hinserted.shrink (Nat.add_le_add_right h.normal 1) h.prot
      exact ⟨c', evicted, hshrink, hc, hcontents ▸ hdrop, fun k' hk' => ⟨rfl, hlast k' hk'⟩, hmax⟩
  | some i =>
      obtain ⟨e, he, hkey, -⟩ := h.node hk
      obtain ⟨c', hupdate, hc, hheap, hcontents, hindex, hmax⟩ := h.update hk he
      obtain ⟨hmem, -⟩ := hc.split.index.found k i (hindex ▸ hk)
      have hvalues := hc.split.index.valueAt_assign Entry.value hmem hheap
        { e with prot := true, value := v }
      refine ⟨{ c' with
        heap := Function.update c'.heap i (some { e with prot := true, value := v }) }, [], ?_,
        ⟨⟨hc.split.assign hheap v, hc.fresh⟩, hc.normal, hc.prot⟩, ?_, by simp, hmax⟩
      · simp [hupdate, SLRU.assign, hheap]
      · rw [dropKeys_nil, ← hcontents, ← hkey]
        exact hvalues

/-- A key that is there is removed, or its entry is protected and stays. -/
theorem remove (h : Valid c) (hk : c.contents k ≠ none) :
    ∃ c' r, c.remove k = some (c', r) ∧ Valid c' := by
  obtain ⟨i, hi⟩ := Option.ne_none_iff_exists'.mp
    fun hnone => hk ((h.split.index.valueAt_eq_none Entry.value).mpr hnone)
  obtain ⟨e, he, -, -, hlist⟩ := h.node hi
  rcases hlist with ⟨hflag, -⟩ | ⟨-, hmem⟩
  · refine ⟨c, .error "S_LRU::Remove on protected list", ?_, h⟩
    unfold SLRU.remove
    simp [hi, he, hflag]
  · obtain ⟨c', hremove, hc, -, hnormal, hprot, hmax⟩ := h.toRepresents.remove hi he hmem
    refine ⟨c', .ok (), hremove, hc, ?_, ?_⟩
    · rw [hnormal, hmax]
      exact Nat.le_trans List.length_erase_le h.normal
    · rw [hprot, hmax]
      exact h.prot

end Valid

/-! ## Runs -/

inductive Op (Key Value : Type)
  | get (key : Key)
  | put (key : Key) (value : Value)

def slruStep (c : SLRU Key Value) : Op Key Value → Option (SLRU Key Value)
  | .get key => (c.get key).map Prod.fst
  | .put key value => (c.put key value).map Prod.fst

/-- Two lists of disjoint keys within their bounds, the index of both, and flags
that name the list. -/
structure Segmented (maxSize : ℕ) (c : SLRU Key Value) : Prop where
  disjoint : (keysOf Entry.key c.heap c.mNormal).Disjoint (keysOf Entry.key c.heap c.mProtected)
  normal : c.mNormal.length ≤ maxSize / 2
  prot : c.mProtected.length ≤ maxSize / 2
  index : Indexed Entry.key c.heap c.index (c.mNormal ++ c.mProtected)
  flag : ∀ i ∈ c.mNormal ++ c.mProtected,
    ∃ e, c.heap i = some e ∧ (e.prot = true ↔ i ∈ c.mProtected)

theorem Valid.segmented {c : SLRU Key Value} (h : Valid c) : Segmented c.maxSize c := by
  constructor
  · have hnodup := h.split.index.keysOf_nodup
    unfold keysOf at hnodup
    rw [List.filterMap_append] at hnodup
    exact List.disjoint_of_nodup_append hnodup
  · exact h.normal
  · exact h.prot
  · exact h.split.index
  · intro i hi
    obtain ⟨e, he, hlookup⟩ := h.split.index.listed i hi
    refine ⟨e, he, ?_⟩
    rcases List.mem_append.mp hi with hnormal | hprot
    · rw [h.split.left i hnormal e he]
      exact iff_of_false Bool.false_ne_true (h.split.not_mem_right hnormal)
    · exact iff_of_true (h.split.right i hprot e he) hprot

/-- What every operation does: no key is lost by a get; a put throws nothing, and
a key that is not there afterwards, be it the new one, was last in the normal list
when the list had the new one as well. -/
def Conforms (maxSize : ℕ) (c : SLRU Key Value) : Op Key Value → Prop
  | .get key => ∃ c' r, c.get key = some (c', r) ∧ Segmented maxSize c' ∧
      ∀ k ∈ c.index, k ∈ c'.index
  | .put key value => ∃ c', c.put key value = some (c', .ok ()) ∧ Segmented maxSize c' ∧
      ∀ k, k ∈ c.index ∨ k = key → k ∉ c'.index →
        key ∉ c.index ∧ LastNormal (c.insert key value) k

theorem Valid.mem_index {c : SLRU Key Value} (h : Valid c) {k : Key} :
    k ∈ c.index ↔ c.contents k ≠ none := by
  rw [← AList.lookup_isSome, Option.isSome_iff_ne_none]
  exact not_congr (h.split.index.valueAt_eq_none Entry.value).symm

theorem slruStep_conforms {c : SLRU Key Value} (h : Valid c) (e : Op Key Value) :
    Conforms c.maxSize c e ∧
      Holds (fun c' => Valid c' ∧ c'.maxSize = c.maxSize) (slruStep c e) := by
  cases e with
  | get key =>
      obtain ⟨c', hget, hc, hcontents, hmax, -⟩ := h.get key
      refine ⟨⟨c', _, hget, hmax ▸ hc.segmented, ?_⟩, c', by simp [slruStep, hget], hc, hmax⟩
      intro k hk
      rw [hc.mem_index, hcontents]
      exact h.mem_index.mp hk
  | put key value =>
      obtain ⟨c', evicted, hput, hc, hcontents, hlast, hmax⟩ := h.put key value
      refine ⟨⟨c', hput, hmax ▸ hc.segmented, ?_⟩, c', by simp [slruStep, hput], hc, hmax⟩
      intro k hk hgone
      rw [hc.mem_index, hcontents, not_not, dropKeys] at hgone
      split_ifs at hgone with hevicted
      · obtain ⟨hnew, hkey⟩ := hlast k hevicted
        exact ⟨AList.lookup_eq_none.mp hnew, hkey⟩
      · rcases eq_or_ne k key with heq | hne
        · rw [heq, Function.update_self] at hgone
          cases hgone
        · rw [Function.update_of_ne hne] at hgone
          exact absurd hgone (h.mem_index.mp (hk.resolve_right hne))

/-- Every operation of every run conforms, whatever the capacity. -/
theorem slru_conforms (maxSize : ℕ) (es : List (Op Key Value)) :
    Meets (lift slruStep) (On (Conforms maxSize)) (some { maxSize := maxSize }) es := by
  apply lift_meets (I := fun c => Valid c ∧ c.maxSize = maxSize)
  · intro c e h
    rw [← h.2]
    exact (slruStep_conforms h.1 e).1
  · intro c e h
    apply (slruStep_conforms h.1 e).2.mono
    intro c' hc
    exact ⟨hc.1, hc.2.trans h.2⟩
  · exact ⟨valid_start maxSize, rfl⟩

/-- An odd capacity, with a promotion, a demotion and an eviction on the way. -/
example : (run (lift slruStep) (some ({ maxSize := 3 } : SLRU ℕ ℕ))
    [.put 1 10, .get 1, .put 2 20, .get 2, .put 3 30]).map
      (fun c => (keysOf Entry.key c.heap c.mNormal, keysOf Entry.key c.heap c.mProtected)) =
    some ([3], [2]) := by
  decide

end Stuff.CacheSLru
