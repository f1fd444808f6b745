import Stuff.AgedQueue
import Stuff.EventRuns
import Stuff.MachineWords
import Mathlib.Logic.Function.Basic

/-!
# The ring of buckets behind the LFU cache

A `RingAge` is a ring of lists and a clock that points into it. Costs move an
entry ahead of the clock, up to one round less a bucket, and the entry that
leaves is the first one that the clock comes to. The ring stores positions
modulo its size only; it refines a queue whose items have an unbounded virtual
time.
-/
namespace Stuff.CacheRingAge
open MachineWords AgedQueue EventRuns
open Function (update)

variable {Key Value : Type} {size : UInt32}

structure Entry (Key Value : Type) where
  key : Key
  value : Value
  bucket : UInt32 := 0
deriving DecidableEq, Repr

/-- The nodes of the lists are on a heap and iterators are their addresses. The
array has `size` lists; that no list beyond is used follows from the bounds on
the positions. The last field is history: how often the clock advanced. -/
structure RingAge (Key Value : Type) (size : UInt32) where
  heap : ℕ → Option (Entry Key Value) := fun _ => none
  ring : ℕ → List ℕ := fun _ => []
  clock : UInt32 := 0
  advances : ℕ := 0

namespace RingAge

def boundInc (r : RingAge Key Value size) (aPos aW : UInt32) : UInt32 :=
  let sPos := if aPos < r.clock then aPos + size else aPos
  let sOffset := sPos - r.clock
  let sOffset := min (sOffset + aW) (size - 1)
  (r.clock + sOffset) % size

def advanced (r : RingAge Key Value size) : RingAge Key Value size :=
  { r with
    clock := (r.clock + 1) % size
    advances := r.advances + 1 }

/-- The first node of the list at the clock is gone. -/
def popped (r : RingAge Key Value size) (sItem : ℕ) (rest : List ℕ) : RingAge Key Value size :=
  { r with
    ring := update r.ring r.clock.toNat rest
    heap := update r.heap sItem none }

/-- The rounds of the loop in `Shrink`, with the entry that the handler gets. No
result means that the loop goes on. -/
def shrinkLoop : ℕ → RingAge Key Value size → Option (Entry Key Value × RingAge Key Value size)
  | 0, _ => none
  | rounds + 1, r =>
      match r.ring r.clock.toNat with
      | [] => shrinkLoop rounds r.advanced
      | sItem :: rest =>
          match r.heap sItem with
          | none => none
          | some entry => some (entry, r.popped sItem rest)

/-- The source has no bound on the rounds; a loop that ends has seen every list
at most once. -/
def shrink (r : RingAge Key Value size) : Option (Entry Key Value × RingAge Key Value size) :=
  shrinkLoop size.toNat r

/-- A node at the end of the list of its bucket. -/
def linked (r : RingAge Key Value size) (aIt : ℕ) (entry : Entry Key Value) :
    RingAge Key Value size :=
  { r with
    ring := update r.ring entry.bucket.toNat (r.ring entry.bucket.toNat ++ [aIt])
    heap := update r.heap aIt (some entry) }

def unlinked (r : RingAge Key Value size) (aIt : ℕ) (bucket : UInt32) : RingAge Key Value size :=
  { r with
    ring := update r.ring bucket.toNat ((r.ring bucket.toNat).erase aIt)
    heap := update r.heap aIt none }

/-- The node moves from one list to the end of the other. An iterator that is
not valid has no result. -/
def refresh (r : RingAge Key Value size) (aIt : ℕ) (aCost : UInt32) :
    Option (RingAge Key Value size) :=
  match r.heap aIt with
  | none => none
  | some entry =>
      let sNewBucket := r.boundInc entry.bucket aCost
      some ((r.unlinked aIt entry.bucket).linked aIt { entry with bucket := sNewBucket })

/-- The iterator is the address that the allocator chose for the node. -/
def insert (r : RingAge Key Value size) (aIt : ℕ) (aEntry : Entry Key Value) (aCost : UInt32) :
    RingAge Key Value size :=
  let sBucket := r.boundInc r.clock aCost
  r.linked aIt { aEntry with bucket := sBucket }

def remove (r : RingAge Key Value size) (aIt : ℕ) : Option (RingAge Key Value size) :=
  match r.heap aIt with
  | none => none
  | some entry => some (r.unlinked aIt entry.bucket)

/-- The value behind an iterator is overwritten. -/
def assign (r : RingAge Key Value size) (aIt : ℕ) (aValue : Value) :
    Option (RingAge Key Value size) :=
  match r.heap aIt with
  | none => none
  | some entry =>
      some { r with heap := update r.heap aIt (some { entry with value := aValue }) }

theorem shrinkLoop_add {n : ℕ} {r : RingAge Key Value size}
    {x : Entry Key Value × RingAge Key Value size} (h : shrinkLoop n r = some x) (m : ℕ) :
    shrinkLoop (n + m) r = some x := by
  induction n generalizing r with
  | zero => cases h
  | succ n ih =>
      rw [Nat.succ_add]
      unfold shrinkLoop at h ⊢
      split at h
      · exact ih h
      · exact h

end RingAge

/-! ## Positions on the ring -/

section Circle
variable {n C V : ℕ}

/-- The offset of a position from the clock, recovered from the two remainders. -/
theorem offset_of_mod (hlower : C ≤ V) (hupper : V < C + n) :
    V - C = (if V % n < C % n then V % n + n else V % n) - C % n := by
  have hn : 0 < n := by omega
  have hmod := Nat.mod_lt C hn
  have hdiv := Nat.div_add_mod C n
  have hV : V = C % n + (V - C) + n * (C / n) := by omega
  have hVmod : V % n = (C % n + (V - C)) % n := by
    conv_lhs => rw [hV, Nat.add_mul_mod_self_left]
  rcases Nat.lt_or_ge (C % n + (V - C)) n with hsmall | hlarge
  · rw [Nat.mod_eq_of_lt hsmall] at hVmod
    rw [if_neg (by omega)]
    omega
  · have hless : C % n + (V - C) - n < n := by omega
    rw [Nat.mod_eq_sub_mod hlarge, Nat.mod_eq_of_lt hless] at hVmod
    rw [if_pos (by omega)]
    omega

theorem eq_of_mod_eq (hlower : C ≤ V) (hupper : V < C + n) (hmod : V % n = C % n) : V = C := by
  have hoffset := offset_of_mod hlower hupper
  rw [hmod, if_neg (Nat.lt_irrefl _)] at hoffset
  omega

end Circle

/-- Sums of two positions do not wrap. -/
structure Sized (size : UInt32) : Prop where
  pos : 0 < size.toNat
  half : 2 * size.toNat ≤ 2 ^ 32

/-- The position after a move, for an entry whose virtual time is `V`. -/
theorem boundInc_spec (hs : Sized size) {r : RingAge Key Value size} {aPos aW : UInt32} {C V : ℕ}
    (hclock : r.clock.toNat = C % size.toNat) (hpos : aPos.toNat = V % size.toNat)
    (hlower : C ≤ V) (hupper : V ≤ C + (size.toNat - 1)) (hw : V - C + aW.toNat < 2 ^ 32) :
    (r.boundInc aPos aW).toNat = min (V + aW.toNat) (C + (size.toNat - 1)) % size.toNat := by
  have hn := hs.pos
  have hhalf := hs.half
  have hc := Nat.mod_lt C hn
  have hv := Nat.mod_lt V hn
  have hoffset := offset_of_mod hlower (show V < C + size.toNat by omega)
  rw [← hclock, ← hpos] at hoffset
  have hmoved : ((if aPos < r.clock then aPos + size else aPos) - r.clock).toNat = V - C := by
    rw [hoffset]
    split_ifs with hlt hlt' hlt'
    · have hadd := toNat_add_of_lt (show aPos.toNat + size.toNat < 2 ^ 32 by omega)
      rw [UInt32.toNat_sub_of_le _ _ (UInt32.le_iff_toNat_le.mpr (by omega)), hadd]
    · exact absurd (UInt32.lt_iff_toNat_lt.mp hlt) hlt'
    · exact absurd (UInt32.lt_iff_toNat_lt.mpr hlt') hlt
    · exact UInt32.toNat_sub_of_le _ _ (UInt32.le_iff_toNat_le.mpr (Nat.le_of_not_lt hlt'))
  have hadded := toNat_add_of_lt (a := (if aPos < r.clock then aPos + size else aPos) - r.clock)
    (b := aW) (by omega)
  have hone : (size - 1).toNat = size.toNat - 1 :=
    UInt32.toNat_sub_of_le _ _ (UInt32.le_iff_toNat_le.mpr hn)
  have hmin : (min ((if aPos < r.clock then aPos + size else aPos) - r.clock + aW)
      (size - 1)).toNat = min (V - C + aW.toNat) (size.toNat - 1) := by
    rw [UInt32.toNat_min, hadded, hmoved, hone]
  unfold RingAge.boundInc
  dsimp only
  rw [UInt32.toNat_mod, toNat_add_of_lt (by omega), hmin, hclock, Nat.mod_add_mod]
  congr 1
  omega

/-- Without a bound on the cost: the position is still at most one round less a
bucket ahead of the clock. -/
theorem boundInc_ahead (hs : Sized size) {r : RingAge Key Value size} {C : ℕ}
    (hclock : r.clock.toNat = C % size.toNat) (aPos aW : UInt32) :
    ∃ t, C ≤ t ∧ t ≤ C + (size.toNat - 1) ∧ r.boundInc aPos aW = UInt32.ofNat (t % size.toNat) := by
  have hn := hs.pos
  have hhalf := hs.half
  have hc := Nat.mod_lt C hn
  have hone : (size - 1).toNat = size.toNat - 1 :=
    UInt32.toNat_sub_of_le _ _ (UInt32.le_iff_toNat_le.mpr hn)
  let sOffset := min ((if aPos < r.clock then aPos + size else aPos) - r.clock + aW) (size - 1)
  have hoffset : sOffset.toNat ≤ size.toNat - 1 := by
    rw [← hone, UInt32.toNat_min]
    exact Nat.min_le_right _ _
  refine ⟨C + sOffset.toNat, Nat.le_add_right _ _, Nat.add_le_add_left hoffset _, ?_⟩
  have hbound : (r.boundInc aPos aW).toNat = (C + sOffset.toNat) % size.toNat := by
    change ((r.clock + sOffset) % size).toNat = _
    rw [UInt32.toNat_mod, toNat_add_of_lt (by omega), hclock, Nat.mod_add_mod]
  rw [← hbound, UInt32.ofNat_toNat]

/-! ## The ring and the queue -/

/-- An item as the ring stores it. -/
def entryOf (size : UInt32) (x : Item ℕ (Key × Value)) : Entry Key Value :=
  { key := x.payload.1, value := x.payload.2, bucket := UInt32.ofNat (x.time % size.toNat) }

/-- The clock counts its advances, each list holds the items of its residue in
the order in which they were placed, and the nodes are those of the items. -/
structure Refines (r : RingAge Key Value size) (q : Queue ℕ (Key × Value)) : Prop where
  valid : q.Valid size.toNat
  clock : r.clock.toNat = q.clock % size.toNat
  advances : r.advances = q.clock
  ring : ∀ b < size.toNat,
    r.ring b = (q.items.filter fun x => x.time % size.toNat = b).map Item.name
  heap : ∀ x ∈ q.items, r.heap x.name = some (entryOf size x)
  live : ∀ it, r.heap it ≠ none → it ∈ q.items.map Item.name

theorem refines_start :
    Refines ({} : RingAge Key Value size) ({} : Queue ℕ (Key × Value)) := by
  constructor
  · exact ⟨List.nodup_nil, by simp, by simp⟩
  · exact (Nat.zero_mod _).symm
  · rfl
  · intro b _
    rfl
  · simp
  · simp

theorem bucket_toNat (hs : Sized size) (x : Item ℕ (Key × Value)) :
    (entryOf size x).bucket.toNat = x.time % size.toNat := by
  have hmod := Nat.mod_lt x.time hs.pos
  have hsize := size.toNat_lt
  unfold entryOf
  rw [UInt32.toNat_ofNat', Nat.mod_eq_of_lt (Nat.lt_trans hmod hsize)]

namespace Refines
variable {r : RingAge Key Value size} {q : Queue ℕ (Key × Value)} {x : Item ℕ (Key × Value)}

theorem linked (hs : Sized size) (h : Refines r q) (hname : x.name ∉ q.items.map Item.name)
    (hlower : q.clock ≤ x.time) (hupper : x.time ≤ q.clock + (size.toNat - 1)) :
    Refines (r.linked x.name (entryOf size x)) { q with items := q.items ++ [x] } := by
  constructor
  · exact h.valid.place hname hlower hupper
  · exact h.clock
  · exact h.advances
  · intro b hb
    simp only [RingAge.linked, bucket_toNat hs, List.filter_append, List.map_append]
    rcases eq_or_ne b (x.time % size.toNat) with heq | hne
    · rw [heq, Function.update_self, h.ring _ (heq ▸ hb)]
      simp
    · rw [Function.update_of_ne hne, h.ring b hb]
      simp [hne.symm]
  · intro y hy
    simp only [RingAge.linked]
    rcases List.mem_append.mp hy with hy | hy
    · have hne : y.name ≠ x.name := by
        intro heq
        exact hname (heq ▸ List.mem_map_of_mem hy)
      rw [Function.update_of_ne hne]
      exact h.heap y hy
    · rw [List.mem_singleton.mp hy, Function.update_self]
  · intro it hit
    simp only [RingAge.linked] at hit
    rw [List.map_append, List.mem_append]
    rcases eq_or_ne it x.name with heq | hne
    · right
      simp [heq]
    · left
      rw [Function.update_of_ne hne] at hit
      exact h.live it hit

theorem unlinked (hs : Sized size) (h : Refines r q) (hx : x ∈ q.items) :
    Refines (r.unlinked x.name (entryOf size x).bucket)
      { q with items := q.without x.name } := by
  constructor
  · exact h.valid.without x.name
  · exact h.clock
  · exact h.advances
  · intro b hb
    simp only [RingAge.unlinked, bucket_toNat hs]
    rw [← h.valid.erase_names, ← h.ring b hb]
    rcases eq_or_ne b (x.time % size.toNat) with heq | hne
    · rw [heq, Function.update_self]
    · rw [Function.update_of_ne hne, List.erase_of_not_mem]
      intro hmem
      rw [h.ring b hb] at hmem
      obtain ⟨y, hy, hname⟩ := List.mem_map.mp hmem
      rw [List.mem_filter, decide_eq_true_eq] at hy
      rw [h.valid.eq_of_name hy.1 hx hname] at hy
      exact hne hy.2.symm
  · intro y hy
    rw [Queue.without, List.mem_filter, decide_eq_true_eq] at hy
    simp only [RingAge.unlinked]
    rw [Function.update_of_ne hy.2]
    exact h.heap y hy.1
  · intro it hit
    simp only [RingAge.unlinked] at hit
    rcases eq_or_ne it x.name with heq | hne
    · rw [heq, Function.update_self] at hit
      exact absurd rfl hit
    · rw [Function.update_of_ne hne] at hit
      obtain ⟨y, hy, hname⟩ := List.mem_map.mp (h.live it hit)
      apply List.mem_map.mpr
      refine ⟨y, ?_, hname⟩
      rw [Queue.without, List.mem_filter, decide_eq_true_eq]
      exact ⟨hy, hname ▸ hne⟩

theorem insert (hs : Sized size) (h : Refines r q) {aIt : ℕ}
    (hit : aIt ∉ q.items.map Item.name) (aEntry : Entry Key Value) (aCost : UInt32) :
    Refines (r.insert aIt aEntry aCost)
      (q.insert size.toNat aIt (aEntry.key, aEntry.value) aCost.toNat) := by
  have hcost := aCost.toNat_lt
  have hbucket := boundInc_spec hs h.clock h.clock (Nat.le_refl q.clock)
    (Nat.le_add_right _ _) (show q.clock - q.clock + aCost.toNat < 2 ^ 32 by omega)
  have hlinked := h.linked hs
    (x := ⟨aIt, (aEntry.key, aEntry.value), q.bounded size.toNat (q.clock + aCost.toNat)⟩)
    hit (by simp only [Queue.bounded]; omega) (Nat.min_le_right _ _)
  have hentry : entryOf size
      ⟨aIt, (aEntry.key, aEntry.value), q.bounded size.toNat (q.clock + aCost.toNat)⟩ =
      { aEntry with bucket := r.boundInc r.clock aCost } := by
    simp only [entryOf, Queue.bounded, ← hbucket, UInt32.ofNat_toNat]
  rw [hentry] at hlinked
  exact hlinked

theorem remove (hs : Sized size) (h : Refines r q) (hx : x ∈ q.items) :
    ∃ r', r.remove x.name = some r' ∧ Refines r' (q.remove x.name) := by
  unfold RingAge.remove
  rw [h.heap x hx]
  exact ⟨_, rfl, h.unlinked hs hx⟩

theorem refresh (hs : Sized size) (h : Refines r q) (hx : x ∈ q.items) {aCost : UInt32}
    (hcost : x.time - q.clock + aCost.toNat < 2 ^ 32) :
    ∃ r', r.refresh x.name aCost = some r' ∧
      Refines r' (q.refresh size.toNat x.name aCost.toNat) := by
  have hlower := h.valid.lower x hx
  have hbucket := boundInc_spec hs h.clock (bucket_toNat hs x) hlower (h.valid.upper x hx) hcost
  have hlinked := (h.unlinked hs hx).linked hs
    (x := { x with time := q.bounded size.toNat (x.time + aCost.toNat) })
    (q.name_not_mem_without x.name) (by simp only [Queue.bounded]; omega) (Nat.min_le_right _ _)
  have hentry : entryOf size { x with time := q.bounded size.toNat (x.time + aCost.toNat) } =
      { entryOf size x with bucket := r.boundInc (entryOf size x).bucket aCost } := by
    simp only [entryOf, Queue.bounded, ← hbucket, UInt32.ofNat_toNat]
  rw [hentry] at hlinked
  unfold RingAge.refresh Queue.refresh
  rw [h.heap x hx, h.valid.find?_name hx]
  exact ⟨_, rfl, hlinked⟩

/-- A refresh at any cost moves the item ahead, to some time. -/
theorem moved (hs : Sized size) (h : Refines r q) (hx : x ∈ q.items) (aCost : UInt32) :
    ∃ r' time, r.refresh x.name aCost = some r' ∧ Refines r' (q.move x time) ∧
      r'.heap = update r.heap x.name (some (entryOf size { x with time := time })) := by
  obtain ⟨time, hlower, hupper, hbucket⟩ :=
    boundInc_ahead hs h.clock (entryOf size x).bucket aCost
  have hlinked := (h.unlinked hs hx).linked hs (x := { x with time := time })
    (q.name_not_mem_without x.name) hlower hupper
  have hentry : entryOf size { x with time := time } =
      { entryOf size x with bucket := r.boundInc (entryOf size x).bucket aCost } := by
    simp only [entryOf] at hbucket ⊢
    rw [hbucket]
  refine ⟨_, time, ?_, hlinked, ?_⟩
  · unfold RingAge.refresh
    rw [h.heap x hx, hentry]
  · simp only [RingAge.linked, RingAge.unlinked, Function.update_idem]

theorem assign (h : Refines r q) (hx : x ∈ q.items) (aValue : Value) :
    ∃ r', r.assign x.name aValue = some r' ∧
      Refines r' (q.assign x.name (x.payload.1, aValue)) ∧
      r'.heap = update r.heap x.name (some { entryOf size x with value := aValue }) := by
  refine ⟨{ r with
    heap := update r.heap x.name (some { entryOf size x with value := aValue }) }, ?_, ?_, rfl⟩
  · unfold RingAge.assign
    rw [h.heap x hx]
  constructor
  · apply h.valid.map
    · intro y
      split_ifs <;> rfl
    · intro y
      split_ifs <;> rfl
  · exact h.clock
  · exact h.advances
  · intro b hb
    rw [q.assign_filter_names x.name (x.payload.1, aValue) fun t => t % size.toNat = b]
    exact h.ring b hb
  · intro z hz
    obtain ⟨y, hy, rfl⟩ := List.mem_map.mp hz
    dsimp only
    split_ifs with hname
    · cases h.valid.eq_of_name hy hx hname
      exact Function.update_self _ _ _
    · rw [Function.update_of_ne hname]
      exact h.heap y hy
  · intro it hit
    rw [Queue.assign_names]
    dsimp only at hit
    rcases eq_or_ne it x.name with heq | hne
    · rw [heq]
      exact List.mem_map_of_mem hx
    · rw [Function.update_of_ne hne] at hit
      exact h.live it hit

/-- Without an item, the heap is without its node. -/
theorem heap_without (h : Refines r q) {r' : RingAge Key Value size} {q' : Queue ℕ (Key × Value)}
    (h' : Refines r' q') (hitems : q'.items = q.without x.name) :
    r'.heap = update r.heap x.name none := by
  funext it
  cases hit : r'.heap it with
  | none =>
      rcases eq_or_ne it x.name with heq | hne
      · rw [heq, Function.update_self]
      · rw [Function.update_of_ne hne]
        by_contra hlive
        obtain ⟨y, hy, rfl⟩ := List.mem_map.mp (h.live it (Ne.symm hlive))
        have hy' : y ∈ q'.items := by
          rw [hitems, Queue.without, List.mem_filter, decide_eq_true_eq]
          exact ⟨hy, hne⟩
        rw [h'.heap y hy'] at hit
        cases hit
  | some e =>
      have hmem := h'.live it (by rw [hit]; exact Option.some_ne_none e)
      obtain ⟨y, hy, rfl⟩ := List.mem_map.mp hmem
      rw [h'.heap y hy] at hit
      rw [hitems, Queue.without, List.mem_filter, decide_eq_true_eq] at hy
      rw [Function.update_of_ne hy.2, h.heap y hy.1, hit]

/-! ### The loop of `Shrink` -/

/-- The list at the clock holds the items whose time has come. -/
theorem ring_clock (hs : Sized size) (h : Refines r q) :
    r.ring r.clock.toNat = (q.items.filter fun x => x.time = q.clock).map Item.name := by
  rw [h.clock, h.ring _ (Nat.mod_lt _ hs.pos)]
  congr 1
  apply List.filter_congr
  intro x hx
  have hlower := h.valid.lower x hx
  have hupper := h.valid.upper x hx
  have hpos := hs.pos
  rw [decide_eq_decide]
  constructor
  · exact eq_of_mod_eq hlower (by omega)
  · intro heq
    rw [heq]

theorem advanced (hs : Sized size) (h : Refines r q) (hempty : r.ring r.clock.toNat = []) :
    Refines r.advanced { q with clock := q.clock + 1 } := by
  have hpos := hs.pos
  have hhalf := hs.half
  have hmod := Nat.mod_lt q.clock hpos
  constructor
  · apply h.valid.advance
    intro x hx heq
    rw [h.ring_clock hs, List.map_eq_nil_iff, List.filter_eq_nil_iff] at hempty
    exact hempty x hx (decide_eq_true heq)
  · have hone : (1 : UInt32).toNat = 1 := rfl
    have hclock := h.clock
    simp only [RingAge.advanced]
    rw [UInt32.toNat_mod, toNat_add_of_lt (by omega), h.clock, hone, Nat.mod_add_mod]
  · exact congrArg (· + 1) h.advances
  · exact h.ring
  · exact h.heap
  · exact h.live

/-- The first node of the list at the clock is the item that leaves. -/
theorem front (hs : Sized size) (h : Refines r q) {sItem : ℕ} {rest : List ℕ}
    (hlist : r.ring r.clock.toNat = sItem :: rest) :
    ∃ x ∈ q.items, x.name = sItem ∧ q.items.find? (fun y => y.time = q.clock) = some x := by
  rw [h.ring_clock hs, List.map_eq_cons_iff] at hlist
  obtain ⟨x, xs, hfilter, hname, -⟩ := hlist
  have hfind : q.items.find? (fun y => y.time = q.clock) = some x := by
    rw [← List.head?_filter, hfilter]
    rfl
  exact ⟨x, List.mem_of_find?_eq_some hfind, hname, hfind⟩

theorem popped (hs : Sized size) (h : Refines r q) {rest : List ℕ}
    (hx : x ∈ q.items) (htime : x.time = q.clock)
    (hlist : r.ring r.clock.toNat = x.name :: rest) :
    Refines (r.popped x.name rest) { q with items := q.without x.name } := by
  have hbucket : (entryOf size x).bucket.toNat = r.clock.toNat := by
    rw [bucket_toNat hs, htime, h.clock]
  have hunlinked := h.unlinked hs hx
  unfold RingAge.unlinked at hunlinked
  rw [hbucket, hlist, List.erase_cons_head] at hunlinked
  exact hunlinked

/-- The loop ends when it comes to the least time, which is `d` rounds ahead. -/
theorem shrinkLoop (hs : Sized size) {v d : ℕ} (h : Refines r q) (hdue : q.due = some v)
    (hd : v = q.clock + d) :
    ∃ x r' q', RingAge.shrinkLoop (d + 1) r = some (entryOf size x, r') ∧
      q.shrink = some (x, q') ∧ Refines r' q' := by
  induction d generalizing r q with
  | zero =>
      obtain ⟨⟨y, hy, hytime⟩, -⟩ := Queue.due_eq_some_iff.mp hdue
      cases hlist : r.ring r.clock.toNat with
      | nil =>
          rw [h.ring_clock hs, List.map_eq_nil_iff, List.filter_eq_nil_iff] at hlist
          exact absurd (decide_eq_true (hytime.trans hd)) (hlist y hy)
      | cons sItem rest =>
          obtain ⟨x, hx, rfl, hfind⟩ := h.front hs hlist
          have htime : x.time = q.clock := by simpa using List.find?_some hfind
          rw [Nat.add_zero] at hd
          rw [← hd] at hfind
          refine ⟨x, r.popped x.name rest, _, ?_, Queue.shrink_of_due hdue hfind, ?_⟩
          · simp only [RingAge.shrinkLoop, hlist, h.heap x hx]
          · rw [hd]
            exact h.popped hs hx htime hlist
  | succ d ih =>
      cases hlist : r.ring r.clock.toNat with
      | nil =>
          have hstep := ih (h.advanced hs hlist) hdue (by dsimp only; omega)
          obtain ⟨x, r', q', hloop, hshrink, hrefines⟩ := hstep
          refine ⟨x, r', q', ?_, hshrink, hrefines⟩
          rw [RingAge.shrinkLoop, hlist]
          exact hloop
      | cons sItem rest =>
          obtain ⟨x, hx, -, hfind⟩ := h.front hs hlist
          have htime : x.time = q.clock := by simpa using List.find?_some hfind
          have hleast := (Queue.due_eq_some_iff.mp hdue).2 x hx
          omega

theorem shrink (hs : Sized size) (h : Refines r q) (hitems : q.items ≠ []) :
    ∃ x r' q', r.shrink = some (entryOf size x, r') ∧ q.shrink = some (x, q') ∧
      Refines r' q' := by
  obtain ⟨v, hdue⟩ := Queue.due_isSome hitems
  obtain ⟨⟨y, hy, hytime⟩, -⟩ := Queue.due_eq_some_iff.mp hdue
  have hlower := h.valid.lower y hy
  have hupper := h.valid.upper y hy
  have hpos := hs.pos
  obtain ⟨x, r', q', hloop, hshrink, hrefines⟩ :=
    h.shrinkLoop hs hdue (show v = q.clock + (v - q.clock) by omega)
  refine ⟨x, r', q', ?_, hshrink, hrefines⟩
  have henough := RingAge.shrinkLoop_add hloop (size.toNat - (v - q.clock + 1))
  rwa [Nat.add_sub_cancel' (by omega)] at henough

end Refines

/-! ## Runs -/

inductive Event (Key Value : Type)
  | insert (aIt : ℕ) (aEntry : Entry Key Value) (aCost : UInt32)
  | refresh (aIt : ℕ) (aCost : UInt32)
  | remove (aIt : ℕ)
  | shrink

/-- A ring and the entries that the handler of `Shrink` got so far. No result
means that an iterator is not valid or that `Shrink` does not end. -/
def ringStep (s : RingAge Key Value size × List (Entry Key Value)) :
    Event Key Value → Option (RingAge Key Value size × List (Entry Key Value))
  | .insert aIt aEntry aCost => some (s.1.insert aIt aEntry aCost, s.2)
  | .refresh aIt aCost => (s.1.refresh aIt aCost).map fun r => (r, s.2)
  | .remove aIt => (s.1.remove aIt).map fun r => (r, s.2)
  | .shrink => s.1.shrink.map fun x => (x.2, s.2 ++ [x.1])

/-- The queue and the items that left it so far. -/
def queueStep (span : ℕ) (s : Queue ℕ (Key × Value) × List (Item ℕ (Key × Value))) :
    Event Key Value → Queue ℕ (Key × Value) × List (Item ℕ (Key × Value))
  | .insert aIt aEntry aCost =>
      (s.1.insert span aIt (aEntry.key, aEntry.value) aCost.toNat, s.2)
  | .refresh aIt aCost => (s.1.refresh span aIt aCost.toNat, s.2)
  | .remove aIt => (s.1.remove aIt, s.2)
  | .shrink =>
      match s.1.shrink with
      | none => s
      | some x => (x.2, s.2 ++ [x.1])

/-- A new node has an address that is not in use, iterators are valid, an offset
and a cost do not wrap together, and `Shrink` finds an entry. -/
def Admitted (s : Queue ℕ (Key × Value) × List (Item ℕ (Key × Value))) : Event Key Value → Prop
  | .insert aIt _ _ => aIt ∉ s.1.items.map Item.name
  | .refresh aIt aCost => ∃ x ∈ s.1.items, x.name = aIt ∧
      x.time - s.1.clock + aCost.toNat < 2 ^ 32
  | .remove aIt => aIt ∈ s.1.items.map Item.name
  | .shrink => s.1.items ≠ []

instance (s : Queue ℕ (Key × Value) × List (Item ℕ (Key × Value))) :
    (e : Event Key Value) → Decidable (Admitted s e)
  | .insert aIt _ _ => inferInstanceAs (Decidable (aIt ∉ s.1.items.map Item.name))
  | .refresh aIt aCost => inferInstanceAs (Decidable (∃ x ∈ s.1.items, x.name = aIt ∧
      x.time - s.1.clock + aCost.toNat < 2 ^ 32))
  | .remove aIt => inferInstanceAs (Decidable (aIt ∈ s.1.items.map Item.name))
  | .shrink => inferInstanceAs (Decidable (¬ s.1.items = []))

theorem step_refines (hs : Sized size) {r : RingAge Key Value size}
    {s : Queue ℕ (Key × Value) × List (Item ℕ (Key × Value))} (h : Refines r s.1)
    {e : Event Key Value} (he : Admitted s e) :
    ∃ r', ringStep (r, s.2.map (entryOf size)) e =
        some (r', (queueStep size.toNat s e).2.map (entryOf size)) ∧
      Refines r' (queueStep size.toNat s e).1 := by
  cases e with
  | insert aIt aEntry aCost => exact ⟨_, rfl, h.insert hs he aEntry aCost⟩
  | refresh aIt aCost =>
      obtain ⟨x, hx, rfl, hcost⟩ := he
      obtain ⟨r', heq, hrefines⟩ := h.refresh hs hx hcost
      refine ⟨r', ?_, hrefines⟩
      simp only [ringStep, heq]
      rfl
  | remove aIt =>
      obtain ⟨x, hx, rfl⟩ := List.mem_map.mp he
      obtain ⟨r', heq, hrefines⟩ := h.remove hs hx
      refine ⟨r', ?_, hrefines⟩
      simp only [ringStep, heq]
      rfl
  | shrink =>
      obtain ⟨x, r', q', heq, hshrink, hrefines⟩ := h.shrink hs he
      simp only [ringStep, queueStep, heq, hshrink]
      exact ⟨r', by simp, hrefines⟩

theorem run_refines (hs : Sized size) {r : RingAge Key Value size}
    {s : Queue ℕ (Key × Value) × List (Item ℕ (Key × Value))} (h : Refines r s.1)
    {es : List (Event Key Value)} (hes : Meets (queueStep size.toNat) Admitted s es) :
    ∃ r', es.foldlM ringStep (r, s.2.map (entryOf size)) =
        some (r', (run (queueStep size.toNat) s es).2.map (entryOf size)) ∧
      Refines r' (run (queueStep size.toNat) s es).1 := by
  induction es generalizing r s with
  | nil => exact ⟨r, rfl, h⟩
  | cons e es ih =>
      obtain ⟨he, hrest⟩ := hes
      obtain ⟨r', heq, hrefines⟩ := step_refines hs h he
      rw [List.foldlM_cons, heq]
      exact ih hrefines hrest

/-- The number of buckets of the LFU cache. -/
def bucketCount : UInt32 := 1024

theorem sized_bucketCount : Sized bucketCount := ⟨by decide, by decide⟩

/-- Every run of the queue is a run of the ring: no `Shrink` goes on for ever,
the handler gets the items that leave the queue, and in the end the ring holds
the queue. -/
theorem ring_refines_queue (es : List (Event Key Value))
    (h : Meets (queueStep bucketCount.toNat) Admitted (({} : Queue ℕ (Key × Value)), []) es) :
    let s := run (queueStep bucketCount.toNat) (({} : Queue ℕ (Key × Value)), []) es
    ∃ r : RingAge Key Value bucketCount,
      es.foldlM ringStep (({} : RingAge Key Value bucketCount), []) =
        some (r, s.2.map (entryOf bucketCount)) ∧ Refines r s.1 :=
  run_refines sized_bucketCount refines_start h

/-- Two entries, the first one refreshed beyond the cap; the second one leaves,
and then the first one. -/
def cappedRun : List (Event ℕ ℕ) :=
  [.insert 0 { key := 10, value := 1 } 1, .insert 1 { key := 11, value := 2 } 20,
    .refresh 0 2000, .shrink, .refresh 0 20, .shrink]

theorem ring_refines_queue_capped :
    let s := run (queueStep bucketCount.toNat) (({} : Queue ℕ (ℕ × ℕ)), []) cappedRun
    Meets (queueStep bucketCount.toNat) Admitted (({} : Queue ℕ (ℕ × ℕ)), []) cappedRun ∧
    (∃ r : RingAge ℕ ℕ bucketCount,
      cappedRun.foldlM ringStep (({} : RingAge ℕ ℕ bucketCount), []) =
        some (r, s.2.map (entryOf bucketCount)) ∧ Refines r s.1) ∧
    s.2.map Item.time = [20, 1043] := by
  have h : Meets (queueStep bucketCount.toNat) Admitted (({} : Queue ℕ (ℕ × ℕ)), [])
      cappedRun := by decide
  exact ⟨h, ring_refines_queue cappedRun h, by decide⟩

end Stuff.CacheRingAge
