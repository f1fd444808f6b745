import Mathlib.Data.List.Nodup

/-!
# A queue with aging

Items carry a virtual time and stand in the order in which they were placed. An
item is placed at most `span - 1` ahead of the clock; a refresh moves it ahead
and places it anew. The item that leaves is the first one placed among those of
the least time, and the clock is set to that time.
-/
namespace Stuff.AgedQueue

variable {ι β : Type}

structure Item (ι β : Type) where
  name : ι
  payload : β
  time : ℕ
deriving DecidableEq, Repr

structure Queue (ι β : Type) where
  clock : ℕ := 0
  items : List (Item ι β) := []

namespace Queue

/-- No item is placed further ahead of the clock than the span allows. -/
def bounded (q : Queue ι β) (span time : ℕ) : ℕ := min time (q.clock + (span - 1))

def insert (q : Queue ι β) (span : ℕ) (name : ι) (payload : β) (cost : ℕ) : Queue ι β :=
  { q with items := q.items ++ [⟨name, payload, q.bounded span (q.clock + cost)⟩] }

/-- The least time. -/
def due (q : Queue ι β) : Option ℕ := (q.items.map Item.time).min?

section Names
variable [DecidableEq ι]

def without (q : Queue ι β) (name : ι) : List (Item ι β) :=
  q.items.filter fun x => x.name ≠ name

def remove (q : Queue ι β) (name : ι) : Queue ι β := { q with items := q.without name }

def refresh (q : Queue ι β) (span : ℕ) (name : ι) (cost : ℕ) : Queue ι β :=
  match q.items.find? fun x => x.name = name with
  | none => q
  | some x =>
      { q with items := q.without name ++ [{ x with time := q.bounded span (x.time + cost) }] }

/-- The item is placed anew, at a given time. -/
def move (q : Queue ι β) (x : Item ι β) (time : ℕ) : Queue ι β :=
  { q with items := q.without x.name ++ [{ x with time := time }] }

def assign (q : Queue ι β) (name : ι) (payload : β) : Queue ι β :=
  { q with
    items := q.items.map fun x => if x.name = name then { x with payload := payload } else x }

def shrink (q : Queue ι β) : Option (Item ι β × Queue ι β) := do
  let v ← q.due
  let x ← q.items.find? fun x => x.time = v
  some (x, { clock := v, items := q.without x.name })

end Names

structure Valid (span : ℕ) (q : Queue ι β) : Prop where
  names : (q.items.map Item.name).Nodup
  lower : ∀ x ∈ q.items, q.clock ≤ x.time
  upper : ∀ x ∈ q.items, x.time ≤ q.clock + (span - 1)

variable {q : Queue ι β} {span : ℕ}

theorem Valid.place (h : Valid span q) {x : Item ι β} (hname : x.name ∉ q.items.map Item.name)
    (hlower : q.clock ≤ x.time) (hupper : x.time ≤ q.clock + (span - 1)) :
    Valid span { q with items := q.items ++ [x] } := by
  constructor
  · simp only [List.map_append, List.map_cons, List.map_nil]
    rw [List.nodup_append_comm]
    exact List.nodup_cons.mpr ⟨hname, h.names⟩
  · intro y hy
    rcases List.mem_append.mp hy with hy | hy
    · exact h.lower y hy
    · rw [List.mem_singleton.mp hy]
      exact hlower
  · intro y hy
    rcases List.mem_append.mp hy with hy | hy
    · exact h.upper y hy
    · rw [List.mem_singleton.mp hy]
      exact hupper

theorem Valid.insert (h : Valid span q) {name : ι} (hname : name ∉ q.items.map Item.name)
    (payload : β) (cost : ℕ) : Valid span (q.insert span name payload cost) :=
  h.place hname (by simp only [bounded]; omega) (Nat.min_le_right _ _)

theorem Valid.advance (h : Valid span q) (hlater : ∀ x ∈ q.items, x.time ≠ q.clock) :
    Valid span { q with clock := q.clock + 1 } := by
  constructor
  · exact h.names
  · intro x hx
    have hle := h.lower x hx
    have hne := hlater x hx
    dsimp only
    omega
  · intro x hx
    have hle := h.upper x hx
    dsimp only
    omega

/-- Items with the same names and times, in the same order. -/
theorem Valid.map (h : Valid span q) {f : Item ι β → Item ι β} (hname : ∀ x, (f x).name = x.name)
    (htime : ∀ x, (f x).time = x.time) : Valid span { q with items := q.items.map f } := by
  constructor
  · have hnames : (q.items.map f).map Item.name = q.items.map Item.name := by
      rw [List.map_map]
      exact List.map_congr_left fun x _ => hname x
    rw [hnames]
    exact h.names
  · intro y hy
    obtain ⟨x, hx, rfl⟩ := List.mem_map.mp hy
    rw [htime]
    exact h.lower x hx
  · intro y hy
    obtain ⟨x, hx, rfl⟩ := List.mem_map.mp hy
    rw [htime]
    exact h.upper x hx

/-- Same-named items are one item. -/
theorem Valid.eq_of_name (h : Valid span q) {x y : Item ι β} (hx : x ∈ q.items) (hy : y ∈ q.items)
    (hname : x.name = y.name) : x = y :=
  List.inj_on_of_nodup_map h.names hx hy hname

theorem due_eq_some_iff {v : ℕ} :
    q.due = some v ↔ (∃ x ∈ q.items, x.time = v) ∧ ∀ x ∈ q.items, v ≤ x.time := by
  unfold due
  rw [List.min?_eq_some_iff]
  simp

theorem due_isSome (h : q.items ≠ []) : ∃ v, q.due = some v := by
  unfold due
  cases hmin : (q.items.map Item.time).min? with
  | none => simp [List.min?_eq_none_iff, h] at hmin
  | some v => exact ⟨v, rfl⟩

variable [DecidableEq ι]

theorem Valid.without (h : Valid span q) (name : ι) :
    Valid span { q with items := q.without name } := by
  constructor
  · exact h.names.sublist (List.filter_sublist.map Item.name)
  · intro x hx
    exact h.lower x (List.mem_of_mem_filter hx)
  · intro x hx
    exact h.upper x (List.mem_of_mem_filter hx)

theorem name_not_mem_without (q : Queue ι β) (name : ι) :
    name ∉ (q.without name).map Item.name := by
  intro hmem
  obtain ⟨x, hx, hname⟩ := List.mem_map.mp hmem
  simp only [Queue.without, List.mem_filter, decide_eq_true_eq] at hx
  exact hx.2 hname

/-- An assignment keeps the names of the items of any class of times. -/
theorem assign_filter_names (q : Queue ι β) (name : ι) (payload : β) (p : ℕ → Bool) :
    ((q.assign name payload).items.filter fun x => p x.time).map Item.name =
      (q.items.filter fun x => p x.time).map Item.name := by
  unfold Queue.assign
  induction q.items with
  | nil => rfl
  | cons x xs ih =>
      rw [List.map_cons, List.filter_cons, List.filter_cons]
      split_ifs <;> simp [ih]

theorem assign_names (q : Queue ι β) (name : ι) (payload : β) :
    (q.assign name payload).items.map Item.name = q.items.map Item.name := by
  have hall := q.assign_filter_names name payload fun _ => true
  rwa [List.filter_true, List.filter_true] at hall

theorem Valid.refresh (h : Valid span q) (name : ι) (cost : ℕ) :
    Valid span (q.refresh span name cost) := by
  unfold Queue.refresh
  split
  · exact h
  · next x hx =>
      have hmem := List.mem_of_find?_eq_some hx
      have hname : x.name = name := by simpa using List.find?_some hx
      have hlower := h.lower x hmem
      have hrest := h.without name
      apply hrest.place
      · rw [hname]
        exact q.name_not_mem_without name
      · simp only [bounded]
        omega
      · exact Nat.min_le_right _ _

theorem Valid.find?_name (h : Valid span q) {x : Item ι β} (hx : x ∈ q.items) :
    q.items.find? (fun y => y.name = x.name) = some x := by
  cases hfind : q.items.find? (fun y => y.name = x.name) with
  | none =>
      have hno := List.find?_eq_none.mp hfind x hx
      simp at hno
  | some y =>
      have hname : y.name = x.name := by simpa using List.find?_some hfind
      rw [h.eq_of_name (List.mem_of_find?_eq_some hfind) hx hname]

/-- The names of a class of items, less one of the names. -/
theorem Valid.erase_names (h : Valid span q) (p : Item ι β → Bool) (name : ι) :
    ((q.items.filter p).map Item.name).erase name =
      ((q.without name).filter p).map Item.name := by
  have hnodup : ((q.items.filter p).map Item.name).Nodup :=
    h.names.sublist (List.filter_sublist.map Item.name)
  rw [hnodup.erase_eq_filter, List.filter_map, Queue.without, List.filter_filter,
    List.filter_filter]
  congr 1
  apply List.filter_congr
  intro x _
  rw [Bool.eq_iff_iff]
  simp [and_comm]

theorem Valid.names_without (h : Valid span q) (name : ι) :
    (q.without name).map Item.name = (q.items.map Item.name).erase name := by
  have herase := h.erase_names (fun _ => true) name
  rw [List.filter_true, List.filter_true] at herase
  exact herase.symm

theorem Valid.move_names (h : Valid span q) {x : Item ι β} (hx : x ∈ q.items) (time : ℕ) :
    ((q.move x time).items.map Item.name).Perm (q.items.map Item.name) := by
  unfold Queue.move
  rw [List.map_append, h.names_without]
  have hmem : x.name ∈ q.items.map Item.name := List.mem_map_of_mem hx
  exact List.perm_append_comm.trans (List.perm_cons_erase hmem).symm

theorem shrink_of_due {v : ℕ} (h : q.due = some v) {x : Item ι β}
    (hx : q.items.find? (fun y => y.time = v) = some x) :
    q.shrink = some (x, { clock := v, items := q.without x.name }) := by
  simp [shrink, h, hx]

theorem shrink_eq_some {x : Item ι β} {q' : Queue ι β} (h : q.shrink = some (x, q')) :
    x ∈ q.items ∧ q'.items = q.without x.name := by
  simp only [shrink, Option.bind_eq_bind, Option.bind_eq_some_iff, Option.some.injEq,
    Prod.mk.injEq] at h
  obtain ⟨v, -, y, hfind, rfl, rfl⟩ := h
  exact ⟨List.mem_of_find?_eq_some hfind, rfl⟩

end Queue
end Stuff.AgedQueue
