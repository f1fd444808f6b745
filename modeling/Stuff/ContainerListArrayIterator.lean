import Stuff.ContainerListArray
import Stuff.EventRuns
import Stuff.Loops
import Mathlib.Data.UInt

/-!
# A walk through the chunks

A `const_iterator` of `Container::ListArray` has a place in the list of chunks and a place in the
chunk that is there. The second one has no value in an iterator that is made for the end, and keeps
one of the last chunk in an iterator that has come there.
-/
namespace Stuff.ContainerListArray
open EventRuns Loops

variable {T : Type}

/-- Both places of `current` are numbers: that of the chunk and that in the chunk. -/
structure ConstIterator where
  b : ℕ
  e : ℕ
  current : Option (ℕ × ℕ) := none
deriving DecidableEq, Repr

namespace ConstIterator

/-- The constructor. -/
def make (b e : ℕ) : ConstIterator := { b, e, current := if b ≠ e then some (b, 0) else none }

/-- Places without a value or of different chunks have no comparison. -/
def sameCurrent (l r : ConstIterator) : Option Bool :=
  match l.current, r.current with
  | some x, some y => if x.1 = y.1 then some (decide (x.2 = y.2)) else none
  | _, _ => none

/-- `operator==` -/
def equal (l r : ConstIterator) : Option Bool :=
  if l.b = l.e ∧ r.b = r.e then some true
  else if l.b = r.b ∧ l.e = r.e then l.sameCurrent r
  else some false

end ConstIterator

namespace ListArray

def clear (a : ListArray T) : ListArray T := { a with list := [] }

/-- `size()` -/
def getSize (a : ListArray T) : UInt64 :=
  match a.list.getLast? with
  | none => 0
  | some last =>
      UInt64.ofNat a.size * (UInt64.ofNat a.list.length - 1) + UInt64.ofNat last.length

/-- `begin()` -/
def beginIt (a : ListArray T) : ConstIterator := .make 0 a.list.length

/-- `end()` -/
def endIt (a : ListArray T) : ConstIterator := .make a.list.length a.list.length

/-- `operator*` -/
def deref (a : ListArray T) (it : ConstIterator) : Option T := do
  let (chunk, i) ← it.current
  let x ← a.list[chunk]?
  x[i]?

/-- `operator++` -/
def increment (a : ListArray T) (it : ConstIterator) : Option ConstIterator := do
  let (chunk, i) ← it.current
  let _ ← a.deref it
  let last ← a.list[it.b]?
  if (chunk, i + 1) = (it.b, last.length) then
    let b := it.b + 1
    return { it with b := b, current := if b ≠ it.e then some (b, 0) else some (chunk, i + 1) }
  else return { it with current := some (chunk, i + 1) }

/-- A turn of a `for` loop over all elements, with those it has visited. -/
def turn (a : ListArray T) (s : ConstIterator × List T) :
    Option (Turn (ConstIterator × List T) (List T)) := do
  if ← s.1.equal a.endIt then return .leave s.2
  let t ← a.deref s.1
  let it ← a.increment s.1
  return .next (it, s.2 ++ [t])

def visit (a : ListArray T) (n : ℕ) : Option (List T) := loop (fun _ => a.turn) n (a.beginIt, [])

end ListArray

inductive Event (T : Type)
  | pushBack (t : T)
  | clear
deriving DecidableEq, Repr

namespace ListArray

def step (a : ListArray T) : Event T → ListArray T
  | .pushBack t => a.pushBack t
  | .clear => a.clear

end ListArray

/-- What an event makes of the elements so far. -/
def Event.apply (ts : List T) : Event T → List T
  | .pushBack t => ts ++ [t]
  | .clear => []

/-- The elements since the last `clear`. -/
def pushed (es : List (Event T)) : List T := es.foldl Event.apply []

def start (T : Type) (c : ℕ) : ListArray T := { size := c }

namespace ListArray

/-- A list of these elements. -/
structure IsList (a : ListArray T) (ts : List T) : Prop where
  full : ∀ x ∈ a.list.dropLast, x.length = a.size
  nonempty : ∀ x ∈ a.list, x ≠ []
  size : a.getSize = UInt64.ofNat ts.length
  chunks : a.forChunks (fun s x => s ++ x) [] = ts
  visit : Returns a.visit ts

/-! ## Chunks -/

/-- All chunks but the last one are full. -/
structure Inv (a : ListArray T) : Prop where
  full : ∀ x ∈ a.list.dropLast, x.length = a.size
  nonempty : ∀ x ∈ a.list, x ≠ []
  last : ∀ x ∈ a.list.getLast?, x.length ≤ a.size

theorem Inv.all_full {a : ListArray T} (h : a.Inv) {last : List T}
    (hlast : a.list.getLast? = some last) (hfull : last.length = a.size) :
    ∀ x ∈ a.list, x.length = a.size := by
  intro x hx
  rw [← List.dropLast_append_getLast? last hlast, List.mem_append] at hx
  rcases hx with hx | hx
  · exact h.full x hx
  · rw [List.mem_singleton.mp hx, hfull]

theorem Inv.nil {a : ListArray T} (h : a.list = []) : a.Inv := by
  constructor <;> simp [h]

theorem size_pushBack (a : ListArray T) (t : T) : (a.pushBack t).size = a.size := by
  unfold pushBack
  split
  case h_1 => rfl
  case h_2 => split <;> rfl

theorem Inv.concat {a : ListArray T} {front : List (List T)} {x : List T}
    (hlist : a.list = front ++ [x]) (hfull : ∀ y ∈ front, y.length = a.size)
    (hnonempty : ∀ y ∈ front, y ≠ []) (hx : x ≠ []) (hle : x.length ≤ a.size) : a.Inv := by
  constructor
  case full => rwa [hlist, List.dropLast_concat]
  case nonempty =>
    intro y hy
    rw [hlist] at hy
    rcases List.mem_append.mp hy with hy | hy
    · exact hnonempty y hy
    · rwa [List.mem_singleton.mp hy]
  case last =>
    intro y hy
    rw [hlist, List.getLast?_concat, Option.mem_some_iff] at hy
    rwa [← hy]

theorem Inv.pushBack {a : ListArray T} (hsize : 1 ≤ a.size) (h : a.Inv) (t : T) :
    (a.pushBack t).Inv := by
  unfold ListArray.pushBack
  split
  case h_1 =>
    have hnone : ∀ {p : List T → Prop}, ∀ y ∈ ([] : List (List T)), p y := List.forall_mem_nil _
    exact .concat rfl hnone hnone (List.cons_ne_nil t []) hsize
  case h_2 last hlast =>
    split
    case isTrue hfull =>
      exact .concat rfl (h.all_full hlast hfull) h.nonempty (List.cons_ne_nil t []) hsize
    case isFalse hroom =>
      have hle := h.last last hlast
      have hlast' : last ++ [t] ≠ [] := List.append_ne_nil_of_right_ne_nil _ (List.cons_ne_nil t [])
      refine .concat rfl h.full (fun y hy => h.nonempty y (List.mem_of_mem_dropLast hy)) hlast' ?_
      rw [List.length_append, List.length_singleton]
      dsimp only
      omega

theorem flatten_pushBack (a : ListArray T) (t : T) :
    (a.pushBack t).list.flatten = a.list.flatten ++ [t] := by
  unfold pushBack
  split
  case h_1 hnone =>
    rw [List.getLast?_eq_none_iff.mp hnone]
    rfl
  case h_2 last hlast =>
    split
    case isTrue => simp
    case isFalse =>
      conv_rhs => rw [← List.dropLast_append_getLast? last hlast]
      simp

theorem forChunks_flatten (a : ListArray T) :
    a.forChunks (fun s x => s ++ x) [] = a.list.flatten := by
  have hfold : ∀ (list : List (List T)) (s : List T),
      list.foldl (fun s x => s ++ x) s = s ++ list.flatten := by
    intro list
    induction list with
    | nil => simp
    | cons x list ih => simp [ih]
  exact (hfold a.list []).trans (List.nil_append _)

theorem length_flatten_of_full {list : List (List T)} {c : ℕ} (h : ∀ x ∈ list, x.length = c) :
    list.flatten.length = c * list.length := by
  induction list with
  | nil => rfl
  | cons x list ih =>
      have hrest := ih fun y hy => h y (List.mem_cons_of_mem x hy)
      rw [List.flatten_cons, List.length_append, hrest, h x List.mem_cons_self, List.length_cons,
        Nat.mul_succ, Nat.add_comm]

theorem Inv.getSize {a : ListArray T} (h : a.Inv) :
    a.getSize = UInt64.ofNat a.list.flatten.length := by
  unfold ListArray.getSize
  split
  case h_1 hnone =>
    rw [List.getLast?_eq_none_iff.mp hnone]
    rfl
  case h_2 last hlast =>
    have hfull := length_flatten_of_full h.full
    have hlist := (List.dropLast_append_getLast? last hlast).symm
    have hflatten : a.list.flatten.length = a.size * a.list.dropLast.length + last.length := by
      conv_lhs => rw [hlist]
      rw [List.flatten_append, List.length_append, hfull]
      simp
    have hlength : a.list.length = a.list.dropLast.length + 1 := by
      conv_lhs => rw [hlist]
      simp
    rw [hflatten, hlength, UInt64.ofNat_add, UInt64.ofNat_add, UInt64.ofNat_mul]
    simp

/-! ## The walk -/

section
variable {a : ListArray T} {chunks rest : List (List T)} {x : List T} {t : T} {y : List T}
  {seen : List T}

/-- An iterator in front of what `y` is in `chunks ++ (x ++ y) :: rest`. -/
def place (chunks : List (List T)) (x y : List T) (rest : List (List T)) : ConstIterator where
  b := chunks.length
  e := (chunks ++ (x ++ y) :: rest).length
  current := some (chunks.length, x.length)

theorem deref_place (h : a.list = chunks ++ (x ++ t :: y) :: rest) :
    a.deref (place chunks x (t :: y) rest) = some t := by
  simp [deref, place, h]

theorem equal_place (h : a.list = chunks ++ (x ++ y) :: rest) :
    (place chunks x y rest).equal a.endIt = some false := by
  have hb : chunks.length ≠ a.list.length := by simp [h]
  have he : chunks.length ≠ (chunks ++ (x ++ y) :: rest).length := by simp
  unfold ConstIterator.equal
  rw [if_neg fun hends => he hends.1, if_neg fun hsame => hb hsame.1]

/-- In the same chunk. -/
theorem increment_place (h : a.list = chunks ++ (x ++ t :: y) :: rest) (hy : y ≠ []) :
    a.increment (place chunks x (t :: y) rest) = some (place chunks (x ++ [t]) y rest) := by
  have hderef := deref_place h
  have hlast : a.list[(place chunks x (t :: y) rest).b]? = some (x ++ t :: y) := by
    simp [h, place]
  unfold increment
  simp only [hderef, hlast, Option.bind_eq_bind, Option.bind_some]
  simp [place, hy]

/-- To the next chunk. -/
theorem increment_next {u : T} {z : List T}
    (h : a.list = chunks ++ (x ++ [t]) :: (u :: z) :: rest) :
    a.increment (place chunks x [t] ((u :: z) :: rest)) =
      some (place (chunks ++ [x ++ [t]]) [] (u :: z) rest) := by
  have hderef := deref_place h
  have hlast : a.list[(place chunks x [t] ((u :: z) :: rest)).b]? = some (x ++ [t]) := by
    simp [h, place]
  unfold increment
  simp only [hderef, hlast, Option.bind_eq_bind, Option.bind_some]
  simp [place]

/-- To the end. -/
theorem increment_end (h : a.list = chunks ++ [x ++ [t]]) :
    ∃ current, a.increment (place chunks x [t] []) =
      some ⟨a.list.length, a.list.length, current⟩ := by
  have hderef := deref_place h
  have hlast : a.list[(place chunks x [t] []).b]? = some (x ++ [t]) := by
    simp [h, place]
  unfold increment
  simp only [hderef, hlast, Option.bind_eq_bind, Option.bind_some]
  simp [place, h]

theorem turn_place {it : ConstIterator} (h : a.list = chunks ++ (x ++ t :: y) :: rest)
    (hnext : a.increment (place chunks x (t :: y) rest) = some it) :
    a.turn (place chunks x (t :: y) rest, seen) = some (.next (it, seen ++ [t])) := by
  simp [turn, equal_place h, deref_place h, hnext]

theorem turn_end (current : Option (ℕ × ℕ)) :
    a.turn (⟨a.list.length, a.list.length, current⟩, seen) = some (.leave seen) := by
  simp [turn, ConstIterator.equal, endIt, ConstIterator.make]

end

/-- Through what is left of a chunk. -/
theorem returns_chunk {a : ListArray T} {chunks rest : List (List T)} {x y seen ts : List T} {t : T}
    {it : ConstIterator} (h : a.list = chunks ++ (x ++ (y ++ [t])) :: rest)
    (hlast : a.increment (place chunks (x ++ y) [t] rest) = some it)
    (hafter : Returns (fun n => loop (fun _ => a.turn) n (it, seen ++ (y ++ [t]))) ts) :
    Returns (fun n => loop (fun _ => a.turn) n (place chunks x (y ++ [t]) rest, seen)) ts := by
  induction y generalizing x seen with
  | nil =>
      rw [List.append_nil] at hlast
      refine loop_next ?_ hafter
      rw [List.nil_append, turn_place h hlast]
      exact returns_some _
  | cons u y ih =>
      have hne : y ++ [t] ≠ [] := List.append_ne_nil_of_right_ne_nil _ (List.cons_ne_nil t [])
      have hturn : a.turn (place chunks x (u :: (y ++ [t])) rest, seen) =
          some (.next (place chunks (x ++ [u]) (y ++ [t]) rest, seen ++ [u])) :=
        turn_place h (increment_place h hne)
      have hlist : a.list = chunks ++ (x ++ [u] ++ (y ++ [t])) :: rest := by
        rw [h]
        simp
      have hrest : Returns (fun n => loop (fun _ => a.turn) n
          (place chunks (x ++ [u]) (y ++ [t]) rest, seen ++ [u])) ts :=
        ih hlist (by rwa [List.append_assoc]) (by rwa [List.append_assoc])
      refine loop_next ?_ hrest
      rw [List.cons_append, hturn]
      exact returns_some _

/-- Through what is left of a chunk and the chunks behind it. -/
theorem returns_place {a : ListArray T} {chunks rest : List (List T)} {x y seen : List T}
    (h : a.list = chunks ++ (x ++ y) :: rest) (hy : y ≠ []) (hrest : ∀ z ∈ rest, z ≠ []) :
    Returns (fun n => loop (fun _ => a.turn) n (place chunks x y rest, seen))
      (seen ++ y ++ rest.flatten) := by
  induction rest generalizing chunks x y seen with
  | nil =>
      obtain ⟨y, t, rfl⟩ : ∃ z t, y = z ++ [t] := ⟨_, _, (List.dropLast_concat_getLast hy).symm⟩
      rw [← List.append_assoc] at h
      obtain ⟨current, hend⟩ := increment_end h
      rw [List.append_assoc] at h
      refine returns_chunk h hend (loop_leave ?_)
      rw [turn_end, List.flatten_nil, List.append_nil]
      exact returns_some _
  | cons z rest ih =>
      obtain ⟨y, t, rfl⟩ : ∃ z t, y = z ++ [t] := ⟨_, _, (List.dropLast_concat_getLast hy).symm⟩
      obtain ⟨u, z, rfl⟩ := List.exists_cons_of_ne_nil (hrest z List.mem_cons_self)
      rw [← List.append_assoc] at h
      have hnext := increment_next h
      have hlist : a.list = (chunks ++ [x ++ y ++ [t]]) ++ ([] ++ u :: z) :: rest := by
        rw [h]
        simp
      have hafter : Returns _ (seen ++ (y ++ [t]) ++ u :: z ++ rest.flatten) :=
        ih hlist (List.cons_ne_nil u z) fun w hw => hrest w (List.mem_cons_of_mem _ hw)
      rw [List.append_assoc] at h
      refine returns_chunk h hnext ?_
      rwa [List.flatten_cons, ← List.append_assoc (seen ++ (y ++ [t]))]

theorem Inv.visit {a : ListArray T} (h : a.Inv) : Returns a.visit a.list.flatten := by
  unfold ListArray.visit beginIt
  cases hlist : a.list with
  | nil =>
      apply loop_leave
      have hturn : a.turn (⟨a.list.length, a.list.length, none⟩, []) = some (.leave []) :=
        turn_end none
      rw [hlist] at hturn
      exact hturn ▸ returns_some _
  | cons x rest =>
      have hne : ∀ z ∈ x :: rest, z ≠ [] := hlist ▸ h.nonempty
      have hfirst : a.list = [] ++ ([] ++ x) :: rest := hlist
      exact returns_place hfirst (hne x List.mem_cons_self) fun z hz =>
        hne z (List.mem_cons_of_mem x hz)

/-! ## Runs -/

theorem Inv.isList {a : ListArray T} (h : a.Inv) : a.IsList a.list.flatten where
  full := h.full
  nonempty := h.nonempty
  size := h.getSize
  chunks := a.forChunks_flatten
  visit := h.visit

theorem size_step (a : ListArray T) (e : Event T) : (a.step e).size = a.size := by
  cases e with
  | pushBack t => exact size_pushBack a t
  | clear => rfl

theorem Inv.step {a : ListArray T} (hsize : 1 ≤ a.size) (h : a.Inv) (e : Event T) :
    (a.step e).Inv := by
  cases e with
  | pushBack t => exact h.pushBack hsize t
  | clear => exact Inv.nil rfl

theorem flatten_step (a : ListArray T) (e : Event T) :
    (a.step e).list.flatten = e.apply a.list.flatten := by
  cases e with
  | pushBack t => exact flatten_pushBack a t
  | clear => rfl

theorem flatten_run (a : ListArray T) (es : List (Event T)) :
    (run step a es).list.flatten = es.foldl Event.apply a.list.flatten := by
  induction es generalizing a with
  | nil => rfl
  | cons e es ih => rw [run_cons, ih, flatten_step, List.foldl_cons]

/-- After any events. -/
theorem listArray_isList {c : ℕ} (hc : 1 ≤ c) (es : List (Event T)) :
    (run step (ContainerListArray.start T c) es).IsList (pushed es) := by
  have hstart : (ContainerListArray.start T c).Inv := Inv.nil rfl
  have hinv := run_invariant (I := fun a => 1 ≤ a.size ∧ Inv a)
    (fun a e ha _ => ⟨(size_step a e).symm ▸ ha.1, ha.2.step ha.1 e⟩) ⟨hc, hstart⟩
    (meets_true step _ es)
  have hlist := hinv.2.isList
  rwa [flatten_run] at hlist

/-- Chunks of two elements. -/
theorem listArray_isList_two :
    (run step (ContainerListArray.start ℕ 2)
      [.pushBack 1, .clear, .pushBack 2, .pushBack 3, .pushBack 4]).IsList [2, 3, 4] :=
  listArray_isList (by decide) [.pushBack 1, .clear, .pushBack 2, .pushBack 3, .pushBack 4]

end ListArray

end Stuff.ContainerListArray
