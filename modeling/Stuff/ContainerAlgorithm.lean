import Stuff.Loops
import Stuff.OrderedMap

/-!
# Two maps in one

`Container::merge` walks through two maps at once and inserts what the first one does not have. Its
iterator in the first map stays at its entry while others are inserted in front of it.
-/
namespace Stuff.ContainerAlgorithm
open Loops OrderedMap

variable {K V : Type*}

/-- `it1` is the key that the iterator is at, and `it2` are the entries from the other one on. The
program does not have `calls`, the arguments of the calls of `merger`. -/
structure Merge (K V : Type*) where
  dest : List (K × V)
  it1 : Option K
  it2 : List (K × V)
  calls : List (V × V) := []
deriving DecidableEq, Repr

/-- `++it1` -/
def increment (lt : K → K → Bool) (k : K) (dest : List (K × V)) : Option K :=
  (dest.find? fun x => lt k x.1).map Prod.fst

section
variable (lt : K → K → Bool) (merger : V → V → V)

def start (dest source : List (K × V)) : Merge K V where
  dest := dest
  it1 := dest.head?.map Prod.fst
  it2 := source

/-- What comes after the loop. -/
def finish (s : Merge K V) : Merge K V := { s with dest := emplaceAll lt s.dest s.it2, it2 := [] }

/-- An iterator in the first map that is not at an entry would be the end of the program. -/
def turn (s : Merge K V) : Option (Turn (Merge K V) (Merge K V)) :=
  match s.it1, s.it2 with
  | some k, y :: it2 =>
      if lt k y.1 then some (.next { s with it1 := increment lt k s.dest })
      else if lt y.1 k then some (.next { s with dest := emplace lt y.1 y.2 s.dest, it2 := it2 })
      else
        match get lt k s.dest with
        | none => none
        | some v =>
            some (.next
              { dest := assign lt k (merger v y.2) s.dest
                it1 := increment lt k s.dest
                it2 := it2
                calls := s.calls ++ [(v, y.2)] })
  | _, _ => some (.leave (finish lt s))

def merge (n : ℕ) (dest source : List (K × V)) : Option (Merge K V) :=
  loop (fun _ => turn lt merger) n (start dest source)

/-- A value that one of two maps has, or what `merger` makes of two. -/
def joined : Option V → Option V → Option V
  | some v, some w => some (merger v w)
  | some v, none => some v
  | none, w => w

/-- The values of the common keys, in their order. -/
def common (dest source : List (K × V)) : List (V × V) :=
  dest.filterMap fun x => (get lt x.1 source).map fun w => (x.2, w)

/-- The keys of both maps with the right values, and one call for every common key. -/
structure Union (dest source : List (K × V)) (s : Merge K V) : Prop where
  sorted : Sorted lt s.dest
  keys : ∀ x ∈ s.dest, x.1 ∈ dest.map Prod.fst ∨ x.1 ∈ source.map Prod.fst
  get : ∀ k, get lt k s.dest = joined merger (get lt k dest) (get lt k source)
  calls : s.calls = common lt dest source

/-! ## The result -/

/-- The entries behind both iterators. -/
def merged : List (K × V) → List (K × V) → List (K × V)
  | [], ys => ys
  | x :: xs, [] => x :: xs
  | x :: xs, y :: ys =>
      if lt x.1 y.1 then x :: merged xs (y :: ys)
      else if lt y.1 x.1 then y :: merged (x :: xs) ys
      else (x.1, merger x.2 y.2) :: merged xs ys
termination_by xs ys => xs.length + ys.length

end

section
variable {lt : K → K → Bool} {merger : V → V → V} {xs ys : List (K × V)}

theorem joined_none (v : Option V) : joined merger v none = v := by cases v <;> rfl

/-- In front of a map. -/
theorem sorted_below (hlt : StrictWeak lt) {x y : K × V} (h : Sorted lt (y :: ys))
    (hxy : lt x.1 y.1 = true) : ∀ z ∈ y :: ys, lt x.1 z.1 = true := by
  intro z hz
  rcases List.mem_cons.mp hz with rfl | hmem
  · exact hxy
  · exact hlt.trans hxy ((List.pairwise_cons.mp h).1 z hmem)

theorem equivalent_of_not_lt {a b : K} (h : ¬ lt a b = true) (h' : ¬ lt b a = true) :
    equivalent lt a b = true := by
  rw [Bool.not_eq_true] at h h'
  exact equivalent_iff.mpr ⟨h, h'⟩

theorem mem_merged {z : K × V} (h : z ∈ merged lt merger xs ys) :
    z.1 ∈ xs.map Prod.fst ∨ z.1 ∈ ys.map Prod.fst := by
  induction xs, ys using merged.induct lt with
  | case1 ys =>
      rw [merged] at h
      exact .inr (List.mem_map_of_mem h)
  | case2 x xs =>
      rw [merged] at h
      exact .inl (List.mem_map_of_mem h)
  | case3 x xs y ys hxy ih =>
      rw [merged, if_pos hxy] at h
      rcases List.mem_cons.mp h with rfl | hmem
      · exact .inl List.mem_cons_self
      · exact (ih hmem).imp_left (List.mem_cons_of_mem _)
  | case4 x xs y ys hxy hyx ih =>
      rw [merged, if_neg hxy, if_pos hyx] at h
      rcases List.mem_cons.mp h with rfl | hmem
      · exact .inr List.mem_cons_self
      · exact (ih hmem).imp_right (List.mem_cons_of_mem _)
  | case5 x xs y ys hxy hyx ih =>
      rw [merged, if_neg hxy, if_neg hyx] at h
      rcases List.mem_cons.mp h with rfl | hmem
      · exact .inl List.mem_cons_self
      · exact (ih hmem).imp (List.mem_cons_of_mem _) (List.mem_cons_of_mem _)

/-- What is in front of both maps is in front of the result. -/
theorem below_merged {k : K} (hxs : ∀ x ∈ xs, lt k x.1 = true) (hys : ∀ y ∈ ys, lt k y.1 = true) :
    ∀ z ∈ merged lt merger xs ys, lt k z.1 = true := by
  intro z hz
  rcases mem_merged hz with hmem | hmem
  · obtain ⟨x, hx, heq⟩ := List.mem_map.mp hmem
    rw [← heq]
    exact hxs x hx
  · obtain ⟨y, hy, heq⟩ := List.mem_map.mp hmem
    rw [← heq]
    exact hys y hy

theorem sorted_merged (hlt : StrictWeak lt) (hxs : Sorted lt xs) (hys : Sorted lt ys) :
    Sorted lt (merged lt merger xs ys) := by
  induction xs, ys using merged.induct lt with
  | case1 ys => rwa [merged]
  | case2 x xs => rwa [merged]
  | case3 x xs y ys hxy ih =>
      rw [merged, if_pos hxy]
      exact List.pairwise_cons.mpr
        ⟨below_merged (List.pairwise_cons.mp hxs).1 (sorted_below hlt hys hxy), ih hxs.tail hys⟩
  | case4 x xs y ys hxy hyx ih =>
      rw [merged, if_neg hxy, if_pos hyx]
      exact List.pairwise_cons.mpr
        ⟨below_merged (sorted_below hlt hxs hyx) (List.pairwise_cons.mp hys).1, ih hxs hys.tail⟩
  | case5 x xs y ys hxy hyx ih =>
      rw [merged, if_neg hxy, if_neg hyx]
      have heq := equivalent_of_not_lt hxy hyx
      have hbelow : ∀ z ∈ ys, lt x.1 z.1 = true := fun z hz =>
        hlt.lt_of_equivalent heq ((List.pairwise_cons.mp hys).1 z hz)
      exact List.pairwise_cons.mpr
        ⟨below_merged (List.pairwise_cons.mp hxs).1 hbelow, ih hxs.tail hys.tail⟩

theorem get_merged (hlt : StrictWeak lt) (hxs : Sorted lt xs) (hys : Sorted lt ys) (k : K) :
    get lt k (merged lt merger xs ys) = joined merger (get lt k xs) (get lt k ys) := by
  induction xs, ys using merged.induct lt with
  | case1 ys =>
      rw [merged]
      rfl
  | case2 x xs =>
      rw [merged]
      exact (joined_none _).symm
  | case3 x xs y ys hxy ih =>
      rw [merged, if_pos hxy, get_cons, get_cons, ih hxs.tail hys]
      split
      case isTrue hk =>
        rw [equivalent_comm] at hk
        rw [get_below fun z hz => hlt.lt_of_equivalent hk (sorted_below hlt hys hxy z hz)]
        rfl
      case isFalse => rfl
  | case4 x xs y ys hxy hyx ih =>
      rw [merged, if_neg hxy, if_pos hyx, get_cons, get_cons (m := ys), ih hxs hys.tail]
      split
      case isTrue hk =>
        rw [equivalent_comm] at hk
        rw [get_below fun z hz => hlt.lt_of_equivalent hk (sorted_below hlt hxs hyx z hz)]
        rfl
      case isFalse => rfl
  | case5 x xs y ys hxy hyx ih =>
      rw [merged, if_neg hxy, if_neg hyx, get_cons, get_cons, get_cons, ih hxs.tail hys.tail]
      have heq := equivalent_of_not_lt hxy hyx
      have heq' : equivalent lt y.1 x.1 = true := by rwa [equivalent_comm]
      have hsame : equivalent lt y.1 k = equivalent lt x.1 k := by
        rw [Bool.eq_iff_iff]
        constructor
        · exact hlt.equivalent_trans heq
        · exact hlt.equivalent_trans heq'
      rw [hsame]
      split
      case isTrue => rfl
      case isFalse => rfl

/-! ## The calls -/

theorem common_nil (xs : List (K × V)) : common lt xs [] = [] := by
  rw [common, List.filterMap_eq_nil_iff]
  intro x _
  rfl

/-- A key of the second map in front of the first one. -/
theorem common_skip {y : K × V} (h : ∀ x ∈ xs, lt y.1 x.1 = true) :
    common lt xs (y :: ys) = common lt xs ys := by
  refine List.filterMap_congr fun x hx => ?_
  rw [get_cons, equivalent_of_lt (h x hx)]
  rfl

/-- A key of the first map in front of the second one. -/
theorem common_cons_below {x : K × V} (h : ∀ y ∈ ys, lt x.1 y.1 = true) :
    common lt (x :: xs) ys = common lt xs ys := by
  rw [common, List.filterMap_cons, get_below h]
  rfl

theorem common_cons_same (hlt : StrictWeak lt) {x y : K × V} (heq : equivalent lt x.1 y.1 = true)
    (h : ∀ z ∈ xs, lt x.1 z.1 = true) :
    common lt (x :: xs) (y :: ys) = (x.2, y.2) :: common lt xs ys := by
  rw [equivalent_comm] at heq
  have hskip : ∀ z ∈ xs, lt y.1 z.1 = true := fun z hz => hlt.lt_of_equivalent heq (h z hz)
  rw [← common_skip hskip, common, List.filterMap_cons, get_cons, if_pos heq]
  rfl

/-! ## The walk -/

theorem increment_at (hlt : StrictWeak lt) {front : List (K × V)} {x : K × V}
    (h : Sorted lt (front ++ x :: xs)) :
    increment lt x.1 (front ++ x :: xs) = xs.head?.map Prod.fst := by
  obtain ⟨-, hx, hfront⟩ := List.pairwise_append.mp h
  have hnone : front.find? (fun z => lt x.1 z.1) = none := by
    rw [List.find?_eq_none]
    intro z hz
    rw [hlt.asymm (hfront z hz x List.mem_cons_self)]
    exact Bool.false_ne_true
  rw [increment, List.find?_append, hnone, Option.none_or, List.find?_cons, hlt.irrefl]
  cases xs with
  | nil => rfl
  | cons x' xs =>
      rw [List.find?_cons, (List.pairwise_cons.mp hx).1 x' List.mem_cons_self]
      rfl

theorem sorted_push {front : List (K × V)} {x : K × V} (h : Sorted lt (front ++ xs))
    (hfront : ∀ z ∈ front, lt z.1 x.1 = true) (hxs : ∀ z ∈ xs, lt x.1 z.1 = true) :
    Sorted lt (front ++ [x] ++ xs) := by
  obtain ⟨hbefore, hafter, hbetween⟩ := List.pairwise_append.mp h
  rw [List.append_assoc]
  refine List.pairwise_append.mpr ⟨hbefore, List.pairwise_cons.mpr ⟨hxs, hafter⟩, ?_⟩
  intro z hz w hw
  rcases List.mem_cons.mp hw with rfl | hmem
  · exact hfront z hz
  · exact hbetween z hz w hmem

theorem emplace_at {front : List (K × V)} {x y : K × V}
    (hfront : ∀ z ∈ front, lt z.1 y.1 = true) (hxy : ¬ lt x.1 y.1 = true)
    (hyx : lt y.1 x.1 = true) :
    emplace lt y.1 y.2 (front ++ x :: xs) = front ++ [y] ++ x :: xs := by
  rw [emplace, insertWith_append id y.2 hfront, insertWith, if_neg hxy, if_pos hyx,
    List.append_cons]

theorem assign_at (hlt : StrictWeak lt) {front : List (K × V)} {x : K × V} (v : V)
    (hfront : ∀ z ∈ front, lt z.1 x.1 = true) :
    assign lt x.1 v (front ++ x :: xs) = front ++ [(x.1, v)] ++ xs := by
  rw [assign, insertWith_append _ v hfront, insertWith, hlt.irrefl, List.append_assoc]
  rfl

theorem get_at (hlt : StrictWeak lt) {front : List (K × V)} {x : K × V}
    (hfront : ∀ z ∈ front, lt z.1 x.1 = true) : get lt x.1 (front ++ x :: xs) = some x.2 := by
  have hsame : equivalent lt x.1 x.1 = true := equivalent_iff.mpr ⟨hlt.irrefl _, hlt.irrefl _⟩
  rw [get_append hfront, get_cons, if_pos hsame]

/-- Both maps go on behind the entries `front`. -/
def walk (front xs ys : List (K × V)) (calls : List (V × V)) : Merge K V :=
  ⟨front ++ xs, xs.head?.map Prod.fst, ys, calls⟩

section
variable {front : List (K × V)} {x y : K × V} {calls : List (V × V)}

theorem turn_below (hlt : StrictWeak lt) (hxs : Sorted lt (front ++ x :: xs))
    (hxy : lt x.1 y.1 = true) :
    turn lt merger (walk front (x :: xs) (y :: ys) calls) =
      some (.next (walk (front ++ [x]) xs (y :: ys) calls)) := by
  simp only [turn, walk, List.head?_cons, Option.map_some, if_pos hxy, increment_at hlt hxs]
  rw [← List.append_cons]

theorem turn_above (hfront : ∀ z ∈ front, lt z.1 y.1 = true) (hxy : ¬ lt x.1 y.1 = true)
    (hyx : lt y.1 x.1 = true) :
    turn lt merger (walk front (x :: xs) (y :: ys) calls) =
      some (.next (walk (front ++ [y]) (x :: xs) ys calls)) := by
  simp only [turn, walk, List.head?_cons, Option.map_some, if_neg hxy, if_pos hyx,
    emplace_at hfront hxy hyx]

/-- The entry keeps its key, which may be another one than that of the second map. -/
theorem turn_same (hlt : StrictWeak lt) (hxs : Sorted lt (front ++ x :: xs))
    (hfront : ∀ z ∈ front, lt z.1 x.1 = true) (hxy : ¬ lt x.1 y.1 = true)
    (hyx : ¬ lt y.1 x.1 = true) :
    turn lt merger (walk front (x :: xs) (y :: ys) calls) =
      some (.next (walk (front ++ [(x.1, merger x.2 y.2)]) xs ys (calls ++ [(x.2, y.2)]))) := by
  simp only [turn, walk, List.head?_cons, Option.map_some, if_neg hxy, if_neg hyx,
    get_at hlt hfront, assign_at hlt _ hfront, increment_at hlt hxs]

end

theorem returns_merged (hlt : StrictWeak lt) {front : List (K × V)} (hxs : Sorted lt (front ++ xs))
    (hys : Sorted lt (front ++ ys)) (calls : List (V × V)) :
    ∃ s, Returns (fun n => loop (fun _ => turn lt merger) n (walk front xs ys calls)) s ∧
      s.dest = front ++ merged lt merger xs ys ∧ s.calls = calls ++ common lt xs ys := by
  induction xs, ys using merged.induct lt generalizing front calls with
  | case1 ys =>
      refine ⟨_, loop_leave (returns_some _), ?_, (List.append_nil _).symm⟩
      rw [merged, finish, walk, List.append_nil]
      exact emplaceAll_sorted hys
  | case2 x xs =>
      refine ⟨_, loop_leave (returns_some _), ?_, ?_⟩
      · rw [merged]
        rfl
      · rw [common_nil, List.append_nil]
        rfl
  | case3 x xs y ys hxy ih =>
      obtain ⟨-, -, hxfront⟩ := List.pairwise_append.mp hxs
      obtain ⟨-, hysorted, -⟩ := List.pairwise_append.mp hys
      have hbelow := sorted_below hlt hysorted hxy
      have hpush := sorted_push hys (fun z hz => hxfront z hz x List.mem_cons_self) hbelow
      have hrest : Sorted lt (front ++ [x] ++ xs) := by rwa [← List.append_cons]
      obtain ⟨s, hreturns, hdest, hcalls⟩ := ih hrest hpush calls
      refine ⟨s, loop_next (turn_below hlt hxs hxy ▸ returns_some _) hreturns, ?_, ?_⟩
      · rw [merged, if_pos hxy, hdest, ← List.append_cons]
      · rw [hcalls, common_cons_below hbelow]
  | case4 x xs y ys hxy hyx ih =>
      obtain ⟨-, hxsorted, -⟩ := List.pairwise_append.mp hxs
      obtain ⟨-, -, hyfront⟩ := List.pairwise_append.mp hys
      have hbelow := sorted_below hlt hxsorted hyx
      have hfront : ∀ z ∈ front, lt z.1 y.1 = true := fun z hz =>
        hyfront z hz y List.mem_cons_self
      have hpush := sorted_push hxs hfront hbelow
      have hrest : Sorted lt (front ++ [y] ++ ys) := by rwa [← List.append_cons]
      obtain ⟨s, hreturns, hdest, hcalls⟩ := ih hpush hrest calls
      refine ⟨s, loop_next (turn_above hfront hxy hyx ▸ returns_some _) hreturns, ?_, ?_⟩
      · rw [merged, if_neg hxy, if_pos hyx, hdest, ← List.append_cons]
      · rw [hcalls, common_skip hbelow]
  | case5 x xs y ys hxy hyx ih =>
      obtain ⟨-, hxsorted, hxfront⟩ := List.pairwise_append.mp hxs
      obtain ⟨-, hysorted, -⟩ := List.pairwise_append.mp hys
      have heq := equivalent_of_not_lt hxy hyx
      have hfront : ∀ z ∈ front, lt z.1 x.1 = true := fun z hz =>
        hxfront z hz x List.mem_cons_self
      have hxbelow := (List.pairwise_cons.mp hxsorted).1
      have hybelow : ∀ z ∈ ys, lt x.1 z.1 = true := fun z hz =>
        hlt.lt_of_equivalent heq ((List.pairwise_cons.mp hysorted).1 z hz)
      have hxrest : Sorted lt (front ++ xs) :=
        hxs.sublist ((List.sublist_cons_self x xs).append_left front)
      have hyrest : Sorted lt (front ++ ys) :=
        hys.sublist ((List.sublist_cons_self y ys).append_left front)
      have hxpush : Sorted lt (front ++ [(x.1, merger x.2 y.2)] ++ xs) :=
        sorted_push hxrest hfront hxbelow
      have hypush : Sorted lt (front ++ [(x.1, merger x.2 y.2)] ++ ys) :=
        sorted_push hyrest hfront hybelow
      obtain ⟨s, hreturns, hdest, hcalls⟩ := ih hxpush hypush (calls ++ [(x.2, y.2)])
      refine ⟨s, loop_next (turn_same hlt hxs hfront hxy hyx ▸ returns_some _) hreturns, ?_, ?_⟩
      · rw [merged, if_neg hxy, if_neg hyx, hdest, ← List.append_cons]
      · rw [hcalls, common_cons_same hlt heq hxbelow, ← List.append_cons]

/-- For every two maps. -/
theorem merge_union (hlt : StrictWeak lt) (merger : V → V → V) {dest source : List (K × V)}
    (hdest : Sorted lt dest) (hsource : Sorted lt source) :
    ∃ s, Returns (fun n => merge lt merger n dest source) s ∧
      Union lt merger dest source s := by
  have hdest' : Sorted lt ([] ++ dest) := hdest
  obtain ⟨s, hreturns, hmerged, hcalls⟩ := returns_merged hlt hdest' hsource []
  rw [List.nil_append] at hmerged hcalls
  refine ⟨s, hreturns, ?_, ?_, ?_, hcalls⟩
  · rw [hmerged]
    exact sorted_merged hlt hdest hsource
  · rw [hmerged]
    exact fun x hx => mem_merged hx
  · rw [hmerged]
    exact get_merged hlt hdest hsource

/-- The maps have one key in common. -/
theorem merge_union_sum :
    ∃ s, Returns (fun n => merge less (fun v w => v + w) n
        [([1], 10), ([2], 20)] [([2], 2), ([3], 3)]) s ∧
      Union less (fun v w : ℕ => v + w) [([1], 10), ([2], 20)] [([2], 2), ([3], 3)] s :=
  merge_union less_strict.strictWeak _
    (List.pairwise_pair.mpr (by decide)) (List.pairwise_pair.mpr (by decide))

end

end Stuff.ContainerAlgorithm
