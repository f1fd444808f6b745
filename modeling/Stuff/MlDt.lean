import Mathlib.Algebra.Order.Field.Rat
import Mathlib.Data.Fin.VecNotation
import Mathlib.Data.List.Destutter
import Mathlib.Data.List.FinRange
import Mathlib.Order.Basic

/-!
# Decision trees

`Dt` splits the rows at the attribute and the value that lower the entropy most, and each of the two
parts again, until a part has rows of one kind only or there is nothing to gain. The prediction for
a row is the value of the leaf it comes to.
-/
namespace Stuff.MlDt

/-! ## Entropy -/

/-- The arithmetic of `double`. A comparison with what is not a number is false. -/
structure Arithmetic (δ : Type) where
  ofNat : ℕ → δ
  add : δ → δ → δ
  sub : δ → δ → δ
  mul : δ → δ → δ
  div : δ → δ → δ
  neg : δ → δ
  log2 : δ → δ
  lt : δ → δ → Bool
  eq : δ → δ → Bool

section
variable {δ : Type} (a : Arithmetic δ)

/-- `entropy(double)`. -/
def entropyOf (pos : δ) : δ :=
  if a.eq pos (a.ofNat 0) || a.eq pos (a.ofNat 1) then a.ofNat 0
  else
    a.sub (a.mul (a.neg pos) (a.log2 pos))
      (a.mul (a.sub (a.ofNat 1) pos) (a.log2 (a.sub (a.ofNat 1) pos)))

/-- Of so many rows that are positive among so many. -/
def proportion (positive total : ℕ) : δ :=
  entropyOf a (a.div (a.ofNat positive) (a.ofNat total))

/-- The entropies of two parts, each with its share of the rows. -/
def weighted (positive1 total1 positive2 total2 size : ℕ) : δ :=
  a.add (a.mul (a.div (a.ofNat total1) (a.ofNat size)) (proportion a positive1 total1))
    (a.mul (a.div (a.ofNat total2) (a.ofNat size)) (proportion a positive2 total2))

end

/-! ## Training -/

/-- The kind of a row, and its attributes. -/
abbrev Entry (MAX : ℕ) (α : Type) := Bool × (Fin MAX → α)

/-- A leaf has `end` set. What is not there is a null pointer. -/
inductive SplitTree (MAX : ℕ) (α : Type)
  | null
  | leaf (value : Bool)
  | node (attr_id : Fin MAX) (rotate : α) (left right : SplitTree MAX α)

/-- How often the attributes have been used. -/
abbrev Mask (MAX : ℕ) := Fin MAX → ℕ

/-- The attribute with the greatest gain so far. -/
structure Best (MAX : ℕ) (α δ : Type) where
  best_attr : Fin MAX
  best_gain : δ
  rotate : α

/-- Zero, as long as nothing is found. -/
def best_gain {MAX : ℕ} {α δ : Type} (a : Arithmetic δ) : Option (Best MAX α δ) → δ
  | some b => b.best_gain
  | none => a.ofNat 0

section
variable {MAX : ℕ} {α δ : Type} [LinearOrder α] [Zero α] (a : Arithmetic δ)

def positive (fv : List (Entry MAX α)) : ℕ := fv.countP fun x => x.1

/-- `entropy(const List&)`. -/
def entropy (fv : List (Entry MAX α)) : δ := proportion a (positive fv) fv.length

def makePartial (pos : Fin MAX) (value : α) (fv : List (Entry MAX α)) (less : Bool) :
    List (Entry MAX α) :=
  fv.filter fun x => (less && decide (x.2 pos ≤ value)) || (!less && decide (value < x.2 pos))

/-- `entropy(size_t, const List&, double)`, after a split. -/
def splitEntropy (pos : Fin MAX) (fv : List (Entry MAX α)) (rotate : α) : δ :=
  let part1 := makePartial pos rotate fv true
  let part2 := makePartial pos rotate fv false
  weighted a (positive part1) part1.length (positive part2) part2.length fv.length

def get_unique (pos : Fin MAX) (fv : List (Entry MAX α)) : List α :=
  ((fv.map fun x => x.2 pos).mergeSort fun x y => decide (x ≤ y)).destutter (· ≠ ·)

def calc_split (pos : Fin MAX) (uni : List α) (fv : List (Entry MAX α)) : δ × α :=
  uni.foldl (fun best x =>
    let ent := splitEntropy a pos fv x
    if a.lt ent best.1 then (ent, x) else best) (a.ofNat 1, 0)

def gain (fv : List (Entry MAX α)) (i : Fin MAX) : δ :=
  a.sub (entropy a fv) (calc_split a i (get_unique i fv) fv).1

/-- The turn of the loop over the attributes. -/
def searchTurn (mask : Mask MAX) (fv : List (Entry MAX α)) (best : Option (Best MAX α δ))
    (i : Fin MAX) : Option (Best MAX α δ) :=
  if 0 < mask i then best
  else if a.lt (best_gain a best) (gain a fv i) then
    some ⟨i, gain a fv i, (calc_split a i (get_unique i fv) fv).2⟩
  else best

def search (mask : Mask MAX) (fv : List (Entry MAX α)) : Option (Best MAX α δ) :=
  (List.finRange MAX).foldl (searchTurn a mask fv) none

/-- A part is a leaf if its entropy is zero. The assertion is that it has fewer rows. -/
def train_one (train : Mask MAX → List (Entry MAX α) → Option (SplitTree MAX α × Mask MAX))
    (mask : Mask MAX) (fv_set fv : List (Entry MAX α)) : Option (SplitTree MAX α × Mask MAX) :=
  if fv_set.length < fv.length then
    if a.eq (a.ofNat 0) (entropy a fv_set) then
      match fv_set with
      | [] => none
      | x :: _ => some (.leaf x.1, mask)
    else train mask fv_set
  else none

/-- One of the two parts of `split`, if it has rows. -/
def child (train : Mask MAX → List (Entry MAX α) → Option (SplitTree MAX α × Mask MAX))
    (mask : Mask MAX) (fv_set fv : List (Entry MAX α)) : Option (SplitTree MAX α × Mask MAX) :=
  if fv_set.isEmpty then some (.null, mask) else train_one a train mask fv_set fv

def split (train : Mask MAX → List (Entry MAX α) → Option (SplitTree MAX α × Mask MAX))
    (mask : Mask MAX) (pos : Fin MAX) (rotate : α) (fv : List (Entry MAX α)) :
    Option (SplitTree MAX α) := do
  let left ← child a train mask (makePartial pos rotate fv true) fv
  let right ← child a train left.2 (makePartial pos rotate fv false) fv
  return .node pos rotate left.1 right.1

/-- `train(SplitTree&, const List&)`. The mask that is left is the one before the split, and it has
been cleared if nothing was found at first. -/
def trainTree : ℕ → ℕ → Mask MAX → List (Entry MAX α) → Option (SplitTree MAX α × Mask MAX)
  | 0, _, _, _ => none
  | fuel + 1, depth, mask, fv =>
      let once := decide (depth < 20) && (search a mask fv).isNone
      let mask := if once then fun _ => 0 else mask
      match search a mask fv with
      | none => some (.leaf true, mask)
      | some best => do
          let used := Function.update mask best.best_attr (mask best.best_attr + 1)
          let tree ← split a (trainTree fuel (depth + 1)) used best.best_attr best.rotate fv
          return (tree, mask)

/-- `train(const List&)`. -/
def train (fv : List (Entry MAX α)) : Option (SplitTree MAX α) :=
  (trainTree a (fv.length + 1) 0 (fun _ => 0) fv).map Prod.fst

omit [Zero α] in
/-- `predict(const SplitTree&, const Vector&)`, which asserts that there is a way on. -/
def predict : SplitTree MAX α → (Fin MAX → α) → Option Bool
  | .null, _ => none
  | .leaf value, _ => some value
  | .node attr_id rotate left right, fv =>
      if fv attr_id ≤ rotate then predict left fv else predict right fv

/-! ## What is needed of the arithmetic -/

variable {a : Arithmetic δ}

omit [Zero α] in
theorem makePartial_true (pos : Fin MAX) (value : α) (fv : List (Entry MAX α)) :
    makePartial pos value fv true = fv.filter fun x => decide (x.2 pos ≤ value) := by
  simp [makePartial]

omit [Zero α] in
theorem makePartial_false (pos : Fin MAX) (value : α) (fv : List (Entry MAX α)) :
    makePartial pos value fv false = fv.filter fun x => decide (value < x.2 pos) := by
  simp [makePartial]

/-- Each leaf is of one kind, or nothing is to be gained there, if it is not too deep to tell. -/
inductive Grown (a : Arithmetic δ) : ℕ → List (Entry MAX α) → SplitTree MAX α → Prop
  | pure {depth : ℕ} {fv : List (Entry MAX α)} {value : Bool} (h : ∀ x ∈ fv, x.1 = value) :
      Grown a depth fv (.leaf value)
  | stuck {depth : ℕ} {fv : List (Entry MAX α)}
      (h : depth < 20 → ∀ i, a.lt (a.ofNat 0) (gain a fv i) = false) :
      Grown a depth fv (.leaf true)
  | node {depth : ℕ} {fv : List (Entry MAX α)} {pos : Fin MAX} {rotate : α}
      {left right : SplitTree MAX α}
      (hleft : Grown a (depth + 1) (makePartial pos rotate fv true) left)
      (hright : Grown a (depth + 1) (makePartial pos rotate fv false) right) :
      Grown a depth fv (.node pos rotate left right)

theorem Grown.predict {depth : ℕ} {fv : List (Entry MAX α)} {tree : SplitTree MAX α}
    (h : Grown a depth fv tree) (v : Fin MAX → α) : ∃ value, predict tree v = some value := by
  induction h with
  | @pure depth fv value _ => exact ⟨value, rfl⟩
  | stuck _ => exact ⟨true, rfl⟩
  | @node depth fv pos rotate left right _ _ ihleft ihright =>
      rw [MlDt.predict]
      split
      · exact ihleft
      · exact ihright

/-- The rows that come to the same leaf, all of which are taken for positive, and which no attribute
tells apart, if the leaf is not too deep. -/
structure Stuck (a : Arithmetic δ) (tree : SplitTree MAX α) (fv part : List (Entry MAX α))
    (depth : ℕ) : Prop where
  sublist : part.Sublist fv
  predicted : ∀ x ∈ part, predict tree x.2 = some true
  gains : depth < 20 → ∀ i, a.lt (a.ofNat 0) (gain a part i) = false

omit [Zero α] in
theorem mem_part {pos : Fin MAX} {value : α} {fv : List (Entry MAX α)} {x : Entry MAX α} :
    (x ∈ makePartial pos value fv true ↔ x ∈ fv ∧ x.2 pos ≤ value) ∧
      (x ∈ makePartial pos value fv false ↔ x ∈ fv ∧ ¬ x.2 pos ≤ value) := by
  rw [makePartial_true, makePartial_false]
  simp only [List.mem_filter, decide_eq_true_eq, not_le, and_self]

theorem Stuck.part {tree subtree : SplitTree MAX α} {fv fv_set part : List (Entry MAX α)}
    {depth : ℕ} (h : Stuck a subtree fv_set part depth) (hsub : fv_set.Sublist fv)
    (hpredict : ∀ x ∈ fv_set, predict tree x.2 = predict subtree x.2) :
    Stuck a tree fv part depth := by
  constructor
  case sublist => exact h.sublist.trans hsub
  case predicted =>
    intro x hx
    rw [hpredict x (h.sublist.subset hx)]
    exact h.predicted x hx
  case gains => exact h.gains

/-- A row gets its kind, or it comes to a leaf where nothing was to be gained. -/
theorem Grown.row {depth : ℕ} {fv : List (Entry MAX α)} {tree : SplitTree MAX α}
    (h : Grown a depth fv tree) {row : Entry MAX α} (hrow : row ∈ fv) :
    MlDt.predict tree row.2 = some row.1 ∨
      ∃ part depth', row ∈ part ∧ Stuck a tree fv part depth' := by
  induction h with
  | pure h =>
      rw [h row hrow]
      exact Or.inl rfl
  | @stuck depth fv h => exact Or.inr ⟨fv, depth, hrow, List.Sublist.refl fv, fun _ _ => rfl, h⟩
  | @node depth fv pos rotate left right _ _ ihleft ihright =>
      have hleft : ∀ x ∈ makePartial pos rotate fv true,
          MlDt.predict (.node pos rotate left right) x.2 = MlDt.predict left x.2 := by
        intro x hx
        rw [MlDt.predict, if_pos (mem_part.1.mp hx).2]
      have hright : ∀ x ∈ makePartial pos rotate fv false,
          MlDt.predict (.node pos rotate left right) x.2 = MlDt.predict right x.2 := by
        intro x hx
        rw [MlDt.predict, if_neg (mem_part.2.mp hx).2]
      by_cases hle : row.2 pos ≤ rotate
      · have hpart := mem_part.1.mpr ⟨hrow, hle⟩
        rw [hleft row hpart]
        rcases ihleft hpart with hkind | ⟨part, depth', hmem, hstuck⟩
        · exact Or.inl hkind
        · exact Or.inr ⟨part, depth', hmem, hstuck.part List.filter_sublist hleft⟩
      · have hpart := mem_part.2.mpr ⟨hrow, hle⟩
        rw [hright row hpart]
        rcases ihright hpart with hkind | ⟨part, depth', hmem, hstuck⟩
        · exact Or.inl hkind
        · exact Or.inr ⟨part, depth', hmem, hstuck.part List.filter_sublist hright⟩

end

/-! ## Numbers of 53 bits -/

/-- The number of 53 bits that is nearest, and the even one of two. -/
def rounded (q : ℚ) : ℚ :=
  let n := q.num.natAbs
  let scaled := fun s : ℤ =>
    if 0 ≤ s then (n * 2 ^ s.toNat, q.den) else (n, q.den * 2 ^ (-s).toNat)
  let s : ℤ := 52 - (n.log2 - q.den.log2)
  let s := if (scaled s).1 / (scaled s).2 < 2 ^ 52 then s + 1 else s
  let m := (scaled s).1 / (scaled s).2
  let r := (scaled s).1 % (scaled s).2
  let m := if (scaled s).2 < 2 * r ∨ (scaled s).2 = 2 * r ∧ m % 2 = 1 then m + 1 else m
  q.num.sign * m / 2 ^ s

/-- The logarithms of what the proportions of up to four rows come to. -/
def logarithms : List (ℚ × ℚ) :=
  [(1 / 2, -1), (1 / 4, -2), (3 / 4, -3738325454193967 / 2 ^ 53),
    (6004799503160661 / 2 ^ 54, -7138036527644009 / 2 ^ 52),
    (3002399751580331 / 2 ^ 52, -329304612534189 / 2 ^ 49),
    (6004799503160661 / 2 ^ 53, -2634436900273513 / 2 ^ 52),
    (3002399751580331 / 2 ^ 53, -892254565955501 / 2 ^ 49)]

/-- The arithmetic of `double` between numbers that are neither too large nor too small for it. -/
def double : Arithmetic (Option ℚ) where
  ofNat n := some (rounded n)
  add := Option.map₂ fun x y => rounded (x + y)
  sub := Option.map₂ fun x y => rounded (x - y)
  mul := Option.map₂ fun x y => rounded (x * y)
  div x y := if y = some 0 then none else Option.map₂ (fun x y => rounded (x / y)) x y
  neg := Option.map Neg.neg
  log2 x := x.bind fun q => logarithms.lookup q
  lt x y := (Option.map₂ (fun x y => decide (x < y)) x y).getD false
  eq x y := (Option.map₂ (fun x y => decide (x = y)) x y).getD false

end Stuff.MlDt
