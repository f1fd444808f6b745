import Mathlib.Algebra.BigOperators.Group.List.Basic
import Mathlib.Algebra.GroupWithZero.Nat
import Mathlib.Data.List.Nodup

/-!
# Things in the hands of several holders

A pool is a list of holders; a step of one of them replaces it in the list. What
all of them hold changes by what this one takes or gives away. Measures of the
pool are sums over the holders, so they change by one summand.
-/
namespace Stuff.Holders

variable {σ α : Type*} {l : List σ} {i : ℕ} {a : σ}

theorem sum_map_set (h : l[i]? = some a) (f : σ → ℕ) (b : σ) :
    ((l.set i b).map f).sum + f a = (l.map f).sum + f b := by
  induction l generalizing i with
  | nil => simp at h
  | cons c l ih =>
      cases i with
      | zero =>
          rw [List.getElem?_cons_zero, Option.some.injEq] at h
          rw [List.set_cons_zero, List.map_cons, List.map_cons, List.sum_cons, List.sum_cons, h]
          omega
      | succ i =>
          rw [List.getElem?_cons_succ] at h
          have hrest := ih h
          rw [List.set_cons_succ, List.map_cons, List.map_cons, List.sum_cons, List.sum_cons]
          omega

/-- What the holders of a pool have, one after another. -/
def held (f : σ → List α) (l : List σ) : List α := l.flatMap f

theorem count_held_set [BEq α] (h : l[i]? = some a) (f : σ → List α) (b : σ) (x : α) :
    (held f (l.set i b)).count x + (f a).count x = (held f l).count x + (f b).count x := by
  unfold held
  rw [List.count_flatMap, List.count_flatMap]
  exact sum_map_set h (List.count x ∘ f) b

theorem held_set_perm (h : l[i]? = some a) (f : σ → List α) (b : σ) :
    (held f (l.set i b) ++ f a).Perm (held f l ++ f b) := by
  classical
  rw [List.perm_iff_count]
  intro x
  rw [List.count_append, List.count_append]
  exact count_held_set h f b x

theorem mem_held {f : σ → List α} {x : α} (h : l[i]? = some a) (hx : x ∈ f a) : x ∈ held f l :=
  List.mem_flatMap.mpr ⟨a, List.mem_of_getElem? h, hx⟩

theorem exists_place {f : σ → List α} {x : α} (h : x ∈ held f l) :
    ∃ (i : ℕ) (a : σ) (j : ℕ), l[i]? = some a ∧ (f a)[j]? = some x := by
  obtain ⟨a, ha, hx⟩ := List.mem_flatMap.mp h
  obtain ⟨i, hi⟩ := List.mem_iff_getElem?.mp ha
  obtain ⟨j, hj⟩ := List.mem_iff_getElem?.mp hx
  exact ⟨i, a, j, hi, hj⟩

/-- Without duplicates, a thing is at one place of one holder. -/
theorem place_unique {f : σ → List α} {x : α} {i' j j' : ℕ} {a' : σ} (h : (held f l).Nodup)
    (ha : l[i]? = some a) (hx : (f a)[j]? = some x) (ha' : l[i']? = some a')
    (hx' : (f a')[j']? = some x) : i = i' ∧ j = j' := by
  obtain ⟨hinner, hpairs⟩ := List.nodup_flatMap.mp h
  obtain ⟨hlt, hget⟩ := List.getElem?_eq_some_iff.mp ha
  obtain ⟨hlt', hget'⟩ := List.getElem?_eq_some_iff.mp ha'
  have hmem : x ∈ f a := List.mem_of_getElem? hx
  have hmem' : x ∈ f a' := List.mem_of_getElem? hx'
  rw [List.pairwise_iff_getElem] at hpairs
  have hindex : i = i' := by
    rcases Nat.lt_trichotomy i i' with hless | heq | hless
    · have hdisjoint := hpairs i i' hlt hlt' hless
      rw [hget, hget'] at hdisjoint
      exact absurd hmem' (hdisjoint hmem)
    · exact heq
    · have hdisjoint := hpairs i' i hlt' hlt hless
      rw [hget, hget'] at hdisjoint
      exact absurd hmem (hdisjoint hmem')
  refine ⟨hindex, ?_⟩
  subst hindex
  rw [ha, Option.some.injEq] at ha'
  subst ha'
  obtain ⟨hj, hjx⟩ := List.getElem?_eq_some_iff.mp hx
  obtain ⟨hj', hjx'⟩ := List.getElem?_eq_some_iff.mp hx'
  exact (List.Nodup.getElem_inj_iff (hinner a (List.mem_of_getElem? ha))).mp (hjx.trans hjx'.symm)

/-- The only holder of a kind goes on. -/
theorem filter_set_single {p : σ → Bool} {a₀ : σ} (h : l[i]? = some a)
    (hfilter : l.filter p = [a₀]) (ha : p a = true) (b : σ) :
    a = a₀ ∧ (l.set i b).filter p = [b].filter p := by
  obtain ⟨hlt, hget⟩ := List.getElem?_eq_some_iff.mp h
  have hsplit : l = l.take i ++ a :: l.drop (i + 1) := by
    rw [← hget, List.getElem_cons_drop, List.take_append_drop]
  have hset : l.set i b = l.take i ++ b :: l.drop (i + 1) :=
    List.set_eq_take_append_cons_drop.trans (if_pos hlt)
  rw [hsplit, List.filter_append, List.filter_cons_of_pos ha] at hfilter
  rw [hset, List.filter_append]
  cases hleft : (l.take i).filter p with
  | nil =>
      rw [hleft, List.nil_append, List.cons.injEq] at hfilter
      refine ⟨hfilter.1, ?_⟩
      rw [List.nil_append, ← List.singleton_append, List.filter_append, hfilter.2, List.append_nil]
  | cons c rest =>
      rw [hleft, List.cons_append, List.cons.injEq] at hfilter
      exact absurd hfilter.2 (by simp)

end Stuff.Holders
