import Mathlib.Data.List.Basic
import Mathlib.Logic.Function.Basic

/-!
# The log of a bounded store

What a store should hold under a key follows from what happened to the key
last. A bounded store also drops keys of its own accord; the log has these
too.
-/
namespace Stuff.StoreLog
open Function (update)

variable {Key Value : Type} [DecidableEq Key]

inductive Fate (Key Value : Type)
  | put (k : Key) (v : Value)
  | removed (k : Key)
  | evicted (k : Key)
deriving DecidableEq, Repr

/-- The contents after a log, newest entry first. -/
def current : List (Fate Key Value) → Key → Option Value
  | [] => fun _ => none
  | .put k v :: log => update (current log) k (some v)
  | .removed k :: log => update (current log) k none
  | .evicted k :: log => update (current log) k none

/-- The contents less some keys. -/
def dropKeys (contents : Key → Option Value) (ks : List Key) : Key → Option Value :=
  fun k => if k ∈ ks then none else contents k

@[simp] theorem dropKeys_nil (contents : Key → Option Value) : dropKeys contents [] = contents := by
  funext k
  simp [dropKeys]

theorem dropKeys_singleton (contents : Key → Option Value) (k : Key) :
    dropKeys contents [k] = update contents k none := by
  funext k'
  simp [dropKeys, Function.update_apply]

/-- A put, with what it drops, keeps the store within the values put last. -/
theorem last_put {contents last : Key → Option Value}
    (h : ∀ k, contents k = none ∨ contents k = last k) (k : Key) (v : Value) (ks : List Key)
    (k' : Key) :
    dropKeys (update contents k (some v)) ks k' = none ∨
      dropKeys (update contents k (some v)) ks k' = update last k (some v) k' := by
  unfold dropKeys
  split_ifs
  · exact Or.inl rfl
  · rcases eq_or_ne k' k with heq | hne
    · rw [heq, Function.update_self, Function.update_self]
      exact Or.inr rfl
    · rw [Function.update_of_ne hne, Function.update_of_ne hne]
      exact h k'

theorem current_evicted (ks : List Key) (log : List (Fate Key Value)) :
    current (ks.map .evicted ++ log) = dropKeys (current log) ks := by
  induction ks with
  | nil => simp
  | cons k ks ih =>
      funext k'
      simp only [List.map_cons, List.cons_append, current, ih, Function.update_apply, dropKeys,
        List.mem_cons]
      split_ifs <;> simp_all

end Stuff.StoreLog
