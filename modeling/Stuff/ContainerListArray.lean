import Mathlib.Data.List.Basic

/-!
# A list of arrays

`Container::ListArray` keeps its elements in chunks of a fixed size. A chunk is
filled up before the next one is added.
-/
namespace Stuff.ContainerListArray

variable {T : Type}

structure ListArray (T : Type) where
  list : List (List T) := []
  size : ℕ := 20 * 1024

namespace ListArray

/-- A new chunk is added if there is none, or if the last one is full. -/
def pushBack (a : ListArray T) (t : T) : ListArray T :=
  match a.list.getLast? with
  | none => { a with list := [[t]] }
  | some last =>
      if last.length = a.size then { a with list := a.list ++ [[t]] }
      else { a with list := a.list.dropLast ++ [last ++ [t]] }

/-- The callback is called with each chunk; what it does to its state is `f`. -/
def forChunks {σ : Type} (a : ListArray T) (f : σ → List T → σ) (s : σ) : σ := a.list.foldl f s

/-- Chunks of one element. -/
theorem pushBack_of_size_one {a : ListArray T} (hsize : a.size = 1)
    (hlast : ∀ c ∈ a.list.getLast?, c.length = 1) (t : T) :
    a.pushBack t = { a with list := a.list ++ [[t]] } := by
  unfold pushBack
  split
  next hnone =>
    rw [List.getLast?_eq_none_iff.mp hnone]
    rfl
  next last hsome => rw [if_pos ((hlast last hsome).trans hsize.symm)]

theorem list_foldl_pushBack {a : ListArray T} (hsize : a.size = 1)
    (hlast : ∀ c ∈ a.list.getLast?, c.length = 1) (l : List T) :
    (l.foldl pushBack a).list = a.list ++ l.map fun t => [t] := by
  induction l generalizing a with
  | nil => simp
  | cons t l ih =>
      rw [List.foldl_cons, pushBack_of_size_one hsize hlast, ih]
      · simp
      · exact hsize
      · simp

end ListArray

end Stuff.ContainerListArray
