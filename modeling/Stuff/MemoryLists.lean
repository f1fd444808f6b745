import Stuff.ByteOrder
import Mathlib.Data.List.GetD

/-!
# Lists that are kept in memory

A memory has a byte at every address. An element of a list has at its address the address of the
next one, as eight bytes on a little-endian host. The null pointer ends the list.
-/
namespace Stuff.MemoryLists
open MachineWords ByteOrder

abbrev Memory := ℕ → UInt8

def store (memory : Memory) (address : ℕ) (bs : Bytes) : Memory := fun a =>
  if address ≤ a ∧ a < address + bs.length then bs.getD (a - address) 0 else memory a

def load (memory : Memory) (address n : ℕ) : Bytes :=
  (List.range n).map fun i => memory (address + i)

def storePointer (memory : Memory) (address pointer : ℕ) : Memory :=
  store memory address (littleEndian 8 pointer)

def loadPointer (memory : Memory) (address : ℕ) : ℕ := ofLittleEndian (load memory address 8)

/-- The elements of the list that begins at a pointer. -/
def Chain (memory : Memory) : ℕ → List ℕ → Prop
  | head, [] => head = 0
  | head, p :: l => head = p ∧ p ≠ 0 ∧ Chain memory (loadPointer memory p) l

section
variable {memory memory' : Memory}

theorem store_of_lt {address a : ℕ} (bs : Bytes) (h : a < address) :
    store memory address bs a = memory a := by
  rw [store, if_neg (by omega)]

theorem store_of_le {address a : ℕ} (bs : Bytes) (h : address + bs.length ≤ a) :
    store memory address bs a = memory a := by
  rw [store, if_neg (by omega)]

theorem store_add {address i : ℕ} (bs : Bytes) (h : i < bs.length) :
    store memory address bs (address + i) = bs.getD i 0 := by
  rw [store, if_pos (by omega), Nat.add_sub_cancel_left]

theorem load_congr {address n : ℕ} (h : ∀ i < n, memory (address + i) = memory' (address + i)) :
    load memory address n = load memory' address n := by
  unfold load
  apply List.map_congr_left
  intro i hi
  exact h i (List.mem_range.mp hi)

theorem load_store (memory : Memory) (address : ℕ) (bs : Bytes) :
    load (store memory address bs) address bs.length = bs := by
  apply List.ext_getElem
  · rw [load, List.length_map, List.length_range]
  · intro i hi hi'
    simp only [load, List.getElem_map, List.getElem_range]
    rw [store_add bs hi', List.getD_eq_getElem _ _ hi']

theorem loadPointer_storePointer {pointer : ℕ} (h : pointer < 2 ^ 64) (memory : Memory)
    (address : ℕ) : loadPointer (storePointer memory address pointer) address = pointer := by
  have hload := load_store memory address (littleEndian 8 pointer)
  rw [length_littleEndian] at hload
  rw [loadPointer, storePointer, hload, ofLittleEndian_littleEndian h]

/-- A list stays as long as the pointers of its elements do. -/
theorem Chain.congr {head : ℕ} {l : List ℕ} (h : Chain memory head l)
    (hsame : ∀ p ∈ l, ∀ i < 8, memory' (p + i) = memory (p + i)) : Chain memory' head l := by
  induction l generalizing head with
  | nil => exact h
  | cons p l ih =>
      obtain ⟨hp, hrest⟩ := List.forall_mem_cons.mp hsame
      have hload : loadPointer memory' p = loadPointer memory p :=
        congrArg ofLittleEndian (load_congr hp)
      refine ⟨h.1, h.2.1, ?_⟩
      rw [hload]
      exact ih h.2.2 hrest

theorem Chain.head {head : ℕ} {l : List ℕ} (h : Chain memory head l) (hne : head ≠ 0) :
    ∃ rest, l = head :: rest ∧ Chain memory (loadPointer memory head) rest := by
  cases l with
  | nil => exact absurd h hne
  | cons p l =>
      obtain ⟨rfl, -, hrest⟩ := h
      exact ⟨l, rfl, hrest⟩

theorem Chain.null {l : List ℕ} (h : Chain memory 0 l) : l = [] := by
  cases l with
  | nil => rfl
  | cons p l => exact absurd h.1.symm h.2.1

/-- An element that is put in front of the list. -/
theorem Chain.push {head address : ℕ} {l : List ℕ} (h : Chain memory head l) (hhead : head < 2 ^ 64)
    (haddress : address ≠ 0) (hapart : ∀ p ∈ l, p + 8 ≤ address ∨ address + 8 ≤ p) :
    Chain (storePointer memory address head) address (address :: l) := by
  refine ⟨rfl, haddress, ?_⟩
  rw [loadPointer_storePointer hhead]
  apply h.congr
  intro p hp i hi
  have hlength : (littleEndian 8 head).length = 8 := length_littleEndian 8 head
  rcases hapart p hp with hbefore | hbehind
  · exact store_of_lt _ (by omega)
  · exact store_of_le _ (by omega)

end

end Stuff.MemoryLists
