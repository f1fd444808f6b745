import Stuff.MachineWords
import Mathlib.Data.List.Basic

/-!
# Filters

`Archive::IFilter` takes bytes from a source and writes bytes to a destination, some of
both in one call. A write filter makes a member of what it takes between two ends, and a
read filter takes members that follow each other. What is said here of a filter is what
the libraries behind it promise.
-/
namespace Stuff.Archive
open MachineWords

/-- `Pair`: the `usedDst` bytes are in `out`. -/
structure Pair (σ : Type*) where
  usedSrc : ℕ
  out : Bytes
  state : σ
deriving DecidableEq, Repr

structure Finish (σ : Type*) where
  out : Bytes
  done : Bool
  state : σ
deriving DecidableEq, Repr

/-- The functions of a filter with its state, and the size of the destination as `aDstLen`. -/
structure IFilter (σ : Type*) where
  estimate : σ → ℕ → ℕ
  filter : σ → Bytes → ℕ → Pair σ
  finish : σ → ℕ → Finish σ

/-- A write filter. In the state `s` of `Cycle closing taken out s` it has taken `taken` and
written `out` since its last member, and is called to finish when `closing` is true. It makes
progress when the destination has the estimated size: it takes something or its rank falls. -/
structure Encodes {σ : Type*} (c : IFilter σ) (member : Bytes → Bytes → Prop)
    (Cycle : Bool → Bytes → Bytes → σ → Prop) (rank : σ → ℕ) : Prop where
  filter : ∀ {s taken out src dst}, Cycle false taken out s → src ≠ [] →
    c.estimate s src.length ≤ dst → 0 < dst →
      (c.filter s src dst).usedSrc ≤ src.length ∧ (c.filter s src dst).out.length ≤ dst ∧
      Cycle false (taken ++ src.take (c.filter s src dst).usedSrc)
        (out ++ (c.filter s src dst).out) (c.filter s src dst).state
  takes : ∀ {s taken out src dst}, Cycle false taken out s → src ≠ [] →
    c.estimate s src.length ≤ dst → 0 < dst →
      0 < (c.filter s src dst).usedSrc ∨ rank (c.filter s src dst).state < rank s
  finish : ∀ {s closing taken out dst}, Cycle closing taken out s → c.estimate s 0 ≤ dst →
    (c.finish s dst).out.length ≤ dst ∧
      ((c.finish s dst).done = false →
        Cycle true taken (out ++ (c.finish s dst).out) (c.finish s dst).state) ∧
      ((c.finish s dst).done = true → Cycle false [] [] (c.finish s dst).state ∧
        (member taken (out ++ (c.finish s dst).out) ∨
          taken = [] ∧ out ++ (c.finish s dst).out = []))
  ends : ∀ {s closing taken out dst}, Cycle closing taken out s → c.estimate s 0 ≤ dst →
    0 < dst → (c.finish s dst).done = true ∨ rank (c.finish s dst).state < rank s

/-- A read filter. In the state `s` of `At rest todo s` it has still to write `todo` when the
rest of the members is `rest`. It takes the last byte when it has nothing left to write. -/
structure Decodes {τ : Type*} (c : IFilter τ) (member : Bytes → Bytes → Prop)
    (At : Bytes → Bytes → τ → Prop) (s₀ : τ) : Prop where
  start : ∀ members : List (Bytes × Bytes), (∀ m ∈ members, member m.1 m.2) →
    At (members.flatMap Prod.snd) (members.flatMap Prod.fst) s₀
  filter : ∀ {s src rest todo dst}, At (src ++ rest) todo s → src ≠ [] → 0 < dst →
    (c.filter s src dst).usedSrc ≤ src.length ∧ (c.filter s src dst).out.length ≤ dst ∧
      (0 < (c.filter s src dst).usedSrc ∨ (c.filter s src dst).out ≠ []) ∧
      ∃ todo', todo = (c.filter s src dst).out ++ todo' ∧
        At (src.drop (c.filter s src dst).usedSrc ++ rest) todo' (c.filter s src dst).state
  last : ∀ {s todo}, At [] todo s → todo = []
  finish : ∀ {s dst}, At [] [] s → 0 < dst →
    (c.finish s dst).out = [] ∧ (c.finish s dst).done = true

end Stuff.Archive
