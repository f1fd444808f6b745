import Stuff.Loops
import Stuff.MachineWords
import Mathlib.Data.List.MinMax

/-!
# Rendezvous hashing

`Hash::Rendezvous`: a key belongs to the server with the largest hash of the two. The
loop keeps the largest hash so far and the place where it was seen first, and starts from
the hash zero at the place zero; this is the first maximum of the list.
-/
namespace Stuff.HashRendezvous
open Loops MachineWords

/-! ## First maxima -/

section Argmax

variable {α β : Type*} [LinearOrder β] {f : α → β}

theorem exists_argmax (f : α → β) {l : List α} (hne : l ≠ []) : ∃ c, l.argmax f = some c :=
  Option.ne_none_iff_exists'.mp (mt List.argmax_eq_none.mp hne)

theorem argmax_cons_of_eq {a c : α} {l : List α} (h : l.argmax f = some c) :
    (a :: l).argmax f = if f a < f c then some c else some a := by
  rw [List.argmax_cons, h]

/-- A new element takes the maximum over, or leaves it where it was. -/
theorem argmax_insert (x : α) {l₁ l₂ : List α} (hne : l₁ ++ l₂ ≠ []) :
    (l₁ ++ x :: l₂).argmax f = some x ∨
      (l₁ ++ x :: l₂).argmax f = (l₁ ++ l₂).argmax f := by
  induction l₁ with
  | nil =>
      obtain ⟨c, hc⟩ := exists_argmax f hne
      rw [List.nil_append] at hc
      rw [List.nil_append, List.nil_append, argmax_cons_of_eq hc, hc]
      split
      · exact .inr rfl
      · exact .inl rfl
  | cons a l₁ ih =>
      rw [List.cons_append, List.cons_append]
      by_cases hrest : l₁ ++ l₂ = []
      · obtain ⟨rfl, rfl⟩ := List.append_eq_nil_iff.mp hrest
        rw [List.nil_append, argmax_cons_of_eq List.argmax_singleton]
        split
        · exact .inl rfl
        · exact .inr rfl
      · obtain ⟨c, hc⟩ := exists_argmax f hrest
        have hmem : c ∈ l₁ ++ x :: l₂ := by
          have hold := List.mem_append.mp (List.argmax_mem hc)
          exact List.mem_append.mpr (hold.imp_right (List.mem_cons_of_mem x))
        rw [argmax_cons_of_eq hc]
        rcases ih hrest with hnew | hsame
        · have hle : f c ≤ f x := List.le_of_mem_argmax hmem hnew
          rw [argmax_cons_of_eq hnew]
          split
          case isTrue => exact .inl rfl
          case isFalse hlt => rw [if_neg fun hac => hlt (hac.trans_le hle)]; exact .inr rfl
        · rw [argmax_cons_of_eq (hsame.trans hc)]
          exact .inr rfl

/-- The only largest element is the first one. -/
theorem argmax_of_largest {m : α} {l : List α} (hm : m ∈ l) (hlt : ∀ a ∈ l, a ≠ m → f a < f m) :
    l.argmax f = some m := by
  obtain ⟨c, hc⟩ := exists_argmax f (List.ne_nil_of_mem hm)
  have hle : f m ≤ f c := List.le_of_mem_argmax hm hc
  rw [hc]
  by_contra hne
  exact (hlt c (List.argmax_mem hc) fun h => hne (congrArg some h)).not_ge hle

end Argmax

/-! ## The table and its lookup -/

structure Node where
  name : Bytes := []
  seed : UInt64 := 0
deriving DecidableEq, Repr

variable (xxh3 : Bytes → UInt64 → UInt64)

/-- The constructor, with the function `XXH3_64bits_withSeed`. -/
def rendezvous (aList : List Bytes) : List Node :=
  aList.map fun x => { name := x, seed := xxh3 x 0 }

/-- The variables of the loop of `operator()`. -/
structure Scan where
  i : UInt32
  sMax : UInt64
  sIndex : UInt32
deriving DecidableEq, Repr

/-- The body of the loop. -/
def Scan.next (s : Scan) (sTmp : UInt64) : Scan :=
  if s.sMax < sTmp then { i := s.i + 1, sMax := sTmp, sIndex := s.i } else { s with i := s.i + 1 }

def turn (m_Nodes : List Node) (aKey : Bytes) (s : Scan) : Turn Scan UInt32 :=
  match m_Nodes[s.i.toNat]? with
  | none => .leave s.sIndex
  | some node => .next (s.next (xxh3 aKey node.seed))

/-- `operator()`: the loop, and the name at the place that it found. With an empty table
there is no such name. -/
def owner (m_Nodes : List Node) (aKey : Bytes) (turns : ℕ) : Option Bytes :=
  (loop (fun _ s => some (turn xxh3 m_Nodes aKey s)) turns { i := 0, sMax := 0, sIndex := 0 }).bind
    fun sIndex => m_Nodes[sIndex.toNat]?.map Node.name

variable {xxh3} {m_Nodes : List Node} {aKey : Bytes}

/-- The hash of a key and a node, as a number. -/
def score (xxh3 : Bytes → UInt64 → UInt64) (aKey : Bytes) (node : Node) : ℕ :=
  (xxh3 aKey node.seed).toNat

/-- The variables hold this maximum, with its place. -/
def Scan.Holds (xxh3 : Bytes → UInt64 → UInt64) (m_Nodes : List Node) (aKey : Bytes) (s : Scan) :
    Option Node → Prop
  | none => s.sMax = 0 ∧ s.sIndex = 0
  | some node => s.sMax = xxh3 aKey node.seed ∧ m_Nodes[s.sIndex.toNat]? = some node

/-- The first maximum of the nodes in front of the place `i`. -/
structure Best (xxh3 : Bytes → UInt64 → UInt64) (m_Nodes : List Node) (aKey : Bytes)
    (s : Scan) : Prop where
  le : s.i.toNat ≤ m_Nodes.length
  holds : s.Holds xxh3 m_Nodes aKey ((m_Nodes.take s.i.toNat).argmax (score xxh3 aKey))

theorem best_start : Best xxh3 m_Nodes aKey { i := 0, sMax := 0, sIndex := 0 } where
  le := Nat.zero_le _
  holds := ⟨rfl, rfl⟩

theorem toNat_succ {i : UInt32} {n : ℕ} (hlt : i.toNat < n) (hlen : n < 2 ^ 32) :
    (i + 1).toNat = i.toNat + 1 := by
  rw [UInt32.toNat_add, UInt32.toNat_one]
  omega

theorem argmax_take_succ {i : ℕ} {node : Node} (hnode : m_Nodes[i]? = some node) :
    (m_Nodes.take (i + 1)).argmax (score xxh3 aKey) =
      match (m_Nodes.take i).argmax (score xxh3 aKey) with
      | none => some node
      | some c => if score xxh3 aKey c < score xxh3 aKey node then some node else some c := by
  rw [List.take_add_one, hnode, Option.toList_some, List.argmax_concat]
  cases (m_Nodes.take i).argmax (score xxh3 aKey) <;> rfl

theorem Scan.next_i (s : Scan) (sTmp : UInt64) : (s.next sTmp).i = s.i + 1 := by
  rw [Scan.next]
  split <;> rfl

/-- With the first node it does not matter whether its hash is zero. -/
theorem Scan.Holds.next_none {s : Scan} (h : s.Holds xxh3 m_Nodes aKey none)
    (hzero : s.i.toNat = 0) {node : Node} (hnode : m_Nodes[s.i.toNat]? = some node) :
    (s.next (xxh3 aKey node.seed)).Holds xxh3 m_Nodes aKey (some node) := by
  obtain ⟨hmax, hindex⟩ := h
  rw [Scan.next]
  split
  case isTrue => exact ⟨rfl, hnode⟩
  case isFalse hle =>
    have hhash : xxh3 aKey node.seed = 0 := by
      rw [hmax, UInt64.lt_iff_toNat_lt, UInt64.toNat_zero] at hle
      rw [← UInt64.toNat_inj, UInt64.toNat_zero]
      omega
    refine ⟨hmax.trans hhash.symm, ?_⟩
    rw [hzero] at hnode
    rw [hindex]
    exact hnode

theorem Scan.Holds.next_some {s : Scan} {c : Node} (h : s.Holds xxh3 m_Nodes aKey (some c))
    {node : Node} (hnode : m_Nodes[s.i.toNat]? = some node) :
    (s.next (xxh3 aKey node.seed)).Holds xxh3 m_Nodes aKey
      (if score xxh3 aKey c < score xxh3 aKey node then some node else some c) := by
  obtain ⟨hmax, hindex⟩ := h
  have hscore : s.sMax < xxh3 aKey node.seed ↔ score xxh3 aKey c < score xxh3 aKey node := by
    rw [hmax, UInt64.lt_iff_toNat_lt]
    rfl
  rw [Scan.next]
  split
  case isTrue hgt =>
    rw [if_pos (hscore.mp hgt)]
    exact ⟨rfl, hnode⟩
  case isFalse hle =>
    rw [if_neg (mt hscore.mpr hle)]
    exact ⟨hmax, hindex⟩

theorem Best.next {s : Scan} (h : Best xxh3 m_Nodes aKey s) {node : Node}
    (hnode : m_Nodes[s.i.toNat]? = some node) (hlen : m_Nodes.length < 2 ^ 32) :
    Best xxh3 m_Nodes aKey (s.next (xxh3 aKey node.seed)) := by
  obtain ⟨hlt, -⟩ := List.getElem?_eq_some_iff.mp hnode
  have hi : (s.next (xxh3 aKey node.seed)).i.toNat = s.i.toNat + 1 := by
    rw [Scan.next_i, toNat_succ hlt hlen]
  have hold := h.holds
  refine ⟨by rw [hi]; exact hlt, ?_⟩
  rw [hi, argmax_take_succ hnode]
  cases hc : (m_Nodes.take s.i.toNat).argmax (score xxh3 aKey) with
  | none =>
      rw [hc] at hold
      have hnil := List.take_eq_nil_iff.mp (List.argmax_eq_none.mp hc)
      have hzero : s.i.toNat = 0 := hnil.resolve_right (List.length_pos_iff.mp (by omega))
      exact hold.next_none hzero hnode
  | some c =>
      rw [hc] at hold
      exact hold.next_some hnode

/-- The name that is found is that of the first maximum. -/
theorem owner_returns {node : Node} (hlen : m_Nodes.length < 2 ^ 32)
    (hnode : m_Nodes.argmax (score xxh3 aKey) = some node) :
    Returns (owner xxh3 m_Nodes aKey) node.name := by
  have hturn : ∀ s, Best xxh3 m_Nodes aKey s →
      ∃ t, Returns (fun _ => some (turn xxh3 m_Nodes aKey s)) t ∧
        t.Ok (Best xxh3 m_Nodes aKey) (fun s => m_Nodes.length - s.i.toNat)
          (fun sIndex => m_Nodes[sIndex.toNat]? = some node) (m_Nodes.length - s.i.toNat) := by
    intro s hs
    refine ⟨_, returns_some _, ?_⟩
    cases hget : m_Nodes[s.i.toNat]? with
    | none =>
        have hle := List.getElem?_eq_none_iff.mp hget
        have hholds := hs.holds
        rw [List.take_of_length_le hle, hnode] at hholds
        rw [turn, hget]
        exact hholds.2
    | some x =>
        obtain ⟨hlt, -⟩ := List.getElem?_eq_some_iff.mp hget
        rw [turn, hget]
        refine ⟨hs.next hget hlen, ?_⟩
        dsimp only
        rw [Scan.next_i, toNat_succ hlt hlen]
        omega
  obtain ⟨sIndex, hloop, hplace⟩ := loop_returns _ hturn best_start
  refine hloop.bind ?_
  rw [hplace]
  exact returns_some _

/-- The index of the loop is never behind so many nodes. -/
theorem owner_eq_none_of_le (xxh3 : Bytes → UInt64 → UInt64)
    (hlen : 2 ^ 32 ≤ m_Nodes.length) (aKey : Bytes) (turns : ℕ) :
    owner xxh3 m_Nodes aKey turns = none := by
  have hloop : ∀ n s, loop (fun _ s => some (turn xxh3 m_Nodes aKey s)) n s = none := by
    intro n
    induction n with
    | zero => exact fun s => rfl
    | succ n ih =>
        intro s
        have hlt : s.i.toNat < m_Nodes.length := s.i.toNat_lt.trans_le hlen
        rw [loop, turn, List.getElem?_eq_getElem hlt]
        exact ih _
  rw [owner, hloop, Option.bind_none]

/-! ## What moves -/

section Moves

variable {aList : List Bytes}

theorem owner_nil (xxh3 : Bytes → UInt64 → UInt64) (aKey : Bytes) (turns : ℕ) :
    owner xxh3 [] aKey turns = none := by
  rw [owner]
  cases loop (fun _ s => some (turn xxh3 [] aKey s)) turns { i := 0, sMax := 0, sIndex := 0 } with
  | none => rfl
  | some sIndex => rfl

/-- The owner is the name of the first maximum, if the index can go over the whole table. -/
theorem returns_owner_iff {name : Bytes} :
    Returns (owner xxh3 m_Nodes aKey) name ↔
      m_Nodes.length < 2 ^ 32 ∧
        ∃ node, m_Nodes.argmax (score xxh3 aKey) = some node ∧ node.name = name := by
  constructor
  · intro h
    obtain ⟨n, hn⟩ := id h
    have hlen : m_Nodes.length < 2 ^ 32 := by
      by_contra hle
      have hnone := owner_eq_none_of_le xxh3 (not_lt.mp hle) aKey n
      rw [hn n le_rfl] at hnone
      cases hnone
    have hne : m_Nodes ≠ [] := by
      rintro rfl
      have hnone := owner_nil xxh3 aKey n
      rw [hn n le_rfl] at hnone
      cases hnone
    obtain ⟨node, hnode⟩ := exists_argmax (score xxh3 aKey) hne
    exact ⟨hlen, node, hnode, (owner_returns hlen hnode).unique h⟩
  · rintro ⟨hlen, node, hnode, rfl⟩
    exact owner_returns hlen hnode

theorem length_rendezvous (aList : List Bytes) :
    (rendezvous xxh3 aList).length = aList.length := List.length_map _

theorem mem_rendezvous {node : Node} :
    node ∈ rendezvous xxh3 aList ↔ ∃ x ∈ aList, { name := x, seed := xxh3 x 0 } = node :=
  List.mem_map

/-- The hash of a key and a server. -/
def hash (xxh3 : Bytes → UInt64 → UInt64) (aKey x : Bytes) : UInt64 := xxh3 aKey (xxh3 x 0)

/-- One of the servers has a larger hash than the others. -/
def Largest (xxh3 : Bytes → UInt64 → UInt64) (aList : List Bytes) (aKey x : Bytes) : Prop :=
  x ∈ aList ∧ ∀ y ∈ aList, y ≠ x → hash xxh3 aKey y < hash xxh3 aKey x

theorem Largest.perm {aList' : List Bytes} {x : Bytes} (h : Largest xxh3 aList aKey x)
    (hperm : aList.Perm aList') : Largest xxh3 aList' aKey x :=
  ⟨hperm.mem_iff.mp h.1, fun y hy => h.2 y (hperm.mem_iff.mpr hy)⟩

theorem Largest.returns_owner_iff {x : Bytes} (h : Largest xxh3 aList aKey x) {name : Bytes} :
    Returns (owner xxh3 (rendezvous xxh3 aList) aKey) name ↔
      aList.length < 2 ^ 32 ∧ x = name := by
  have hargmax : (rendezvous xxh3 aList).argmax (score xxh3 aKey) =
      some { name := x, seed := xxh3 x 0 } := by
    refine argmax_of_largest (mem_rendezvous.mpr ⟨x, h.1, rfl⟩) ?_
    intro node hnode hne
    obtain ⟨y, hy, rfl⟩ := mem_rendezvous.mp hnode
    exact UInt64.lt_iff_toNat_lt.mp (h.2 y hy fun heq => hne (by rw [heq]))
  rw [HashRendezvous.returns_owner_iff, length_rendezvous, hargmax]
  simp only [Option.some.injEq, exists_eq_left']

end Moves

variable (xxh3)

/-- Every list has an owner for every key if its index does not wrap. A new server takes keys
over, and moves none between the others. The order of the servers does not matter for a key
with one largest hash. -/
theorem owner_moves :
    (∀ aList aKey, (∃ name, Returns (owner xxh3 (rendezvous xxh3 aList) aKey) name) ↔
      aList ≠ [] ∧ aList.length < 2 ^ 32) ∧
    (∀ l₁ x l₂ aKey old new, Returns (owner xxh3 (rendezvous xxh3 (l₁ ++ l₂)) aKey) old →
      Returns (owner xxh3 (rendezvous xxh3 (l₁ ++ x :: l₂)) aKey) new → new = x ∨ new = old) ∧
    ∀ aList aList' aKey x, aList.Perm aList' → Largest xxh3 aList aKey x → ∀ name,
      Returns (owner xxh3 (rendezvous xxh3 aList) aKey) name ↔
        Returns (owner xxh3 (rendezvous xxh3 aList') aKey) name := by
  refine ⟨fun aList aKey => ?_, fun l₁ x l₂ aKey old new hold hnew => ?_, ?_⟩
  · simp only [returns_owner_iff, length_rendezvous]
    constructor
    · rintro ⟨name, hlen, node, hnode, -⟩
      refine ⟨?_, hlen⟩
      rintro rfl
      cases hnode
    · rintro ⟨hne, hlen⟩
      obtain ⟨node, hnode⟩ := exists_argmax (score xxh3 aKey)
        (show rendezvous xxh3 aList ≠ [] from mt List.map_eq_nil_iff.mp hne)
      exact ⟨_, hlen, node, hnode, rfl⟩
  · obtain ⟨-, node, hnode, rfl⟩ := returns_owner_iff.mp hold
    obtain ⟨-, node', hnode', rfl⟩ := returns_owner_iff.mp hnew
    have hne : rendezvous xxh3 (l₁ ++ l₂) ≠ [] := List.ne_nil_of_mem (List.argmax_mem hnode)
    rw [rendezvous, List.map_append] at hne hnode
    rw [rendezvous, List.map_append, List.map_cons] at hnode'
    rcases argmax_insert { name := x, seed := xxh3 x 0 } (f := score xxh3 aKey) hne with hx | hsame
    · rw [hx, Option.some.injEq] at hnode'
      exact .inl (congrArg Node.name hnode').symm
    · rw [hsame, hnode, Option.some.injEq] at hnode'
      exact .inr (congrArg Node.name hnode').symm
  · intro aList aList' aKey x hperm hx name
    rw [hx.returns_owner_iff, (hx.perm hperm).returns_owner_iff, hperm.length_eq]

end Stuff.HashRendezvous
