import Mathlib.Data.List.AList
import Mathlib.Data.List.Nodup
import Mathlib.Logic.Function.Basic

/-!
# Nodes behind an index

Nodes are on a heap, lists hold their addresses, and an index finds the address
of the node with a given key. `Indexed` says that the index and the addresses in
use stay in step; it is kept by adding, erasing and overwriting a node, and it
does not depend on the order of the addresses.
-/
namespace Stuff.NodeIndex
open Function (update)

variable {Key Node : Type} [DecidableEq Key]

/-- An address that holds no node is not in use. -/
abbrev Heap (Node : Type) := ℕ → Option Node

abbrev Index (Key : Type) := AList fun _ : Key => ℕ

def Index.size (index : Index Key) : ℕ := index.keys.length

/-- The node under a key. -/
def find (heap : Heap Node) (index : Index Key) (k : Key) : Option Node :=
  (index.lookup k).bind heap

/-- The value of the node under a key. -/
def valueAt {Value : Type} (value : Node → Value) (heap : Heap Node) (index : Index Key) (k : Key) :
    Option Value :=
  (find heap index k).map value

/-- The keys of a list of nodes, in its order. -/
def keysOf (key : Node → Key) (heap : Heap Node) (nodes : List ℕ) : List Key :=
  nodes.filterMap fun it => (heap it).map key

section KeysOf
variable {key : Node → Key} {heap : Heap Node} {it : ℕ} {e : Node}

omit [DecidableEq Key] in
theorem keysOf_cons (he : heap it = some e) (nodes : List ℕ) :
    keysOf key heap (it :: nodes) = key e :: keysOf key heap nodes := by
  unfold keysOf
  rw [List.filterMap_cons_some]
  rw [he, Option.map_some]

omit [DecidableEq Key] in
theorem keysOf_update {nodes : List ℕ} (hit : it ∉ nodes) (node : Option Node) :
    keysOf key (update heap it node) nodes = keysOf key heap nodes := by
  unfold keysOf
  apply List.filterMap_congr
  intro it' hit'
  have hne : it' ≠ it := fun heq => hit (heq ▸ hit')
  rw [Function.update_of_ne hne]

omit [DecidableEq Key] in
theorem keysOf_assign (he : heap it = some e) (e' : Node) (hkey : key e' = key e)
    (nodes : List ℕ) : keysOf key (update heap it (some e')) nodes = keysOf key heap nodes := by
  unfold keysOf
  apply List.filterMap_congr
  intro it' _
  rcases eq_or_ne it' it with rfl | hne
  · rw [Function.update_self, he, Option.map_some, Option.map_some, hkey]
  · rw [Function.update_of_ne hne]

theorem keysOf_erase {nodes : List ℕ} (he : heap it = some e)
    (hother : ∀ it' ∈ nodes, ∀ e', heap it' = some e' → key e' = key e → it' = it) :
    keysOf key heap (nodes.erase it) = (keysOf key heap nodes).erase (key e) := by
  induction nodes with
  | nil => rfl
  | cons a nodes ih =>
      have hrest := ih fun it' hit' => hother it' (List.mem_cons_of_mem a hit')
      rcases eq_or_ne a it with rfl | hne
      · rw [List.erase_cons_head, keysOf_cons he, List.erase_cons_head]
      · rw [List.erase_cons_tail (by simpa using hne)]
        cases ha : heap a with
        | none =>
            have hskip : ∀ nodes, keysOf key heap (a :: nodes) = keysOf key heap nodes := by
              intro nodes
              unfold keysOf
              rw [List.filterMap_cons_none]
              rw [ha, Option.map_none]
            rw [hskip, hskip, hrest]
        | some e' =>
            have hkeys : key e' ≠ key e :=
              fun heq => hne (hother a List.mem_cons_self e' ha heq)
            rw [keysOf_cons ha, keysOf_cons ha, List.erase_cons_tail (by simpa using hkeys), hrest]

end KeysOf

structure Indexed (key : Node → Key) (heap : Heap Node) (index : Index Key) (nodes : List ℕ) :
    Prop where
  nodup : nodes.Nodup
  listed : ∀ it ∈ nodes, ∃ e, heap it = some e ∧ index.lookup (key e) = some it
  found : ∀ k it, index.lookup k = some it → it ∈ nodes ∧ ∃ e, heap it = some e ∧ key e = k

theorem indexed_empty (key : Node → Key) (heap : Heap Node) : Indexed key heap ∅ [] := by
  constructor
  · exact List.nodup_nil
  · simp
  · intro k it h
    rw [AList.lookup_empty] at h
    cases h

namespace Indexed
variable {key : Node → Key} {heap : Heap Node} {index : Index Key} {nodes : List ℕ}

theorem perm {nodes' : List ℕ} (h : Indexed key heap index nodes) (hperm : nodes'.Perm nodes) :
    Indexed key heap index nodes' := by
  constructor
  · exact hperm.nodup_iff.mpr h.nodup
  · intro it hit
    exact h.listed it (hperm.mem_iff.mp hit)
  · intro k it hk
    obtain ⟨hit, hnode⟩ := h.found k it hk
    exact ⟨hperm.mem_iff.mpr hit, hnode⟩

theorem find_eq_none (h : Indexed key heap index nodes) {k : Key} :
    find heap index k = none ↔ index.lookup k = none := by
  unfold find
  constructor
  · intro hnone
    cases hk : index.lookup k with
    | none => rfl
    | some it =>
        obtain ⟨-, e, he, -⟩ := h.found k it hk
        rw [hk, Option.bind_some, he] at hnone
        cases hnone
  · intro hnone
    rw [hnone, Option.bind_none]

theorem find_eq_some (h : Indexed key heap index nodes) {k : Key} {e : Node} :
    find heap index k = some e ↔ key e = k ∧ ∃ it ∈ nodes, heap it = some e := by
  unfold find
  constructor
  · intro hfind
    obtain ⟨it, hit, he⟩ := Option.bind_eq_some_iff.mp hfind
    obtain ⟨hmem, e', he', hkey⟩ := h.found k it hit
    cases he.symm.trans he'
    exact ⟨hkey, it, hmem, he⟩
  · intro hnode
    obtain ⟨hkey, it, hmem, he⟩ := hnode
    obtain ⟨e', he', hlookup⟩ := h.listed it hmem
    cases he.symm.trans he'
    rw [← hkey, hlookup, Option.bind_some, he]

/-! ## The keys of the nodes -/

theorem mem_keysOf (h : Indexed key heap index nodes) {k : Key} :
    k ∈ keysOf key heap nodes ↔ k ∈ index := by
  rw [← AList.lookup_isSome, Option.isSome_iff_exists]
  unfold keysOf
  rw [List.mem_filterMap]
  constructor
  · intro hk
    obtain ⟨it, hit, hkey⟩ := hk
    obtain ⟨e, he, hlookup⟩ := h.listed it hit
    rw [he, Option.map_some, Option.some.injEq] at hkey
    exact ⟨it, hkey ▸ hlookup⟩
  · intro hk
    obtain ⟨it, hit⟩ := hk
    obtain ⟨hmem, e, he, hkey⟩ := h.found k it hit
    exact ⟨it, hmem, by rw [he, Option.map_some, hkey]⟩

theorem keysOf_nodup (h : Indexed key heap index nodes) : (keysOf key heap nodes).Nodup := by
  unfold keysOf List.Nodup
  rw [List.pairwise_filterMap]
  apply h.nodup.imp_of_mem
  intro it it' hit hit' hne k hk k' hk' heq
  obtain ⟨e, he, hlookup⟩ := h.listed it hit
  obtain ⟨e', he', hlookup'⟩ := h.listed it' hit'
  rw [he, Option.map_some, Option.some.injEq] at hk
  rw [he', Option.map_some, Option.some.injEq] at hk'
  rw [hk, heq, ← hk', hlookup'] at hlookup
  cases hlookup
  exact hne rfl

theorem keysOf_length (h : Indexed key heap index nodes) :
    (keysOf key heap nodes).length = nodes.length := by
  unfold keysOf
  rw [List.filterMap_length_eq_length]
  intro it hit
  obtain ⟨e, he, -⟩ := h.listed it hit
  rw [he]
  rfl

theorem keys_erase (h : Indexed key heap index nodes) {it : ℕ} {e : Node} (hit : it ∈ nodes)
    (he : heap it = some e) :
    keysOf key heap (nodes.erase it) = (keysOf key heap nodes).erase (key e) := by
  apply keysOf_erase he
  intro it' hit' e' he' hkey
  obtain ⟨e₀, he₀, hlookup⟩ := h.listed it hit
  cases he.symm.trans he₀
  obtain ⟨e₁, he₁, hlookup'⟩ := h.listed it' hit'
  cases he'.symm.trans he₁
  rw [hkey, hlookup] at hlookup'
  exact (Option.some.inj hlookup').symm

theorem size_eq (h : Indexed key heap index nodes) : Index.size index = nodes.length := by
  have hperm : (keysOf key heap nodes).Perm index.keys := by
    rw [List.perm_ext_iff_of_nodup h.keysOf_nodup index.keys_nodup]
    intro k
    exact h.mem_keysOf
  rw [← h.keysOf_length, hperm.length_eq]
  rfl

/-! ## Adding, erasing and overwriting a node -/

theorem lookup_ne (h : Indexed key heap index nodes) {it it' : ℕ} {e : Node} {k : Key}
    (he : heap it = some e) (hne : k ≠ key e) (hk : index.lookup k = some it') : it' ≠ it := by
  intro heq
  obtain ⟨-, e', he', hkey⟩ := h.found k it' hk
  rw [heq, he] at he'
  cases he'
  exact hne hkey.symm

theorem insert (h : Indexed key heap index nodes) {it : ℕ} {e : Node} (hfresh : it ∉ nodes)
    (hkey : index.lookup (key e) = none) :
    Indexed key (update heap it (some e)) (index.insert (key e) it) (it :: nodes) := by
  constructor
  · exact List.nodup_cons.mpr ⟨hfresh, h.nodup⟩
  · intro it' hit'
    rcases List.mem_cons.mp hit' with heq | hmem
    · rw [heq]
      exact ⟨e, Function.update_self _ _ _, AList.lookup_insert index⟩
    · obtain ⟨e', he', hlookup⟩ := h.listed it' hmem
      have hne : it' ≠ it := fun heq => hfresh (heq ▸ hmem)
      have hkeys : key e' ≠ key e := by
        intro heq
        rw [heq, hkey] at hlookup
        cases hlookup
      exact ⟨e', by rw [Function.update_of_ne hne, he'],
        by rw [AList.lookup_insert_ne hkeys, hlookup]⟩
  · intro k it' hk
    rcases eq_or_ne k (key e) with heq | hne
    · rw [heq, AList.lookup_insert] at hk
      cases hk
      exact ⟨List.mem_cons_self, e, Function.update_self _ _ _, heq.symm⟩
    · rw [AList.lookup_insert_ne hne] at hk
      obtain ⟨hmem, e', he', hkey'⟩ := h.found k it' hk
      have hit : it' ≠ it := fun heq => hfresh (heq ▸ hmem)
      exact ⟨List.mem_cons_of_mem _ hmem, e', by rw [Function.update_of_ne hit, he'], hkey'⟩

theorem erase (h : Indexed key heap index nodes) {it : ℕ} {e : Node} (hit : it ∈ nodes)
    (he : heap it = some e) :
    Indexed key (update heap it none) (index.erase (key e)) (nodes.erase it) := by
  obtain ⟨e₀, he₀, hself⟩ := h.listed it hit
  cases he.symm.trans he₀
  constructor
  · exact h.nodup.erase it
  · intro it' hit'
    obtain ⟨hne, hmem⟩ := (h.nodup.mem_erase_iff).mp hit'
    obtain ⟨e', he', hlookup⟩ := h.listed it' hmem
    have hkeys : key e' ≠ key e := by
      intro heq
      rw [heq, hself] at hlookup
      cases hlookup
      exact hne rfl
    exact ⟨e', by rw [Function.update_of_ne hne, he'],
      by rw [AList.lookup_erase_ne hkeys, hlookup]⟩
  · intro k it' hk
    rcases eq_or_ne k (key e) with heq | hne
    · rw [heq, AList.lookup_erase] at hk
      cases hk
    · rw [AList.lookup_erase_ne hne] at hk
      obtain ⟨hmem, e', he', hkey'⟩ := h.found k it' hk
      have hother := h.lookup_ne he hne hk
      exact ⟨(h.nodup.mem_erase_iff).mpr ⟨hother, hmem⟩, e',
        by rw [Function.update_of_ne hother, he'], hkey'⟩

theorem assign (h : Indexed key heap index nodes) {it : ℕ} {e : Node} (he : heap it = some e)
    (e' : Node) (hkey : key e' = key e) :
    Indexed key (update heap it (some e')) index nodes := by
  constructor
  · exact h.nodup
  · intro it' hit'
    obtain ⟨e₀, he₀, hlookup⟩ := h.listed it' hit'
    rcases eq_or_ne it' it with heq | hne
    · rw [heq] at he₀ hlookup ⊢
      cases he.symm.trans he₀
      exact ⟨e', Function.update_self _ _ _, hkey ▸ hlookup⟩
    · exact ⟨e₀, by rw [Function.update_of_ne hne, he₀], hlookup⟩
  · intro k it' hk
    obtain ⟨hmem, e₀, he₀, hkey₀⟩ := h.found k it' hk
    rcases eq_or_ne it' it with heq | hne
    · rw [heq] at he₀ ⊢
      cases he.symm.trans he₀
      exact ⟨heq ▸ hmem, e', Function.update_self _ _ _, hkey.trans hkey₀⟩
    · exact ⟨hmem, e₀, by rw [Function.update_of_ne hne, he₀], hkey₀⟩

/-! ## What the index finds then -/

theorem find_insert (h : Indexed key heap index nodes) {it : ℕ} {e : Node} (hfresh : it ∉ nodes) :
    find (update heap it (some e)) (index.insert (key e) it) =
      update (find heap index) (key e) (some e) := by
  funext k
  unfold find
  rcases eq_or_ne k (key e) with heq | hne
  · rw [heq, AList.lookup_insert, Option.bind_some, Function.update_self, Function.update_self]
  · rw [AList.lookup_insert_ne hne, Function.update_of_ne hne]
    cases hk : index.lookup k with
    | none => rfl
    | some it' =>
        have hother : it' ≠ it := fun heq => hfresh (heq ▸ (h.found k it' hk).1)
        rw [Option.bind_some, Option.bind_some, Function.update_of_ne hother]

theorem find_erase (h : Indexed key heap index nodes) {it : ℕ} {e : Node}
    (he : heap it = some e) :
    find (update heap it none) (index.erase (key e)) =
      update (find heap index) (key e) none := by
  funext k
  unfold find
  rcases eq_or_ne k (key e) with heq | hne
  · rw [heq, AList.lookup_erase, Option.bind_none, Function.update_self]
  · rw [AList.lookup_erase_ne hne, Function.update_of_ne hne]
    cases hk : index.lookup k with
    | none => rfl
    | some it' =>
        rw [Option.bind_some, Option.bind_some, Function.update_of_ne (h.lookup_ne he hne hk)]

theorem find_assign (h : Indexed key heap index nodes) {it : ℕ} {e : Node} (hit : it ∈ nodes)
    (he : heap it = some e) (e' : Node) :
    find (update heap it (some e')) index = update (find heap index) (key e) (some e') := by
  obtain ⟨e₀, he₀, hself⟩ := h.listed it hit
  cases he.symm.trans he₀
  funext k
  unfold find
  rcases eq_or_ne k (key e) with heq | hne
  · rw [heq, hself, Option.bind_some, Function.update_self, Function.update_self]
  · rw [Function.update_of_ne hne]
    cases hk : index.lookup k with
    | none => rfl
    | some it' =>
        rw [Option.bind_some, Option.bind_some, Function.update_of_ne (h.lookup_ne he hne hk)]

variable {Value : Type} (value : Node → Value)

theorem valueAt_insert (h : Indexed key heap index nodes) {it : ℕ} {e : Node}
    (hfresh : it ∉ nodes) :
    valueAt value (update heap it (some e)) (index.insert (key e) it) =
      update (valueAt value heap index) (key e) (some (value e)) := by
  change Option.map value ∘ find _ _ = _
  rw [h.find_insert hfresh, Function.comp_update]
  rfl

theorem valueAt_erase (h : Indexed key heap index nodes) {it : ℕ} {e : Node}
    (he : heap it = some e) :
    valueAt value (update heap it none) (index.erase (key e)) =
      update (valueAt value heap index) (key e) none := by
  change Option.map value ∘ find _ _ = _
  rw [h.find_erase he, Function.comp_update]
  rfl

theorem valueAt_assign (h : Indexed key heap index nodes) {it : ℕ} {e : Node} (hit : it ∈ nodes)
    (he : heap it = some e) (e' : Node) :
    valueAt value (update heap it (some e')) index =
      update (valueAt value heap index) (key e) (some (value e')) := by
  change Option.map value ∘ find _ _ = _
  rw [h.find_assign hit he, Function.comp_update]
  rfl

theorem valueAt_node (h : Indexed key heap index nodes) {it : ℕ} {e : Node} (hit : it ∈ nodes)
    (he : heap it = some e) : valueAt value heap index (key e) = some (value e) := by
  unfold valueAt
  rw [h.find_eq_some.mpr ⟨rfl, it, hit, he⟩, Option.map_some]

/-- A node overwritten with the same key and value. -/
theorem valueAt_keep (h : Indexed key heap index nodes) {it : ℕ} {e : Node} (hit : it ∈ nodes)
    (he : heap it = some e) {e' : Node} (hvalue : value e' = value e) :
    valueAt value (update heap it (some e')) index = valueAt value heap index := by
  rw [h.valueAt_assign value hit he, hvalue, ← h.valueAt_node value hit he, Function.update_eq_self]

theorem valueAt_eq_none (h : Indexed key heap index nodes) {k : Key} :
    valueAt value heap index k = none ↔ index.lookup k = none := by
  unfold valueAt
  rw [Option.map_eq_none_iff, h.find_eq_none]

end Indexed
end Stuff.NodeIndex
