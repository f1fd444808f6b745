import Stuff.ByteOrder
import Mathlib.Data.List.Sort

/-!
# Rings of hashes

`Hash::Ring`: each name stands at as many places of a ring as its weight says. A hash is
looked up by walking on from its place until three racks are found.
-/
namespace Stuff.HashRing
open ByteOrder MachineWords

structure Info where
  hash : UInt64
  id : ℕ
  rack : ℕ
deriving DecidableEq, Repr

abbrev Ring := List Info

/-- With the function `XXH3_64bits_withSeed`. -/
def insert (xxh3 : Bytes → UInt64 → UInt64) (m_Map : Ring) (aName : Bytes)
    (aID aRack aWeight : ℕ) : Ring :=
  m_Map ++ (List.range aWeight).map fun i =>
    { hash := xxh3 (littleEndian 4 i) (xxh3 aName 0), id := aID, rack := aRack }

def prepare (m_Map : Ring) : Ring := m_Map.insertionSort fun a b => a.hash ≤ b.hash

/-- The capacity of `IDS`. -/
def capacity : ℕ := 3

/-- The loop of `operator()`, with the turns that are left. -/
def walk (m_Map : Ring) : ℕ → ℕ → List ℕ → List ℕ → List ℕ
  | 0, _, sIDS, _ => sIDS
  | n + 1, sIt, sIDS, sRacks =>
      if sIDS.length < capacity then
        let sIt := if sIt = m_Map.length then 0 else sIt
        match m_Map[sIt]? with
        | none => sIDS
        | some x =>
            if x.rack ∈ sRacks then walk m_Map n (sIt + 1) sIDS sRacks
            else walk m_Map n (sIt + 1) (sIDS ++ [x.id]) (sRacks ++ [x.rack])
      else sIDS

/-- `operator()`; there must be a place on the ring. -/
def lookup (m_Map : Ring) (aHash : UInt64) : List ℕ :=
  walk m_Map 15 (m_Map.takeWhile fun x => x.hash < aHash).length [] []

theorem mem_walk {m_Map : Ring} {n sIt i : ℕ} {sIDS sRacks : List ℕ}
    (h : i ∈ walk m_Map n sIt sIDS sRacks) : i ∈ sIDS ∨ ∃ x ∈ m_Map, x.id = i := by
  induction n generalizing sIt sIDS sRacks with
  | zero => exact .inl h
  | succ n ih =>
      rw [walk] at h
      split at h
      case isFalse => exact .inl h
      case isTrue =>
        dsimp only at h
        split at h
        · exact .inl h
        case h_2 x hx =>
          have hx : x ∈ m_Map := List.mem_of_getElem? hx
          split at h
          · exact ih h
          · rcases ih h with hids | hmap
            · rcases List.mem_append.mp hids with hids | hlast
              · exact .inl hids
              · exact .inr ⟨x, hx, (List.mem_singleton.mp hlast).symm⟩
            · exact .inr hmap

/-- Only what was inserted is found. -/
theorem mem_lookup {m_Map : Ring} {aHash : UInt64} {i : ℕ} (h : i ∈ lookup m_Map aHash) :
    ∃ x ∈ m_Map, x.id = i :=
  (mem_walk h).resolve_left List.not_mem_nil

theorem id_of_mem_insert {xxh3 : Bytes → UInt64 → UInt64} {m_Map : Ring} {aName : Bytes}
    {aID aRack aWeight : ℕ} {x : Info} (h : x ∈ insert xxh3 m_Map aName aID aRack aWeight) :
    x ∈ m_Map ∨ x.id = aID := by
  rcases List.mem_append.mp h with hmap | hnew
  · exact .inl hmap
  · obtain ⟨i, -, rfl⟩ := List.mem_map.mp hnew
    exact .inr rfl

theorem mem_prepare {m_Map : Ring} {x : Info} : x ∈ prepare m_Map ↔ x ∈ m_Map :=
  (List.perm_insertionSort _ m_Map).mem_iff

/-! ## Owners -/

structure Server where
  aName : Bytes
  aID : ℕ
  aRack : ℕ
  aWeight : ℕ
deriving DecidableEq, Repr

def Server.insert (xxh3 : Bytes → UInt64 → UInt64) (m_Map : Ring) (server : Server) : Ring :=
  HashRing.insert xxh3 m_Map server.aName server.aID server.aRack server.aWeight

def points (xxh3 : Bytes → UInt64 → UInt64) (servers : List Server) : Ring :=
  servers.foldl (Server.insert xxh3) []

/-- The points that a server has on the ring. -/
def Server.points (xxh3 : Bytes → UInt64 → UInt64) (server : Server) : Ring :=
  server.insert xxh3 []

/-- The least point not below the hash, or the least point when all are below it. -/
def Owner (m_Map : Ring) (aHash : UInt64) (x : Info) : Prop :=
  x ∈ m_Map ∧
    (aHash ≤ x.hash ∧ (∀ y ∈ m_Map, aHash ≤ y.hash → x.hash ≤ y.hash) ∨
      (∀ y ∈ m_Map, y.hash < aHash) ∧ ∀ y ∈ m_Map, x.hash ≤ y.hash)

theorem points_eq (xxh3 : Bytes → UInt64 → UInt64) (servers : List Server) :
    points xxh3 servers = servers.flatMap (Server.points xxh3) := by
  have hfold : ∀ (servers : List Server) (m_Map : Ring),
      servers.foldl (Server.insert xxh3) m_Map =
        m_Map ++ servers.flatMap (Server.points xxh3) := by
    intro servers
    induction servers with
    | nil => exact fun m_Map => (List.append_nil m_Map).symm
    | cons server servers ih =>
        intro m_Map
        rw [List.foldl_cons, ih, List.flatMap_cons, ← List.append_assoc]
        rfl
  exact hfold servers []

theorem mem_points {xxh3 : Bytes → UInt64 → UInt64} {servers : List Server} {x : Info} :
    x ∈ points xxh3 servers ↔ ∃ server ∈ servers, x ∈ server.points xxh3 := by
  rw [points_eq, List.mem_flatMap]

theorem of_mem_points {xxh3 : Bytes → UInt64 → UInt64} {server : Server} {x : Info}
    (h : x ∈ server.points xxh3) : x.id = server.aID ∧ x.rack = server.aRack := by
  obtain ⟨i, -, rfl⟩ := List.mem_map.mp h
  exact ⟨rfl, rfl⟩

theorem points_ne_nil (xxh3 : Bytes → UInt64 → UInt64) {servers : List Server}
    (hservers : servers ≠ []) (hweight : ∀ server ∈ servers, 1 ≤ server.aWeight) :
    points xxh3 servers ≠ [] := by
  obtain ⟨server, hserver⟩ := List.exists_mem_of_ne_nil servers hservers
  have hfirst : 0 ∈ List.range server.aWeight := List.mem_range.mpr (hweight server hserver)
  exact List.ne_nil_of_mem (mem_points.mpr ⟨server, hserver, List.mem_map_of_mem hfirst⟩)

theorem prepare_sorted (m_Map : Ring) : (prepare m_Map).Pairwise fun a b => a.hash ≤ b.hash :=
  List.pairwise_insertionSort _ m_Map

/-- `std::lower_bound` cuts a sorted ring in two. -/
theorem lower_bound_split {m_Map : Ring} (hsorted : m_Map.Pairwise fun a b => a.hash ≤ b.hash)
    (aHash : UInt64) :
    ∃ front back, m_Map = front ++ back ∧
      (m_Map.takeWhile fun x => x.hash < aHash).length = front.length ∧
      (∀ y ∈ front, y.hash < aHash) ∧ ∀ y ∈ back, aHash ≤ y.hash := by
  induction m_Map with
  | nil => exact ⟨[], [], rfl, rfl, List.forall_mem_nil _, List.forall_mem_nil _⟩
  | cons x m_Map ih =>
      obtain ⟨hx, hrest⟩ := List.pairwise_cons.mp hsorted
      by_cases hlt : x.hash < aHash
      · obtain ⟨front, back, heq, hlen, hfront, hback⟩ := ih hrest
        refine ⟨x :: front, back, congrArg (x :: ·) heq, ?_, ?_, hback⟩
        · rw [List.takeWhile_cons_of_pos (by simpa using hlt), List.length_cons, hlen,
            List.length_cons]
        · exact List.forall_mem_cons.mpr ⟨hlt, hfront⟩
      · have hle : aHash ≤ x.hash := UInt64.not_lt.mp hlt
        refine ⟨[], x :: m_Map, rfl, ?_, List.forall_mem_nil _, ?_⟩
        · rw [List.takeWhile_cons_of_neg (by simpa using hlt), List.length_nil]
        · exact List.forall_mem_cons.mpr ⟨hle, fun y hy => UInt64.le_trans hle (hx y hy)⟩

/-- Where the search ends, or where it wraps to, there is the owner. -/
theorem owner_of_sorted {m_Map : Ring} (hne : m_Map ≠ [])
    (hsorted : m_Map.Pairwise fun a b => a.hash ≤ b.hash) (aHash : UInt64) {sIt : ℕ}
    (hsIt : sIt = (m_Map.takeWhile fun x => x.hash < aHash).length) :
    ∃ x, m_Map[if sIt = m_Map.length then 0 else sIt]? = some x ∧ Owner m_Map aHash x := by
  obtain ⟨front, back, heq, hlen, hfront, hback⟩ := lower_bound_split hsorted aHash
  rw [← hsIt] at hlen
  subst heq hlen
  cases back with
  | nil =>
      rw [List.append_nil] at hne hsorted ⊢
      obtain ⟨x, rest, rfl⟩ := List.exists_cons_of_ne_nil hne
      rw [if_pos rfl]
      refine ⟨x, rfl, List.mem_cons_self, .inr ⟨hfront, ?_⟩⟩
      exact List.forall_mem_cons.mpr ⟨UInt64.le_refl _, (List.pairwise_cons.mp hsorted).1⟩
  | cons x back =>
      have hne : front.length ≠ (front ++ x :: back).length := by
        rw [List.length_append, List.length_cons]
        omega
      rw [if_neg hne, List.getElem?_append_right le_rfl, Nat.sub_self]
      refine ⟨x, rfl, List.mem_append_right _ List.mem_cons_self,
        .inl ⟨hback x List.mem_cons_self, ?_⟩⟩
      intro y hy hge
      have hsorted := (List.pairwise_append.mp hsorted).2.1
      rcases List.mem_append.mp hy with hy | hy
      · exact absurd (hfront y hy) (UInt64.not_lt.mpr hge)
      · rcases List.mem_cons.mp hy with rfl | hy
        · exact UInt64.le_refl _
        · exact (List.pairwise_cons.mp hsorted).1 y hy

/-- The points that a walk has taken. -/
structure Taken (m_Map xs : List Info) : Prop where
  length : xs.length ≤ capacity
  mem : ∀ x ∈ xs, x ∈ m_Map
  racks : (xs.map Info.rack).Nodup

theorem walk_taken {m_Map : Ring} (n sIt : ℕ) {xs : List Info} (hxs : Taken m_Map xs) :
    ∃ ys, walk m_Map n sIt (xs.map Info.id) (xs.map Info.rack) = (xs ++ ys).map Info.id ∧
      Taken m_Map (xs ++ ys) := by
  induction n generalizing sIt xs with
  | zero => exact ⟨[], by rw [List.append_nil, walk], by rwa [List.append_nil]⟩
  | succ n ih =>
      have hstop : ∃ ys, xs.map Info.id = (xs ++ ys).map Info.id ∧ Taken m_Map (xs ++ ys) :=
        ⟨[], by rw [List.append_nil], by rwa [List.append_nil]⟩
      rw [walk]
      split
      case isFalse => exact hstop
      case isTrue hlen =>
        dsimp only
        split
        · exact hstop
        case h_2 x hx =>
          split
          · exact ih _ hxs
          case isFalse hrack =>
            have hnext : Taken m_Map (xs ++ [x]) := {
              length := by
                rw [List.length_map] at hlen
                rw [List.length_append, List.length_singleton]
                exact hlen
              mem := by
                intro y hy
                rcases List.mem_append.mp hy with hy | hy
                · exact hxs.mem y hy
                · exact List.mem_singleton.mp hy ▸ List.mem_of_getElem? hx
              racks := by
                rw [List.map_append, List.map_singleton]
                exact List.nodup_append_comm.mp
                  (List.nodup_cons.mpr ⟨hrack, hxs.racks⟩) }
            obtain ⟨ys, hwalk, htaken⟩ :=
              ih ((if sIt = m_Map.length then 0 else sIt) + 1) hnext
            rw [List.map_append, List.map_append] at hwalk
            rw [List.append_assoc] at htaken hwalk
            exact ⟨x :: ys, hwalk, htaken⟩

/-- The first point that is taken is the owner. -/
theorem lookup_taken {m_Map : Ring} (hne : m_Map ≠ []) (aHash : UInt64) :
    ∃ x xs, lookup (prepare m_Map) aHash = (x :: xs).map Info.id ∧
      Taken m_Map (x :: xs) ∧ Owner m_Map aHash x := by
  have hperm : (prepare m_Map).Perm m_Map := List.perm_insertionSort _ m_Map
  have hne' : prepare m_Map ≠ [] := fun heq => hne (List.nil_perm.mp (heq ▸ hperm))
  obtain ⟨x, hx, howner⟩ := owner_of_sorted hne' (prepare_sorted m_Map) aHash rfl
  have hfirst : Taken (prepare m_Map) [x] := {
    length := Nat.one_le_ofNat
    mem := fun y hy => List.mem_singleton.mp hy ▸ howner.1
    racks := List.nodup_singleton _ }
  obtain ⟨xs, hwalk, htaken⟩ := walk_taken 14 _ hfirst
  refine ⟨x, xs, ?_, ⟨htaken.length, fun y hy => hperm.mem_iff.mp (htaken.mem y hy),
    htaken.racks⟩, ?_⟩
  · rw [lookup, walk, if_pos (by decide)]
    simp only [hx]
    exact hwalk
  · simpa only [Owner, hperm.mem_iff] using howner

/-- In a larger ring the owner is one that was owner before, or is new. -/
theorem Owner.of_subset {m_Map m_Map' : Ring} {aHash : UInt64} {x : Info} (hx : x ∈ m_Map)
    (hsub : m_Map ⊆ m_Map') (h : Owner m_Map' aHash x) : Owner m_Map aHash x := by
  obtain ⟨-, ⟨hge, hleast⟩ | ⟨hbelow, hleast⟩⟩ := h
  · exact ⟨hx, .inl ⟨hge, fun y hy => hleast y (hsub hy)⟩⟩
  · exact ⟨hx, .inr ⟨fun y hy => hbelow y (hsub hy), fun y hy => hleast y (hsub hy)⟩⟩

theorem Owner.hash_eq {m_Map : Ring} {aHash : UInt64} {x y : Info} (hx : Owner m_Map aHash x)
    (hy : Owner m_Map aHash y) : x.hash = y.hash := by
  obtain ⟨hxmem, ⟨hxge, hxleast⟩ | ⟨hxbelow, hxleast⟩⟩ := hx
  · obtain ⟨hymem, ⟨hyge, hyleast⟩ | ⟨hybelow, -⟩⟩ := hy
    · exact UInt64.le_antisymm (hxleast y hymem hyge) (hyleast x hxmem hxge)
    · exact absurd (hybelow x hxmem) (UInt64.not_lt.mpr hxge)
  · obtain ⟨hymem, ⟨hyge, -⟩ | ⟨-, hyleast⟩⟩ := hy
    · exact absurd (hxbelow y hymem) (UInt64.not_lt.mpr hyge)
    · exact UInt64.le_antisymm (hxleast y hymem) (hyleast x hxmem)

/-- Servers on a ring, and the same ring with one more that is inserted at any time. -/
theorem lookup_servers (xxh3 : Bytes → UInt64 → UInt64) {servers : List Server}
    (hservers : servers ≠ []) (hweight : ∀ server ∈ servers, 1 ≤ server.aWeight)
    (hpoints : ((points xxh3 servers).map Info.hash).Nodup) (aHash : UInt64) :
    (∃ x xs, lookup (prepare (points xxh3 servers)) aHash = (x :: xs).map Info.id ∧
      (x :: xs).length ≤ 3 ∧ ((x :: xs).map Info.rack).Nodup ∧
      (∀ y ∈ x :: xs, ∃ server ∈ servers, y ∈ server.points xxh3 ∧ y.id = server.aID ∧
        y.rack = server.aRack) ∧
      Owner (points xxh3 servers) aHash x) ∧
    ∀ (new : Server) (m_Map : Ring), m_Map.Perm (new.insert xxh3 (points xxh3 servers)) →
      (m_Map.map Info.hash).Nodup →
      (lookup (prepare m_Map) aHash).head? =
          (lookup (prepare (points xxh3 servers)) aHash).head? ∨
        (lookup (prepare m_Map) aHash).head? = some new.aID := by
  obtain ⟨x, xs, hlookup, htaken, howner⟩ :=
    lookup_taken (points_ne_nil xxh3 hservers hweight) aHash
  refine ⟨⟨x, xs, hlookup, htaken.length, htaken.racks, ?_, howner⟩, ?_⟩
  · intro y hy
    obtain ⟨server, hserver, hy⟩ := mem_points.mp (htaken.mem y hy)
    exact ⟨server, hserver, hy, of_mem_points hy⟩
  · intro new m_Map hperm _
    have hsub : points xxh3 servers ⊆ m_Map := fun y hy =>
      hperm.mem_iff.mpr (List.mem_append_left _ hy)
    have hne : m_Map ≠ [] := List.ne_nil_of_mem (hsub howner.1)
    obtain ⟨x', xs', hlookup', -, howner'⟩ := lookup_taken hne aHash
    rw [hlookup, hlookup', List.map_cons, List.map_cons, List.head?_cons, List.head?_cons]
    rcases id_of_mem_insert (hperm.mem_iff.mp howner'.1) with hold | hnew
    · have hsame := (howner'.of_subset hold hsub).hash_eq howner
      rw [List.inj_on_of_nodup_map hpoints hold howner.1 hsame]
      exact .inl rfl
    · exact .inr (congrArg some hnew)

/-- Two servers, and then a third one. -/
theorem lookup_servers_three :
    let xxh3 : Bytes → UInt64 → UInt64 := fun bytes seed => seed * 10 + (bytes.headD 0).toUInt64
    let servers : List Server := [⟨[1], 5, 0, 2⟩, ⟨[2], 6, 1, 1⟩]
    let new : Server := ⟨[3], 7, 2, 1⟩
    (∃ x xs, lookup (prepare (points xxh3 servers)) 11 = (x :: xs).map Info.id ∧
      Owner (points xxh3 servers) 11 x) ∧
    ((lookup (prepare (new.insert xxh3 (points xxh3 servers))) 11).head? =
        (lookup (prepare (points xxh3 servers)) 11).head? ∨
      (lookup (prepare (new.insert xxh3 (points xxh3 servers))) 11).head? = some 7) := by
  intro xxh3 servers new
  obtain ⟨⟨x, xs, hlookup, -, -, -, howner⟩, hnew⟩ :=
    @lookup_servers xxh3 servers (by decide) (by decide) (by decide) 11
  exact ⟨⟨x, xs, hlookup, howner⟩, hnew new _ (List.Perm.refl _) (by decide)⟩

end Stuff.HashRing
