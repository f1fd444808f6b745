import Stuff.SdBalancer

/-!
# The peers behind the positions of a balancer

`m_Info` is kept from one update to the next and repaired where another key has come to a
position, while `m_Store` keeps every peer there ever was. A `PeerInfo` is an object here, so that
the same one can be found again.
-/
namespace Stuff.SdBalancerInfo
open MachineWords SdBalancer

/-- The objects are numbered as they are made. -/
abbrev PeerInfoPtr := ℕ

structure Object where
  m_Key : Bytes
  info : PeerInfo := {}
deriving DecidableEq, Repr

structure Objects where
  heap : List Object := []
  m_Store : Bytes → Option PeerInfoPtr := fun _ => none

structure ByWeight where
  m_Params : Params := {}
  m_RPS : ℚ := 0
  m_TotalWeight : ℚ := 0
  m_Step : ℚ := 0
  m_Pos : ℕ := 0
  objects : Objects := {}
  m_Info : List (Option PeerInfoPtr) := []
  m_Peers : List Entry := []
  m_Ring : HashRing.Ring := []

/-! ## `adjust_info` -/

/-- `std::vector::resize`: new pointers are null. -/
def resize (n : ℕ) (m_Info : List (Option PeerInfoPtr)) : List (Option PeerInfoPtr) :=
  m_Info.take n ++ List.replicate (n - m_Info.length) none

def Objects.make (o : Objects) (sKey : Bytes) : Objects :=
  { heap := o.heap ++ [{ m_Key := sKey }]
    m_Store := Function.update o.m_Store sKey (some o.heap.length) }

def Objects.lookup (o : Objects) (sKey : Bytes) : PeerInfoPtr × Objects :=
  match o.m_Store sKey with
  | some ptr => (ptr, o)
  | none => (o.heap.length, o.make sKey)

/-- One turn of the loop, with the new `m_Info[i]`. -/
def Objects.turn (o : Objects) (m_Info_i : Option PeerInfoPtr) (sKey : Bytes) :
    PeerInfoPtr × Objects :=
  match m_Info_i with
  | none => o.lookup sKey
  | some ptr => if (o.heap[ptr]?).map Object.m_Key = some sKey then (ptr, o) else o.lookup sKey

def adjustInfo : Objects → List (Option PeerInfoPtr) → List Entry →
    List (Option PeerInfoPtr) × Objects
  | o, m_Info_i :: m_Info, e :: aState =>
      let r := o.turn m_Info_i e.key
      let rest := adjustInfo r.2 m_Info aState
      (some r.1 :: rest.1, rest.2)
  | o, m_Info, _ => (m_Info, o)

/-! ## `update` -/

/-- A loop over the positions that changes the peer and the entry; none when a pointer is null. -/
def forInfo (f : PeerInfo → Entry → PeerInfo × Entry) :
    List Object → List (Option PeerInfoPtr) → List Entry → Option (List Object × List Entry)
  | heap, _, [] => some (heap, [])
  | _, [], _ :: _ => none
  | heap, m_Info_i :: m_Info, e :: aState =>
      m_Info_i.bind fun ptr => (heap[ptr]?).bind fun x =>
        let r := f x.info e
        (forInfo f (heap.set ptr { x with info := r.1 }) m_Info aState).map fun rest =>
          (rest.1, r.2 :: rest.2)

namespace ByWeight

/-- The end of `update`, with the peers as they were adjusted. -/
def install (xxh3 : Bytes → UInt64 → UInt64) (s : ByWeight) (objects : Objects)
    (m_Info : List (Option PeerInfoPtr)) (m_Peers : List Entry) : ByWeight :=
  let sStat := m_Peers.foldl S.add {}
  { s with
    objects := objects
    m_Info := m_Info
    m_Peers := m_Peers
    m_Ring := sRing xxh3 m_Peers
    m_RPS := sStat.rps
    m_TotalWeight := sStat.total_weight
    m_Step := sStat.min_weight }

def update (xxh3 : Bytes → UInt64 → UInt64) (s : ByWeight) (aState : List Entry) :
    Option ByWeight :=
  let aState := sortByKey aState
  let info := adjustInfo s.objects (resize aState.length s.m_Info) aState
  (forInfo (adjustWeight s.m_Params) info.2.heap info.1 aState).bind fun weights =>
    (forInfo (fun x e => (clip x e, e)) weights.1 info.1 weights.2).map fun clipped =>
      s.install xxh3 { info.2 with heap := clipped.1 } info.1 weights.2

/-- What is done to a balancer; between updates, calls change the peers as they like. -/
inductive Event
  | update (aState : List Entry)
  | calls (f : Object → PeerInfo) (m_Pos : ℕ)
  | clear

def step (xxh3 : Bytes → UInt64 → UInt64) (s : ByWeight) : Event → Option ByWeight
  | .update aState => s.update xxh3 aState
  | .calls f m_Pos =>
      let heap := s.objects.heap.map fun x => { x with info := f x }
      some { s with objects := { s.objects with heap := heap }, m_Pos := m_Pos }
  | .clear => some { s with m_Peers := [] }

def run (xxh3 : Bytes → UInt64 → UInt64) (s : ByWeight) (events : List Event) : Option ByWeight :=
  events.foldlM (step xxh3) s

end ByWeight

/-! ## Each object is found under its key -/

namespace Objects

structure Sound (o : Objects) : Prop where
  stored : ∀ {key ptr}, o.m_Store key = some ptr → ∃ x, o.heap[ptr]? = some x ∧ x.m_Key = key
  found : ∀ {ptr x}, o.heap[ptr]? = some x → o.m_Store x.m_Key = some ptr

/-- What is known of each peer. -/
def store (o : Objects) : Store := fun key =>
  ((o.m_Store key).bind fun ptr => o.heap[ptr]?).elim {} Object.info

/-- Objects may have been made, but none was forgotten. -/
def Keeps (o o' : Objects) : Prop :=
  ∀ key ptr, o.m_Store key = some ptr → o'.m_Store key = some ptr

theorem Keeps.trans {o o' o'' : Objects} (h : o.Keeps o') (h' : o'.Keeps o'') : o.Keeps o'' :=
  fun key ptr hstore => h' key ptr (h key ptr hstore)

section
variable {o : Objects}

theorem Sound.lt (ho : o.Sound) {key : Bytes} {ptr : PeerInfoPtr} (h : o.m_Store key = some ptr) :
    ptr < o.heap.length := by
  obtain ⟨x, hx, -⟩ := ho.stored h
  exact (List.getElem?_eq_some_iff.mp hx).1

theorem lookup_sound (ho : o.Sound) (sKey : Bytes) : (o.lookup sKey).2.Sound := by
  rw [lookup]
  split
  · exact ho
  case h_2 hnew =>
    refine ⟨fun {key ptr} hstore => ?_, fun {ptr x} hx => ?_⟩
    · simp only [make] at hstore ⊢
      by_cases hkey : key = sKey
      · subst hkey
        rw [Function.update_self, Option.some.injEq] at hstore
        exact ⟨_, hstore ▸ List.getElem?_concat_length, rfl⟩
      · rw [Function.update_of_ne hkey] at hstore
        obtain ⟨x, hx, heq⟩ := ho.stored hstore
        exact ⟨x, (List.getElem?_append_left (ho.lt hstore)).trans hx, heq⟩
    · simp only [make] at hx ⊢
      rcases Nat.lt_or_ge ptr o.heap.length with hlt | hge
      · rw [List.getElem?_append_left hlt] at hx
        have hold := ho.found hx
        have hne : x.m_Key ≠ sKey := by
          intro heq
          rw [heq, hnew] at hold
          cases hold
        rw [Function.update_of_ne hne, hold]
      · rw [List.getElem?_append_right hge, List.getElem?_singleton] at hx
        split at hx
        case isFalse => cases hx
        case isTrue hzero =>
          obtain rfl : ({ m_Key := sKey } : Object) = x := Option.some.inj hx
          have hptr : ptr = o.heap.length :=
            Nat.le_antisymm (Nat.sub_eq_zero_iff_le.mp hzero) hge
          rw [Function.update_self, hptr]

theorem lookup_keeps (o : Objects) (sKey : Bytes) : o.Keeps (o.lookup sKey).2 := by
  intro key ptr hstore
  rw [lookup]
  split
  · exact hstore
  case h_2 hnew =>
    have hne : key ≠ sKey := by
      rintro rfl
      rw [hnew] at hstore
      cases hstore
    exact (Function.update_of_ne hne _ _).trans hstore

theorem lookup_stored (o : Objects) (sKey : Bytes) :
    (o.lookup sKey).2.m_Store sKey = some (o.lookup sKey).1 := by
  rw [lookup]
  split
  case h_1 hold => exact hold
  case h_2 => exact Function.update_self _ _ _

/-- A peer that is made has no history. -/
theorem lookup_store (ho : o.Sound) (sKey : Bytes) : (o.lookup sKey).2.store = o.store := by
  rw [lookup]
  split
  · rfl
  case h_2 hnew =>
    funext key
    simp only [store, make]
    by_cases hkey : key = sKey
    · rw [hkey, Function.update_self, hnew, Option.bind_some, List.getElem?_concat_length]
      rfl
    · rw [Function.update_of_ne hkey]
      cases hstore : o.m_Store key with
      | none => rfl
      | some ptr =>
          rw [Option.bind_some, Option.bind_some, List.getElem?_append_left (ho.lt hstore)]

/-- A turn looks the peer up, also when it keeps the pointer that was there. -/
theorem turn_eq (ho : o.Sound) (m_Info_i : Option PeerInfoPtr) (sKey : Bytes) :
    o.turn m_Info_i sKey = o.lookup sKey := by
  cases m_Info_i with
  | none => rfl
  | some ptr =>
      rw [turn]
      split
      case isTrue hkey =>
        obtain ⟨x, hx, rfl⟩ := Option.map_eq_some_iff.mp hkey
        rw [lookup, ho.found hx]
      case isFalse => rfl

end

end Objects

open Objects

/-- The pointer is the one that is stored under the key. -/
def Serves (o : Objects) (m_Info_i : Option PeerInfoPtr) (key : Bytes) : Prop :=
  ∃ ptr, m_Info_i = some ptr ∧ o.m_Store key = some ptr

theorem length_resize (n : ℕ) (m_Info : List (Option PeerInfoPtr)) :
    (resize n m_Info).length = n := by
  rw [resize, List.length_append, List.length_take, List.length_replicate]
  omega

/-- What `adjust_info` leaves, whatever was in `m_Info` before. -/
structure Adjusted (o : Objects) (aState : List Entry)
    (r : List (Option PeerInfoPtr) × Objects) : Prop where
  sound : r.2.Sound
  keeps : o.Keeps r.2
  store : r.2.store = o.store
  serves : List.Forall₂ (Serves r.2) r.1 (aState.map Entry.key)

theorem adjustInfo_adjusted {o : Objects} (ho : o.Sound) {m_Info : List (Option PeerInfoPtr)}
    {aState : List Entry} (hlen : m_Info.length = aState.length) :
    Adjusted o aState (adjustInfo o m_Info aState) := by
  induction aState generalizing o m_Info with
  | nil =>
      rw [List.length_eq_zero_iff.mp hlen]
      exact ⟨ho, fun _ _ hstore => hstore, rfl, .nil⟩
  | cons e aState ih =>
      obtain ⟨m_Info_i, m_Info, rfl⟩ := List.exists_cons_of_length_eq_add_one hlen
      simp only [adjustInfo, turn_eq ho]
      have hrest := ih (lookup_sound ho e.key) (Nat.succ.inj hlen)
      exact {
        sound := hrest.sound
        keeps := Keeps.trans (lookup_keeps o e.key) hrest.keeps
        store := hrest.store.trans (lookup_store ho e.key)
        serves := .cons ⟨_, rfl, hrest.keeps _ _ (lookup_stored o e.key)⟩ hrest.serves }

/-! ## Loops over the positions -/

/-- The same loop with the peers by their keys. -/
def forStore (f : PeerInfo → Entry → PeerInfo × Entry) : Store → List Entry → Store × List Entry
  | store, [] => (store, [])
  | store, e :: aState =>
      let r := f (store e.key) e
      let rest := forStore f (Function.update store e.key r.1) aState
      (rest.1, r.2 :: rest.2)

theorem forStore_adjustWeight (p : Params) (store : Store) (aState : List Entry) :
    forStore (adjustWeight p) store aState = adjustWeights p store aState := by
  induction aState generalizing store with
  | nil => rfl
  | cons e aState ih => rw [forStore, adjustWeights, ih]

theorem forStore_same (f : PeerInfo → Entry → PeerInfo) (store : Store) (aState : List Entry) :
    forStore (fun x e => (f x e, e)) store aState = (forPeers f store aState, aState) := by
  induction aState generalizing store with
  | nil => rfl
  | cons e aState ih =>
      rw [forStore, ih]
      rfl

section
variable {o : Objects} {ptr : PeerInfoPtr} {x : Object}

theorem Objects.Sound.set (ho : o.Sound) (hx : o.heap[ptr]? = some x) (info : PeerInfo) :
    ({ o with heap := o.heap.set ptr { x with info := info } } : Objects).Sound := by
  have hlt := (List.getElem?_eq_some_iff.mp hx).1
  constructor
  · intro key q hstore
    obtain ⟨y, hy, hkey⟩ := ho.stored hstore
    by_cases heq : ptr = q
    · subst heq
      rw [hx, Option.some.injEq] at hy
      exact ⟨_, List.getElem?_set_self hlt, hy ▸ hkey⟩
    · exact ⟨y, (List.getElem?_set_ne heq).trans hy, hkey⟩
  · intro q y hy
    by_cases heq : ptr = q
    · subst heq
      rw [List.getElem?_set_self hlt, Option.some.injEq] at hy
      have hkey : y.m_Key = x.m_Key := hy ▸ rfl
      exact (congrArg o.m_Store hkey).trans (ho.found hx)
    · rw [List.getElem?_set_ne heq] at hy
      exact ho.found hy

theorem Objects.Sound.store_set (ho : o.Sound) (hx : o.heap[ptr]? = some x) {sKey : Bytes}
    (hsKey : x.m_Key = sKey) (info : PeerInfo) :
    ({ o with heap := o.heap.set ptr { x with info := info } } : Objects).store =
      Function.update o.store sKey info := by
  have hlt := (List.getElem?_eq_some_iff.mp hx).1
  subst hsKey
  funext key
  simp only [Objects.store]
  by_cases hkey : key = x.m_Key
  · rw [hkey, Function.update_self, ho.found hx, Option.bind_some, List.getElem?_set_self hlt]
    rfl
  · rw [Function.update_of_ne hkey]
    cases hstore : o.m_Store key with
    | none => rw [Objects.store, hstore, Option.bind_none, Option.bind_none]
    | some q =>
        have hne : ptr ≠ q := by
          rintro rfl
          obtain ⟨y, hy, hykey⟩ := ho.stored hstore
          rw [hx, Option.some.injEq] at hy
          exact hkey (hy ▸ hykey.symm)
        rw [Objects.store, hstore, Option.bind_some, Option.bind_some, List.getElem?_set_ne hne]

end

/-- Where every position has its peer, the loop ends and does what it does by keys. -/
theorem forInfo_spec (f : PeerInfo → Entry → PeerInfo × Entry) {o : Objects} (ho : o.Sound)
    {m_Info : List (Option PeerInfoPtr)} {aState : List Entry}
    (h : List.Forall₂ (Serves o) m_Info (aState.map Entry.key)) :
    ∃ heap, forInfo f o.heap m_Info aState = some (heap, (forStore f o.store aState).2) ∧
      ({ o with heap := heap } : Objects).Sound ∧
      ({ o with heap := heap } : Objects).store = (forStore f o.store aState).1 := by
  induction aState generalizing o m_Info with
  | nil => exact ⟨o.heap, by rw [forInfo, forStore], ho, rfl⟩
  | cons e aState ih =>
      obtain ⟨_, m_Info, ⟨ptr, rfl, hstore⟩, hrest, rfl⟩ := List.forall₂_cons_right_iff.mp h
      obtain ⟨x, hx, hkey⟩ := ho.stored hstore
      have hinfo : o.store e.key = x.info := by
        rw [Objects.store, hstore, Option.bind_some, hx]
        rfl
      obtain ⟨heap, hloop, hsound, hheap⟩ := ih (ho.set hx (f x.info e).1) hrest
      rw [ho.store_set hx hkey] at hloop hheap
      refine ⟨heap, ?_, hsound, ?_⟩
      · rw [forInfo, Option.bind_some, hx, Option.bind_some, forStore, hinfo]
        exact congrArg (Option.map fun rest => (rest.1, (f x.info e).2 :: rest.2)) hloop
      · rw [hheap, forStore, hinfo]

/-! ## Updates -/

namespace ByWeight

/-- The balancer with the peers by their keys. -/
def byKey (s : ByWeight) : SdBalancer.ByWeight :=
  { m_Params := s.m_Params
    m_RPS := s.m_RPS
    m_TotalWeight := s.m_TotalWeight
    m_Step := s.m_Step
    m_Pos := s.m_Pos
    m_Store := s.objects.store
    m_Peers := s.m_Peers
    m_Ring := s.m_Ring }

structure Updated (xxh3 : Bytes → UInt64 → UInt64) (s : ByWeight) (aState : List Entry)
    (s' : ByWeight) : Prop where
  sound : s'.objects.Sound
  keeps : s.objects.Keeps s'.objects
  serves : List.Forall₂ (Serves s'.objects) s'.m_Info (s'.m_Peers.map Entry.key)
  byKey : s'.byKey = s.byKey.update xxh3 aState

/-- An update never meets a null pointer, and does what it does by keys. -/
theorem update_updated (xxh3 : Bytes → UInt64 → UInt64) {s : ByWeight} (hs : s.objects.Sound)
    (aState : List Entry) :
    ∃ s', s.update xxh3 aState = some s' ∧ Updated xxh3 s aState s' := by
  have hinfo := adjustInfo_adjusted hs (length_resize (sortByKey aState).length s.m_Info)
  simp only [update]
  generalize adjustInfo s.objects (resize (sortByKey aState).length s.m_Info)
    (sortByKey aState) = info at hinfo ⊢
  obtain ⟨heap, hweights, hsound, hstore⟩ :=
    forInfo_spec (adjustWeight s.m_Params) hinfo.sound hinfo.serves
  rw [forStore_adjustWeight, hinfo.store] at hweights hstore
  have hserves := hinfo.serves
  rw [← adjustWeights_keys s.m_Params s.objects.store] at hserves
  obtain ⟨heap', hclip, hsound', hstore'⟩ :=
    forInfo_spec (o := ⟨heap, info.2.m_Store⟩) (fun x e => (clip x e, e)) hsound hserves
  rw [forStore_same, hstore] at hclip hstore'
  refine ⟨s.install xxh3 ⟨heap', info.2.m_Store⟩ info.1
    (adjustWeights s.m_Params s.objects.store (sortByKey aState)).2, ?_, ?_⟩
  · rw [hweights, Option.bind_some]
    exact congrArg (Option.map fun clipped => s.install xxh3 ⟨clipped.1, info.2.m_Store⟩ info.1
      (adjustWeights s.m_Params s.objects.store (sortByKey aState)).2) hclip
  · exact {
      sound := hsound'
      keeps := hinfo.keeps
      serves := hserves
      byKey := by
        rw [install, ByWeight.byKey, hstore']
        rfl }

/-! ## Runs -/

/-- What `m_Info[i]` points to. -/
def infoAt (s : ByWeight) (i : ℕ) : Option Object :=
  (s.m_Info[i]?).join.bind fun ptr => s.objects.heap[ptr]?

/-- The assertion of `random_i` and `try_session`. -/
def Asserts (s : ByWeight) (sPos : ℕ) : Prop :=
  ∃ x e, s.infoAt sPos = some x ∧ s.m_Peers[sPos]? = some e ∧ x.m_Key = e.key

structure Aligned (s : ByWeight) : Prop where
  length : s.m_Info.length = s.m_Peers.length
  asserts : ∀ i < s.m_Peers.length, s.Asserts i
  budget : ∀ i x e, s.infoAt i = some x → s.m_Peers[i]? = some e → x.info.m_Budget ≤ e.weight

/-- What holds at all times. -/
structure Sound (s : ByWeight) : Prop where
  objects : s.objects.Sound
  serves : ∀ {i : ℕ} {e}, s.m_Peers[i]? = some e →
    ∃ m_Info_i, s.m_Info[i]? = some m_Info_i ∧ Serves s.objects m_Info_i e.key
  ring : s.m_Peers ≠ [] → ∀ x ∈ s.m_Ring, x.id < s.m_Peers.length

section
variable {s s' : ByWeight} {xxh3 : Bytes → UInt64 → UInt64} {aState : List Entry}

theorem Sound.infoAt (hs : s.Sound) {i : ℕ} {e : Entry} (he : s.m_Peers[i]? = some e) :
    ∃ x, s.infoAt i = some x ∧ x.m_Key = e.key ∧ s.objects.store e.key = x.info := by
  obtain ⟨_, hi, ptr, rfl, hstore⟩ := hs.serves he
  obtain ⟨x, hx, hkey⟩ := hs.objects.stored hstore
  refine ⟨x, ?_, hkey, ?_⟩
  · rw [ByWeight.infoAt, hi, Option.join_some, Option.bind_some, hx]
  · rw [Objects.store, hstore, Option.bind_some, hx]
    rfl

theorem Sound.asserts (hs : s.Sound) {i : ℕ} (hi : i < s.m_Peers.length) : s.Asserts i := by
  have he := List.getElem?_eq_getElem hi
  obtain ⟨x, hx, hkey, -⟩ := hs.infoAt he
  exact ⟨x, _, hx, he, hkey⟩

theorem Sound.asserts_session (hs : s.Sound) (hpeers : s.m_Peers ≠ []) {aSession : UInt64} {i : ℕ}
    (hi : i ∈ HashRing.lookup s.m_Ring aSession) : s.Asserts i := by
  obtain ⟨x, hx, rfl⟩ := HashRing.mem_lookup hi
  exact hs.asserts (hs.ring hpeers x hx)

theorem Updated.m_Peers (h : Updated xxh3 s aState s') :
    s'.m_Peers = s.byKey.adjusted aState :=
  congrArg SdBalancer.ByWeight.m_Peers h.byKey

theorem Updated.sound' (h : Updated xxh3 s aState s') : s'.Sound where
  objects := h.sound
  serves := by
    intro i e he
    have hkeys : (s'.m_Peers.map Entry.key)[i]? = some e.key := by
      rw [List.getElem?_map, he]
      rfl
    obtain ⟨hlen, hserves⟩ := List.forall₂_iff_get.mp h.serves
    obtain ⟨hi, hget⟩ := List.getElem?_eq_some_iff.mp hkeys
    refine ⟨_, List.getElem?_eq_getElem (hlen ▸ hi), ?_⟩
    exact hget ▸ hserves i (hlen ▸ hi) hi
  ring := by
    intro _ x hx
    have hring : s'.m_Ring = sRing xxh3 s'.m_Peers := by
      rw [h.m_Peers]
      exact congrArg SdBalancer.ByWeight.m_Ring h.byKey
    exact of_mem_sRing (hring ▸ hx)

theorem Updated.keys (h : Updated xxh3 s aState s') :
    (s'.m_Peers.map Entry.key).Perm (aState.map Entry.key) := by
  rw [h.m_Peers, SdBalancer.ByWeight.adjusted, adjustWeights_keys]
  exact (sortByKey_perm aState).map Entry.key

theorem Updated.aligned (h : Updated xxh3 s aState s') (hkeys : (aState.map Entry.key).Nodup) :
    s'.Aligned where
  length := by rw [h.serves.length_eq, List.length_map]
  asserts := fun i hi => h.sound'.asserts hi
  budget := by
    intro i x e hx he
    obtain ⟨y, hy, -, hstore⟩ := h.sound'.infoAt he
    obtain rfl := Option.some.inj (hy.symm.trans hx)
    have hmem : e ∈ s.byKey.adjusted aState := h.m_Peers ▸ List.mem_of_getElem? he
    have hbudget := SdBalancer.ByWeight.update_budget xxh3 hkeys hmem
    have hby : (s.byKey.update xxh3 aState).m_Store e.key = y.info := by
      rw [← h.byKey]
      exact hstore
    rw [← hby, hbudget]
    exact min_le_right _ _

theorem Objects.Sound.map {o : Objects} (ho : o.Sound) (f : Object → PeerInfo) :
    ({ o with heap := o.heap.map fun x => { x with info := f x } } : Objects).Sound where
  stored := by
    intro key ptr hstore
    obtain ⟨x, hx, hkey⟩ := ho.stored hstore
    refine ⟨{ x with info := f x }, ?_, hkey⟩
    rw [List.getElem?_map, hx]
    rfl
  found := by
    intro ptr x hx
    rw [List.getElem?_map, Option.map_eq_some_iff] at hx
    obtain ⟨y, hy, rfl⟩ := hx
    have hfound := ho.found hy
    exact hfound

theorem step_sound (xxh3 : Bytes → UInt64 → UInt64) (hs : s.Sound) (event : Event) :
    ∃ s', s.step xxh3 event = some s' ∧ s'.Sound ∧ s.objects.Keeps s'.objects := by
  cases event with
  | update aState =>
      obtain ⟨s', hupdate, h⟩ := update_updated xxh3 hs.objects aState
      exact ⟨s', hupdate, h.sound', h.keeps⟩
  | calls f m_Pos =>
      refine ⟨_, rfl, ?_, fun _ _ hstore => hstore⟩
      exact { objects := Objects.Sound.map hs.objects f, serves := hs.serves, ring := hs.ring }
  | clear =>
      refine ⟨_, rfl, ?_, fun _ _ hstore => hstore⟩
      exact {
        objects := hs.objects
        serves := fun he => nomatch he
        ring := fun hpeers => absurd rfl hpeers }

theorem run_sound (xxh3 : Bytes → UInt64 → UInt64) (hs : s.Sound) (events : List Event) :
    ∃ s', s.run xxh3 events = some s' ∧ s'.Sound ∧ s.objects.Keeps s'.objects := by
  induction events generalizing s with
  | nil => exact ⟨s, rfl, hs, fun _ _ hstore => hstore⟩
  | cons event events ih =>
      obtain ⟨s', hstep, hs', hkeeps⟩ := step_sound xxh3 hs event
      obtain ⟨s'', hrun, hs'', hkeeps'⟩ := ih hs'
      refine ⟨s'', ?_, hs'', Keeps.trans hkeeps hkeeps'⟩
      rw [run, List.foldlM_cons, hstep]
      exact hrun

end

theorem start_sound (m_Params : Params) : Sound { m_Params := m_Params } where
  objects := ⟨(fun h => nomatch h), (fun h => nomatch h)⟩
  serves := fun he => nomatch he
  ring := fun hpeers => absurd rfl hpeers

/-- The peer with the key is at the position, and its object is that one. -/
def PeerAt (s : ByWeight) (i : ℕ) (key : Bytes) (ptr : PeerInfoPtr) : Prop :=
  (∃ e, s.m_Peers[i]? = some e ∧ e.key = key) ∧ s.m_Info[i]? = some (some ptr)

theorem Sound.stored {s : ByWeight} (hs : s.Sound) {i : ℕ} {key : Bytes} {ptr : PeerInfoPtr}
    (h : s.PeerAt i key ptr) : s.objects.m_Store key = some ptr := by
  obtain ⟨⟨e, he, rfl⟩, hi⟩ := h
  obtain ⟨_, hi', ptr', rfl, hstore⟩ := hs.serves he
  rw [hi', Option.some.injEq, Option.some.injEq] at hi
  exact hi ▸ hstore

/-- Updates, with what may be done between and after them. The second update is any later one. -/
theorem run_aligned (xxh3 : Bytes → UInt64 → UInt64) (m_Params : Params)
    (before after : List Event) (aState bState : List Entry)
    (hkeys : ∀ peers, .update peers ∈ before ++ .update aState :: after ++ [.update bState] →
      (peers.map Entry.key).Nodup) :
    ∃ s s' t t',
      run xxh3 { m_Params := m_Params } before = some s ∧ s.update xxh3 aState = some s' ∧
      run xxh3 s' after = some t ∧ t.update xxh3 bState = some t' ∧
      s'.Aligned ∧ (s'.m_Peers.map Entry.key).Perm (aState.map Entry.key) ∧
      t'.Aligned ∧ (t'.m_Peers.map Entry.key).Perm (bState.map Entry.key) ∧
      (∀ i < t.m_Peers.length, t.Asserts i) ∧
      (t.m_Peers ≠ [] → ∀ aSession, ∀ i ∈ HashRing.lookup t.m_Ring aSession, t.Asserts i) ∧
      ∀ i j key ptr ptr', s'.PeerAt i key ptr → t'.PeerAt j key ptr' → ptr = ptr' := by
  obtain ⟨s, hbefore, hs, -⟩ := run_sound xxh3 (start_sound m_Params) before
  obtain ⟨s', hupdate, h⟩ := update_updated xxh3 hs.objects aState
  obtain ⟨t, hafter, ht, hkeeps⟩ := run_sound xxh3 h.sound' after
  obtain ⟨t', hupdate', h'⟩ := update_updated xxh3 ht.objects bState
  refine ⟨s, s', t, t', hbefore, hupdate, hafter, hupdate', h.aligned (hkeys _ (by simp)), h.keys,
    h'.aligned (hkeys _ (by simp)), h'.keys, fun i hi => ht.asserts hi,
    fun hpeers aSession i hi => ht.asserts_session hpeers hi, ?_⟩
  intro i j key ptr ptr' hptr hptr'
  have hold := h'.keeps _ _ (hkeeps _ _ (h.sound'.stored hptr))
  exact Option.some.inj (hold.symm.trans (h'.sound'.stored hptr'))

/-- The first peer is away for an update, and has its object again. -/
theorem run_aligned_return :
    ∃ s s' t t',
      run (fun _ _ => 0) {} [] = some s ∧
      s.update (fun _ _ => 0) [{ key := [1], weight := 2 }, { key := [2], weight := 3 }] = some s' ∧
      run (fun _ _ => 0) s' [.update [{ key := [2], weight := 1 }], .clear] = some t ∧
      t.update (fun _ _ => 0) [{ key := [2], weight := 4 }, { key := [1], weight := 1 }] = some t' ∧
      t'.Aligned ∧ ∀ i j key ptr ptr', s'.PeerAt i key ptr → t'.PeerAt j key ptr' → ptr = ptr' := by
  obtain ⟨s, s', t, t', hbefore, hupdate, hafter, hupdate', -, -, haligned, -, -, -, hsame⟩ :=
    run_aligned (fun _ _ => 0) {} [] [.update [{ key := [2], weight := 1 }], .clear]
      [{ key := [1], weight := 2 }, { key := [2], weight := 3 }]
      [{ key := [2], weight := 4 }, { key := [1], weight := 1 }] (by simp)
  exact ⟨s, s', t, t', hbefore, hupdate, hafter, hupdate', haligned, hsame⟩

end ByWeight

end Stuff.SdBalancerInfo
