import Stuff.EventRuns
import Stuff.MemoryLists

/-!
# A pool of small objects

`Allocator::Pool` cuts a buffer into entries of one size. The first bytes of an entry that nobody
has are the pointer to the next one, and an object may use all bytes of its entry. So the list of
what is free is in memory that the program writes to. The number of entries is one of 32 bits.
-/
namespace Stuff.AllocatorPool
open ByteOrder EventRuns MemoryLists

inductive Exception
  | badAlloc
  | assertion
deriving DecidableEq, Repr

/-- The buffer of a vector. What `operator new` returns is aligned for every ordinary type, so
also for a pointer. -/
structure Buffer where
  start : ℕ
  size : ℕ
  notNull : 0 < start
  aligned : 8 ∣ start
  room : start + size < 2 ^ 64

/-- `sizeof` of the union of an object and a pointer. -/
def sizeofEntry (sizeofT : ℕ) : ℕ := (max sizeofT 8 + 7) / 8 * 8

/-- The program has `live`, the objects it was given and has not given back. -/
structure Pool where
  m_Data : Buffer
  memory : Memory
  m_Head : ℕ := 0
  m_Avail : UInt32 := 0
  live : List ℕ := []

inductive Event
  | allocate
  | deallocate (aAddr : ℕ)
  | write (aAddr i : ℕ) (b : UInt8)
deriving DecidableEq, Repr

namespace Pool

/-- The entry becomes the first one of the list. -/
def link (s : Pool) (x : ℕ) : Pool :=
  { s with memory := storePointer s.memory x s.m_Head, m_Head := x }

/-- The first turns of the loop in the constructor. -/
def linkAll (sizeofT : ℕ) (s : Pool) : ℕ → Pool
  | 0 => s
  | i + 1 => (linkAll sizeofT s i).link (s.m_Data.start + sizeofEntry sizeofT * i)

/-- The constructor, in a memory where the vector has its buffer. -/
def make (sizeofT : ℕ) (m_Data : Buffer) (memory : Memory) : Pool :=
  let m_Avail := UInt32.ofNat (m_Data.size / sizeofEntry sizeofT)
  let s : Pool :=
    { m_Data := m_Data
      memory := store memory m_Data.start (List.replicate m_Data.size 0)
      m_Avail := m_Avail }
  linkAll sizeofT s m_Avail.toNat

def allocate (sizeofT : ℕ) (s : Pool) : Except Exception ℕ × Pool :=
  if s.m_Head = 0 then (.error .badAlloc, s)
  else if s.m_Avail = 0 then (.error .assertion, s)
  else
    let sResult := s.m_Head
    (.ok sResult,
      { s with
        m_Head := loadPointer s.memory s.m_Head
        memory := store s.memory sResult (List.replicate (sizeofEntry sizeofT) 0)
        m_Avail := s.m_Avail - 1
        live := sResult :: s.live })

def deallocate (s : Pool) (aAddr : ℕ) : Pool :=
  { s.link aAddr with m_Avail := s.m_Avail + 1, live := s.live.erase aAddr }

def avail (s : Pool) : UInt32 := s.m_Avail

/-- A byte of an object. -/
def write (s : Pool) (aAddr i : ℕ) (b : UInt8) : Pool :=
  { s with memory := store s.memory (aAddr + i) [b] }

def step (sizeofT : ℕ) (s : Pool) : Event → Pool
  | .allocate => (s.allocate sizeofT).2
  | .deallocate aAddr => s.deallocate aAddr
  | .write aAddr i b => s.write aAddr i b

/-- The program gives back and writes to what it has. -/
def Admits (sizeofT : ℕ) (s : Pool) : Event → Prop
  | .allocate => True
  | .deallocate aAddr => aAddr ∈ s.live
  | .write aAddr i _ => aAddr ∈ s.live ∧ i < sizeofT

end Pool

/-- The number of entries. -/
def count (sizeofT : ℕ) (m_Data : Buffer) : ℕ := m_Data.size / sizeofEntry sizeofT % 2 ^ 32

/-- Where the entries are. -/
def entries (sizeofT : ℕ) (m_Data : Buffer) : List ℕ :=
  (List.range (count sizeofT m_Data)).map fun i => m_Data.start + sizeofEntry sizeofT * i

/-- The program writes to this byte. -/
def Event.touches : Event → ℕ → ℕ → Prop
  | .write aAddr i _, p, j => aAddr = p ∧ i = j
  | _, _, _ => False

/-- What the pool does for the program. -/
structure Serves (sizeofT : ℕ) (s : Pool) : Prop where
  counted : s.avail.toNat + s.live.length = count sizeofT s.m_Data
  apart : s.live.Pairwise fun p q =>
    p + sizeofEntry sizeofT ≤ q ∨ q + sizeofEntry sizeofT ≤ p
  inside : ∀ p ∈ s.live, s.m_Data.start ≤ p ∧
    p + sizeofEntry sizeofT ≤ s.m_Data.start + s.m_Data.size
  aligned : ∀ p ∈ s.live, 8 ∣ p
  exhausted : s.live.length = count sizeofT s.m_Data →
    s.allocate sizeofT = (.error .badAlloc, s)
  fresh : s.live.length < count sizeofT s.m_Data →
    ∃ p s', s.allocate sizeofT = (.ok p, s') ∧ s'.live = p :: s.live ∧ p ∉ s.live ∧
      ∀ i < sizeofEntry sizeofT, s'.memory (p + i) = 0
  kept : ∀ e, s.Admits sizeofT e → ∀ p ∈ s.live, p ∈ (s.step sizeofT e).live →
    ∀ i < sizeofEntry sizeofT, ¬ e.touches p i →
      (s.step sizeofT e).memory (p + i) = s.memory (p + i)

/-! ## Entries -/

section Entries
variable {sizeofT : ℕ} {m_Data : Buffer}

theorem eight_le_sizeofEntry (sizeofT : ℕ) : 8 ≤ sizeofEntry sizeofT := by
  unfold sizeofEntry
  omega

theorem le_sizeofEntry (sizeofT : ℕ) : sizeofT ≤ sizeofEntry sizeofT := by
  unfold sizeofEntry
  omega

theorem entries_nodup (sizeofT : ℕ) (m_Data : Buffer) : (entries sizeofT m_Data).Nodup := by
  have hpos := eight_le_sizeofEntry sizeofT
  apply List.nodup_range.map
  intro i j hij
  have hmul : sizeofEntry sizeofT * i = sizeofEntry sizeofT * j := Nat.add_left_cancel hij
  exact Nat.eq_of_mul_eq_mul_left (by omega) hmul

/-- The entries are in the buffer. -/
theorem entry_inside {p : ℕ} (h : p ∈ entries sizeofT m_Data) :
    m_Data.start ≤ p ∧ p + sizeofEntry sizeofT ≤ m_Data.start + m_Data.size := by
  obtain ⟨i, hi, rfl⟩ := List.mem_map.mp h
  rw [List.mem_range, count] at hi
  have hmod := Nat.mod_le (m_Data.size / sizeofEntry sizeofT) (2 ^ 32)
  have hmul : sizeofEntry sizeofT * (i + 1) ≤ m_Data.size :=
    (Nat.mul_le_mul_left _ (by omega)).trans (Nat.mul_div_le _ _)
  rw [Nat.mul_add, Nat.mul_one] at hmul
  omega

theorem entry_aligned {p : ℕ} (h : p ∈ entries sizeofT m_Data) : 8 ∣ p := by
  obtain ⟨i, -, rfl⟩ := List.mem_map.mp h
  have hsize : 8 ∣ sizeofEntry sizeofT := Nat.dvd_mul_left 8 _
  exact Nat.dvd_add m_Data.aligned (Nat.dvd_mul_right_of_dvd hsize i)

/-- Two entries have no byte in common. -/
theorem entries_apart {p q : ℕ} (hp : p ∈ entries sizeofT m_Data)
    (hq : q ∈ entries sizeofT m_Data) (hne : p ≠ q) :
    p + sizeofEntry sizeofT ≤ q ∨ q + sizeofEntry sizeofT ≤ p := by
  obtain ⟨i, -, rfl⟩ := List.mem_map.mp hp
  obtain ⟨j, -, rfl⟩ := List.mem_map.mp hq
  have hstep : ∀ a b : ℕ, a < b →
      sizeofEntry sizeofT * a + sizeofEntry sizeofT ≤ sizeofEntry sizeofT * b := by
    intro a b hab
    have hmul := Nat.mul_le_mul_left (sizeofEntry sizeofT) hab
    rwa [Nat.mul_succ] at hmul
  rcases Nat.lt_trichotomy i j with hless | rfl | hless
  · have hij := hstep i j hless
    omega
  · exact absurd rfl hne
  · have hji := hstep j i hless
    omega

theorem length_entries (sizeofT : ℕ) (m_Data : Buffer) :
    (entries sizeofT m_Data).length = count sizeofT m_Data := by
  rw [entries, List.length_map, List.length_range]

end Entries

/-! ## The list of what is free -/

/-- What nobody has is this list in memory. -/
structure Free (sizeofT : ℕ) (s : Pool) (l : List ℕ) : Prop where
  chain : Chain s.memory s.m_Head l
  perm : (l ++ s.live).Perm (entries sizeofT s.m_Data)
  avail : s.m_Avail.toNat = l.length

namespace Free
variable {sizeofT : ℕ} {s : Pool} {l : List ℕ} {p q : ℕ}

theorem nodup (h : Free sizeofT s l) : (l ++ s.live).Nodup :=
  h.perm.nodup_iff.mpr (entries_nodup sizeofT s.m_Data)

theorem of_free (h : Free sizeofT s l) (hp : p ∈ l) : p ∈ entries sizeofT s.m_Data :=
  h.perm.mem_iff.mp (List.mem_append_left s.live hp)

theorem of_live (h : Free sizeofT s l) (hp : p ∈ s.live) : p ∈ entries sizeofT s.m_Data :=
  h.perm.mem_iff.mp (List.mem_append_right l hp)

theorem ne (h : Free sizeofT s l) (hp : p ∈ l) (hq : q ∈ s.live) : p ≠ q :=
  (List.nodup_append.mp h.nodup).2.2 p hp q hq

theorem length (h : Free sizeofT s l) : l.length + s.live.length = count sizeofT s.m_Data := by
  rw [← length_entries, ← h.perm.length_eq, List.length_append]

theorem head_lt (h : Free sizeofT s l) : s.m_Head < 2 ^ 64 := by
  have hchain := h.chain
  cases l with
  | nil =>
      have hnull : s.m_Head = 0 := hchain
      rw [hnull]
      decide
  | cons p l =>
      have hinside := entry_inside (h.of_free List.mem_cons_self)
      have hroom := s.m_Data.room
      rw [hchain.1]
      omega

theorem allocate_nil (h : Free sizeofT s []) : s.allocate sizeofT = (.error .badAlloc, s) :=
  if_pos h.chain

theorem allocate_cons (h : Free sizeofT s (p :: l)) :
    s.allocate sizeofT =
      (.ok p,
        { s with
          m_Head := loadPointer s.memory p
          memory := store s.memory p (List.replicate (sizeofEntry sizeofT) 0)
          m_Avail := s.m_Avail - 1
          live := p :: s.live }) := by
  obtain ⟨hhead, hne, -⟩ := h.chain
  have havail : s.m_Avail ≠ 0 := by
    intro hzero
    have hlength := h.avail
    rw [hzero, List.length_cons] at hlength
    exact absurd hlength (Nat.succ_ne_zero l.length).symm
  rw [Pool.allocate, hhead, if_neg hne, if_neg havail]

theorem allocated (h : Free sizeofT s (p :: l)) : Free sizeofT (s.allocate sizeofT).2 l := by
  obtain ⟨-, -, hrest⟩ := h.chain
  have hnotMem : p ∉ l := (List.nodup_cons.mp (List.nodup_append.mp h.nodup).1).1
  have hlength := h.avail
  rw [List.length_cons] at hlength
  have hsub : (s.m_Avail - 1).toNat = l.length := by
    rw [UInt32.toNat_sub_of_le _ _ (UInt32.le_iff_toNat_le.mpr (by rw [hlength]; simp)), hlength]
    rfl
  rw [h.allocate_cons]
  refine ⟨hrest.congr ?_, List.perm_middle.trans h.perm, hsub⟩
  intro q hq i hi
  have height := eight_le_sizeofEntry sizeofT
  have hzeros : (List.replicate (sizeofEntry sizeofT) (0 : UInt8)).length = sizeofEntry sizeofT :=
    List.length_replicate
  have hpq : p ≠ q := fun heq => hnotMem (heq ▸ hq)
  rcases entries_apart (h.of_free List.mem_cons_self) (h.of_free (List.mem_cons_of_mem p hq)) hpq
    with hbefore | hbehind
  · exact store_of_le _ (by omega)
  · exact store_of_lt _ (by omega)

theorem deallocated (h : Free sizeofT s l) (hp : p ∈ s.live) :
    Free sizeofT (s.deallocate p) (p :: l) := by
  have hentry := h.of_live hp
  have height := eight_le_sizeofEntry sizeofT
  have hnull : p ≠ 0 := by
    have hinside := entry_inside hentry
    have hstart := s.m_Data.notNull
    omega
  have hapart : ∀ q ∈ l, q + 8 ≤ p ∨ p + 8 ≤ q := by
    intro q hq
    rcases entries_apart (h.of_free hq) hentry (h.ne hq hp) with hbefore | hbehind
    · exact Or.inl (by omega)
    · exact Or.inr (by omega)
  have hlength := h.length
  have hlive : 0 < s.live.length := List.length_pos_of_mem hp
  have hcount : count sizeofT s.m_Data < 2 ^ 32 := Nat.mod_lt _ (by decide)
  have hadd : (s.m_Avail + 1).toNat = l.length + 1 := by
    have hone : (1 : UInt32).toNat = 1 := rfl
    rw [UInt32.toNat_add, h.avail, hone]
    exact Nat.mod_eq_of_lt (by omega)
  refine ⟨h.chain.push h.head_lt hnull hapart, ?_, hadd⟩
  have hswap : (p :: l ++ s.live.erase p).Perm (l ++ p :: s.live.erase p) := List.perm_middle.symm
  exact hswap.trans (((List.perm_cons_erase hp).symm.append_left l).trans h.perm)

theorem written (h : Free sizeofT s l) (hp : p ∈ s.live) {i : ℕ} (hi : i < sizeofT) (b : UInt8) :
    Free sizeofT (s.write p i b) l := by
  have hle := le_sizeofEntry sizeofT
  have height := eight_le_sizeofEntry sizeofT
  refine ⟨h.chain.congr ?_, h.perm, h.avail⟩
  intro q hq j hj
  rcases entries_apart (h.of_free hq) (h.of_live hp) (h.ne hq hp) with hbefore | hbehind
  · exact store_of_lt _ (by omega)
  · exact store_of_le _ (by rw [List.length_singleton]; omega)

theorem step (h : Free sizeofT s l) {e : Event} (he : s.Admits sizeofT e) :
    ∃ l', Free sizeofT (s.step sizeofT e) l' := by
  cases e with
  | allocate =>
      cases l with
      | nil =>
          refine ⟨[], ?_⟩
          change Free sizeofT (s.allocate sizeofT).2 []
          rw [h.allocate_nil]
          exact h
      | cons p l => exact ⟨l, h.allocated⟩
  | deallocate aAddr => exact ⟨aAddr :: l, h.deallocated he⟩
  | write aAddr i b => exact ⟨l, h.written he.1 he.2 b⟩

/-- What is not written to stays. -/
theorem kept (h : Free sizeofT s l) {e : Event} (he : s.Admits sizeofT e) (hp : p ∈ s.live)
    (hp' : p ∈ (s.step sizeofT e).live) {i : ℕ} (hi : i < sizeofEntry sizeofT)
    (hquiet : ¬ e.touches p i) :
    (s.step sizeofT e).memory (p + i) = s.memory (p + i) := by
  have hle := le_sizeofEntry sizeofT
  have height := eight_le_sizeofEntry sizeofT
  cases e with
  | allocate =>
      cases l with
      | nil =>
          change (s.allocate sizeofT).2.memory (p + i) = _
          rw [h.allocate_nil]
      | cons q l =>
          change (s.allocate sizeofT).2.memory (p + i) = _
          rw [h.allocate_cons]
          have hzeros : (List.replicate (sizeofEntry sizeofT) (0 : UInt8)).length =
            sizeofEntry sizeofT := List.length_replicate
          rcases entries_apart (h.of_free List.mem_cons_self) (h.of_live hp)
            (h.ne List.mem_cons_self hp) with hbefore | hbehind
          · exact store_of_le _ (by omega)
          · exact store_of_lt _ (by omega)
  | deallocate aAddr =>
      have hne : aAddr ≠ p := by
        rintro rfl
        exact (List.nodup_append.mp h.nodup).2.1.not_mem_erase hp'
      have hlength : (littleEndian 8 s.m_Head).length = 8 := length_littleEndian 8 s.m_Head
      rcases entries_apart (h.of_live he) (h.of_live hp) hne with hbefore | hbehind
      · exact store_of_le _ (by omega)
      · exact store_of_lt _ (by omega)
  | write aAddr j b =>
      have hsingle : [b].length = 1 := rfl
      by_cases heq : aAddr = p
      · subst heq
        have hij : j ≠ i := fun hji => hquiet ⟨rfl, hji⟩
        rcases Nat.lt_or_gt_of_ne hij with hless | hless
        · exact store_of_le _ (by omega)
        · exact store_of_lt _ (by omega)
      · have hj := he.2
        rcases entries_apart (h.of_live he.1) (h.of_live hp) heq with hbefore | hbehind
        · exact store_of_le _ (by omega)
        · exact store_of_lt _ (by omega)

theorem serves (h : Free sizeofT s l) : Serves sizeofT s := by
  have hlength := h.length
  constructor
  case counted =>
    rw [Pool.avail, h.avail]
    exact hlength
  case apart =>
    refine (List.nodup_append.mp h.nodup).2.1.imp_of_mem ?_
    exact fun hp hq hne => entries_apart (h.of_live hp) (h.of_live hq) hne
  case inside => exact fun p hp => entry_inside (h.of_live hp)
  case aligned => exact fun p hp => entry_aligned (h.of_live hp)
  case exhausted =>
    intro hall
    have hnil : l = [] := List.length_eq_zero_iff.mp (by omega)
    subst hnil
    exact h.allocate_nil
  case fresh =>
    intro hless
    cases l with
    | nil =>
        rw [List.length_nil] at hlength
        omega
    | cons p l =>
        refine ⟨p, _, h.allocate_cons, rfl, ?_, ?_⟩
        · exact fun hp => h.ne List.mem_cons_self hp rfl
        · intro i hi
          dsimp only
          rw [store_add _ (by rw [List.length_replicate]; omega), List.getD_replicate _ (by omega)]
  case kept => exact fun e he p hp hp' i hi hquiet => h.kept he hp hp' hi hquiet

end Free

/-! ## The constructor -/

section Make
variable {sizeofT : ℕ} {s : Pool}

theorem linkAll_fields (sizeofT : ℕ) (s : Pool) (n : ℕ) :
    (s.linkAll sizeofT n).m_Data = s.m_Data ∧ (s.linkAll sizeofT n).m_Avail = s.m_Avail ∧
      (s.linkAll sizeofT n).live = s.live := by
  induction n with
  | zero => exact ⟨rfl, rfl, rfl⟩
  | succ n ih => exact ih

/-- The list has the entries of the first turns, the last one first. -/
theorem linkAll_chain (hhead : s.m_Head = 0) {n : ℕ} (hn : n ≤ count sizeofT s.m_Data) :
    Chain (s.linkAll sizeofT n).memory (s.linkAll sizeofT n).m_Head
      ((List.range n).map fun i => s.m_Data.start + sizeofEntry sizeofT * i).reverse := by
  have hentry : ∀ i < count sizeofT s.m_Data,
      s.m_Data.start + sizeofEntry sizeofT * i ∈ entries sizeofT s.m_Data :=
    fun i hi => List.mem_map.mpr ⟨i, List.mem_range.mpr hi, rfl⟩
  have height := eight_le_sizeofEntry sizeofT
  induction n with
  | zero => exact hhead
  | succ n ih =>
      have hchain := ih (by omega)
      have hnew := hentry n (by omega)
      have hlist : ((List.range (n + 1)).map
          fun i => s.m_Data.start + sizeofEntry sizeofT * i).reverse =
          (s.m_Data.start + sizeofEntry sizeofT * n) ::
            ((List.range n).map fun i => s.m_Data.start + sizeofEntry sizeofT * i).reverse := by
        rw [List.range_succ, List.map_append, List.reverse_append]
        rfl
      rw [hlist, Pool.linkAll]
      refine hchain.push ?_ ?_ ?_
      · cases n with
        | zero =>
            have hnull : (s.linkAll sizeofT 0).m_Head = 0 := hhead
            rw [hnull]
            decide
        | succ n =>
            have hinside := entry_inside (hentry n (by omega))
            have hroom := s.m_Data.room
            have hlast : (s.linkAll sizeofT (n + 1)).m_Head =
                s.m_Data.start + sizeofEntry sizeofT * n := rfl
            rw [hlast]
            omega
      · have hstart := s.m_Data.notNull
        omega
      · intro p hp
        obtain ⟨i, hi, rfl⟩ := List.mem_map.mp (List.mem_reverse.mp hp)
        rw [List.mem_range] at hi
        have hne : s.m_Data.start + sizeofEntry sizeofT * i ≠
            s.m_Data.start + sizeofEntry sizeofT * n := by
          intro heq
          have hmul := Nat.eq_of_mul_eq_mul_left (by omega) (Nat.add_left_cancel heq)
          omega
        rcases entries_apart (hentry i (by omega)) hnew hne with hbefore | hbehind
        · exact Or.inl (by omega)
        · exact Or.inr (by omega)

theorem Free.make (sizeofT : ℕ) (m_Data : Buffer) (memory : Memory) :
    Free sizeofT (Pool.make sizeofT m_Data memory) (entries sizeofT m_Data).reverse := by
  have hcount : (UInt32.ofNat (m_Data.size / sizeofEntry sizeofT)).toNat = count sizeofT m_Data :=
    UInt32.toNat_ofNat'
  unfold Pool.make
  dsimp only
  rw [hcount]
  constructor
  case chain => exact linkAll_chain rfl (Nat.le_refl _)
  case perm =>
    obtain ⟨hdata, -, hlive⟩ := linkAll_fields sizeofT _ (count sizeofT m_Data)
    rw [hdata, hlive, List.append_nil]
    exact List.reverse_perm _
  case avail =>
    rw [(linkAll_fields sizeofT _ _).2.1, List.length_reverse, length_entries]
    exact hcount

end Make

/-- In every run the pool gives out entries that nobody has, until all are in use, and never
touches an object. The list survives what the program writes to its objects. -/
theorem pool_serves {sizeofT : ℕ} (m_Data : Buffer) (memory : Memory) {es : List Event}
    (hes : Meets (Pool.step sizeofT) (Pool.Admits sizeofT) (Pool.make sizeofT m_Data memory) es) :
    Serves sizeofT (run (Pool.step sizeofT) (Pool.make sizeofT m_Data memory) es) := by
  have hstep : ∀ (s : Pool) (e : Event), (∃ l, Free sizeofT s l) → s.Admits sizeofT e →
      ∃ l, Free sizeofT (s.step sizeofT e) l := by
    rintro s e ⟨l, hfree⟩ he
    exact hfree.step he
  obtain ⟨l, hfree⟩ := run_invariant hstep ⟨_, Free.make sizeofT m_Data memory⟩ hes
  exact hfree.serves

/-- Room for two objects of twelve bytes, and the rest of one. -/
def smallBuffer : Buffer := ⟨4096, 40, by decide, by decide, by decide⟩

theorem pool_serves_reused :
    Serves 12 (run (Pool.step 12) (Pool.make 12 smallBuffer fun _ => 7)
      [.allocate, .write 4112 3 255, .allocate, .deallocate 4112, .allocate]) := by
  refine pool_serves smallBuffer _ ⟨trivial, ⟨?_, by decide⟩, trivial, ?_, trivial, trivial⟩
  · exact List.mem_singleton.mpr rfl
  · change 4112 ∈ Pool.live _
    decide

end Stuff.AllocatorPool
