import Mathlib.Data.List.Basic
import Mathlib.Data.List.Perm.Basic

/-!
# Maps as ordered lists of entries

A map is walked in the order of its keys, so it is a list of entries sorted by a
strict order. An insertion goes to the first entry that is not below the key.
-/
namespace Stuff.OrderedMap

variable {K V : Type*}

/-- The entry of an equivalent key gets the value that `f` makes of its own. -/
def insertWith (lt : K → K → Bool) (f : V → V) (k : K) (v : V) : List (K × V) → List (K × V)
  | [] => [(k, v)]
  | x :: m =>
      if lt x.1 k then x :: insertWith lt f k v m
      else if lt k x.1 then (k, v) :: x :: m
      else (x.1, f x.2) :: m

/-- `operator[]` with an assignment. -/
def assign (lt : K → K → Bool) (k : K) (v : V) : List (K × V) → List (K × V) :=
  insertWith lt (fun _ => v) k v

/-- `emplace` and `insert`: the value of an equivalent key stays. -/
def emplace (lt : K → K → Bool) (k : K) (v : V) : List (K × V) → List (K × V) :=
  insertWith lt id k v

/-- A loop that emplaces entries. -/
def emplaceAll (lt : K → K → Bool) (m l : List (K × V)) : List (K × V) :=
  l.foldl (fun m x => emplace lt x.1 x.2 m) m

theorem insertWith_perm {lt : K → K → Bool} (f : V → V) {k : K} (v : V) {m : List (K × V)}
    (h : ∀ x ∈ m, lt x.1 k = false → lt k x.1 = true) :
    (insertWith lt f k v m).Perm ((k, v) :: m) := by
  induction m with
  | nil => exact List.Perm.refl _
  | cons x m ih =>
      have hrest := ih fun y hy => h y (List.mem_cons_of_mem x hy)
      simp only [insertWith]
      cases hx : lt x.1 k with
      | true => exact (hrest.cons x).trans (List.Perm.swap (k, v) x m)
      | false =>
          rw [h x List.mem_cons_self hx]
          exact List.Perm.refl _

/-- Entries with keys below stay in front. -/
theorem insertWith_append {lt : K → K → Bool} (f : V → V) {k : K} (v : V) {front : List (K × V)}
    (h : ∀ x ∈ front, lt x.1 k = true) (m : List (K × V)) :
    insertWith lt f k v (front ++ m) = front ++ insertWith lt f k v m := by
  induction front with
  | nil => rfl
  | cons x front ih =>
      rw [List.cons_append, insertWith, if_pos (h x List.mem_cons_self),
        ih fun y hy => h y (List.mem_cons_of_mem x hy), List.cons_append]

/-- A key above all others comes last. -/
theorem emplace_append {lt : K → K → Bool} {x : K × V} {m : List (K × V)}
    (h : ∀ y ∈ m, lt y.1 x.1 = true) : emplace lt x.1 x.2 m = m ++ [x] := by
  have hlast := insertWith_append id x.2 h []
  rwa [List.append_nil] at hlast

/-! ## Lookup -/

/-- The order of the keys. -/
structure StrictTotal (lt : K → K → Bool) : Prop where
  irrefl : ∀ a, lt a a = false
  trans : ∀ {a b c}, lt a b = true → lt b c = true → lt a c = true
  total : ∀ {a b}, lt a b = false → lt b a = false → a = b

/-- The order of `std::string`. -/
def less (a b : List UInt8) : Bool := a < b

theorem less_strict : StrictTotal less where
  irrefl a := by simp [less]
  trans := by
    intro a b c hab hbc
    simp only [less, decide_eq_true_eq] at *
    exact List.lt_trans hab hbc
  total := by
    intro a b hab hba
    simp only [less, decide_eq_false_iff_not, List.not_lt] at *
    exact List.le_antisymm hba hab

def Sorted (lt : K → K → Bool) (m : List (K × V)) : Prop :=
  m.Pairwise fun x y => lt x.1 y.1 = true

section Order
variable {lt : K → K → Bool} {k : K} {m : List (K × V)}

theorem StrictTotal.ne (hlt : StrictTotal lt) {a b : K} (h : lt a b = true) : a ≠ b := by
  rintro rfl
  rw [hlt.irrefl] at h
  cases h

theorem key_of_mem_insertWith {f : V → V} {v : V} {y : K × V} (h : y ∈ insertWith lt f k v m) :
    y.1 = k ∨ ∃ x ∈ m, x.1 = y.1 := by
  induction m with
  | nil =>
      rw [List.mem_singleton.mp h]
      exact .inl rfl
  | cons x m ih =>
      have hrest : ∀ z ∈ x :: m, z.1 = k ∨ ∃ x' ∈ x :: m, x'.1 = z.1 := fun z hz =>
        .inr ⟨z, hz, rfl⟩
      simp only [insertWith] at h
      split at h
      case isTrue =>
        rcases List.mem_cons.mp h with rfl | hmem
        · exact hrest y List.mem_cons_self
        · rcases ih hmem with heq | ⟨z, hz, heq⟩
          · exact .inl heq
          · exact .inr ⟨z, List.mem_cons_of_mem x hz, heq⟩
      case isFalse =>
        split at h
        case isTrue =>
          rcases List.mem_cons.mp h with rfl | hmem
          · exact .inl rfl
          · exact hrest y hmem
        case isFalse =>
          rcases List.mem_cons.mp h with rfl | hmem
          · exact .inr ⟨x, List.mem_cons_self, rfl⟩
          · exact hrest y (List.mem_cons_of_mem x hmem)

theorem sorted_insertWith (hlt : StrictTotal lt) (f : V → V) (v : V) (h : Sorted lt m) :
    Sorted lt (insertWith lt f k v m) := by
  induction m with
  | nil => exact List.pairwise_singleton _ _
  | cons x m ih =>
      obtain ⟨hx, hm⟩ := List.pairwise_cons.mp h
      simp only [insertWith]
      cases hxk : lt x.1 k with
      | true =>
          refine List.pairwise_cons.mpr ⟨?_, ih hm⟩
          intro y hy
          rcases key_of_mem_insertWith hy with heq | ⟨z, hz, heq⟩
          · rw [heq]
            exact hxk
          · rw [← heq]
            exact hx z hz
      | false =>
          cases hkx : lt k x.1 with
          | true =>
              refine List.pairwise_cons.mpr ⟨?_, h⟩
              intro y hy
              rcases List.mem_cons.mp hy with rfl | hmem
              · exact hkx
              · exact hlt.trans hkx (hx y hmem)
          | false => exact List.pairwise_cons.mpr ⟨hx, hm⟩

theorem StrictTotal.lt_of_ne (hlt : StrictTotal lt) {a b : K} (hne : a ≠ b)
    (h : lt a b = false) : lt b a = true := by
  rw [← Bool.not_eq_false]
  exact fun hba => hne (hlt.total h hba)

/-! ## Many insertions -/

theorem sorted_emplaceAll (hlt : StrictTotal lt) (l : List (K × V)) (h : Sorted lt m) :
    Sorted lt (emplaceAll lt m l) := by
  induction l generalizing m with
  | nil => exact h
  | cons x l ih => exact ih (sorted_insertWith hlt id x.2 h)

/-- Entries that come in order. -/
theorem emplaceAll_sorted {l : List (K × V)} (h : Sorted lt (m ++ l)) :
    emplaceAll lt m l = m ++ l := by
  induction l generalizing m with
  | nil => exact (List.append_nil m).symm
  | cons x l ih =>
      have hbelow : ∀ y ∈ m, lt y.1 x.1 = true := by
        intro y hy
        exact (List.pairwise_append.mp h).2.2 y hy x List.mem_cons_self
      rw [List.append_cons] at h ⊢
      rw [← ih h, ← emplace_append hbelow]
      rfl

theorem mem_emplace {v : V} {y : K × V} (h : y ∈ emplace lt k v m) : y = (k, v) ∨ y ∈ m := by
  unfold emplace at h
  induction m with
  | nil => exact .inl (List.mem_singleton.mp h)
  | cons x m ih =>
      simp only [insertWith] at h
      split_ifs at h
      · rcases List.mem_cons.mp h with rfl | hmem
        · exact .inr List.mem_cons_self
        · exact (ih hmem).imp_right (List.mem_cons_of_mem x)
      · exact List.mem_cons.mp h
      · exact .inr h

theorem mem_emplaceAll {l : List (K × V)} {y : K × V} (h : y ∈ emplaceAll lt m l) :
    y ∈ l ∨ y ∈ m := by
  induction l generalizing m with
  | nil => exact .inr h
  | cons x l ih =>
      rcases ih h with hl | hm
      · exact .inl (List.mem_cons_of_mem x hl)
      · rcases mem_emplace hm with rfl | hm
        · exact .inl List.mem_cons_self
        · exact .inr hm

theorem length_emplace_le (lt : K → K → Bool) (k : K) (v : V) (m : List (K × V)) :
    (emplace lt k v m).length ≤ m.length + 1 := by
  unfold emplace
  induction m with
  | nil => exact Nat.le_refl _
  | cons x m ih =>
      simp only [insertWith]
      split_ifs
      · exact Nat.succ_le_succ ih
      · exact Nat.le_refl _
      · exact Nat.le_succ _

theorem length_emplaceAll_le (l m : List (K × V)) :
    (emplaceAll lt m l).length ≤ m.length + l.length := by
  induction l generalizing m with
  | nil => exact Nat.le_refl _
  | cons x l ih =>
      have hfirst := length_emplace_le lt x.1 x.2 m
      have hrest := ih (emplace lt x.1 x.2 m)
      change (emplaceAll lt (emplace lt x.1 x.2 m) l).length ≤ _
      rw [List.length_cons]
      omega

/-- No entry is lost when the keys are different. -/
theorem emplaceAll_perm (hlt : StrictTotal lt) {l : List (K × V)}
    (h : ((l ++ m).map Prod.fst).Nodup) : (emplaceAll lt m l).Perm (l ++ m) := by
  induction l generalizing m with
  | nil => exact List.Perm.refl m
  | cons x l ih =>
      have hx : ∀ y ∈ m, lt y.1 x.1 = false → lt x.1 y.1 = true := by
        intro y hy
        apply hlt.lt_of_ne
        intro heq
        rw [List.cons_append, List.map_cons, List.nodup_cons] at h
        exact h.1 (heq ▸ List.mem_map_of_mem (List.mem_append_right l hy))
      have hfirst : (emplace lt x.1 x.2 m).Perm (x :: m) := insertWith_perm id x.2 hx
      have hmid : (l ++ emplace lt x.1 x.2 m).Perm (x :: l ++ m) :=
        (hfirst.append_left l).trans List.perm_middle
      exact (ih ((hmid.map Prod.fst).nodup_iff.mpr h)).trans hmid

theorem emplaceAll_nil_perm (hlt : StrictTotal lt) {l : List (K × V)}
    (h : (l.map Prod.fst).Nodup) : (emplaceAll lt [] l).Perm l := by
  have hperm := emplaceAll_perm (m := []) hlt (l := l)
  rw [List.append_nil] at hperm
  exact hperm h

theorem nodup_keys (hlt : StrictTotal lt) (h : Sorted lt m) : (m.map Prod.fst).Nodup := by
  rw [List.Nodup, List.pairwise_map]
  exact h.imp hlt.ne

/-- A map is what its own entries give in any order. -/
theorem eq_emplaceAll (hlt : StrictTotal lt) (h : Sorted lt m) {l : List (K × V)}
    (hl : l.Perm m) : m = emplaceAll lt [] l := by
  have hperm := emplaceAll_nil_perm hlt ((hl.map Prod.fst).nodup_iff.mpr (nodup_keys hlt h))
  have hsorted := sorted_emplaceAll hlt l (List.Pairwise.nil : Sorted lt [])
  refine List.Perm.eq_of_pairwise ?_ h hsorted (hl.symm.trans hperm.symm)
  intro x y _ _ hxy hyx
  exact absurd rfl (hlt.ne (hlt.trans hxy hyx))

/-! ## The orders of containers -/

/-- `std::lexicographical_compare`. -/
def lexLess (lt : K → K → Bool) : List K → List K → Bool
  | _, [] => false
  | [], _ :: _ => true
  | a :: as, b :: bs => lt a b || (!lt b a && lexLess lt as bs)

/-- The order of `std::pair`. -/
def pairLess {L : Type*} (lt : K → K → Bool) (lt' : L → L → Bool) (x y : K × L) : Bool :=
  lt x.1 y.1 || (!lt y.1 x.1 && lt' x.2 y.2)

theorem StrictTotal.asymm (hlt : StrictTotal lt) {a b : K} (h : lt a b = true) :
    lt b a = false := by
  rw [← Bool.not_eq_true]
  exact fun hba => absurd rfl (hlt.ne (hlt.trans h hba))

/-- One coordinate after the other. -/
theorem StrictTotal.then_iff (hlt : StrictTotal lt) {a b : K} {c : Bool} :
    (lt a b || (!lt b a && c)) = true ↔ lt a b = true ∨ a = b ∧ c = true := by
  rw [Bool.or_eq_true, Bool.and_eq_true, Bool.not_eq_true']
  constructor
  · rintro (hab | ⟨hba, hc⟩)
    · exact .inl hab
    · cases hab : lt a b with
      | true => exact .inl rfl
      | false => exact .inr ⟨hlt.total hab hba, hc⟩
  · rintro (hab | ⟨rfl, hc⟩)
    · exact .inl hab
    · exact .inr ⟨hlt.irrefl a, hc⟩

theorem StrictTotal.pair {L : Type*} {lt' : L → L → Bool} (hlt : StrictTotal lt)
    (hlt' : StrictTotal lt') : StrictTotal (pairLess lt lt') where
  irrefl x := by simp [pairLess, hlt.irrefl, hlt'.irrefl]
  trans := by
    intro x y z hxy hyz
    rw [pairLess, hlt.then_iff] at *
    rcases hxy with hxy | ⟨hxy, hxy'⟩
    · rcases hyz with hyz | ⟨hyz, -⟩
      · exact .inl (hlt.trans hxy hyz)
      · exact .inl (hyz ▸ hxy)
    · rcases hyz with hyz | ⟨hyz, hyz'⟩
      · exact .inl (hxy ▸ hyz)
      · exact .inr ⟨hxy.trans hyz, hlt'.trans hxy' hyz'⟩
  total := by
    intro x y hxy hyx
    rw [pairLess, ← Bool.not_eq_true, hlt.then_iff, not_or] at hxy hyx
    have hfst := hlt.total (Bool.not_eq_true _ ▸ hxy.1) (Bool.not_eq_true _ ▸ hyx.1)
    have hsnd : ∀ {b : Bool} {p : Prop}, p → ¬ (p ∧ b = true) → b = false := by
      intro b p hp h
      rw [← Bool.not_eq_true]
      exact fun hb => h ⟨hp, hb⟩
    exact Prod.ext hfst (hlt'.total (hsnd hfst hxy.2) (hsnd hfst.symm hyx.2))

theorem StrictTotal.lex (hlt : StrictTotal lt) : StrictTotal (lexLess lt) where
  irrefl as := by
    induction as with
    | nil => rfl
    | cons a as ih => simp [lexLess, hlt.irrefl, ih]
  trans := by
    intro as bs cs hab hbc
    induction as generalizing bs cs with
    | nil =>
        cases cs with
        | nil => cases bs <;> cases hbc
        | cons c cs => rfl
    | cons a as ih =>
        cases bs with
        | nil => cases hab
        | cons b bs =>
            cases cs with
            | nil => cases hbc
            | cons c cs =>
                rw [lexLess, hlt.then_iff] at *
                rcases hab with hab | ⟨rfl, hab⟩
                · rcases hbc with hbc | ⟨rfl, -⟩
                  · exact .inl (hlt.trans hab hbc)
                  · exact .inl hab
                · rcases hbc with hbc | ⟨rfl, hbc⟩
                  · exact .inl hbc
                  · exact .inr ⟨rfl, ih hab hbc⟩
  total := by
    intro as bs hab hba
    induction as generalizing bs with
    | nil =>
        cases bs with
        | nil => rfl
        | cons b bs => cases hab
    | cons a as ih =>
        cases bs with
        | nil => cases hba
        | cons b bs =>
            simp only [lexLess, Bool.or_eq_false_iff, Bool.and_eq_false_iff] at hab hba
            obtain rfl := hlt.total hab.1 hba.1
            simp only [hlt.irrefl, Bool.not_false, Bool.true_eq_false, false_or] at hab hba
            rw [ih hab.2 hba.2]

end Order

section Lookup
variable [BEq K] [LawfulBEq K] {lt : K → K → Bool} {k : K} {m m' : List (K × V)}

theorem lookup_cons [DecidableEq K] (x : K × V) (m : List (K × V)) (k : K) :
    (x :: m).lookup k = if k = x.1 then some x.2 else m.lookup k := by
  rw [List.lookup_cons]
  by_cases hk : k = x.1
  · simp [hk]
  · have hbeq : (k == x.1) = false := by simpa using hk
    simp [hk, hbeq]

theorem lookup_below (hlt : StrictTotal lt) (h : ∀ x ∈ m, lt k x.1 = true) : m.lookup k = none := by
  rw [List.lookup_eq_none_iff]
  intro x hx
  simpa using hlt.ne (h x hx)

theorem lookup_of_mem [DecidableEq K] (hlt : StrictTotal lt) (h : Sorted lt m) {x : K × V}
    (hx : x ∈ m) : m.lookup x.1 = some x.2 := by
  induction m with
  | nil => cases hx
  | cons y m ih =>
      obtain ⟨hy, hm⟩ := List.pairwise_cons.mp h
      rw [lookup_cons]
      rcases List.mem_cons.mp hx with rfl | hmem
      · rw [if_pos rfl]
      · rw [if_neg (hlt.ne (hy x hmem)).symm]
        exact ih hm hmem

theorem lookup_insertWith [DecidableEq K] (hlt : StrictTotal lt) (f : V → V) (v : V)
    (h : Sorted lt m) (k' : K) :
    (insertWith lt f k v m).lookup k' =
      if k' = k then some ((m.lookup k).elim v f) else m.lookup k' := by
  induction m with
  | nil => simp [insertWith, lookup_cons]
  | cons x m ih =>
      obtain ⟨hx, hm⟩ := List.pairwise_cons.mp h
      simp only [insertWith]
      cases hxk : lt x.1 k with
      | true =>
          have hne := hlt.ne hxk
          rw [if_pos rfl, lookup_cons, ih hm, lookup_cons, lookup_cons, if_neg hne.symm]
          by_cases hk' : k' = x.1
          · simp [hk', hne]
          · simp [hk']
      | false =>
          cases hkx : lt k x.1 with
          | true =>
              have hnone : (x :: m).lookup k = none := by
                apply lookup_below hlt
                intro y hy
                rcases List.mem_cons.mp hy with rfl | hmem
                · exact hkx
                · exact hlt.trans hkx (hx y hmem)
              rw [hnone]
              exact lookup_cons (k, v) (x :: m) k'
          | false =>
              obtain rfl := hlt.total hxk hkx
              rw [lookup_cons x m x.1, if_pos rfl]
              simp only [Bool.false_eq_true, if_false, lookup_cons, Option.elim_some]
              by_cases hk' : k' = x.1
              · simp [hk']
              · simp [hk']

/-- What is there stays, and of several entries of a key the first one is taken. -/
theorem lookup_emplaceAll [DecidableEq K] (hlt : StrictTotal lt) (l : List (K × V))
    (hm : Sorted lt m) (k : K) :
    (emplaceAll lt m l).lookup k = (m.lookup k).or (l.lookup k) := by
  induction l generalizing m with
  | nil => simp [emplaceAll]
  | cons x l ih =>
      refine (ih (sorted_insertWith hlt id x.2 hm)).trans ?_
      rw [lookup_insertWith hlt id x.2 hm, lookup_cons]
      by_cases heq : k = x.1
      · subst heq
        cases hk : m.lookup x.1 with
        | none => simp
        | some v => simp
      · simp [heq]

theorem lookup_first (hlt : StrictTotal lt) {x y : K × V} (hy : Sorted lt (y :: m'))
    (h : (y :: m').lookup x.1 = some x.2) : lt x.1 y.1 = false := by
  rw [← Bool.not_eq_true]
  intro hxy
  have hnone : (y :: m').lookup x.1 = none := by
    apply lookup_below hlt
    intro z hz
    rcases List.mem_cons.mp hz with rfl | hmem
    · exact hxy
    · exact hlt.trans hxy ((List.pairwise_cons.mp hy).1 z hmem)
  rw [hnone] at h
  cases h

/-- Two maps with the same values are the same. -/
theorem eq_of_lookup [DecidableEq K] (hlt : StrictTotal lt) (h : Sorted lt m) (h' : Sorted lt m')
    (heq : ∀ k, m.lookup k = m'.lookup k) : m = m' := by
  induction m generalizing m' with
  | nil =>
      cases m' with
      | nil => rfl
      | cons y m' =>
          have hy := heq y.1
          rw [lookup_cons, if_pos rfl] at hy
          cases hy
  | cons x m ih =>
      cases m' with
      | nil =>
          have hx := heq x.1
          rw [lookup_cons, if_pos rfl] at hx
          cases hx
      | cons y m' =>
          obtain ⟨hx, hm⟩ := List.pairwise_cons.mp h
          obtain ⟨hy, hm'⟩ := List.pairwise_cons.mp h'
          have hx₁ : (x :: m).lookup x.1 = some x.2 := by rw [lookup_cons, if_pos rfl]
          have hy₁ : (y :: m').lookup y.1 = some y.2 := by rw [lookup_cons, if_pos rfl]
          -- the smaller one of the first keys would be in one map only
          have hkey : x.1 = y.1 := hlt.total (lookup_first hlt h' ((heq x.1).symm.trans hx₁))
            (lookup_first hlt h ((heq y.1).trans hy₁))
          have hval : x.2 = y.2 := by
            rw [← heq y.1, ← hkey, hx₁] at hy₁
            exact Option.some.inj hy₁
          have hrest : m = m' := by
            apply ih hm hm'
            intro k
            have hk := heq k
            rw [lookup_cons, lookup_cons, ← hkey] at hk
            by_cases hkx : k = x.1
            · rw [hkx, lookup_below hlt hx, hkey, lookup_below hlt hy]
            · simpa [hkx] using hk
          rw [hrest, Prod.ext hkey hval]

end Lookup

/-! ## Weak orders

Different keys may be equivalent; a map has one of them. -/

def equivalent (lt : K → K → Bool) (a b : K) : Bool := !lt a b && !lt b a

/-- The value of an equivalent key. -/
def get (lt : K → K → Bool) (k : K) (m : List (K × V)) : Option V :=
  (m.find? fun x => equivalent lt x.1 k).map Prod.snd

structure StrictWeak (lt : K → K → Bool) : Prop where
  irrefl : ∀ a, lt a a = false
  trans : ∀ {a b c}, lt a b = true → lt b c = true → lt a c = true
  equivalent_trans : ∀ {a b c},
    equivalent lt a b = true → equivalent lt b c = true → equivalent lt a c = true

section Weak
variable {lt : K → K → Bool} {a b c k : K} {m : List (K × V)}

theorem equivalent_iff : equivalent lt a b = true ↔ lt a b = false ∧ lt b a = false := by
  rw [equivalent, Bool.and_eq_true, Bool.not_eq_true', Bool.not_eq_true']

theorem StrictTotal.strictWeak (hlt : StrictTotal lt) : StrictWeak lt where
  irrefl := hlt.irrefl
  trans := hlt.trans
  equivalent_trans := by
    intro a b c hab hbc
    rw [equivalent_iff] at hab hbc
    obtain rfl := hlt.total hab.1 hab.2
    exact equivalent_iff.mpr hbc

namespace StrictWeak

theorem asymm (hlt : StrictWeak lt) (h : lt a b = true) : lt b a = false := by
  rw [← Bool.not_eq_true]
  intro hba
  have haa := hlt.trans h hba
  rw [hlt.irrefl] at haa
  cases haa

/-- A key is not on both sides of one that is between. -/
theorem lt_or_lt (hlt : StrictWeak lt) (h : lt a c = true) (b : K) :
    lt a b = true ∨ lt b c = true := by
  by_contra hnot
  rw [not_or, Bool.not_eq_true, Bool.not_eq_true] at hnot
  obtain ⟨hab, hbc⟩ := hnot
  have hba : lt b a = false := by
    rw [← Bool.not_eq_true]
    intro hba
    rw [hlt.trans hba h] at hbc
    cases hbc
  have hcb : lt c b = false := by
    rw [← Bool.not_eq_true]
    intro hcb
    rw [hlt.trans h hcb] at hab
    cases hab
  have hac := hlt.equivalent_trans (equivalent_iff.mpr ⟨hab, hba⟩) (equivalent_iff.mpr ⟨hbc, hcb⟩)
  rw [(equivalent_iff.mp hac).1] at h
  cases h

theorem lt_of_equivalent (hlt : StrictWeak lt) (hab : equivalent lt a b = true)
    (hbc : lt b c = true) : lt a c = true := by
  have hba := (equivalent_iff.mp hab).2
  exact (hlt.lt_or_lt hbc a).resolve_left (by rw [hba]; exact Bool.false_ne_true)

end StrictWeak

theorem equivalent_comm : equivalent lt a b = equivalent lt b a := Bool.and_comm _ _

theorem equivalent_of_lt (h : lt a b = true) : equivalent lt a b = false := by
  rw [equivalent, h]
  rfl

theorem get_cons (x : K × V) (m : List (K × V)) :
    get lt k (x :: m) = if equivalent lt x.1 k = true then some x.2 else get lt k m := by
  rw [get, List.find?_cons]
  cases equivalent lt x.1 k <;> rfl

theorem get_append {front : List (K × V)} (h : ∀ x ∈ front, lt x.1 k = true)
    (m : List (K × V)) : get lt k (front ++ m) = get lt k m := by
  induction front with
  | nil => rfl
  | cons x front ih =>
      rw [List.cons_append, get_cons, equivalent_of_lt (h x List.mem_cons_self),
        ih fun y hy => h y (List.mem_cons_of_mem x hy)]
      rfl

theorem get_below (h : ∀ x ∈ m, lt k x.1 = true) : get lt k m = none := by
  rw [get, Option.map_eq_none_iff, List.find?_eq_none]
  intro x hx
  rw [equivalent_comm, equivalent_of_lt (h x hx)]
  exact Bool.false_ne_true

end Weak

end Stuff.OrderedMap
