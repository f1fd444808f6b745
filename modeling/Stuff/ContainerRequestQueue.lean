import Stuff.EventRuns
import Mathlib.Data.List.Perm.Basic
import Mathlib.Data.UInt

/-!
# The queue of requests with deadlines

`RequestQueue` has one set of records with two indexes: `get` takes from the one
by serial, `on_timer` from the one by deadline. Both hand what is too old to the
handler.
-/
namespace Stuff.ContainerRequestQueue
open EventRuns

variable {V : Type}

/-- The serial is a 64-bit counter in the source; it is taken not to run round. -/
structure Rec (V : Type) where
  serial : ℕ
  deadline : UInt64
  value : V
deriving DecidableEq, Repr

/-- The records in the order of the index by serial. -/
structure RequestQueue (V : Type) where
  store : List (Rec V) := []
  serial : ℕ := 0

namespace RequestQueue

/-- The loop of `get`: what the handler got, the record returned, and the rest. -/
def getLoop (sNow : UInt64) : List (Rec V) → List (Rec V) × Option (Rec V) × List (Rec V)
  | [] => ([], none, [])
  | r :: store =>
      if r.deadline ≤ sNow then
        let x := getLoop sNow store
        (r :: x.1, x.2)
      else ([], some r, store)

def get (q : RequestQueue V) (sNow : UInt64) :
    List (Rec V) × Option (Rec V) × RequestQueue V :=
  let x := getLoop sNow q.store
  (x.1, x.2.1, { q with store := x.2.2 })

/-- With the record that is stored. -/
def insert (q : RequestQueue V) (aValue : V) (aTimeoutMs sNow : UInt64) :
    Rec V × RequestQueue V :=
  let sRec := { serial := q.serial, deadline := sNow + aTimeoutMs, value := aValue }
  (sRec, { store := q.store ++ [sRec], serial := q.serial + 1 })

/-- The first record of the index by deadline; of equal deadlines, the first one
inserted. -/
def firstDue (store : List (Rec V)) : Option (Rec V) :=
  store.find? fun r => store.all fun r' => r.deadline ≤ r'.deadline

def eta (q : RequestQueue V) (aDefault sNow : UInt64) : UInt64 :=
  match firstDue q.store with
  | none => aDefault
  | some r =>
      let sTimeout := if r.deadline > sNow then r.deadline - sNow else 0
      min aDefault sTimeout

/-- The loop of `on_timer`: the list for the handler, and the records left. -/
def timerLoop (sNow : UInt64) : ℕ → List (Rec V) → List (Rec V) × List (Rec V)
  | 0, store => ([], store)
  | rounds + 1, store =>
      match firstDue store with
      | none => ([], store)
      | some r =>
          if r.deadline ≤ sNow then
            let x := timerLoop sNow rounds (store.eraseP fun r' => r'.serial = r.serial)
            (r :: x.1, x.2)
          else ([], store)

/-- Each round but the last erases a record. -/
def onTimer (q : RequestQueue V) (sNow : UInt64) : List (Rec V) × RequestQueue V :=
  let x := timerLoop sNow q.store.length q.store
  (x.1, { q with store := x.2 })

end RequestQueue

open RequestQueue

/-! ## The loops -/

/-- The handler gets the records up to the first one that is not too old, and
that one is returned. -/
theorem getLoop_eq (sNow : UInt64) (store : List (Rec V)) :
    (getLoop sNow store).1 = store.takeWhile (·.deadline ≤ sNow) ∧
      (getLoop sNow store).2.1 = store.find? (sNow < ·.deadline) := by
  induction store with
  | nil => exact ⟨rfl, rfl⟩
  | cons r store ih =>
      unfold getLoop
      split_ifs with h
      · simp [ih, h, UInt64.not_lt.mpr h]
      · simp [h, UInt64.not_le.mp h]

theorem getLoop_rest {sNow : UInt64} {store : List (Rec V)}
    (h : (getLoop sNow store).2.1 = none) : (getLoop sNow store).2.2 = [] := by
  induction store with
  | nil => rfl
  | cons r store ih =>
      unfold getLoop at h ⊢
      split_ifs at h ⊢ with hold
      exact ih h

/-- Nothing is lost, what the handler gets is too old, and what is returned is not. -/
theorem getLoop_spec (sNow : UInt64) (store : List (Rec V)) :
    store = (getLoop sNow store).1 ++
        ((getLoop sNow store).2.1.toList ++ (getLoop sNow store).2.2) ∧
      (∀ r ∈ (getLoop sNow store).1, r.deadline ≤ sNow) ∧
      ∀ r ∈ (getLoop sNow store).2.1, sNow < r.deadline := by
  induction store with
  | nil => simp [getLoop]
  | cons r store ih =>
      obtain ⟨hsplit, hold, hlive⟩ := ih
      unfold getLoop
      split_ifs with h
      · refine ⟨?_, ?_, hlive⟩
        · rw [List.cons_append, ← hsplit]
        · intro r' hr'
          rcases List.mem_cons.mp hr' with heq | hmem
          · rw [heq]
            exact h
          · exact hold r' hmem
      · simpa using h

theorem firstDue_eq_some {store : List (Rec V)} {r : Rec V} (h : firstDue store = some r) :
    r ∈ store ∧ ∀ r' ∈ store, r.deadline ≤ r'.deadline := by
  unfold firstDue at h
  refine ⟨List.mem_of_find?_eq_some h, ?_⟩
  simpa using List.find?_some h

theorem firstDue_eq_none {store : List (Rec V)} : firstDue store = none ↔ store = [] := by
  constructor
  · intro h
    by_contra hne
    obtain ⟨m, hm⟩ := Option.ne_none_iff_exists'.mp
      (show (store.map fun r => r.deadline.toNat).min? ≠ none by simpa using hne)
    rw [List.min?_eq_some_iff, List.mem_map] at hm
    obtain ⟨⟨r, hr, rfl⟩, hleast⟩ := hm
    unfold firstDue at h
    rw [List.find?_eq_none] at h
    apply h r hr
    rw [List.all_eq_true]
    intro r' hr'
    rw [decide_eq_true_eq, UInt64.le_iff_toNat_le]
    exact hleast _ (List.mem_map_of_mem hr')
  · intro h
    rw [h]
    rfl

/-- Serials name the records. -/
theorem perm_eraseP {store : List (Rec V)} (hnodup : (store.map Rec.serial).Nodup) {r : Rec V}
    (hr : r ∈ store) : (r :: store.eraseP fun r' => r'.serial = r.serial).Perm store ∧
      (store.eraseP fun r' => r'.serial = r.serial).Sublist store := by
  obtain ⟨a, l₁, l₂, -, hserial, hsplit, herase⟩ :=
    List.exists_of_eraseP (p := fun r' => decide (r'.serial = r.serial)) hr (by simp)
  have hself : a = r :=
    List.inj_on_of_nodup_map hnodup (hsplit ▸ by simp) hr (by simpa using hserial)
  constructor
  · rw [herase, hsplit, hself]
    exact List.perm_middle.symm
  · exact List.eraseP_sublist

/-- Enough rounds hand over everything that is too old, and leave the rest in
place. -/
theorem timerLoop_spec (sNow : UInt64) {rounds : ℕ} {store : List (Rec V)}
    (hnodup : (store.map Rec.serial).Nodup) (hrounds : store.length ≤ rounds) :
    ((timerLoop sNow rounds store).1 ++ (timerLoop sNow rounds store).2).Perm store ∧
      (timerLoop sNow rounds store).2.Sublist store ∧
      (∀ r ∈ (timerLoop sNow rounds store).1, r.deadline ≤ sNow) ∧
      ∀ r ∈ (timerLoop sNow rounds store).2, sNow < r.deadline := by
  induction rounds generalizing store with
  | zero =>
      rw [List.length_eq_zero_iff.mp (Nat.le_zero.mp hrounds)]
      simp [timerLoop]
  | succ rounds ih =>
      unfold timerLoop
      cases hdue : firstDue store with
      | none =>
          rw [firstDue_eq_none.mp hdue]
          simp
      | some r =>
          obtain ⟨hr, hleast⟩ := firstDue_eq_some hdue
          dsimp only
          split_ifs with hold
          · obtain ⟨hperm, hsub⟩ := perm_eraseP hnodup hr
            have hlen := hperm.length_eq
            rw [List.length_cons] at hlen
            obtain ⟨ihperm, ihsub, ihold, ihlive⟩ :=
              ih (hnodup.sublist (hsub.map Rec.serial)) (by omega)
            refine ⟨?_, ihsub.trans hsub, ?_, ihlive⟩
            · rw [List.cons_append]
              exact (ihperm.cons r).trans hperm
            · intro r' hr'
              rcases List.mem_cons.mp hr' with heq | hmem
              · rw [heq]
                exact hold
              · exact ihold r' hmem
          · refine ⟨List.Perm.refl _, List.Sublist.refl _, by simp, ?_⟩
            intro r' hr'
            exact UInt64.lt_of_lt_of_le (UInt64.not_le.mp hold) (hleast r' hr')

/-- The serials of the records are distinct and were handed out before. -/
structure RequestQueue.Ordered (q : RequestQueue V) : Prop where
  nodup : (q.store.map Rec.serial).Nodup
  below : ∀ r ∈ q.store, r.serial < q.serial

namespace RequestQueue.Ordered
variable {q : RequestQueue V}

theorem insert (h : q.Ordered) (aValue : V) (aTimeoutMs sNow : UInt64) :
    (q.insert aValue aTimeoutMs sNow).2.Ordered := by
  unfold RequestQueue.insert
  constructor
  · rw [List.map_append, List.nodup_append_comm]
    apply List.nodup_cons.mpr ⟨_, h.nodup⟩
    intro hmem
    obtain ⟨r, hr, hserial⟩ := List.mem_map.mp hmem
    exact Nat.lt_irrefl _ (hserial ▸ h.below r hr)
  · intro r hr
    rcases List.mem_append.mp hr with hr | hr
    · exact Nat.lt_succ_of_lt (h.below r hr)
    · rw [List.mem_singleton.mp hr]
      exact Nat.lt_succ_self _

theorem sublist (h : q.Ordered) {store : List (Rec V)} (hsub : store.Sublist q.store) :
    RequestQueue.Ordered { q with store := store } :=
  ⟨h.nodup.sublist (hsub.map Rec.serial), fun r hr => h.below r (hsub.subset hr)⟩

theorem get (h : q.Ordered) (sNow : UInt64) : (q.get sNow).2.2.Ordered := by
  apply h.sublist
  have hrest := List.sublist_append_right (getLoop sNow q.store).2.1.toList
    (getLoop sNow q.store).2.2
  conv_rhs => rw [(getLoop_spec sNow q.store).1]
  exact hrest.trans (List.sublist_append_right _ _)

theorem onTimer (h : q.Ordered) (sNow : UInt64) : (q.onTimer sNow).2.Ordered :=
  h.sublist (timerLoop_spec sNow h.nodup (Nat.le_refl _)).2.1

/-- The handler gets exactly the records that are too old. -/
theorem mem_onTimer (h : q.Ordered) (sNow : UInt64) {r : Rec V} :
    r ∈ (q.onTimer sNow).1 ↔ r ∈ q.store ∧ r.deadline ≤ sNow := by
  obtain ⟨hperm, -, hold, hlive⟩ := timerLoop_spec sNow h.nodup (Nat.le_refl _)
  constructor
  · intro hr
    exact ⟨hperm.mem_iff.mp (List.mem_append_left _ hr), hold r hr⟩
  · intro hr
    rcases List.mem_append.mp (hperm.mem_iff.mpr hr.1) with hmem | hmem
    · exact hmem
    · exact absurd hr.2 (UInt64.not_le.mpr (hlive r hmem))

end RequestQueue.Ordered

theorem le_foldr_min {l : List ℕ} {c d : ℕ} : c ≤ l.foldr min d ↔ c ≤ d ∧ ∀ x ∈ l, c ≤ x := by
  induction l with
  | nil => simp
  | cons a l ih =>
      rw [List.foldr_cons, Nat.le_min, ih, List.forall_mem_cons]
      exact and_left_comm

/-- The least of the default and of the times left. -/
theorem eta_eq (q : RequestQueue V) (aDefault sNow : UInt64) :
    (q.eta aDefault sNow).toNat =
      (q.store.map fun r => r.deadline.toNat - sNow.toNat).foldr min aDefault.toNat := by
  unfold eta
  cases hdue : firstDue q.store with
  | none =>
      rw [firstDue_eq_none.mp hdue]
      rfl
  | some r =>
      obtain ⟨hr, hleast⟩ := firstDue_eq_some hdue
      have hleft : (if r.deadline > sNow then r.deadline - sNow else 0).toNat =
          r.deadline.toNat - sNow.toNat := by
        split_ifs with hlater
        · exact UInt64.toNat_sub_of_le _ _ (UInt64.le_of_lt hlater)
        · have hle := UInt64.le_iff_toNat_le.mp (UInt64.not_lt.mp hlater)
          rw [Nat.sub_eq_zero_of_le hle]
          rfl
      dsimp only
      rw [UInt64.toNat_min, hleft]
      apply eq_of_forall_le_iff
      intro c
      rw [le_foldr_min, Nat.le_min, List.forall_mem_map]
      constructor
      · intro hc
        refine ⟨hc.1, fun r' hr' => Nat.le_trans hc.2 ?_⟩
        exact Nat.sub_le_sub_right (UInt64.le_iff_toNat_le.mp (hleast r' hr')) _
      · intro hc
        exact ⟨hc.1, hc.2 r hr⟩

/-! ## Runs -/

inductive Event (V : Type)
  | insert (aValue : V) (aTimeoutMs sNow : UInt64)
  | get (sNow : UInt64)
  | onTimer (sNow : UInt64)

/-- The queue, and what went in and came out of it: the records inserted, and
those returned by `get` and passed to the handler, with the time. -/
structure State (V : Type) where
  queue : RequestQueue V := {}
  inserted : List (Rec V) := []
  returned : List (Rec V × UInt64) := []
  handled : List (Rec V × UInt64) := []

def queueStep (s : State V) : Event V → State V
  | .insert aValue aTimeoutMs sNow =>
      let x := s.queue.insert aValue aTimeoutMs sNow
      { s with queue := x.2, inserted := s.inserted ++ [x.1] }
  | .get sNow =>
      let x := s.queue.get sNow
      { s with
        queue := x.2.2
        returned := s.returned ++ x.2.1.toList.map (·, sNow)
        handled := s.handled ++ x.1.map (·, sNow) }
  | .onTimer sNow =>
      let x := s.queue.onTimer sNow
      { s with queue := x.2, handled := s.handled ++ x.1.map (·, sNow) }

/-- Every record inserted is in one place. What was returned and what is stored is
in the order of the inserts. -/
structure Accounted (s : State V) : Prop where
  serials : s.inserted.map Rec.serial = List.range s.queue.serial
  places : (s.queue.store ++ s.returned.map Prod.fst ++ s.handled.map Prod.fst).Perm s.inserted
  order : (s.returned.map Prod.fst ++ s.queue.store).Sublist s.inserted
  live : ∀ x ∈ s.returned, x.2 < x.1.deadline
  old : ∀ x ∈ s.handled, x.1.deadline ≤ x.2

theorem Accounted.store_nodup {s : State V} (h : Accounted s) :
    (s.queue.store.map Rec.serial).Nodup := by
  have hsub := (List.sublist_append_right _ _).trans h.order
  have hnodup : (s.inserted.map Rec.serial).Nodup := h.serials ▸ List.nodup_range
  exact hnodup.sublist (hsub.map Rec.serial)

theorem Accounted.insert {s : State V} (h : Accounted s) (aValue : V) (aTimeoutMs sNow : UInt64) :
    Accounted (queueStep s (.insert aValue aTimeoutMs sNow)) := by
  simp only [queueStep, RequestQueue.insert]
  constructor
  · simp only [List.map_append, List.map_cons, List.map_nil, h.serials, List.range_succ]
  · dsimp only
    rw [List.append_assoc, List.append_assoc]
    refine (List.Perm.append_left _ List.perm_append_comm).trans ?_
    rw [← List.append_assoc, ← List.append_assoc]
    exact h.places.append_right _
  · dsimp only
    rw [← List.append_assoc]
    exact h.order.append_right _
  · exact h.live
  · exact h.old

theorem Accounted.get {s : State V} (h : Accounted s) (sNow : UInt64) :
    Accounted (queueStep s (.get sNow)) := by
  obtain ⟨hsplit, hold, hlive⟩ := getLoop_spec sNow s.queue.store
  simp only [queueStep, RequestQueue.get]
  generalize getLoop sNow s.queue.store = x at hsplit hold hlive
  have hplaces := h.places
  have horder := h.order
  rw [hsplit] at hplaces horder
  constructor
  · exact h.serials
  · simp only [List.map_append, List.map_map, Function.comp_def, List.map_id']
    refine List.Perm.trans ?_ hplaces
    classical
    rw [List.perm_iff_count]
    intro r
    simp only [List.count_append]
    omega
  · simp only [List.map_append, List.map_map, Function.comp_def, List.map_id']
    rw [List.append_assoc]
    exact ((List.sublist_append_right x.1 _).append_left _).trans horder
  · intro y hy
    rcases List.mem_append.mp hy with hy | hy
    · exact h.live y hy
    · obtain ⟨r, hr, rfl⟩ := List.mem_map.mp hy
      exact hlive r (Option.mem_toList.mp hr)
  · intro y hy
    rcases List.mem_append.mp hy with hy | hy
    · exact h.old y hy
    · obtain ⟨r, hr, rfl⟩ := List.mem_map.mp hy
      exact hold r hr

theorem Accounted.onTimer {s : State V} (h : Accounted s) (sNow : UInt64) :
    Accounted (queueStep s (.onTimer sNow)) := by
  obtain ⟨hperm, hsub, hold, -⟩ := timerLoop_spec sNow h.store_nodup (Nat.le_refl _)
  simp only [queueStep, RequestQueue.onTimer]
  generalize timerLoop sNow s.queue.store.length s.queue.store = x at hperm hsub hold
  constructor
  · exact h.serials
  · simp only [List.map_append, List.map_map, Function.comp_def, List.map_id']
    refine List.Perm.trans ?_ h.places
    classical
    rw [List.perm_iff_count] at hperm ⊢
    intro r
    have hcount := hperm r
    simp only [List.count_append] at hcount ⊢
    omega
  · exact (hsub.append_left _).trans h.order
  · exact h.live
  · intro y hy
    rcases List.mem_append.mp hy with hy | hy
    · exact h.old y hy
    · obtain ⟨r, hr, rfl⟩ := List.mem_map.mp hy
      exact hold r hr

theorem queueStep_accounted (s : State V) (e : Event V) (h : Accounted s) :
    Accounted (queueStep s e) := by
  cases e with
  | insert aValue aTimeoutMs sNow => exact h.insert aValue aTimeoutMs sNow
  | get sNow => exact h.get sNow
  | onTimer sNow => exact h.onTimer sNow

/-- In every run each record inserted is stored, or was returned once and before
its deadline, or was handled once and not before it; records come back in the order
of the inserts, a tick leaves nothing that is too old, and `eta` is the least of
its argument and of the times left. -/
theorem each_delivered_once (es : List (Event V)) :
    let s := run queueStep {} es
    ((s.queue.store ++ s.returned.map Prod.fst ++ s.handled.map Prod.fst).Perm s.inserted ∧
      (s.inserted.map Rec.serial).Nodup) ∧
    (∀ x ∈ s.returned, x.2 < x.1.deadline) ∧ (∀ x ∈ s.handled, x.1.deadline ≤ x.2) ∧
    (s.returned.map Prod.fst).Sublist s.inserted ∧
    (∀ sNow, ∀ r ∈ (s.queue.onTimer sNow).2.store, sNow < r.deadline) ∧
    ∀ aDefault sNow, (s.queue.eta aDefault sNow).toNat =
      (s.queue.store.map fun r => r.deadline.toNat - sNow.toNat).foldr min aDefault.toNat := by
  intro s
  have hstart : Accounted ({} : State V) := by
    constructor <;> simp
  have h : Accounted s :=
    run_invariant (fun s e hs _ => queueStep_accounted s e hs) hstart (meets_true _ _ es)
  refine ⟨⟨h.places, h.serials ▸ List.nodup_range⟩, h.live, h.old, ?_, ?_, eta_eq s.queue⟩
  · exact (List.sublist_append_left _ _).trans h.order
  · intro sNow
    exact (timerLoop_spec sNow h.store_nodup (Nat.le_refl _)).2.2.2

/-- Three requests with different timeouts: the second one is handled by the tick,
the first one is returned, and the third one is too old for the next get. -/
example : (run queueStep ({} : State ℕ) [.insert 10 50 0, .insert 11 5 0, .insert 12 20 0,
    .onTimer 7, .get 8, .get 20]).returned.map (fun x => x.1.value) = [10] := by
  decide

end Stuff.ContainerRequestQueue
