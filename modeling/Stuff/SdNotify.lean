import Stuff.EventRuns
import Mathlib.Data.List.Basic

/-!
# An entry of the service discovery

`SD::Notify` keeps one key in etcd, which is a parameter with what it documents of leases and keys.
A coroutine asks for a lease, puts the value with it, and then only renews the lease. `update` may
be called at any time, from any thread. A request may fail with or without an effect, and a put may
be served late. The lease is never given up, also when etcd does not know it any more.
-/
namespace Stuff.SdNotify
open EventRuns

/-- What is used of etcd: what each request does and is answered, whether a lease lives, and the key
with its value and lease. A put and a renewal are answered with an error or without one. A lease is
dropped by a request, or because it expires. -/
structure Etcd (V σ : Type) where
  grant : σ → ℕ × σ
  put : σ → V → ℕ → Option String × σ
  keepalive : σ → ℕ → Option String × σ
  drop : σ → ℕ → σ
  alive : σ → ℕ → Bool
  key : σ → Option (V × ℕ)

/-- A request is answered, or the client throws. Then it was served or not. -/
inductive Outcome
  | answered
  | throws (served : Bool) (what : String)

/-- Where the coroutine is. The timer is before the test of `m_Stop`. -/
inductive Pc (V : Type)
  | timer
  | refresh
  | createLease
  | getValue (sLease : ℕ)
  | put (sValue : V) (sLease : ℕ)
  | done (sValue : V) (sLease : ℕ)
  | updateLease
  | caught (what : String)
  | cleanup
  | stopped

structure Notify (V σ : Type) where
  no_clear : Bool
  m_Value : V
  etcd : σ
  m_Stop : Bool := false
  m_Lease : ℕ := 0
  m_Refresh : Bool := false
  m_Update : Bool := false
  m_LastError : String := "init"
  pc : Pc V := .timer
  /-- All puts that were sent. -/
  sent : List (V × ℕ) := []

variable {V σ : Type}

/-- What etcd documents. A lease has an identifier that is not zero. A put with a lease is refused
if the lease does not live, and a key goes with its lease. -/
structure Etcd.Documented (service : Etcd V σ) : Prop where
  grant_pos : ∀ s, (service.grant s).1 ≠ 0
  grant_alive : ∀ s l, service.alive (service.grant s).2 l ↔
    service.alive s l ∨ l = (service.grant s).1
  grant_key : ∀ s, service.key (service.grant s).2 = service.key s
  put_alive : ∀ s value lease l, service.alive (service.put s value lease).2 l ↔ service.alive s l
  put_served : ∀ s value lease, service.alive s lease →
    (service.put s value lease).1 = none ∧
      service.key (service.put s value lease).2 = some (value, lease)
  put_refused : ∀ s value lease, lease ≠ 0 → ¬ service.alive s lease →
    (service.put s value lease).1 ≠ none ∧
      service.key (service.put s value lease).2 = service.key s
  keepalive_alive : ∀ s lease l, service.alive (service.keepalive s lease).2 l ↔ service.alive s l
  keepalive_key : ∀ s lease, service.key (service.keepalive s lease).2 = service.key s
  keepalive_served : ∀ s lease, service.alive s lease → (service.keepalive s lease).1 = none
  drop_alive : ∀ s lease l, service.alive (service.drop s lease) l ↔
    service.alive s l ∧ l ≠ lease
  drop_key : ∀ s lease, service.alive s lease →
    service.key (service.drop s lease) = (service.key s).filter fun entry => entry.2 ≠ lease
  drop_unknown : ∀ s lease, ¬ service.alive s lease →
    service.key (service.drop s lease) = service.key s

inductive Event (V : Type)
  | update (aValue : V)
  | stop
  | turn (outcome : Outcome)
  | expires (lease : ℕ)
  | serves (i : ℕ)

namespace Notify

def update (s : Notify V σ) (aValue : V) : Notify V σ :=
  { s with m_Value := aValue, m_Refresh := false, m_Update := true }

/-- The lease is made, whether the client hears of it or not. -/
def createLease (service : Etcd V σ) (s : Notify V σ) : Outcome → Notify V σ
  | .answered =>
      { s with etcd := (service.grant s.etcd).2, pc := .getValue (service.grant s.etcd).1 }
  | .throws true what => { s with etcd := (service.grant s.etcd).2, pc := .caught what }
  | .throws false what => { s with pc := .caught what }

def put (service : Etcd V σ) (s : Notify V σ) (sValue : V) (sLease : ℕ) (outcome : Outcome) :
    Notify V σ :=
  let s' := { s with sent := s.sent ++ [(sValue, sLease)] }
  let served := service.put s.etcd sValue sLease
  match outcome with
  | .answered =>
      { s' with
        etcd := served.2
        pc := match served.1 with
          | none => .done sValue sLease
          | some what => .caught what }
  | .throws true what => { s' with etcd := served.2, pc := .caught what }
  | .throws false what => { s' with pc := .caught what }

def updateLease (service : Etcd V σ) (s : Notify V σ) (outcome : Outcome) : Notify V σ :=
  let served := service.keepalive s.etcd s.m_Lease
  match outcome with
  | .answered =>
      { s with
        etcd := served.2
        pc := match served.1 with
          | none => .timer
          | some what => .caught what }
  | .throws true what => { s with etcd := served.2, pc := .caught what }
  | .throws false what => { s with pc := .caught what }

/-- Whatever the answer is. -/
def cleanup (service : Etcd V σ) (s : Notify V σ) (outcome : Outcome) : Notify V σ :=
  let s' := { s with pc := .stopped, m_LastError := "stopped" }
  if s.no_clear then s'
  else
    match outcome with
    | .throws false _ => s'
    | _ => { s' with etcd := service.drop s.etcd s.m_Lease }

/-- The end of `init`, with the mutex. -/
def done [DecidableEq V] (s : Notify V σ) (sValue : V) (sLease : ℕ) : Notify V σ :=
  let s' := { s with m_Lease := sLease, m_LastError := "", pc := .timer }
  if sValue ≠ s.m_Value then s' else { s' with m_Refresh := true, m_Update := false }

/-- The coroutine goes on. -/
def turn [DecidableEq V] (service : Etcd V σ) (s : Notify V σ) (outcome : Outcome) :
    Notify V σ :=
  match s.pc with
  | .timer => { s with pc := if s.m_Stop then .cleanup else .refresh }
  | .refresh =>
      { s with
        pc :=
          if s.m_Refresh then .updateLease
          else if s.m_Lease = 0 then .createLease
          else .getValue s.m_Lease }
  | .createLease => createLease service s outcome
  | .getValue sLease => { s with pc := .put s.m_Value sLease }
  | .put sValue sLease => put service s sValue sLease outcome
  | .done sValue sLease => s.done sValue sLease
  | .updateLease => updateLease service s outcome
  | .caught what => { s with m_Refresh := false, m_LastError := what, pc := .timer }
  | .cleanup => cleanup service s outcome
  | .stopped => s

def step [DecidableEq V] (service : Etcd V σ) (s : Notify V σ) : Event V → Notify V σ
  | .update aValue => s.update aValue
  | .stop => { s with m_Stop := true }
  | .turn outcome => turn service s outcome
  | .expires lease => { s with etcd := service.drop s.etcd lease }
  | .serves i =>
      match s.sent[i]? with
      | none => s
      | some (value, lease) => { s with etcd := (service.put s.etcd value lease).2 }

end Notify

/-- A put is not served behind a later one. -/
def Admits (s : Notify V σ) : Event V → Prop
  | .serves i => i + 1 = s.sent.length
  | _ => True

instance (s : Notify V σ) : (e : Event V) → Decidable (Admits s e)
  | .serves i => inferInstanceAs (Decidable (i + 1 = s.sent.length))
  | .update _ => isTrue trivial
  | .stop => isTrue trivial
  | .turn _ => isTrue trivial
  | .expires _ => isTrue trivial

/-! ## The invariant -/

namespace Notify

section Inv
variable (service : Etcd V σ)

/-- The last put, whose key is there as long as its lease lives. -/
structure Holds (etcd : σ) (sent : List (V × ℕ)) (value : V) (lease : ℕ) : Prop where
  last : sent.getLast? = some (value, lease)
  key : service.alive etcd lease ∧ service.key etcd = some (value, lease) ∨
    ¬ service.alive etcd lease ∧ service.key etcd = none

/-- The lease that `init` goes on with. -/
structure Own (m_Lease sLease : ℕ) : Prop where
  pos : sLease ≠ 0
  same : m_Lease ≠ 0 → sLease = m_Lease

/-- What is true where the coroutine is. -/
def Stage (s : Notify V σ) : Prop :=
  match s.pc with
  | .createLease => s.m_Refresh = false ∧ s.m_Lease = 0
  | .getValue sLease => s.m_Refresh = false ∧ Own s.m_Lease sLease
  | .put _ sLease => s.m_Refresh = false ∧ Own s.m_Lease sLease
  | .done sValue sLease =>
      s.m_Refresh = false ∧ Own s.m_Lease sLease ∧ Holds service s.etcd s.sent sValue sLease
  | _ => True

/-- A key has a lease that lives. -/
def Living (etcd : σ) : Prop :=
  ∀ value lease, service.key etcd = some (value, lease) → service.alive etcd lease

structure Inv (s : Notify V σ) : Prop where
  living : Living service s.etcd
  key : s.m_Lease ≠ 0 →
    ∀ value lease, service.key s.etcd = some (value, lease) → lease = s.m_Lease
  sent : ∀ value lease, s.sent.getLast? = some (value, lease) → Own s.m_Lease lease
  refresh : s.m_Refresh = true →
    s.m_Lease ≠ 0 ∧ Holds service s.etcd s.sent s.m_Value s.m_Lease
  stage : s.Stage service

end Inv

/-- The object, before the coroutine runs. -/
def start (no_clear : Bool) (aValue : V) (etcd : σ) : Notify V σ :=
  { no_clear := no_clear, m_Value := aValue, etcd := etcd }

theorem inv_start {service : Etcd V σ} {etcd : σ} (hkey : service.key etcd = none)
    (no_clear : Bool) (aValue : V) : Inv service (start no_clear aValue etcd) := by
  constructor
  case living =>
    intro value lease h
    rw [start, hkey] at h
    cases h
  case key => exact fun h => absurd rfl h
  case sent => exact fun _ _ h => by cases h
  case refresh => exact fun h => by cases h
  case stage => trivial

section Lemmas
variable {service : Etcd V σ} (hservice : service.Documented) {s : Notify V σ} {etcd : σ}
  {sent : List (V × ℕ)} {value v : V} {lease l : ℕ}

include hservice in
theorem key_drop (h : Living service etcd) :
    service.key (service.drop etcd lease) = some (value, l) ↔
      service.key etcd = some (value, l) ∧ l ≠ lease := by
  by_cases hlease : service.alive etcd lease
  · rw [hservice.drop_key etcd lease hlease, Option.filter_eq_some_iff, decide_eq_true_iff]
  · rw [hservice.drop_unknown etcd lease hlease]
    refine ⟨fun hkey => ⟨hkey, ?_⟩, And.left⟩
    rintro rfl
    exact hlease (h value l hkey)

include hservice in
theorem key_put (hl : lease ≠ 0)
    (h : service.key (service.put etcd value lease).2 = some (v, l)) :
    (service.alive etcd lease ∧ l = lease) ∨ service.key etcd = some (v, l) := by
  by_cases hlease : service.alive etcd lease
  · rw [(hservice.put_served etcd value lease hlease).2] at h
    cases h
    exact Or.inl ⟨hlease, rfl⟩
  · rw [(hservice.put_refused etcd value lease hl hlease).2] at h
    exact Or.inr h

/-- A state of etcd with the same leases and the same key. -/
theorem Holds.same {etcd' : σ} (halive : service.alive etcd' l ↔ service.alive etcd l)
    (hkey : service.key etcd' = service.key etcd) (h : Holds service etcd sent value l) :
    Holds service etcd' sent value l :=
  ⟨h.last, by rw [halive, hkey]; exact h.key⟩

include hservice in
theorem Holds.drop (hliving : Living service etcd) (h : Holds service etcd sent value l)
    (lease : ℕ) : Holds service (service.drop etcd lease) sent value l := by
  refine ⟨h.last, ?_⟩
  rw [hservice.drop_alive]
  have hnone : (∀ v l', service.key (service.drop etcd lease) ≠ some (v, l')) →
      service.key (service.drop etcd lease) = none :=
    fun hno => Option.eq_none_iff_forall_ne_some.mpr fun entry => hno entry.1 entry.2
  rcases h.key with ⟨hmem, hkey⟩ | ⟨hmem, hkey⟩
  · by_cases heq : l = lease
    · refine Or.inr ⟨fun h => h.2 heq, hnone ?_⟩
      intro v l' hentry
      obtain ⟨hold, hne⟩ := (key_drop hservice hliving).mp hentry
      rw [hkey] at hold
      cases hold
      exact hne heq
    · exact Or.inl ⟨⟨hmem, heq⟩, (key_drop hservice hliving).mpr ⟨hkey, heq⟩⟩
  · refine Or.inr ⟨fun h => hmem h.1, hnone ?_⟩
    intro v l' hentry
    have hold := ((key_drop hservice hliving).mp hentry).1
    rw [hkey] at hold
    cases hold

include hservice in
/-- The same put once more. -/
theorem Holds.put (hl : l ≠ 0) (h : Holds service etcd sent value l) :
    Holds service (service.put etcd value l).2 sent value l := by
  refine ⟨h.last, ?_⟩
  rw [hservice.put_alive]
  rcases h.key with ⟨hmem, -⟩ | ⟨hmem, hkey⟩
  · exact Or.inl ⟨hmem, (hservice.put_served etcd value l hmem).2⟩
  · exact Or.inr ⟨hmem, (hservice.put_refused etcd value l hl hmem).2.trans hkey⟩

/-- The coroutine goes to another place. -/
theorem Inv.goes (h : s.Inv service) (pc : Pc V) (what : String)
    (hstage : Stage service { s with pc := pc }) :
    Inv service { s with pc := pc, m_LastError := what } :=
  ⟨h.living, h.key, h.sent, h.refresh, hstage⟩

/-- etcd goes to a state in which what is held is held. -/
theorem Inv.serves (h : s.Inv service) (etcd : σ) (hliving : Living service etcd)
    (hkey : s.m_Lease ≠ 0 →
      ∀ value lease, service.key etcd = some (value, lease) → lease = s.m_Lease)
    (hholds : ∀ value lease, Holds service s.etcd s.sent value lease →
      Holds service etcd s.sent value lease) :
    Inv service { s with etcd := etcd } := by
  constructor
  case living => exact hliving
  case key => exact hkey
  case sent => exact h.sent
  case refresh => exact fun hr => ⟨(h.refresh hr).1, hholds _ _ (h.refresh hr).2⟩
  case stage =>
    have hstage := h.stage
    unfold Stage at hstage ⊢
    dsimp only
    cases hpc : s.pc <;> rw [hpc] at hstage <;> try trivial
    case done sValue sLease => exact ⟨hstage.1, hstage.2.1, hholds _ _ hstage.2.2⟩

include hservice in
theorem Inv.drop (h : s.Inv service) (lease : ℕ) :
    Inv service { s with etcd := service.drop s.etcd lease } := by
  refine h.serves _ ?_ ?_ fun value l hholds => hholds.drop hservice h.living lease
  · intro value l hl
    obtain ⟨hkey, hne⟩ := (key_drop hservice h.living).mp hl
    exact (hservice.drop_alive s.etcd lease l).mpr ⟨h.living value l hkey, hne⟩
  · exact fun hm value l hl => h.key hm value l ((key_drop hservice h.living).mp hl).1

include hservice in
/-- The last put is served, for the first time or once more. -/
theorem Inv.putServed (h : s.Inv service) (hlast : s.sent.getLast? = some (value, l)) :
    Inv service { s with etcd := (service.put s.etcd value l).2 } := by
  have hown := h.sent value l hlast
  refine h.serves _ ?_ ?_ ?_
  · intro v l' hkey
    rw [hservice.put_alive]
    rcases key_put hservice hown.pos hkey with ⟨hmem, rfl⟩ | hkey
    · exact hmem
    · exact h.living v l' hkey
  · intro hm v l' hkey
    rcases key_put hservice hown.pos hkey with ⟨-, rfl⟩ | hkey
    · exact hown.same hm
    · exact h.key hm v l' hkey
  · intro v l' hholds
    have heq := hholds.last
    rw [hlast] at heq
    cases heq
    exact hholds.put hservice hown.pos

/-- A put with the own lease is sent. -/
theorem Inv.sends (h : s.Inv service) (hr : s.m_Refresh = false) (hown : Own s.m_Lease l)
    (value : V) : Inv service { s with sent := s.sent ++ [(value, l)], pc := .timer } := by
  constructor
  case living => exact h.living
  case key => exact h.key
  case sent =>
    intro v l' heq
    rw [List.getLast?_concat] at heq
    cases heq
    exact hown
  case refresh => exact fun hr' => absurd (hr.symm.trans hr') Bool.false_ne_true
  case stage => trivial

include hservice in
theorem Inv.grant (h : s.Inv service) (hr : s.m_Refresh = false) (hm : s.m_Lease = 0) :
    Inv service { s with
      etcd := (service.grant s.etcd).2
      pc := .getValue (service.grant s.etcd).1 } := by
  constructor
  case living =>
    intro value l hl
    rw [hservice.grant_key] at hl
    exact (hservice.grant_alive s.etcd l).mpr (Or.inl (h.living value l hl))
  case key => exact fun hne => absurd hm hne
  case sent => exact h.sent
  case refresh => exact fun hr' => absurd (hr.symm.trans hr') Bool.false_ne_true
  case stage => exact ⟨hr, hservice.grant_pos s.etcd, fun hne => absurd hm hne⟩

theorem Inv.done [DecidableEq V] (h : s.Inv service) {sValue : V} {sLease : ℕ}
    (hr : s.m_Refresh = false) (hown : Own s.m_Lease sLease)
    (hholds : Holds service s.etcd s.sent sValue sLease) : (s.done sValue sLease).Inv service := by
  have hkey : ∀ value l, service.key s.etcd = some (value, l) → l = sLease := by
    intro value l hl
    rcases hholds.key with ⟨-, hkey⟩ | ⟨-, hkey⟩
    · rw [hkey] at hl
      cases hl
      rfl
    · rw [hkey] at hl
      cases hl
  have hsent : ∀ value l, s.sent.getLast? = some (value, l) → Own sLease l := by
    intro value l hl
    rw [hholds.last] at hl
    cases hl
    exact ⟨hown.pos, fun _ => rfl⟩
  unfold Notify.done
  dsimp only
  split_ifs with hvalue
  · exact ⟨h.living, fun _ => hkey, hsent,
      fun hr' => absurd (hr.symm.trans hr') Bool.false_ne_true, trivial⟩
  · rw [not_not] at hvalue
    exact ⟨h.living, fun _ => hkey, hsent, fun _ => ⟨hown.pos, hvalue ▸ hholds⟩, trivial⟩

include hservice in
theorem Inv.put (h : s.Inv service) {sValue : V} {sLease : ℕ} (hr : s.m_Refresh = false)
    (hown : Own s.m_Lease sLease) (outcome : Outcome) :
    (put service s sValue sLease outcome).Inv service := by
  have hsent := h.sends hr hown sValue
  have hserved := hsent.putServed hservice List.getLast?_concat
  cases outcome with
  | answered =>
      refine hserved.goes _ s.m_LastError ?_
      unfold Stage
      dsimp only
      by_cases hmem : service.alive s.etcd sLease
      · obtain ⟨hanswer, hkey⟩ := hservice.put_served s.etcd sValue sLease hmem
        rw [hanswer]
        have halive := (hservice.put_alive s.etcd sValue sLease sLease).mpr hmem
        exact ⟨hr, hown, List.getLast?_concat, Or.inl ⟨halive, hkey⟩⟩
      · obtain ⟨hanswer, -⟩ := hservice.put_refused s.etcd sValue sLease hown.pos hmem
        obtain ⟨what, hwhat⟩ := Option.ne_none_iff_exists'.mp hanswer
        rw [hwhat]
        trivial
  | throws served what =>
      cases served with
      | true => exact hserved.goes _ s.m_LastError trivial
      | false => exact hsent.goes _ s.m_LastError trivial

include hservice in
theorem Inv.updateLease (h : s.Inv service) (outcome : Outcome) :
    (updateLease service s outcome).Inv service := by
  have hserved : Inv service { s with etcd := (service.keepalive s.etcd s.m_Lease).2 } := by
    have hkey := hservice.keepalive_key s.etcd s.m_Lease
    have halive := hservice.keepalive_alive s.etcd s.m_Lease
    refine h.serves _ ?_ ?_ fun value l hholds => hholds.same (halive l) hkey
    · intro value l hl
      rw [hkey] at hl
      exact (halive l).mpr (h.living value l hl)
    · intro hm value l hl
      rw [hkey] at hl
      exact h.key hm value l hl
  cases outcome with
  | answered =>
      refine hserved.goes _ s.m_LastError ?_
      unfold Stage
      dsimp only
      cases (service.keepalive s.etcd s.m_Lease).1 <;> trivial
  | throws served what =>
      cases served with
      | true => exact hserved.goes _ s.m_LastError trivial
      | false => exact h.goes _ s.m_LastError trivial

include hservice in
theorem Inv.turn [DecidableEq V] (h : s.Inv service) (outcome : Outcome) :
    (turn service s outcome).Inv service := by
  have hstage := h.stage
  unfold Stage at hstage
  unfold Notify.turn
  cases hpc : s.pc <;> rw [hpc] at hstage <;> dsimp only at hstage ⊢
  case timer =>
    refine h.goes _ s.m_LastError ?_
    unfold Stage
    dsimp only
    split_ifs <;> trivial
  case refresh =>
    refine h.goes _ s.m_LastError ?_
    unfold Stage
    dsimp only
    split_ifs with hr hm
    · trivial
    · exact ⟨Bool.eq_false_iff.mpr hr, hm⟩
    · exact ⟨Bool.eq_false_iff.mpr hr, hm, fun _ => rfl⟩
  case createLease =>
    have hgrant := h.grant hservice hstage.1 hstage.2
    cases outcome with
    | answered => exact hgrant
    | throws served what =>
        cases served with
        | true => exact hgrant.goes _ s.m_LastError trivial
        | false => exact h.goes _ s.m_LastError trivial
  case getValue sLease => exact h.goes _ s.m_LastError ⟨hstage.1, hstage.2⟩
  case put sValue sLease => exact h.put hservice hstage.1 hstage.2 outcome
  case done sValue sLease => exact h.done hstage.1 hstage.2.1 hstage.2.2
  case updateLease => exact h.updateLease hservice outcome
  case caught what =>
    exact ⟨h.living, h.key, h.sent, fun hr => absurd hr Bool.false_ne_true, trivial⟩
  case cleanup =>
    have hstopped := h.goes .stopped "stopped" trivial
    unfold Notify.cleanup
    dsimp only
    split_ifs
    · exact hstopped
    · cases outcome with
      | answered => exact hstopped.drop hservice s.m_Lease
      | throws served what =>
          cases served with
          | true => exact hstopped.drop hservice s.m_Lease
          | false => exact hstopped
  case stopped => exact h

include hservice in
theorem Inv.step [DecidableEq V] (h : s.Inv service) {e : Event V} (hadmits : Admits s e) :
    (s.step service e).Inv service := by
  cases e with
  | update aValue =>
      have hstage := h.stage
      refine ⟨h.living, h.key, h.sent, fun hr => absurd hr Bool.false_ne_true, ?_⟩
      unfold Stage at hstage ⊢
      simp only [Notify.step, Notify.update]
      cases hpc : s.pc <;> rw [hpc] at hstage
      case createLease => exact ⟨trivial, hstage.2⟩
      case getValue sLease => exact ⟨trivial, hstage.2⟩
      case put sValue sLease => exact ⟨trivial, hstage.2⟩
      case done sValue sLease => exact ⟨trivial, hstage.2⟩
      all_goals trivial
  | stop => exact ⟨h.living, h.key, h.sent, h.refresh, h.stage⟩
  | turn outcome => exact h.turn hservice outcome
  | expires lease => exact h.drop hservice lease
  | serves i =>
      simp only [Notify.step]
      split
      · exact h
      · next value l hi =>
        apply h.putServed hservice
        rw [List.getLast?_eq_getElem?, ← hi]
        have hadmits' : i + 1 = s.sent.length := hadmits
        rw [← hadmits', Nat.add_sub_cancel]

end Lemmas

end Notify

/-! ## Runs -/

section Runs
variable [DecidableEq V] {service : Etcd V σ}

theorem inv_run (hservice : service.Documented) {etcd : σ} (hkey : service.key etcd = none)
    (no_clear : Bool) (aValue : V) {es : List (Event V)}
    (hes : Meets (Notify.step service) Admits (Notify.start no_clear aValue etcd) es) :
    (run (Notify.step service) (Notify.start no_clear aValue etcd) es).Inv service :=
  run_invariant (fun _ _ h hadmits => h.step hservice hadmits)
    (Notify.inv_start hkey no_clear aValue) hes

/-- The value that `update` was called with last. -/
def lastValue (aValue : V) (es : List (Event V)) : V :=
  es.foldl (fun value e =>
    match e with
    | .update aValue => aValue
    | _ => value) aValue

theorem m_Value_step (s : Notify V σ) (e : Event V) :
    (s.step service e).m_Value = lastValue s.m_Value [e] := by
  cases e with
  | turn outcome =>
      change (s.turn service outcome).m_Value = s.m_Value
      unfold Notify.turn
      cases hpc : s.pc <;> dsimp only
      case createLease => rcases outcome with _ | ⟨_ | _, what⟩ <;> rfl
      case put sValue sLease => rcases outcome with _ | ⟨_ | _, what⟩ <;> rfl
      case updateLease => rcases outcome with _ | ⟨_ | _, what⟩ <;> rfl
      case done sValue sLease =>
        unfold Notify.done
        dsimp only
        split_ifs <;> rfl
      case cleanup =>
        unfold Notify.cleanup
        dsimp only
        split_ifs
        · rfl
        · rcases outcome with _ | ⟨_ | _, what⟩ <;> rfl
  | serves i =>
      simp only [Notify.step]
      split <;> rfl
  | _ => rfl

theorem m_Value_run (s : Notify V σ) (es : List (Event V)) :
    (run (Notify.step service) s es).m_Value = lastValue s.m_Value es := by
  induction es generalizing s with
  | nil => rfl
  | cons e es ih => rw [run_cons, ih, m_Value_step]; rfl

/-- As long as the lease is only renewed and lives, the key has the value of the last update. -/
theorem keeps_registered (hservice : service.Documented) (etcd : σ)
    (hkey : service.key etcd = none) (no_clear : Bool) (aValue : V) (es : List (Event V))
    (hes : Meets (Notify.step service) Admits (Notify.start no_clear aValue etcd) es) :
    let s := run (Notify.step service) (Notify.start no_clear aValue etcd) es
    s.m_Refresh = true → service.alive s.etcd s.m_Lease →
      service.key s.etcd = some (lastValue aValue es, s.m_Lease) := by
  intro s hr hmem
  have hvalue : s.m_Value = lastValue aValue es := m_Value_run _ es
  have hinv := inv_run hservice hkey no_clear aValue hes
  rcases (hinv.refresh hr).2.key with ⟨-, hkey⟩ | ⟨hgone, -⟩
  · exact hvalue ▸ hkey
  · exact absurd hmem hgone

/-- A lease that the object has is never changed, and no other one is made. -/
theorem lease_step (hservice : service.Documented) {s : Notify V σ} (h : s.Inv service)
    (hm : s.m_Lease ≠ 0) (e : Event V) :
    (s.step service e).m_Lease = s.m_Lease ∧
      ∀ l, service.alive (s.step service e).etcd l → service.alive s.etcd l := by
  have hput : ∀ (value : V) (lease l : ℕ), service.alive (service.put s.etcd value lease).2 l →
      service.alive s.etcd l := fun value lease l => (hservice.put_alive s.etcd value lease l).mp
  have hrenew : ∀ l, service.alive (service.keepalive s.etcd s.m_Lease).2 l →
      service.alive s.etcd l := fun l => (hservice.keepalive_alive s.etcd s.m_Lease l).mp
  have hdrop : ∀ lease l, service.alive (service.drop s.etcd lease) l → service.alive s.etcd l :=
    fun lease l hl => ((hservice.drop_alive s.etcd lease l).mp hl).1
  cases e with
  | update aValue => exact ⟨rfl, fun _ hl => hl⟩
  | stop => exact ⟨rfl, fun _ hl => hl⟩
  | expires lease => exact ⟨rfl, hdrop lease⟩
  | serves i =>
      simp only [Notify.step]
      split
      · exact ⟨rfl, fun _ hl => hl⟩
      · next value l _ => exact ⟨rfl, hput value l⟩
  | turn outcome =>
      have hstage := h.stage
      unfold Notify.Stage at hstage
      change (s.turn service outcome).m_Lease = _ ∧
        ∀ l, service.alive (s.turn service outcome).etcd l → _
      unfold Notify.turn
      cases hpc : s.pc <;> rw [hpc] at hstage <;> dsimp only at hstage ⊢
      case createLease => exact absurd hstage.2 hm
      case put sValue sLease =>
        rcases outcome with _ | ⟨_ | _, what⟩
        · exact ⟨rfl, hput sValue sLease⟩
        · exact ⟨rfl, fun _ hl => hl⟩
        · exact ⟨rfl, hput sValue sLease⟩
      case done sValue sLease =>
        have hsame := hstage.2.1.same hm
        unfold Notify.done
        dsimp only
        split_ifs
        · exact ⟨hsame, fun _ hl => hl⟩
        · exact ⟨hsame, fun _ hl => hl⟩
      case updateLease =>
        rcases outcome with _ | ⟨_ | _, what⟩
        · exact ⟨rfl, hrenew⟩
        · exact ⟨rfl, fun _ hl => hl⟩
        · exact ⟨rfl, hrenew⟩
      case cleanup =>
        unfold Notify.cleanup
        dsimp only
        split_ifs
        · exact ⟨rfl, fun _ hl => hl⟩
        · rcases outcome with _ | ⟨_ | _, what⟩
          · exact ⟨rfl, hdrop s.m_Lease⟩
          · exact ⟨rfl, fun _ hl => hl⟩
          · exact ⟨rfl, hdrop s.m_Lease⟩
      all_goals exact ⟨rfl, fun _ hl => hl⟩

/-- When the lease of the object does not live any more, because it expired or was revoked, the key
is gone, and it is never put again, whatever is updated. -/
theorem never_back (hservice : service.Documented) (etcd : σ) (hkey : service.key etcd = none)
    (no_clear : Bool) (aValue : V) (es later : List (Event V))
    (hes : Meets (Notify.step service) Admits (Notify.start no_clear aValue etcd)
      (es ++ later)) :
    let s := run (Notify.step service) (Notify.start no_clear aValue etcd) es
    s.m_Lease ≠ 0 → ¬ service.alive s.etcd s.m_Lease →
      service.key (run (Notify.step service) s later).etcd = none := by
  intro s hm hgone
  rw [meets_append] at hes
  have hstays : ∀ t : Notify V σ, t.Inv service → t.m_Lease ≠ 0 →
      ¬ service.alive t.etcd t.m_Lease → Meets (Notify.step service) Admits t later →
      (run (Notify.step service) t later).Inv service ∧
        (run (Notify.step service) t later).m_Lease ≠ 0 ∧
        ¬ service.alive (run (Notify.step service) t later).etcd
          (run (Notify.step service) t later).m_Lease := by
    intro t ht hm hgone hlater
    refine run_invariant (I := fun t => t.Inv service ∧ t.m_Lease ≠ 0 ∧
      ¬ service.alive t.etcd t.m_Lease) ?_ ⟨ht, hm, hgone⟩ hlater
    rintro t e ⟨ht, hm, hgone⟩ hadmits
    obtain ⟨hsame, hleases⟩ := lease_step hservice ht hm e
    exact ⟨ht.step hservice hadmits, hsame.symm ▸ hm, hsame.symm ▸ fun hl => hgone (hleases _ hl)⟩
  obtain ⟨hinv, hm', hgone'⟩ :=
    hstays s (inv_run hservice hkey no_clear aValue hes.1) hm hgone hes.2
  rw [Option.eq_none_iff_forall_ne_some]
  rintro ⟨value, lease⟩ hkey
  have hsame := hinv.key hm' value lease hkey
  exact hgone' (hsame ▸ hinv.living value lease hkey)

/-- From the value on, three turns. -/
theorem registers_value (hservice : service.Documented) {s : Notify V σ} {l : ℕ}
    (hpc : s.pc = .getValue l) (hmem : service.alive s.etcd l) :
    let s' := run (Notify.step service) s (List.replicate 3 (.turn .answered))
    s'.pc = .timer ∧ s'.m_Refresh = true ∧
      service.key s'.etcd = some (s.m_Value, s'.m_Lease) := by
  obtain ⟨hanswer, hkey⟩ := hservice.put_served s.etcd s.m_Value l hmem
  have hput : s.turn service .answered = { s with pc := .put s.m_Value l } := by
    unfold Notify.turn
    rw [hpc]
  have hdone : Notify.turn service { s with pc := .put s.m_Value l } .answered =
      { s with
        sent := s.sent ++ [(s.m_Value, l)]
        etcd := (service.put s.etcd s.m_Value l).2
        pc := .done s.m_Value l } := by
    simp only [Notify.turn, Notify.put, hanswer]
  change let s' := Notify.turn service (Notify.turn service (s.turn service .answered)
      .answered) .answered
    s'.pc = .timer ∧ s'.m_Refresh = true ∧ service.key s'.etcd = some (s.m_Value, s'.m_Lease)
  rw [hput, hdone]
  simp only [Notify.turn, Notify.done, ne_eq, not_true_eq_false, if_false, hkey, and_self]

/-- If the requests are answered and nobody updates meanwhile, the coroutine puts what is to be put
and waits for the timer again. -/
theorem refresh_registers (hservice : service.Documented) (etcd : σ)
    (hkey : service.key etcd = none) (no_clear : Bool) (aValue : V) (es : List (Event V))
    (hes : Meets (Notify.step service) Admits (Notify.start no_clear aValue etcd) es) :
    let s := run (Notify.step service) (Notify.start no_clear aValue etcd) es
    s.pc = .timer → s.m_Stop = false → (s.m_Lease = 0 ∨ service.alive s.etcd s.m_Lease) →
      ∃ n ≤ 6, let s' := run (Notify.step service) s (List.replicate n (.turn .answered))
        s'.pc = .timer ∧ s'.m_Refresh = true ∧
          service.key s'.etcd = some (lastValue aValue es, s'.m_Lease) := by
  intro s hpc hstop hlease
  have hinv := inv_run hservice hkey no_clear aValue hes
  have hvalue : s.m_Value = lastValue aValue es := m_Value_run _ es
  have hrefresh : s.turn service .answered = { s with pc := .refresh } := by
    unfold Notify.turn
    rw [hpc, hstop]
    rfl
  rw [← hvalue]
  by_cases hr : s.m_Refresh = true
  · refine ⟨3, by decide, ?_⟩
    obtain ⟨hne, hholds⟩ := hinv.refresh hr
    have hmem := hlease.resolve_left hne
    have hrun : run (Notify.step service) s (List.replicate 3 (.turn .answered)) =
        { s with etcd := (service.keepalive s.etcd s.m_Lease).2, pc := .timer } := by
      change Notify.turn service (Notify.turn service (s.turn service .answered)
        .answered) .answered = _
      rw [hrefresh]
      simp only [Notify.turn, hr, if_true, Notify.updateLease,
        hservice.keepalive_served s.etcd s.m_Lease hmem]
    rw [hrun]
    refine ⟨rfl, hr, (hservice.keepalive_key s.etcd s.m_Lease).trans ?_⟩
    rcases hholds.key with ⟨-, hkey⟩ | ⟨hgone, -⟩
    · exact hkey
    · exact absurd hmem hgone
  · by_cases hm : s.m_Lease = 0
    · refine ⟨6, Nat.le_refl 6, ?_⟩
      have hrun : run (Notify.step service) s (List.replicate 3 (.turn .answered)) =
          { s with
            etcd := (service.grant s.etcd).2
            pc := .getValue (service.grant s.etcd).1 } := by
        change Notify.turn service (Notify.turn service (s.turn service .answered)
          .answered) .answered = _
        rw [hrefresh]
        simp only [Notify.turn, hr, hm, if_true, if_false, Notify.createLease, Bool.false_eq_true]
      rw [List.replicate_add 3 3, run_append, hrun]
      exact registers_value hservice rfl ((hservice.grant_alive _ _).mpr (Or.inr rfl))
    · refine ⟨5, by decide, ?_⟩
      have hrun : run (Notify.step service) s (List.replicate 2 (.turn .answered)) =
          { s with pc := .getValue s.m_Lease } := by
        change Notify.turn service (s.turn service .answered) .answered = _
        rw [hrefresh]
        simp only [Notify.turn, hr, hm, if_false, Bool.false_eq_true]
      rw [List.replicate_add 2 3, run_append, hrun]
      exact registers_value hservice rfl (hlease.resolve_left hm)

end Runs

/-- The leases that live, the last one that was made, and the key. -/
structure Leases where
  leases : List ℕ := []
  last : ℕ := 0
  key : Option (ℕ × ℕ) := none

/-- An etcd that numbers the leases. -/
def counting : Etcd ℕ Leases where
  grant s := (s.last + 1, { s with leases := (s.last + 1) :: s.leases, last := s.last + 1 })
  put s value lease :=
    if lease = 0 ∨ lease ∈ s.leases then (none, { s with key := some (value, lease) })
    else (some "etcdserver: requested lease not found", s)
  keepalive s _ := (none, s)
  drop s lease :=
    { s with
      leases := s.leases.filter fun l => l ≠ lease
      key := if lease ∈ s.leases then s.key.filter fun entry => entry.2 ≠ lease else s.key }
  alive s lease := decide (lease ∈ s.leases)
  key s := s.key

theorem documented_counting : counting.Documented := by
  constructor
  case grant_pos => exact fun s => Nat.succ_ne_zero s.last
  case grant_alive =>
    intro s l
    simp only [counting, List.mem_cons, decide_eq_true_eq]
    exact or_comm
  case grant_key => exact fun _ => rfl
  case put_alive =>
    intro s value lease l
    simp only [counting]
    split_ifs <;> rfl
  case put_served =>
    intro s value lease hmem
    simp only [counting, decide_eq_true_eq] at hmem ⊢
    rw [if_pos (Or.inr hmem)]
    exact ⟨rfl, rfl⟩
  case put_refused =>
    intro s value lease hpos hmem
    simp only [counting, decide_eq_true_eq] at hmem ⊢
    rw [if_neg (not_or.mpr ⟨hpos, hmem⟩)]
    exact ⟨Option.some_ne_none _, rfl⟩
  case keepalive_alive => exact fun _ _ _ => Iff.rfl
  case keepalive_key => exact fun _ _ => rfl
  case keepalive_served => exact fun _ _ _ => rfl
  case drop_alive =>
    intro s lease l
    simp only [counting, List.mem_filter, decide_eq_true_eq]
  case drop_key =>
    intro s lease hmem
    simp only [counting, decide_eq_true_eq] at hmem ⊢
    rw [if_pos hmem]
  case drop_unknown =>
    intro s lease hmem
    simp only [counting, decide_eq_true_eq] at hmem ⊢
    rw [if_neg hmem]

/-- The first put is not answered and served late, and the value is changed while it is put for the
second time. -/
def updates : List (Event ℕ) :=
  List.replicate 4 (.turn .answered) ++ [.turn (.throws false "etcd timeout"), .serves 0] ++
    List.replicate 6 (.turn .answered) ++ [.update 8] ++ List.replicate 6 (.turn .answered)

theorem keeps_registered_updates :
    (run (Notify.step counting) (Notify.start false 7 {}) updates).etcd.key = some (8, 2) :=
  keeps_registered documented_counting {} rfl false 7 updates (by decide) (by decide) (by decide)

theorem never_back_expired :
    (run (Notify.step counting) (run (Notify.step counting) (Notify.start false 7 {})
      (updates ++ [.expires 2])) (.update 9 :: List.replicate 6 (.turn .answered))).etcd.key =
        none := by
  have hes : Meets (Notify.step counting) Admits (Notify.start false 7 {})
      ((updates ++ [.expires 2]) ++ .update 9 :: List.replicate 6 (.turn .answered)) := by decide
  have hnever := never_back documented_counting {} rfl false 7 _ _ hes
  exact hnever (by decide) (by decide)

theorem refresh_registers_update :
    ∃ n ≤ 6, let s' := run (Notify.step counting) (run (Notify.step counting)
        (Notify.start false 7 {}) [.update 9]) (List.replicate n (.turn .answered))
      s'.pc = .timer ∧ s'.m_Refresh = true ∧ s'.etcd.key = some (9, s'.m_Lease) :=
  refresh_registers documented_counting {} rfl false 7 [.update 9] (by decide) rfl rfl
    (Or.inl rfl)

end Stuff.SdNotify
