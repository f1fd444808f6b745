import Stuff.Linearization
import Mathlib.Data.List.Nodup

/-!
# A pointer that threads read and update

`Threads::AtomicSharedPtr` holds the current object. `Update` copies it, calls a handler for the
copy, and puts the copy in its place, if the pointer is still the one that was copied; if not, or if
the exchange fails without a reason, it begins again. An address may be used again as soon as nobody
holds it. The steps of all threads are in any order.
-/
namespace Stuff.ThreadsAtomicSharedPtr
open EventRuns Linearization

/-- The handler is known by what it makes of the copy. -/
inductive Op (α : Type)
  | update (aHandler : α → α)
  | read

/-- Where a call is. A reader holds the pointer until it drops it, and `dropped` has what it saw. -/
inductive Pc (α : Type)
  | start
  | loaded
  | copied
  | handled
  | updated
  | threw
  | reading
  | dropped (seen : Option α)

/-- A call with its local pointers; the one of a reader is `sCurrent`. -/
structure Call (α : Type) where
  op : Op α
  pc : Pc α := .start
  sCurrent : Option ℕ := none
  sUpdate : Option ℕ := none

/-- The history has what took effect. Whoever reads has what is then in the object. -/
structure AtomicSharedPtr (α : Type) where
  m_Ptr : ℕ
  objects : ℕ → Option α
  calls : List (Call α) := []
  log : List (Entry ℕ (Op α) (Option α)) := []

inductive Event (α : Type)
  | call (op : Op α)
  | loads (i : ℕ)
  | copies (i a : ℕ)
  | handles (i : ℕ)
  | throws (i : ℕ)
  | exchanges (i : ℕ) (spurious : Bool)
  | drops (i : ℕ)

variable {α : Type}

/-- The pointers that the call holds. -/
def Call.holds (call : Call α) : List ℕ := call.sCurrent.toList ++ call.sUpdate.toList

namespace AtomicSharedPtr

/-- Somebody holds the address. -/
def inUse (s : AtomicSharedPtr α) (a : ℕ) : Bool :=
  s.m_Ptr == a || s.calls.any fun call => call.holds.contains a

def set (s : AtomicSharedPtr α) (i : ℕ) (call : Call α) : AtomicSharedPtr α :=
  { s with calls := s.calls.set i call }

/-- `m_Ptr.load()`. -/
def loads (s : AtomicSharedPtr α) (i : ℕ) (call : Call α) : AtomicSharedPtr α :=
  match call.pc, call.op with
  | .start, .update _ => s.set i { call with pc := .loaded, sCurrent := some s.m_Ptr }
  | .start, .read =>
      { s.set i { call with pc := .reading, sCurrent := some s.m_Ptr } with
        log := s.log ++ [⟨i, .read, s.objects s.m_Ptr⟩] }
  | _, _ => s

/-- `std::make_shared<T>(*sCurrent)` at an address that nobody holds. -/
def copies (s : AtomicSharedPtr α) (i a : ℕ) (call : Call α) : AtomicSharedPtr α :=
  match call.pc, call.sCurrent with
  | .loaded, some c =>
      if s.inUse a then s
      else
        { s.set i { call with pc := .copied, sUpdate := some a } with
          objects := Function.update s.objects a (s.objects c) }
  | _, _ => s

/-- `aHandler(sUpdate)`. -/
def handles (s : AtomicSharedPtr α) (i : ℕ) (call : Call α) : AtomicSharedPtr α :=
  match call.pc, call.op, call.sUpdate with
  | .copied, .update aHandler, some u =>
      { s.set i { call with pc := .handled } with
        objects := Function.update s.objects u ((s.objects u).map aHandler) }
  | _, _, _ => s

/-- The copy or the handler throws, whatever the handler has made of the copy. -/
def throws (s : AtomicSharedPtr α) (i : ℕ) (call : Call α) : AtomicSharedPtr α :=
  match call.pc with
  | .loaded => s.set i { op := call.op, pc := .threw }
  | .copied => s.set i { op := call.op, pc := .threw }
  | _ => s

/-- `m_Ptr.compare_exchange_weak(sCurrent, sUpdate)`, and the return. -/
def exchanges (s : AtomicSharedPtr α) (i : ℕ) (spurious : Bool) (call : Call α) :
    AtomicSharedPtr α :=
  match call.pc, call.sCurrent, call.sUpdate with
  | .handled, some c, some u =>
      if s.m_Ptr = c ∧ spurious = false then
        { s.set i { op := call.op, pc := .updated } with
          m_Ptr := u
          log := s.log ++ [⟨i, call.op, none⟩] }
      else s.set i { call with pc := .start, sCurrent := some s.m_Ptr }
  | _, _, _ => s

/-- A reader lets the pointer go. -/
def drops (s : AtomicSharedPtr α) (i : ℕ) (call : Call α) : AtomicSharedPtr α :=
  match call.pc, call.sCurrent with
  | .reading, some c => s.set i { op := call.op, pc := .dropped (s.objects c) }
  | _, _ => s

/-- A step of a call that was made. -/
def withCall (s : AtomicSharedPtr α) (i : ℕ) (f : Call α → AtomicSharedPtr α) :
    AtomicSharedPtr α :=
  match s.calls[i]? with
  | none => s
  | some call => f call

def step (s : AtomicSharedPtr α) : Event α → AtomicSharedPtr α
  | .call op => { s with calls := s.calls ++ [{ op := op }] }
  | .loads i => s.withCall i (s.loads i)
  | .copies i a => s.withCall i (s.copies i a)
  | .handles i => s.withCall i (s.handles i)
  | .throws i => s.withCall i (s.throws i)
  | .exchanges i spurious => s.withCall i (s.exchanges i spurious)
  | .drops i => s.withCall i (s.drops i)

/-- What is seen of a call: of a reader, what is in its object now, or was when it let go. -/
def view (s : AtomicSharedPtr α) : View ℕ (Op α) (Option α) where
  invoked i := (s.calls[i]?).map Call.op
  returned i := (s.calls[i]?).bind fun call =>
    match call.pc with
    | .updated => some none
    | .reading => call.sCurrent.map s.objects
    | .dropped seen => some seen
    | _ => none

end AtomicSharedPtr

/-- One object that takes the operations one after another. -/
def apply (v : α) : Op α → α × Option α
  | .update aHandler => (aHandler v, none)
  | .read => (v, some v)

/-! ## The invariant -/

/-- The copy that only its call knows. -/
def Call.fresh (call : Call α) : Option ℕ :=
  match call.pc with
  | .copied => call.sUpdate
  | .handled => call.sUpdate
  | _ => none

/-- What is true of a call by where it is. -/
def Stage (objects : ℕ → Option α) (log : List (Entry ℕ (Op α) (Option α))) (i : ℕ)
    (call : Call α) : Prop :=
  match call.pc with
  | .start => i ∉ log.map Entry.call
  | .loaded => i ∉ log.map Entry.call ∧ (∃ aHandler, call.op = .update aHandler) ∧
      ∃ c v, call.sCurrent = some c ∧ objects c = some v
  | .copied => i ∉ log.map Entry.call ∧ (∃ aHandler, call.op = .update aHandler) ∧
      ∃ c u v, call.sCurrent = some c ∧ call.sUpdate = some u ∧ c ≠ u ∧ objects c = some v ∧
        objects u = some v
  | .handled => i ∉ log.map Entry.call ∧ ∃ aHandler, call.op = .update aHandler ∧
      ∃ c u v, call.sCurrent = some c ∧ call.sUpdate = some u ∧ c ≠ u ∧ objects c = some v ∧
        objects u = some (aHandler v)
  | .updated => ⟨i, call.op, none⟩ ∈ log
  | .threw => i ∉ log.map Entry.call
  | .reading => ∃ c v, call.sCurrent = some c ∧ objects c = some v ∧ ⟨i, call.op, some v⟩ ∈ log
  | .dropped seen => ⟨i, call.op, seen⟩ ∈ log

structure Inv (v : α) (s : AtomicSharedPtr α) : Prop where
  current : s.objects s.m_Ptr = some (final apply v s.log)
  stage : ∀ (i : ℕ) call, s.calls[i]? = some call → Stage s.objects s.log i call
  alone : ∀ (i j : ℕ) call call' u, s.calls[i]? = some call → s.calls[j]? = some call' → i ≠ j →
    call.fresh = some u → u ∉ call'.holds
  apart : ∀ (i : ℕ) call, s.calls[i]? = some call → call.fresh ≠ some s.m_Ptr
  sequential : Sequential apply v s.log
  once : (s.log.map Entry.call).Nodup
  invoked : ∀ e ∈ s.log, s.view.invoked e.call = some e.op

section Lemmas
variable {v : α} {s : AtomicSharedPtr α}

theorem mem_holds {call : Call α} {a : ℕ} :
    a ∈ call.holds ↔ call.sCurrent = some a ∨ call.sUpdate = some a := by
  simp [Call.holds]

theorem fresh_mem_holds {call : Call α} {u : ℕ} (h : call.fresh = some u) : u ∈ call.holds := by
  unfold Call.fresh at h
  split at h
  · exact mem_holds.mpr (Or.inr h)
  · exact mem_holds.mpr (Or.inr h)
  · cases h

theorem not_inUse {a : ℕ} (h : s.inUse a = false) : s.m_Ptr ≠ a ∧
    ∀ (i : ℕ) call, s.calls[i]? = some call → a ∉ call.holds := by
  rw [AtomicSharedPtr.inUse, Bool.or_eq_false_iff, beq_eq_false_iff_ne, List.any_eq_false] at h
  refine ⟨h.1, fun i call hcall hmem => h.2 call (List.mem_of_getElem? hcall) ?_⟩
  exact List.contains_iff_mem.mpr hmem

/-- The steps of others keep what is true of a call. -/
theorem Stage.frame {objects objects' : ℕ → Option α} {log log' : List (Entry ℕ (Op α) (Option α))}
    {i : ℕ} {call : Call α} (h : Stage objects log i call)
    (hobjects : ∀ a ∈ call.holds, objects' a = objects a) (hmem : ∀ e ∈ log, e ∈ log')
    (hnew : i ∈ log'.map Entry.call → i ∈ log.map Entry.call) : Stage objects' log' i call := by
  have hcurrent : ∀ c, call.sCurrent = some c → objects' c = objects c :=
    fun c hc => hobjects c (mem_holds.mpr (Or.inl hc))
  have hupdate : ∀ u, call.sUpdate = some u → objects' u = objects u :=
    fun u hu => hobjects u (mem_holds.mpr (Or.inr hu))
  unfold Stage at h ⊢
  cases hpc : call.pc with
  | start =>
      rw [hpc] at h
      exact fun hi => h (hnew hi)
  | loaded =>
      rw [hpc] at h
      obtain ⟨hlog, hop, c, v, hc, hv⟩ := h
      exact ⟨fun hi => hlog (hnew hi), hop, c, v, hc, (hcurrent c hc).trans hv⟩
  | copied =>
      rw [hpc] at h
      obtain ⟨hlog, hop, c, u, v, hc, hu, hne, hv, hv'⟩ := h
      exact ⟨fun hi => hlog (hnew hi), hop, c, u, v, hc, hu, hne, (hcurrent c hc).trans hv,
        (hupdate u hu).trans hv'⟩
  | handled =>
      rw [hpc] at h
      obtain ⟨hlog, aHandler, hop, c, u, v, hc, hu, hne, hv, hv'⟩ := h
      exact ⟨fun hi => hlog (hnew hi), aHandler, hop, c, u, v, hc, hu, hne,
        (hcurrent c hc).trans hv, (hupdate u hu).trans hv'⟩
  | updated =>
      rw [hpc] at h
      exact hmem _ h
  | threw =>
      rw [hpc] at h
      exact fun hi => h (hnew hi)
  | reading =>
      rw [hpc] at h
      obtain ⟨c, v, hc, hv, hlog⟩ := h
      exact ⟨c, v, hc, (hcurrent c hc).trans hv, hmem _ hlog⟩
  | dropped seen =>
      rw [hpc] at h
      exact hmem _ h

/-- What a step of call `i` may do: it writes to what only it knows or nobody holds, it puts no
other pointer in place than that of its copy, and it takes effect at most once. -/
structure Moves (v : α) (s t : AtomicSharedPtr α) (i : ℕ) (call call' : Call α) : Prop where
  calls : t.calls = s.calls.set i call'
  op : call'.op = call.op
  objects : ∀ a, t.objects a ≠ s.objects a → call.fresh = some a ∨ s.inUse a = false
  holds : ∀ a ∈ call'.holds, a ∈ call.holds ∨ a = s.m_Ptr ∨ s.inUse a = false
  fresh : ∀ u, call'.fresh = some u → call.fresh = some u ∨ s.inUse u = false
  pointer : t.m_Ptr = s.m_Ptr ∨ call.fresh = some t.m_Ptr ∧ call'.fresh = none
  log : t.log = s.log ∨ i ∉ s.log.map Entry.call ∧
    t.log = s.log ++ [⟨i, call.op, (apply (final apply v s.log) call.op).2⟩]
  current : t.objects t.m_Ptr = some (final apply v t.log)
  stage : Stage t.objects t.log i call'

theorem Inv.moves (h : Inv v s) {t : AtomicSharedPtr α} {i : ℕ} {call : Call α}
    (hi : s.calls[i]? = some call) (call' : Call α) (hm : Moves v s t i call call') :
    Inv v t := by
  have hlt : i < s.calls.length := (List.getElem?_eq_some_iff.mp hi).1
  have hself : t.calls[i]? = some call' := by
    rw [hm.calls]
    exact List.getElem?_set_self hlt
  have hother : ∀ j, j ≠ i → t.calls[j]? = s.calls[j]? := by
    intro j hj
    rw [hm.calls]
    exact List.getElem?_set_ne (Ne.symm hj)
  have hheld : ∀ (j : ℕ) callj, s.calls[j]? = some callj → j ≠ i → ∀ a ∈ callj.holds,
      ¬ (call.fresh = some a ∨ s.inUse a = false) := by
    rintro j callj hj hne a ha (hfresh | hfree)
    · exact h.alone i j call callj a hi hj (Ne.symm hne) hfresh ha
    · exact (not_inUse hfree).2 j callj hj ha
  have hprefix : ∀ e ∈ s.log, e ∈ t.log := by
    intro e he
    rcases hm.log with heq | ⟨-, heq⟩
    · rwa [heq]
    · rw [heq]
      exact List.mem_append_left _ he
  have hcases : ∀ (j : ℕ) callj, t.calls[j]? = some callj →
      j = i ∧ callj = call' ∨ j ≠ i ∧ s.calls[j]? = some callj := by
    intro j callj hj
    by_cases hji : j = i
    · subst hji
      rw [hself] at hj
      exact Or.inl ⟨rfl, (Option.some.inj hj).symm⟩
    · exact Or.inr ⟨hji, (hother j hji).symm.trans hj⟩
  have hview : ∀ k, t.view.invoked k = s.view.invoked k := by
    intro k
    change (t.calls[k]?).map Call.op = (s.calls[k]?).map Call.op
    by_cases hki : k = i
    · subst hki
      rw [hself, hi, Option.map_some, Option.map_some, hm.op]
    · rw [hother k hki]
  constructor
  case current => exact hm.current
  case stage =>
    intro j callj hj
    rcases hcases j callj hj with ⟨rfl, rfl⟩ | ⟨hne, hj⟩
    · exact hm.stage
    · apply (h.stage j callj hj).frame _ hprefix
      · intro hmem
        rcases hm.log with heq | ⟨-, heq⟩
        · rwa [heq] at hmem
        · rw [heq, List.map_append, List.mem_append] at hmem
          rcases hmem with hold | hnew
          · exact hold
          · exact absurd (List.mem_singleton.mp hnew) hne
      · intro a ha
        by_contra hchange
        exact hheld j callj hj hne a ha (hm.objects a hchange)
  case alone =>
    intro j k callj callk u hj hk hjk hu
    rcases hcases j callj hj with ⟨rfl, rfl⟩ | ⟨hne, hj⟩
    · rcases hcases k callk hk with ⟨rfl, rfl⟩ | ⟨hne', hk⟩
      · exact absurd rfl hjk
      · exact fun hmem => hheld k callk hk hne' u hmem (hm.fresh u hu)
    · rcases hcases k callk hk with ⟨rfl, rfl⟩ | ⟨hne', hk⟩
      · intro hmem
        rcases hm.holds u hmem with hold | rfl | hfree
        · exact h.alone j k callj call u hj hi hne hu hold
        · exact h.apart j callj hj hu
        · exact (not_inUse hfree).2 j callj hj (fresh_mem_holds hu)
      · exact h.alone j k callj callk u hj hk hjk hu
  case apart =>
    intro j callj hj hu
    rcases hcases j callj hj with ⟨rfl, rfl⟩ | ⟨hne, hj⟩
    · rcases hm.pointer with heq | ⟨-, hnone⟩
      · rw [heq] at hu
        rcases hm.fresh _ hu with hold | hfree
        · exact h.apart j call hi hold
        · exact (not_inUse hfree).1 rfl
      · rw [hnone] at hu
        cases hu
    · rcases hm.pointer with heq | ⟨hfresh, -⟩
      · rw [heq] at hu
        exact h.apart j callj hj hu
      · exact h.alone i j call callj _ hi hj (Ne.symm hne) hfresh (fresh_mem_holds hu)
  case sequential =>
    rcases hm.log with heq | ⟨-, heq⟩
    · rw [heq]
      exact h.sequential
    · rw [heq, sequential_append]
      exact ⟨h.sequential, rfl, trivial⟩
  case once =>
    rcases hm.log with heq | ⟨hnot, heq⟩
    · rw [heq]
      exact h.once
    · rw [heq, List.map_append]
      exact List.nodup_append.mpr ⟨h.once, List.nodup_singleton i, by
        rintro x hx y hy rfl
        cases List.mem_singleton.mp hy
        exact hnot hx⟩
  case invoked =>
    intro e he
    rw [hview]
    rcases hm.log with heq | ⟨-, heq⟩
    · exact h.invoked e (heq ▸ he)
    · rw [heq, List.mem_append, List.mem_singleton] at he
      rcases he with hold | rfl
      · exact h.invoked e hold
      · change (s.calls[i]?).map Call.op = some call.op
        rw [hi]
        rfl

/-- A step that only changes the call itself. -/
theorem Inv.quiet (h : Inv v s) {i : ℕ} {call call' : Call α} (hi : s.calls[i]? = some call)
    (hop : call'.op = call.op) (hholds : ∀ a ∈ call'.holds, a ∈ call.holds ∨ a = s.m_Ptr)
    (hfresh : call'.fresh = none) (hstage : Stage s.objects s.log i call') :
    Inv v (s.set i call') := by
  apply h.moves hi
  constructor
  case calls => rfl
  case op => exact hop
  case objects => exact fun a hne => absurd rfl hne
  case holds =>
    intro a ha
    rcases hholds a ha with hold | hptr
    · exact Or.inl hold
    · exact Or.inr (Or.inl hptr)
  case fresh =>
    intro u hu
    rw [hfresh] at hu
    cases hu
  case pointer => exact Or.inl rfl
  case log => exact Or.inl rfl
  case current => exact h.current
  case stage => exact hstage

theorem Inv.call (h : Inv v s) (op : Op α) : Inv v (s.step (.call op)) := by
  have hcases : ∀ (j : ℕ) callj, (s.calls ++ [({ op := op } : Call α)])[j]? = some callj →
      s.calls[j]? = some callj ∨ j = s.calls.length ∧ callj = { op := op } := by
    intro j callj hj
    rw [List.getElem?_append] at hj
    split_ifs at hj with hlt
    · exact Or.inl hj
    · rw [List.getElem?_singleton] at hj
      split_ifs at hj with hzero
      exact Or.inr ⟨by omega, (Option.some.inj hj).symm⟩
  have hkeeps : ∀ k x, s.view.invoked k = some x →
      ((s.calls ++ [({ op := op } : Call α)])[k]?).map Call.op = some x := by
    intro k x hk
    obtain ⟨callk, hcallk, hop⟩ := Option.map_eq_some_iff.mp hk
    rw [List.getElem?_append_left (List.getElem?_eq_some_iff.mp hcallk).1, hcallk, Option.map_some,
      hop]
  refine ⟨h.current, ?_, ?_, ?_, h.sequential, h.once, ?_⟩
  · intro j callj hj
    rcases hcases j callj hj with hold | ⟨rfl, rfl⟩
    · exact h.stage j callj hold
    · intro hmem
      obtain ⟨e, he, heq⟩ := List.mem_map.mp hmem
      have hinvoked := h.invoked e he
      rw [heq] at hinvoked
      obtain ⟨callk, hcallk, -⟩ := Option.map_eq_some_iff.mp hinvoked
      exact absurd (List.getElem?_eq_some_iff.mp hcallk).1 (Nat.lt_irrefl _)
  · intro j k callj callk u hj hk hjk hu
    rcases hcases j callj hj with hj | ⟨rfl, rfl⟩
    · rcases hcases k callk hk with hk | ⟨rfl, rfl⟩
      · exact h.alone j k callj callk u hj hk hjk hu
      · exact List.not_mem_nil
    · cases hu
  · intro j callj hj
    rcases hcases j callj hj with hold | ⟨rfl, rfl⟩
    · exact h.apart j callj hold
    · exact fun hu => by cases hu
  · exact fun e he => hkeeps e.call e.op (h.invoked e he)

theorem Inv.loads (h : Inv v s) {i : ℕ} {call : Call α} (hi : s.calls[i]? = some call) :
    Inv v (s.loads i call) := by
  have hstage := h.stage i call hi
  have hholds : ∀ pc, ∀ a ∈ Call.holds { call with pc := pc, sCurrent := some s.m_Ptr },
      a ∈ call.holds ∨ a = s.m_Ptr := by
    intro pc a ha
    rcases mem_holds.mp ha with hptr | hold
    · exact Or.inr (Option.some.inj hptr).symm
    · exact Or.inl (mem_holds.mpr (Or.inr hold))
  unfold AtomicSharedPtr.loads
  split
  · rename_i aHandler hpc hop
    unfold Stage at hstage
    rw [hpc] at hstage
    exact h.quiet hi rfl (hholds .loaded) rfl
      ⟨hstage, ⟨aHandler, hop⟩, s.m_Ptr, _, rfl, h.current⟩
  · rename_i hpc hop
    unfold Stage at hstage
    rw [hpc] at hstage
    have hreply : (apply (final apply v s.log) call.op) =
        (final apply v s.log, some (final apply v s.log)) := by
      rw [hop]
      rfl
    have hfinal : final apply v (s.log ++ [⟨i, .read, s.objects s.m_Ptr⟩]) =
        final apply v s.log := final_append _ _
    apply h.moves hi { call with pc := .reading, sCurrent := some s.m_Ptr }
    constructor
    case calls => rfl
    case op => rfl
    case objects => exact fun a hne => absurd rfl hne
    case holds =>
      intro a ha
      rcases hholds .reading a ha with hold | hptr
      · exact Or.inl hold
      · exact Or.inr (Or.inl hptr)
    case fresh => exact fun u hu => by cases hu
    case pointer => exact Or.inl rfl
    case log =>
      refine Or.inr ⟨hstage, ?_⟩
      rw [hreply, ← h.current, hop]
    case current =>
      dsimp only
      rw [hfinal]
      exact h.current
    case stage =>
      refine ⟨s.m_Ptr, _, rfl, h.current, ?_⟩
      rw [h.current, hop]
      exact List.mem_append_right _ (List.mem_singleton.mpr rfl)
  · exact h

theorem Inv.copies (h : Inv v s) {i : ℕ} (a : ℕ) {call : Call α} (hi : s.calls[i]? = some call) :
    Inv v (s.copies i a call) := by
  have hstage := h.stage i call hi
  unfold AtomicSharedPtr.copies
  split
  · rename_i c hpc hc
    split
    · exact h
    rename_i hfree
    rw [Bool.not_eq_true] at hfree
    obtain ⟨hptr, hheld⟩ := not_inUse hfree
    unfold Stage at hstage
    rw [hpc] at hstage
    obtain ⟨hlog, hop, c', w, hc', hw⟩ := hstage
    rw [hc] at hc'
    cases hc'
    have hne : c ≠ a := by
      rintro rfl
      exact hheld i call hi (mem_holds.mpr (Or.inl hc))
    apply h.moves hi { call with pc := .copied, sUpdate := some a }
    constructor
    case calls => rfl
    case op => rfl
    case objects =>
      intro b hb
      by_cases hab : b = a
      · exact Or.inr (hab ▸ hfree)
      · exact absurd (Function.update_of_ne hab _ _) hb
    case holds =>
      intro b hb
      rcases mem_holds.mp hb with hold | hnew
      · exact Or.inl (mem_holds.mpr (Or.inl hold))
      · exact Or.inr (Or.inr ((Option.some.inj hnew) ▸ hfree))
    case fresh => exact fun u hu => Or.inr ((Option.some.inj hu) ▸ hfree)
    case pointer => exact Or.inl rfl
    case log => exact Or.inl rfl
    case current => exact (Function.update_of_ne hptr _ _).trans h.current
    case stage =>
      refine ⟨hlog, hop, c, a, w, hc, rfl, hne, ?_, ?_⟩
      · exact (Function.update_of_ne hne _ _).trans hw
      · exact (Function.update_self _ _ _).trans hw
  · exact h

theorem Inv.handles (h : Inv v s) {i : ℕ} {call : Call α} (hi : s.calls[i]? = some call) :
    Inv v (s.handles i call) := by
  have hstage := h.stage i call hi
  unfold AtomicSharedPtr.handles
  split
  · rename_i aHandler u hpc hop hu
    unfold Stage at hstage
    rw [hpc] at hstage
    obtain ⟨hlog, -, c, u', w, hc, hu', hne, hw, hw'⟩ := hstage
    rw [hu] at hu'
    cases hu'
    have hfresh : call.fresh = some u := by
      rw [Call.fresh, hpc]
      exact hu
    have hptr : s.m_Ptr ≠ u := fun heq => h.apart i call hi (heq ▸ hfresh)
    apply h.moves hi { call with pc := .handled }
    constructor
    case calls => rfl
    case op => rfl
    case objects =>
      intro b hb
      by_cases hbu : b = u
      · exact Or.inl (hbu ▸ hfresh)
      · exact absurd (Function.update_of_ne hbu _ _) hb
    case holds => exact fun b hb => Or.inl hb
    case fresh => exact fun b hb => Or.inl (hfresh.trans (hu.symm.trans hb))
    case pointer => exact Or.inl rfl
    case log => exact Or.inl rfl
    case current => exact (Function.update_of_ne hptr _ _).trans h.current
    case stage =>
      refine ⟨hlog, aHandler, hop, c, u, w, hc, hu, hne, ?_, ?_⟩
      · exact (Function.update_of_ne hne _ _).trans hw
      · refine (Function.update_self _ _ _).trans ?_
        rw [hw']
        rfl
  · exact h

theorem Inv.throws (h : Inv v s) {i : ℕ} {call : Call α} (hi : s.calls[i]? = some call) :
    Inv v (s.throws i call) := by
  have hstage := h.stage i call hi
  unfold AtomicSharedPtr.throws
  split
  · rename_i hpc
    unfold Stage at hstage
    rw [hpc] at hstage
    exact h.quiet hi rfl (fun a ha => absurd ha List.not_mem_nil) rfl hstage.1
  · rename_i hpc
    unfold Stage at hstage
    rw [hpc] at hstage
    exact h.quiet hi rfl (fun a ha => absurd ha List.not_mem_nil) rfl hstage.1
  · exact h

/-- If the pointer is still the one that was copied, the object is the one that was copied: the
call holds it, and nobody writes to what another one holds. -/
theorem Inv.exchanges (h : Inv v s) {i : ℕ} (spurious : Bool) {call : Call α}
    (hi : s.calls[i]? = some call) : Inv v (s.exchanges i spurious call) := by
  have hstage := h.stage i call hi
  unfold AtomicSharedPtr.exchanges
  split
  · rename_i c u hpc hc hu
    unfold Stage at hstage
    rw [hpc] at hstage
    obtain ⟨hlog, aHandler, hop, c', u', w, hc', hu', -, hw, hw'⟩ := hstage
    rw [hc] at hc'
    cases hc'
    rw [hu] at hu'
    cases hu'
    split
    · rename_i hsame
      have hvalue : final apply v s.log = w := by
        have hcurrent := h.current
        rw [hsame.1, hw] at hcurrent
        exact (Option.some.inj hcurrent).symm
      have happly : apply (final apply v s.log) call.op = (aHandler w, none) := by
        rw [hop, hvalue]
        rfl
      apply h.moves hi { op := call.op, pc := .updated }
      constructor
      case calls => rfl
      case op => rfl
      case objects => exact fun a hne => absurd rfl hne
      case holds => exact fun a ha => absurd ha List.not_mem_nil
      case fresh => exact fun b hb => by cases hb
      case pointer =>
        refine Or.inr ⟨?_, rfl⟩
        rw [Call.fresh, hpc]
        exact hu
      case log => exact Or.inr ⟨hlog, by rw [happly]⟩
      case current =>
        have hfinal : final apply v (s.log ++ [⟨i, call.op, none⟩]) = aHandler w := by
          rw [final_append]
          exact congrArg Prod.fst happly
        dsimp only
        rw [hfinal]
        exact hw'
      case stage => exact List.mem_append_right _ (List.mem_singleton.mpr rfl)
    · refine h.quiet hi rfl ?_ rfl hlog
      intro a ha
      rcases mem_holds.mp ha with hptr | hold
      · exact Or.inr (Option.some.inj hptr).symm
      · exact Or.inl (mem_holds.mpr (Or.inr hold))
  · exact h

theorem Inv.drops (h : Inv v s) {i : ℕ} {call : Call α} (hi : s.calls[i]? = some call) :
    Inv v (s.drops i call) := by
  have hstage := h.stage i call hi
  unfold AtomicSharedPtr.drops
  split
  · rename_i c hpc hc
    unfold Stage at hstage
    rw [hpc] at hstage
    obtain ⟨c', w, hc', hw, hlog⟩ := hstage
    rw [hc] at hc'
    cases hc'
    refine h.quiet hi rfl (fun a ha => absurd ha List.not_mem_nil) rfl ?_
    change ⟨i, call.op, s.objects c⟩ ∈ s.log
    rw [hw]
    exact hlog
  · exact h

theorem Inv.step (h : Inv v s) (e : Event α) : Inv v (s.step e) := by
  have hcall : ∀ (i : ℕ) (f : Call α → AtomicSharedPtr α),
      (∀ call, s.calls[i]? = some call → Inv v (f call)) → Inv v (s.withCall i f) := by
    intro i f hf
    unfold AtomicSharedPtr.withCall
    split
    · exact h
    · rename_i call hi
      exact hf call hi
  cases e with
  | call op => exact h.call op
  | loads i => exact hcall i _ fun call hi => h.loads hi
  | copies i a => exact hcall i _ fun call hi => h.copies a hi
  | handles i => exact hcall i _ fun call hi => h.handles hi
  | throws i => exact hcall i _ fun call hi => h.throws hi
  | exchanges i spurious => exact hcall i _ fun call hi => h.exchanges spurious hi
  | drops i => exact hcall i _ fun call hi => h.drops hi

theorem Inv.explains (h : Inv v s) : Explains apply v s.view s.log := by
  refine ⟨h.once, h.sequential, h.invoked, ?_⟩
  intro i y hy
  obtain ⟨call, hi, hy⟩ := Option.bind_eq_some_iff.mp hy
  have hstage := h.stage i call hi
  unfold Stage at hstage
  split at hy
  · rename_i hpc
    rw [hpc] at hstage
    cases hy
    exact ⟨_, hstage, rfl, rfl⟩
  · rename_i hpc
    rw [hpc] at hstage
    obtain ⟨c, w, hc, hw, hlog⟩ := hstage
    rw [hc, Option.map_some, hw] at hy
    cases hy
    exact ⟨_, hlog, rfl, rfl⟩
  · rename_i seen hpc
    rw [hpc] at hstage
    cases hy
    exact ⟨_, hstage, rfl, rfl⟩
  · cases hy

theorem withCall_log (s : AtomicSharedPtr α) (i : ℕ) (f : Call α → AtomicSharedPtr α)
    (hf : ∀ call, s.log <+: (f call).log) : s.log <+: (s.withCall i f).log := by
  unfold AtomicSharedPtr.withCall
  split
  · exact List.prefix_refl _
  · exact hf _

theorem step_log (s : AtomicSharedPtr α) (e : Event α) : s.log <+: (s.step e).log := by
  cases e with
  | call op => exact List.prefix_refl _
  | loads i =>
      refine withCall_log s i _ fun call => ?_
      unfold AtomicSharedPtr.loads
      split
      · exact List.prefix_refl _
      · exact List.prefix_append _ _
      · exact List.prefix_refl _
  | copies i a =>
      refine withCall_log s i _ fun call => ?_
      unfold AtomicSharedPtr.copies
      split
      · split <;> exact List.prefix_refl _
      · exact List.prefix_refl _
  | handles i =>
      refine withCall_log s i _ fun call => ?_
      unfold AtomicSharedPtr.handles
      split <;> exact List.prefix_refl _
  | throws i =>
      refine withCall_log s i _ fun call => ?_
      unfold AtomicSharedPtr.throws
      split <;> exact List.prefix_refl _
  | exchanges i spurious =>
      refine withCall_log s i _ fun call => ?_
      unfold AtomicSharedPtr.exchanges
      split
      · split
        · exact List.prefix_append _ _
        · exact List.prefix_refl _
      · exact List.prefix_refl _
  | drops i =>
      refine withCall_log s i _ fun call => ?_
      unfold AtomicSharedPtr.drops
      split <;> exact List.prefix_refl _

end Lemmas

/-- The pointer holds an object at this address. -/
def start (a : ℕ) (v : α) : AtomicSharedPtr α :=
  { m_Ptr := a, objects := fun b => if b = a then some v else none }

theorem Inv.start (a : ℕ) (v : α) : Inv v (start a v) := by
  refine ⟨if_pos rfl, ?_, ?_, ?_, trivial, List.nodup_nil, List.forall_mem_nil _⟩
  · intro i call hi
    cases hi
  · intro i j call call' u hi
    cases hi
  · intro i call hi
    cases hi

/-- Every update makes its change to the current object at one moment of its call, once, and every
reader sees an object as it was when it read the pointer, as long as it holds it; in any order of
the steps of all threads, whatever addresses are used again. -/
theorem update_linearizable (a : ℕ) (v : α) (es : List (Event α)) :
    Linearizable apply v AtomicSharedPtr.step AtomicSharedPtr.view (start a v) es :=
  linearizable_of_log (I := Inv v) (fun _ e h _ => h.step e) (fun t e _ _ => step_log t e)
    (fun _ h => h.explains) (Inv.start a v) (meets_true AtomicSharedPtr.step (start a v) es)

/-- Two updates of which one has to begin again, and gets the address of the first object. -/
example :
    let es : List (Event ℕ) :=
      [.call (.update (· + 1)), .call (.update (· * 10)), .loads 0, .loads 1, .copies 0 7,
        .copies 1 8, .handles 0, .handles 1, .exchanges 0 false, .exchanges 1 false, .loads 1,
        .copies 1 5, .handles 1, .exchanges 1 false]
    let s := run AtomicSharedPtr.step (start 5 1) es
    s.m_Ptr = 5 ∧ s.objects s.m_Ptr = some 20 := by
  decide

end Stuff.ThreadsAtomicSharedPtr
