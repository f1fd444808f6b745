import Stuff.EventRuns
import Stuff.MachineWords

/-!
# Names of nested scopes

The scopes of `Config::Context` are one string: a scope adds its name behind a dot, and what it
takes off at its end is the text from the last dot on. That is its own name only as long as the name
has no dot.
-/
namespace Stuff.ConfigContext
open EventRuns MachineWords

/-- `'.'` -/
def dot : UInt8 := 0x2e

/-- `std::string::find_last_of` for one character. -/
def findLastOf (c : UInt8) : Bytes → Option ℕ
  | [] => none
  | b :: s =>
      match findLastOf c s with
      | some sPos => some (sPos + 1)
      | none => if b = c then some 0 else none

/-- The constructor. -/
def opened (m_Name aName : Bytes) : Bytes :=
  (if m_Name.isEmpty then m_Name else m_Name ++ [dot]) ++ aName

/-- The destructor. -/
def closed (m_Name : Bytes) : Bytes :=
  match findLastOf dot m_Name with
  | none => []
  | some sPos => m_Name.take sPos

structure Scope where
  /-- What `get` returns before the scope. -/
  previous : Bytes
  aName : Bytes
deriving DecidableEq, Repr

/-- `scopes` are the scopes that are open, the inner ones first. The program does not have them. -/
structure Context where
  m_Name : Bytes
  scopes : List Scope := []
deriving DecidableEq, Repr

def start (m_Name : Bytes) : Context := { m_Name }

inductive Event
  | construct (aName : Bytes)
  /-- Of the innermost scope. -/
  | destruct
deriving DecidableEq, Repr

namespace Context

def get (s : Context) : Bytes := s.m_Name

def step (s : Context) : Event → Context
  | .construct aName =>
      { m_Name := opened s.m_Name aName, scopes := ⟨s.m_Name, aName⟩ :: s.scopes }
  | .destruct =>
      match s.scopes with
      | [] => s
      | _ :: scopes => { m_Name := closed s.m_Name, scopes := scopes }

/-- A destruction brings back what was there before the construction. -/
def Restores (s : Context) : Event → Prop
  | .construct _ => True
  | .destruct => ∀ x ∈ s.scopes.head?, (s.step .destruct).get = x.previous

end Context

/-- The only dot that may be in a name is the first character of an outermost one. -/
def Scope.Plain (x : Scope) : Prop :=
  dot ∉ x.aName ∨ x.previous = [] ∧ x.aName.head? = some dot ∧ dot ∉ x.aName.tail

def Context.Plain (s : Context) : Event → Prop
  | .construct _ => True
  | .destruct => ∀ x ∈ s.scopes.head?, x.Plain

/-! ## The last dot -/

section
variable {c : UInt8}

theorem findLastOf_eq_none {s : Bytes} : findLastOf c s = none ↔ c ∉ s := by
  induction s with
  | nil => simp [findLastOf]
  | cons b s ih =>
      rw [findLastOf, List.mem_cons, not_or, ← ih]
      cases findLastOf c s with
      | none => simp [eq_comm]
      | some sPos => simp

theorem findLastOf_append (s t : Bytes) :
    findLastOf c (s ++ t) =
      match findLastOf c t with
      | some sPos => some (s.length + sPos)
      | none => findLastOf c s := by
  induction s with
  | nil =>
      rw [List.nil_append]
      cases findLastOf c t with
      | none => rfl
      | some sPos => simp
  | cons b s ih =>
      rw [List.cons_append, findLastOf, ih, findLastOf]
      cases findLastOf c t with
      | none => rfl
      | some sPos => simp [Nat.add_right_comm]

theorem findLastOf_eq_zero {s : Bytes} :
    findLastOf c s = some 0 ↔ s.head? = some c ∧ c ∉ s.tail := by
  cases s with
  | nil => simp [findLastOf]
  | cons b s =>
      rw [findLastOf, List.head?_cons, List.tail_cons, ← findLastOf_eq_none]
      cases findLastOf c s with
      | none => simp
      | some sPos => simp

theorem findLastOf_lt {s : Bytes} {sPos : ℕ} (h : findLastOf c s = some sPos) :
    sPos < s.length := by
  induction s generalizing sPos with
  | nil => cases h
  | cons b s ih =>
      rw [findLastOf] at h
      cases hrest : findLastOf c s with
      | none =>
          simp only [hrest, Option.ite_none_right_eq_some, Option.some.injEq] at h
          simp [← h.2]
      | some p =>
          simp only [hrest, Option.some.injEq] at h
          have hp := ih hrest
          rw [List.length_cons]
          omega

end

/-! ## One scope -/

theorem closed_opened_nil (aName : Bytes) :
    closed (opened [] aName) = [] ↔
      dot ∉ aName ∨ aName.head? = some dot ∧ dot ∉ aName.tail := by
  change closed aName = [] ↔ _
  rw [closed, ← findLastOf_eq_none, ← findLastOf_eq_zero]
  cases hlast : findLastOf dot aName with
  | none => simp
  | some sPos =>
      have hlt := findLastOf_lt hlast
      rw [List.take_eq_nil_iff, Option.some.injEq]
      have hne : aName ≠ [] := List.ne_nil_of_length_pos (by omega)
      simp [hne]

theorem closed_opened {previous : Bytes} (aName : Bytes) (h : previous ≠ []) :
    closed (opened previous aName) = previous ↔ dot ∉ aName := by
  have hopened : opened previous aName = previous ++ dot :: aName := by
    rw [opened, if_neg (by rwa [List.isEmpty_iff]), List.append_assoc]
    rfl
  rw [hopened, closed, findLastOf_append, findLastOf, ← findLastOf_eq_none]
  cases hlast : findLastOf dot aName with
  | none => simp
  | some sPos =>
      have hlt := findLastOf_lt hlast
      constructor
      · intro heq
        have hlength := congrArg List.length heq
        simp only [List.length_take, List.length_append, List.length_cons] at hlength
        omega
      · exact fun hnone => nomatch hnone

theorem Scope.closed_iff (x : Scope) :
    closed (opened x.previous x.aName) = x.previous ↔ x.Plain := by
  obtain ⟨previous, aName⟩ := x
  by_cases hprevious : previous = []
  · subst hprevious
    simp only [closed_opened_nil, Plain, true_and]
  · simp only [closed_opened aName hprevious, Plain, hprevious, false_and, or_false]

/-! ## Runs -/

/-- What the open scopes make of the name. -/
def Nested : Bytes → List Scope → Prop
  | _, [] => True
  | m_Name, x :: scopes => m_Name = opened x.previous x.aName ∧ Nested x.previous scopes

namespace Context

theorem restores_iff_plain {s : Context} (h : Nested s.m_Name s.scopes) (e : Event) :
    s.Restores e ↔ s.Plain e := by
  cases e with
  | construct aName => exact Iff.rfl
  | destruct =>
      obtain ⟨m_Name, scopes⟩ := s
      cases scopes with
      | nil => simp [Restores, Context.Plain]
      | cons x scopes =>
          obtain ⟨rfl, -⟩ := h
          simp only [Restores, Context.Plain, step, get, List.head?_cons, Option.mem_some_iff,
            forall_eq', x.closed_iff]

theorem nested_step {s : Context} {e : Event} (h : Nested s.m_Name s.scopes)
    (hrestores : s.Restores e) : Nested (s.step e).m_Name (s.step e).scopes := by
  cases e with
  | construct aName => exact ⟨rfl, h⟩
  | destruct =>
      obtain ⟨m_Name, scopes⟩ := s
      cases scopes with
      | nil => trivial
      | cons x scopes =>
          have hclosed : closed m_Name = x.previous := hrestores x rfl
          change Nested (closed m_Name) scopes
          rw [hclosed]
          exact h.2

/-- In every run exactly the plain names are taken off again. -/
theorem context_restores_iff (m_Name : Bytes) (es : List Event) :
    Meets step Restores (start m_Name) es ↔ Meets step Context.Plain (start m_Name) es := by
  have hall := meets_true step (start m_Name) es
  refine meets_iff (I := fun s => Nested s.m_Name s.scopes) ?_ ?_ ?_ hall
  · exact fun s e hs _ => restores_iff_plain hs e
  · exact fun s e hs _ hrestores => nested_step hs hrestores
  · trivial

/-- A part of the name is left over. -/
theorem context_keeps_part :
    (run step (start []) [.construct (ascii "a.b"), .destruct]).get = ascii "a" ∧
      ¬ Meets step Restores (start []) [.construct (ascii "a.b"), .destruct] := by
  refine ⟨by decide, fun h => ?_⟩
  have hrestores : ascii "a" = [] := h.2.1 ⟨[], ascii "a.b"⟩ rfl
  exact absurd hrestores (by decide)

end Context

end Stuff.ConfigContext
