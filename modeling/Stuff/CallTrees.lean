import Mathlib.Logic.Basic
import Mathlib.Tactic.Basic

/-!
# Code that makes system calls, throws and unwinds

Such code is a tree: at each node it makes a call and goes on with the branch of
the answer. Its objects live beside the tree, so that they survive an exception,
and it knows whether an exception is unwinding the stack, since a destructor that
throws then ends the program.

A property of the code is proved against rules that say what its owner may call
and what an answer does to the owner's view of the world. The rest of the world
only has to respect the view, so what is proved of a tree holds under every
interleaving with the trees of others.
-/
namespace Stuff.CallTrees

/-- Why code does not come to its end: `std::terminate`, or a loop that turns on
the spot. -/
inductive Abort where
  | terminate
  | spin
deriving DecidableEq, Repr

inductive Tree (C R α : Type) where
  | done (a : α)
  | abort (why : Abort)
  | call (c : C) (k : R → Tree C R α)

/-- What an owner may call and what the answers do to its view. -/
structure Rules (L C R : Type) where
  may : L → C → Prop
  turn : L → C → R → L → Prop

namespace Tree

variable {C R α β L L₁ : Type}

def bind : Tree C R α → (α → Tree C R β) → Tree C R β
  | done a, f => f a
  | abort why, _ => abort why
  | call c k, f => call c fun r => (k r).bind f

/-- The tree calls only what it may, does not abort and ends with the postcondition. -/
def wp (ρ : Rules L C R) : Tree C R α → L → (α → L → Prop) → Prop
  | done a, l, Q => Q a l
  | abort _, _, _ => False
  | call c k, l, Q => ρ.may l c ∧ ∀ r l', ρ.turn l c r l' → (k r).wp ρ l' Q

theorem wp_bind (ρ : Rules L C R) (t : Tree C R α) (f : α → Tree C R β) (l : L)
    (Q : β → L → Prop) :
    (t.bind f).wp ρ l Q ↔ t.wp ρ l fun a l' => (f a).wp ρ l' Q := by
  induction t generalizing l with
  | done a => exact Iff.rfl
  | abort why => exact Iff.rfl
  | call c k ih =>
      simp only [bind, wp]
      exact and_congr_right fun _ => forall_congr' fun r => forall_congr' fun l' =>
        imp_congr_right fun _ => ih r l'

theorem wp_mono {ρ : Rules L C R} {t : Tree C R α} {l : L} {Q Q' : α → L → Prop}
    (hQ : ∀ a l', Q a l' → Q' a l') (h : t.wp ρ l Q) : t.wp ρ l Q' := by
  induction t generalizing l with
  | done a => exact hQ a l h
  | abort why => exact h
  | call c k ih => exact ⟨h.1, fun r l' hturn => ih r (h.2 r l' hturn)⟩

/-- What is proved against a part of the view holds against the whole of it, if the
owner's calls touch nothing but that part. -/
theorem wp_frame {ρ₁ : Rules L₁ C R} {ρ : Rules L C R} (part : L → L₁) {I : L → Prop}
    (hmay : ∀ l c, I l → ρ₁.may (part l) c → ρ.may l c)
    (hturn : ∀ l c r l', I l → ρ₁.may (part l) c → ρ.turn l c r l' →
      ρ₁.turn (part l) c r (part l') ∧ I l')
    {t : Tree C R α} {l : L} (hI : I l) {Q : α → L₁ → Prop} (h : t.wp ρ₁ (part l) Q) :
    t.wp ρ l fun a l' => Q a (part l') ∧ I l' := by
  induction t generalizing l with
  | done a => exact ⟨h, hI⟩
  | abort why => exact h
  | call c k ih =>
      refine ⟨hmay l c hI h.1, fun r l' hr => ?_⟩
      obtain ⟨hr₁, hI'⟩ := hturn l c r l' hI h.1 hr
      exact ih r hI' (h.2 r (part l') hr₁)

end Tree

/-- Code over the objects `σ`. The flag says whether an exception unwinds the stack;
the result is a value or an exception, with the objects as they are then. -/
def Code (C R σ α : Type) : Type := Bool → σ → Tree (C × Bool) R (Except Unit α × σ)

namespace Code

variable {C R σ τ α β L L₁ : Type}

protected def bind (m : Code C R σ α) (f : α → Code C R σ β) : Code C R σ β := fun u s =>
  (m u s).bind fun
    | (.ok a, s') => f a u s'
    | (.error e, s') => .done (.error e, s')

instance : Monad (Code C R σ) where
  pure a := fun _ s => .done (.ok a, s)
  bind := Code.bind

def raise : Code C R σ α := fun _ s => .done (.error (), s)

def spin : Code C R σ α := fun _ _ => .abort .spin

def objects : Code C R σ σ := fun _ s => .done (.ok s, s)

def update (f : σ → σ) : Code C R σ Unit := fun _ s => .done (.ok (), f s)

/-- `std::uncaught_exceptions`, as far as it has grown since the code began. -/
def unwinding : Code C R σ Bool := fun u s => .done (.ok u, s)

def sys (c : C) : Code C R σ R := fun u s => .call (c, u) fun r => .done (.ok r, s)

/-- A `try` block: says whether it came to its end. -/
def attempt (m : Code C R σ Unit) : Code C R σ Bool := fun u s =>
  (m u s).bind fun
    | (.ok _, s') => .done (.ok true, s')
    | (.error _, s') => .done (.ok false, s')

/-- A block and the destructor that runs when it is left. A destructor that throws
while the stack is unwound ends the program. -/
def scope (body : Code C R σ α) (dtor : Code C R σ Unit) : Code C R σ α := fun u s =>
  (body u s).bind fun
    | (.ok a, s') => (dtor u s').bind fun
        | (.ok _, s'') => .done (.ok a, s'')
        | (.error e, s'') => .done (.error e, s'')
    | (.error e, s') => (dtor true s').bind fun
        | (.ok _, s'') => .done (.error e, s'')
        | (.error _, _) => .abort .terminate

/-- Code over a part of the objects. -/
def focus (get : τ → σ) (put : σ → τ → τ) (m : Code C R σ α) : Code C R τ α := fun u s =>
  (m u (get s)).bind fun r => .done (r.1, put r.2 s)

/-- Code over objects that live only as long as it runs. -/
def within (init : τ) (m : Code C R τ α) : Code C R σ α := fun u s =>
  (m u init).bind fun r => .done (r.1, s)

/-- What holds when the code has returned, and when it has thrown. -/
def wp (ρ : Rules L (C × Bool) R) (m : Code C R σ α) (u : Bool) (s : σ) (l : L)
    (Q : α → σ → L → Prop) (E : σ → L → Prop) : Prop :=
  (m u s).wp ρ l fun r l' =>
    match r.1 with
    | .ok a => Q a r.2 l'
    | .error _ => E r.2 l'

section rules
variable (ρ : Rules L (C × Bool) R) (u : Bool) (s : σ) (l : L)
  (E : σ → L → Prop)

@[simp] theorem wp_pure (a : α) (Q : α → σ → L → Prop) :
    wp ρ (pure a : Code C R σ α) u s l Q E ↔ Q a s l := Iff.rfl

@[simp] theorem wp_raise (Q : α → σ → L → Prop) :
    wp ρ (raise : Code C R σ α) u s l Q E ↔ E s l := Iff.rfl

@[simp] theorem wp_objects (Q : σ → σ → L → Prop) :
    wp ρ (objects : Code C R σ σ) u s l Q E ↔ Q s s l := Iff.rfl

@[simp] theorem wp_update (f : σ → σ) (Q : Unit → σ → L → Prop) :
    wp ρ (update f : Code C R σ Unit) u s l Q E ↔ Q () (f s) l := Iff.rfl

@[simp] theorem wp_unwinding (Q : Bool → σ → L → Prop) :
    wp ρ (unwinding : Code C R σ Bool) u s l Q E ↔ Q u s l := Iff.rfl

@[simp] theorem wp_sys (c : C) (Q : R → σ → L → Prop) :
    wp ρ (sys c : Code C R σ R) u s l Q E ↔
      ρ.may l (c, u) ∧ ∀ r l', ρ.turn l (c, u) r l' → Q r s l' := Iff.rfl

@[simp] theorem wp_bind (m : Code C R σ α) (f : α → Code C R σ β) (Q : β → σ → L → Prop) :
    wp ρ (m >>= f) u s l Q E ↔ wp ρ m u s l (fun a s' l' => wp ρ (f a) u s' l' Q E) E := by
  refine (Tree.wp_bind ρ (m u s) _ l _).trans (iff_of_eq ?_)
  unfold wp
  congr 1
  funext ⟨r, s'⟩ l'
  cases r <;> rfl

@[simp] theorem wp_attempt (m : Code C R σ Unit) (Q : Bool → σ → L → Prop) :
    wp ρ (attempt m) u s l Q E ↔
      wp ρ m u s l (fun _ s' l' => Q true s' l') (fun s' l' => Q false s' l') := by
  refine (Tree.wp_bind ρ (m u s) _ l _).trans (iff_of_eq ?_)
  unfold wp
  congr 1
  funext ⟨r, s'⟩ l'
  cases r <;> rfl

@[simp] theorem wp_scope (body : Code C R σ α) (dtor : Code C R σ Unit)
    (Q : α → σ → L → Prop) :
    wp ρ (scope body dtor) u s l Q E ↔
      wp ρ body u s l
        (fun a s' l' => wp ρ dtor u s' l' (fun _ s'' l'' => Q a s'' l'') E)
        (fun s' l' => wp ρ dtor true s' l' (fun _ s'' l'' => E s'' l'') fun _ _ => False) := by
  refine (Tree.wp_bind ρ (body u s) _ l _).trans (iff_of_eq ?_)
  unfold wp
  congr 1
  funext ⟨r, s'⟩ l'
  -- the destructor is the same code on both ways out, only the end of it differs
  cases r <;>
  · refine propext ((Tree.wp_bind ρ _ _ l' _).trans (iff_of_eq ?_))
    congr 1
    funext ⟨r', s''⟩ l''
    cases r' <;> rfl

@[simp] theorem wp_focus (get : τ → σ) (put : σ → τ → τ) (m : Code C R σ α) (t : τ)
    (Q : α → τ → L → Prop) (E : τ → L → Prop) :
    wp ρ (focus get put m) u t l Q E ↔
      wp ρ m u (get t) l (fun a s' l' => Q a (put s' t) l') fun s' l' => E (put s' t) l' :=
  Tree.wp_bind ρ (m u (get t)) _ l _

@[simp] theorem wp_within (init : τ) (m : Code C R τ α) (Q : α → σ → L → Prop) :
    wp ρ (within init m : Code C R σ α) u s l Q E ↔
      wp ρ m u init l (fun a _ l' => Q a s l') fun _ l' => E s l' :=
  Tree.wp_bind ρ (m u init) _ l _

end rules

theorem wp_mono {ρ : Rules L (C × Bool) R} {m : Code C R σ α} {u : Bool} {s : σ} {l : L}
    {Q Q' : α → σ → L → Prop} {E E' : σ → L → Prop}
    (hQ : ∀ a s' l', Q a s' l' → Q' a s' l') (hE : ∀ s' l', E s' l' → E' s' l')
    (h : wp ρ m u s l Q E) : wp ρ m u s l Q' E' := by
  refine Tree.wp_mono (fun r l' hr => ?_) h
  obtain ⟨r, s'⟩ := r
  cases r with
  | ok a => exact hQ a s' l' hr
  | error e => exact hE s' l' hr

theorem wp_frame {ρ₁ : Rules L₁ (C × Bool) R} {ρ : Rules L (C × Bool) R} (part : L → L₁)
    {I : L → Prop}
    (hmay : ∀ l c, I l → ρ₁.may (part l) c → ρ.may l c)
    (hturn : ∀ l c r l', I l → ρ₁.may (part l) c → ρ.turn l c r l' →
      ρ₁.turn (part l) c r (part l') ∧ I l')
    {m : Code C R σ α} {u : Bool} {s : σ} {l : L} (hI : I l) {Q : α → σ → L₁ → Prop}
    {E : σ → L₁ → Prop} (h : wp ρ₁ m u s (part l) Q E) :
    wp ρ m u s l (fun a s' l' => Q a s' (part l') ∧ I l') fun s' l' => E s' (part l') ∧ I l' := by
  refine Tree.wp_mono (fun r l' hr => ?_) (Tree.wp_frame part hmay hturn hI h)
  obtain ⟨r, s'⟩ := r
  cases r with
  | ok a => exact hr
  | error e => exact hr

end Code

end Stuff.CallTrees
