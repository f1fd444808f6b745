import Mathlib.Data.List.Basic

/-!
# An event that a coroutine can wait for

`Coro::Waiter`. The handler that `wait` stores resumes the coroutine: it posts the
continuation to the executor.
-/
namespace Stuff.CoroWaiter

inductive State
  | idle
  | waiting
  | ready
deriving DecidableEq, Repr

/-- The state, and how often the handler was invoked. -/
structure Waiter where
  state : State := .idle
  invoked : ℕ := 0
deriving DecidableEq, Repr

/-- The locked section of `wait`. -/
def Waiter.wait (w : Waiter) : Waiter :=
  match w.state with
  | .idle => { w with state := .waiting }
  | .waiting => w
  | .ready => { w with invoked := w.invoked + 1 }

/-- A notification in the state `waiting` does not change the state. -/
def Waiter.notify (w : Waiter) : Waiter :=
  match w.state with
  | .idle => { w with state := .ready }
  | .waiting => { w with invoked := w.invoked + 1 }
  | .ready => w

end Stuff.CoroWaiter
