import StrategicRewriting.Context
import StrategicRewriting.Log

/-!
Computations of strategies: they read and change a context, report events, and
end in a value, in a failure that can be recovered from, in a fatal error that
cannot, or without an answer because their time is used up. What they did to
the context stays done, however they end.
-/
namespace StrategicRewriting

inductive Outcome (α : Type) where
  | ok (value : α)
  | failure
  | fatal (error : Fatal)
  /-- The time was not enough for an answer. -/
  | exhausted
deriving DecidableEq

structure State where
  context : Context
  /-- The events so far, the latest one first. -/
  log : List Event

namespace State

def initial : State := ⟨.empty, []⟩

/-- The events in the order in which they happened. -/
def events (σ : State) : List Event :=
  σ.log.reverse

end State

def Effect (α : Type) := State → Outcome α × State

namespace Effect

variable {α β : Type}

@[inline]
protected def pure (a : α) : Effect α :=
  fun σ => (.ok a, σ)

@[inline]
protected def bind (x : Effect α) (f : α → Effect β) : Effect β := fun σ =>
  match x σ with
  | (.ok a, σ) => f a σ
  | (.failure, σ) => (.failure, σ)
  | (.fatal e, σ) => (.fatal e, σ)
  | (.exhausted, σ) => (.exhausted, σ)

instance : Monad Effect where
  pure := Effect.pure
  bind := Effect.bind

@[simp]
theorem pure_apply (a : α) (σ : State) : (pure a : Effect α) σ = (.ok a, σ) := rfl

theorem bind_apply (x : Effect α) (f : α → Effect β) (σ : State) :
    (x >>= f) σ =
      match x σ with
      | (.ok a, σ) => f a σ
      | (.failure, σ) => (.failure, σ)
      | (.fatal e, σ) => (.fatal e, σ)
      | (.exhausted, σ) => (.exhausted, σ) := rfl

def failure : Effect α :=
  fun σ => (.failure, σ)

def fatal (e : Fatal) : Effect α :=
  fun σ => (.fatal e, σ)

def exhausted : Effect α :=
  fun σ => (.exhausted, σ)

def ofExcept : Except Fatal α → Effect α
  | .ok a => .pure a
  | .error e => fatal e

def ofOption : Option α → Effect α
  | some a => .pure a
  | none => failure

/-- Turn a failure into the absence of a value. This is the only way to recover
from a failure. -/
@[inline]
def attempt (x : Effect α) : Effect (Option α) := fun σ =>
  match x σ with
  | (.ok a, σ) => (.ok (some a), σ)
  | (.failure, σ) => (.ok none, σ)
  | (.fatal e, σ) => (.fatal e, σ)
  | (.exhausted, σ) => (.exhausted, σ)

/-- Run `undo` if `x` fails or ends in a fatal error, and end like `x`. -/
def undoing (x : Effect α) (undo : Effect Unit) : Effect α := fun σ =>
  match x σ with
  | (.ok a, σ) => (.ok a, σ)
  | (.failure, σ) => (undo.bind fun _ => failure) σ
  | (.fatal e, σ) => (undo.bind fun _ => fatal e) σ
  | (.exhausted, σ) => (.exhausted, σ)

def context : Effect Context :=
  fun σ => (.ok σ.context, σ)

/-- Replace the context, unless there is an error. -/
def update (f : Context → Except Fatal Context) : Effect Unit := fun σ =>
  match f σ.context with
  | .ok c => (.ok (), { σ with context := c })
  | .error e => (.fatal e, σ)

/-- Read from the context. -/
def read (f : Context → Except Fatal α) : Effect α :=
  fun σ => ofExcept (f σ.context) σ

def report (e : Event) : Effect Unit :=
  fun σ => (.ok (), { σ with log := e :: σ.log })

/-- Run inside another frame, which is dropped however the run ends. -/
def within (f : Frame) (x : Effect α) : Effect α := fun σ =>
  let (o, σ) := x { σ with context := σ.context.push f }
  (o, { σ with context := σ.context.pop })

/-- The results of computations that are run one after the other. -/
def inOrder : List (Effect α) → Effect (List α)
  | [] => pure []
  | x :: xs => do
    let a ← x
    let as ← inOrder xs
    pure (a :: as)

end Effect

end StrategicRewriting
