/-!
Stacks, seen from the element that was pushed last.
-/
namespace StrategicRewriting

structure Stack (α : Type) where
  /-- The elements, the topmost one first. -/
  toList : List α

namespace Stack

variable {α : Type}

def empty : Stack α := ⟨[]⟩

def push (s : Stack α) (a : α) : Stack α :=
  ⟨a :: s.toList⟩

/-- The topmost element, if there is one, and the stack below it. -/
def pop (s : Stack α) : Option α × Stack α :=
  match s.toList with
  | [] => (none, s)
  | a :: as => (some a, ⟨as⟩)

def size (s : Stack α) : Nat :=
  s.toList.length

def isEmpty (s : Stack α) : Bool :=
  s.toList.isEmpty

/-- Change every element, given its distance from the top. -/
def mapIdx (s : Stack α) (f : Nat → α → α) : Stack α :=
  ⟨s.toList.mapIdx f⟩

@[simp]
theorem pop_push (s : Stack α) (a : α) : (s.push a).pop = (some a, s) := rfl

end Stack

end StrategicRewriting
