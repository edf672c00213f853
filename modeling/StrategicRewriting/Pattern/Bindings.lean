import StrategicRewriting.Fatal
import StrategicRewriting.NameMap

/-!
What matching a pattern finds out, and where building a term looks it up.
-/
namespace StrategicRewriting

/-- Values of variables, and the terms matched by wildcards in their order. -/
structure Bindings where
  vars : NameMap Term
  captures : List Term

namespace Bindings

def empty : Bindings := ⟨.empty, []⟩

def get? (b : Bindings) (x : String) : Option Term :=
  b.vars.get? x

def bind (b : Bindings) (x : String) (t : Term) : Bindings :=
  { b with vars := b.vars.insert x t }

def capture (b : Bindings) (t : Term) : Bindings :=
  { b with captures := b.captures ++ [t] }

end Bindings

/-- The value of a variable: none if the variable is known but has no value,
and an error if it is not known. -/
abbrev Lookup := String → Except Fatal (Option Term)

/-- Bindings know every variable. -/
def Bindings.lookup (b : Bindings) : Lookup :=
  fun x => .ok (b.get? x)

/-- Look a variable up in `l`, then in `r`. -/
def Lookup.orElse (l r : Lookup) : Lookup := fun x =>
  match l x with
  | .ok (some t) => .ok (some t)
  | .ok none => r x
  | .error e => .error e

end StrategicRewriting
