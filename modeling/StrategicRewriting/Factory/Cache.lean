import StrategicRewriting.Term.Basic

/-!
A bounded memory of terms by their source text, in order of use. A text that
does not fit any more pushes out the one that was used the longest time ago.
-/
namespace StrategicRewriting

structure Cache where
  capacity : Nat
  /-- The entries, the most recently used one first. -/
  entries : List (String × Term)

namespace Cache

def empty (capacity : Nat) : Cache :=
  ⟨capacity, []⟩

def size (c : Cache) : Nat :=
  c.entries.length

/-- The term of a text, which becomes the most recently used one. -/
def get? (c : Cache) (src : String) : Option (Term × Cache) :=
  match c.entries.find? (·.1 == src) with
  | none => none
  | some entry =>
    some (entry.2, { c with entries := entry :: c.entries.filter (·.1 != src) })

/-- Remember the term of a new text; also gives the text that was pushed out. A
cache without capacity remembers nothing. -/
def push (c : Cache) (src : String) (t : Term) : Cache × Option String :=
  if c.capacity = 0 then (c, none)
  else if c.size < c.capacity then ({ c with entries := (src, t) :: c.entries }, none)
  else
    ({ c with entries := (src, t) :: c.entries.dropLast }, c.entries.getLast?.map (·.1))

end Cache

end StrategicRewriting
