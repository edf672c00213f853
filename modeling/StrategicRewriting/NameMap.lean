/-!
Finite maps from names, in order of insertion. Inserting a name again replaces
its value in place, so the names do not change.
-/
namespace StrategicRewriting

structure NameMap (α : Type) where
  entries : List (String × α)

namespace NameMap

variable {α : Type}

def empty : NameMap α := ⟨[]⟩

def get? (m : NameMap α) (x : String) : Option α :=
  m.entries.lookup x

def names (m : NameMap α) : List String :=
  m.entries.map (·.1)

def insertEntry (x : String) (a : α) : List (String × α) → List (String × α)
  | [] => [(x, a)]
  | (y, b) :: es => if y = x then (x, a) :: es else (y, b) :: insertEntry x a es

def insert (m : NameMap α) (x : String) (a : α) : NameMap α :=
  ⟨insertEntry x a m.entries⟩

theorem lookup_insertEntry (x y : String) (a : α) (es : List (String × α)) :
    (insertEntry x a es).lookup y = if y = x then some a else es.lookup y := by
  induction es with
  | nil =>
    by_cases h : y = x
    · simp [insertEntry, h]
    · simp [insertEntry, List.lookup_cons, beq_false_of_ne h, h]
  | cons e es ih =>
    obtain ⟨z, b⟩ := e
    by_cases hz : z = x
    · subst hz
      by_cases h : y = z
      · simp [insertEntry, h]
      · simp [insertEntry, List.lookup_cons, beq_false_of_ne h, h]
    · by_cases h : y = z
      · subst h
        simp [insertEntry, hz]
      · simp [insertEntry, hz, List.lookup_cons, beq_false_of_ne h, ih]

@[simp]
theorem get?_insert (m : NameMap α) (x y : String) (a : α) :
    (m.insert x a).get? y = if y = x then some a else m.get? y :=
  lookup_insertEntry x y a m.entries

end NameMap

end StrategicRewriting
