import StrategicRewriting.Term.Printer

/-!
Tables from terms to terms. Keys are told apart by equality of terms, which
looks at the annotations of the key itself and at no others.
-/
namespace StrategicRewriting

structure Table where
  entries : List (Term × Term)

namespace Table

def empty : Table := ⟨[]⟩

def size (t : Table) : Nat :=
  t.entries.length

def get? (t : Table) (k : Term) : Option Term :=
  (t.entries.find? (·.1.equal k)).map (·.2)

def insertEntry (k v : Term) : List (Term × Term) → List (Term × Term)
  | [] => [(k, v)]
  | e :: es => if e.1.equal k then (k, v) :: es else e :: insertEntry k v es

/-- Store a value, in place of an equal key and its value. -/
def insert (t : Table) (k v : Term) : Table :=
  ⟨insertEntry k v t.entries⟩

def erase (t : Table) (k : Term) : Table :=
  ⟨t.entries.filter fun e => !e.1.equal k⟩

def contains (t : Table) (k : Term) : Bool :=
  (t.get? k).isSome

/-- The entries of `l`, and those of `r` whose keys `l` does not have. -/
def extend (l r : Table) : Table :=
  ⟨l.entries ++ r.entries.filter fun e => !l.contains e.1⟩

/-- Union of two tables. Where both have a key, the larger table decides, and
the left one if they have the same size. -/
def union (l r : Table) : Table :=
  if r.size ≤ l.size then l.extend r else r.extend l

/-- The entries of `l` whose key has an equal value in `r`. -/
def inter (l r : Table) : Table :=
  ⟨l.entries.filter fun e => (r.get? e.1).any (·.equal e.2)⟩

/-- The tables have equal values for the same keys. -/
def equal (l r : Table) : Bool :=
  l.size == r.size && l.entries.all fun e => (r.get? e.1).any (·.equal e.2)

/-- Order of texts by code points, of pairs by their first difference. -/
def textOrder (a b : String × String) : Bool :=
  a.1 < b.1 || (a.1 == b.1 && a.2 ≤ b.2)

/-- The texts of the entries, in order. -/
def listing (t : Table) : List (String × String) :=
  (t.entries.map fun e => (e.1.text, e.2.text)).mergeSort textOrder

end Table

end StrategicRewriting
