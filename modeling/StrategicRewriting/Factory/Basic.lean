import StrategicRewriting.Factory.Cache
import StrategicRewriting.Term.Annotations
import StrategicRewriting.Written.Parser

/-!
Construction of numbered terms. A factory has one empty list and one wildcard,
which all its terms share; every other node gets a number of its own. Parsed
terms are remembered, so that the same text gives the same term.
-/
namespace StrategicRewriting

structure Factory where
  cache : Cache
  /-- The number of the next node. -/
  next : Nat

namespace Factory

/-- Number of parsed terms that are remembered by default. -/
def defaultCapacity : Nat := 4096

def nil : Term := .nil (.serial 0)

def wildcard : Term := .wildcard (.serial 1)

def withCapacity (n : Nat) : Factory :=
  ⟨.empty n, 2⟩

def new : Factory :=
  withCapacity defaultCapacity

/-- A new node. -/
def node (s : Shape) : StateM Nat Term :=
  fun n => (.ofShape (.serial n) s, n + 1)

/-- A new node, annotated unless there are no annotations. -/
def annotatedNode (s : Shape) (annos : List Term) (list : Term) : StateM Nat Term :=
  match annos with
  | [] => node s
  | _ :: _ => fun n => (.annotated (.serial n) (.ofShape .derived s) list, n + 1)

/-- The list of the given elements, followed by `tail`. -/
def listOnto (tail : Term) : List Term → StateM Nat Term
  | [] => pure tail
  | t :: ts => do node (.cons t (← listOnto tail ts))

def varNode (x : String) (constraint : Term) : StateM Nat Term :=
  node (.var x constraint)

mutual

/-- The shared term of a written one. -/
def share : Written → StateM Nat Term
  | .int i => node (.int i)
  | .real r => node (.real r)
  | .str s => node (.str s)
  | .list es spread => do listOnto (← shareTail spread) (← shareAll es)
  | .appl fn es spread => do
    let functor ← match fn with
      | .name s => node (.str s)
      | .var x => varNode x wildcard
      | .wildcard => pure wildcard
    let args ← listOnto (← shareTail spread) (← shareAll es)
    node (.appl functor args)
  | .wildcard => pure wildcard
  | .var x none => varNode x wildcard
  | .var x (some p) => do varNode x (← share p)
  | .annotated w as => do
    let annos ← shareAll as
    let list ← listOnto nil annos
    let t ← share w
    annotatedNode t.shape annos list

def shareAll : List Written → StateM Nat (List Term)
  | [] => pure []
  | w :: ws => do
    let t ← share w
    let ts ← shareAll ws
    pure (t :: ts)

/-- The end of a list: the spread, or the empty list. -/
def shareTail : Option Written → StateM Nat Term
  | none => pure nil
  | some w => share w

end

/-- Run a construction that numbers its nodes. -/
def number {α : Type} (f : Factory) (make : StateM Nat α) : α × Factory :=
  let (a, n) := make f.next
  (a, { f with next := n })

/-- A parsed term, the factory after it, and the text that was pushed out of the
cache to make room for it. -/
structure Parsed where
  term : Term
  factory : Factory
  evicted : Option String

/-- Parse a term, or remember it from an earlier time. Texts that are no terms
leave the factory as it is. -/
def parse (f : Factory) (src : String) : Except ParseError Parsed :=
  match f.cache.get? src with
  | some (t, cache) => .ok ⟨t, { f with cache }, none⟩
  | none => do
    let w ← Written.parse src
    let (t, f) := f.number (share w)
    let (cache, evicted) := f.cache.push src t
    .ok ⟨t, { f with cache }, evicted⟩

/-- A node that begins a list. -/
def cons (f : Factory) (head tail : Term) : Except Fatal (Term × Factory) :=
  if tail.isTail then .ok (f.number (node (.cons head tail))) else .error (.notAList tail)

def list (f : Factory) (elems : List Term) : Term × Factory :=
  f.number (listOnto nil elems)

/-- The list of the given elements, followed by `tail`. Without elements the
tail has to be a list itself. -/
def listWithTail (f : Factory) (elems : List Term) (tail : Term) :
    Except Fatal (Term × Factory) :=
  if tail.isTail && (!elems.isEmpty || tail.isList) then .ok (f.number (listOnto tail elems))
  else .error (.notAList tail)

/-- Application of a literal name. -/
def appl (f : Factory) (name : String) (args : List Term) : Term × Factory :=
  f.number do node (.appl (← node (.str name)) (← listOnto nil args))

/-- Application whose name and arguments are terms. -/
def applTerm (f : Factory) (functor args : Term) : Except Fatal (Term × Factory) :=
  match functor.shape with
  | .str _ | .var .. | .wildcard =>
    if args.isTail then .ok (f.number (node (.appl functor args))) else .error (.notAList args)
  | _ => .error (.notAString functor)

/-- A numbered node for the term with its annotations replaced. -/
def annotate (f : Factory) (t annos : Term) : Except Fatal (Term × Factory) := do
  let t ← t.setAnnotations annos
  .ok (f.number fun n => (t.withOrigin (.serial n), n + 1))

end Factory

end StrategicRewriting
