import StrategicRewriting.Strategy.Effect

/-!
Lists as sequences of cells, and their reconstruction from new elements. A
list is rebuilt only as far as its last changed element; the cells after it
are used again, and rebuilt cells keep their annotations.
-/
namespace StrategicRewriting

/-- A list node and its head. -/
structure Cell where
  node : Term
  head : Term

namespace Term

/-- The list nodes of a list, from the first to the last. -/
def cells : Term → List Cell
  | .cons o h t => ⟨.cons o h t, h⟩ :: t.cells
  | .annotated o b as =>
    match b.cells with
    | c :: cs => ⟨.annotated o b as, c.head⟩ :: cs
    | [] => []
  | _ => []

/-- What follows the last list node of a list. -/
def lastTail : Term → Term
  | .cons _ _ t => t.lastTail
  | .annotated o b as =>
    match b.cells with
    | _ :: _ => b.lastTail
    | [] => .annotated o b as
  | t => t

end Term

namespace Spine

/-- The list that starts with the first of the cells. -/
def start (tail : Term) : List Cell → Term
  | [] => tail
  | c :: _ => c.node

/-- The list of new elements in place of those in the cells, where an absent
element is left out, or nothing if no element has changed. -/
def rebuildCells (tail : Term) : List Cell → List (Option Term) → Option Term
  | c :: cs, n :: ns =>
    match rebuildCells tail cs ns, n with
    | some rest, some y => some (c.node.withShape (.cons y rest))
    | some rest, none => some rest
    | none, some y =>
      if y.same c.head then none else some (c.node.withShape (.cons y (start tail cs)))
    | none, none => some (start tail cs)
  | _, _ => none

/-- Rebuild a list with new elements. If the first element is left out, its
annotations go over to what is left. -/
def rebuild (list : Term) (new : List (Option Term)) : Term :=
  match rebuildCells list.lastTail list.cells new with
  | none => list
  | some t =>
    match new, list.annotations with
    | none :: _, some as => .make t.shape (some as)
    | _, _ => t

/-- Replace the elements of a list by those that `f` gives for them. -/
def transform (list : Term) (f : List Cell → Effect (List (Option Term))) : Effect Term :=
  if list.isList then do
    let new ← f list.cells
    pure (rebuild list new)
  else .fatal (.notAList list)

/-- Apply to all elements. -/
def mapCells (f : Term → Effect Term) (cs : List Cell) : Effect (List (Option Term)) :=
  .inOrder (cs.map fun c => some <$> f c.head)

/-- Apply to all elements, leaving out those on which `f` fails. -/
def filterCells (f : Term → Effect Term) (cs : List Cell) : Effect (List (Option Term)) :=
  .inOrder (cs.map fun c => (f c.head).attempt)

/-- Apply to the first element on which `f` succeeds. -/
def fetchCells (f : Term → Effect Term) : List Cell → Effect (List (Option Term))
  | [] => .failure
  | c :: cs => do
    match ← (f c.head).attempt with
    | some y => pure (some y :: cs.map (some ·.head))
    | none =>
      let new ← fetchCells f cs
      pure (some c.head :: new)

/-- Apply to all elements on which `f` succeeds, of which there has to be one. -/
def someCells (f : Term → Effect Term) (cs : List Cell) : Effect (List (Option Term)) := do
  let new ← filterCells f cs
  if new.any Option.isSome then
    pure (List.zipWith (fun c n => n.orElse fun _ => some c.head) cs new)
  else .failure

/-- Apply the strategies to the elements, one by one. -/
def zipCells (fs : List (Term → Effect Term)) (cs : List Cell) : Effect (List (Option Term)) :=
  .inOrder (List.zipWith (fun f c => some <$> f c.head) fs cs)

/-- Apply `f` to the list of the immediate subterms: the elements of a list, or
the arguments of an application. Other terms are left to `otherwise`. -/
def onChildren (t : Term) (f : Term → Effect Term) (otherwise : Effect Term) : Effect Term :=
  match t.shape with
  | .nil | .cons .. => f t
  | .appl functor args =>
    if args.isList then do
      let new ← f args
      pure (if new.same args then t else t.withShape (.appl functor new))
    else otherwise
  | _ => otherwise

end Spine

end StrategicRewriting
