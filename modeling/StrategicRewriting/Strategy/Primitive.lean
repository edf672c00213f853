import StrategicRewriting.Pattern.Build
import StrategicRewriting.Pattern.Match
import StrategicRewriting.Strategy.Effect

/-!
What the elementary strategies do: matching and building in the context, rules,
merging of tables, arithmetic, and the two loops.
-/
namespace StrategicRewriting

namespace Effect

/-- Give the variables the values that they have in the bindings. -/
def assignAll (b : Bindings) : List String → Effect Unit
  | [] => pure ()
  | x :: xs => do
    match b.get? x with
    | some v => update (·.set x v)
    | none => pure ()
    assignAll b xs

/-- The values that the variables have in the context. -/
def valuesOf : List String → Bindings → Effect Bindings
  | [], b => pure b
  | x :: xs, b => do
    match ← read (·.get x) with
    | some v => valuesOf xs (b.bind x v)
    | none => valuesOf xs b

/-- Match a pattern whose variables are those of the context. -/
def matchPattern (pat t : Term) : Effect Term := do
  let b ← valuesOf pat.vars .empty
  match pat.matchTerm t b with
  | (true, b) => do
    assignAll b pat.vars
    pure t
  | (false, _) => failure

/-- Build a pattern whose variables are those of the context. -/
def buildPattern (pat : Term) : Effect Term :=
  read fun c => (pat.build c.get []).1

/-- Apply a rule. The variables of its left-hand side are local to it. -/
def applyRule (lhs rhs t : Term) : Effect Term :=
  match lhs.matchTerm t .empty with
  | (true, b) => do
    let out ← read fun c => (rhs.build (b.lookup.orElse c.get) b.captures).1
    report (.ruleApplied t out)
    pure out
  | (false, _) => failure

/-- A frame that binds the variables to the values that are computed for them. -/
def bindAll : List (String × Effect Term) → Frame → Effect Frame
  | [], f => pure f
  | (x, v) :: bs, f => do
    let t ← v
    bindAll bs (f.bind x t)

/-- Both elements of a pair. -/
def pairOf (t : Term) : Effect (Term × Term) :=
  match t.toPair? with
  | some p => pure p
  | none => fatal (.notAPair t)

def intOf (t : Term) : Effect Int64 :=
  match t.toInt? with
  | some i => pure i
  | none => fatal (.notAnInt t)

def elemsOf (t : Term) : Effect (List Term) :=
  match t.toList? with
  | some ts => pure ts
  | none => fatal (.notAList t)

/-- Both integers of a pair. -/
def operands (t : Term) : Effect (Int64 × Int64) := do
  let (a, b) ← pairOf t
  let i ← intOf a
  let j ← intOf b
  pure (i, j)

/-- Arithmetic on a pair of integers, which wraps around. -/
def arithmetic (op : Int64 → Int64 → Int64) (t : Term) : Effect Term := do
  let (i, j) ← operands t
  pure (.make (.int (op i j)) none)

/-- Comparison of a pair of integers. -/
def comparison (rel : Int64 → Int64 → Bool) (t : Term) : Effect Term := do
  let (i, j) ← operands t
  if rel i j then pure t else failure

/-- A list of elements with a new end. -/
def listOf (ts : List Term) : Term :=
  .listOnto .empty ts

/-- Apply `f` until it fails. -/
def repeatFrom (f : Term → Effect Term) : Nat → Term → Effect Term
  | 0, _ => exhausted
  | n + 1, t => do
    match ← (f t).attempt with
    | some t => repeatFrom f n t
    | none => pure t

/-- Run `x` and merge its tables with their earlier contents, until this does
not change them any more. -/
def iterateTables (m : Merge) (x : Effect Term) : Nat → Effect Term
  | 0 => exhausted
  | n + 1 => do
    let before ← read m.snapshot
    let t ← x
    let (changed, c) ← read (m.apply before)
    update fun _ => .ok c
    if changed then iterateTables m x n
    else do
      report .fixpoint
      pure t

/-- Run `left`, then `right` on its result from the same contents of the tables,
and merge what both made of them. -/
def joinTables (m : Merge) (before : List Table) (left : Effect Term)
    (right : Term → Effect Term) : Effect Term := do
  let t ← left
  let after ← read m.snapshot
  update (m.restore before)
  let t ← right t
  let (_, c) ← read (m.apply after)
  update fun _ => .ok c
  pure t

end Effect

end StrategicRewriting
