import StrategicRewriting.Strategy.Basic
import StrategicRewriting.Strategy.Primitive
import StrategicRewriting.Strategy.Spine

/-!
Application of strategies. The evaluator is given the depth to which it may
nest; running out of it is an outcome of its own, which no strategy observes.
-/
namespace StrategicRewriting

/-- The recursive strategies around a strategy, the innermost one first. -/
abbrev Env := List (Label × Strategy)

/-- The strategy of a label together with the recursive strategies around it,
itself included. -/
def Env.resolve (l : Label) : Env → Option (Strategy × Env)
  | [] => none
  | (l', s) :: ρ => if l = l' then some (s, (l', s) :: ρ) else resolve l ρ

namespace Strategy

open Effect in
/-- One level of the application of a strategy: `call` applies the strategies
inside it, and loops go round at most `n` times. -/
def step (call : Env → Strategy → Term → Effect Term) (n : Nat) (ρ : Env) (s : Strategy)
    (t : Term) : Effect Term :=
  match s with
  | .ident => pure t
  | .fail => failure
  | .seq s₁ s₂ => do
    let t ← call ρ s₁ t
    call ρ s₂ t
  | .choice s₁ s₂ => do
    match ← (call ρ s₁ t).attempt with
    | some y => pure y
    | none => call ρ s₂ t
  | .not s => do
    match ← (call ρ s t).attempt with
    | some _ => failure
    | none => pure t
  | .test s => do
    let _ ← call ρ s t
    pure t
  | .guarded cond yes no => do
    match ← (call ρ cond t).attempt with
    | some y => call ρ yes y
    | none => call ρ no t
  | .pattern pat => matchPattern pat t
  | .build pat => buildPattern pat
  | .rule lhs rhs => applyRule lhs rhs t
  | .scope names s => within (.declaring names) (call ρ s t)
  | .letIn bs s => do
    let frame ← bindAll (bs.map fun b => (b.1, call ρ b.2 t)) .empty
    within frame (call ρ s t)
  | .unset x => do
    update (·.unset x)
    pure t
  | .tables names s => within (.declaringTables names) (call ρ s t)
  | .tableSet name => do
    let (k, v) ← pairOf t
    update (·.modifyTable name (·.insert k v))
    pure t
  | .tableAdd name => do
    update (·.modifyTable name (·.insert t .empty))
    pure t
  | .tableGet name => do
    let table ← read (·.table name)
    ofOption (table.get? t)
  | .tableErase name => do
    update (·.modifyTable name (·.erase t))
    pure t
  | .tableClear name => do
    update (·.modifyTable name fun _ => .empty)
    pure t
  | .join left right m => do
    let before ← read m.snapshot
    (joinTables m before (call ρ left t) (call ρ right)).undoing
      (update (m.restore before))
  | .iterate s m => do
    let before ← read m.snapshot
    (iterateTables m (call ρ s t) n).undoing (update (m.restore before))
  | .map s => Spine.transform t (Spine.mapCells (call ρ s))
  | .filter s => Spine.transform t (Spine.filterCells (call ρ s))
  | .fetch s => Spine.transform t (Spine.fetchCells (call ρ s))
  | .all s => Spine.onChildren t (Spine.transform · (Spine.mapCells (call ρ s))) (pure t)
  | .one s => Spine.onChildren t (Spine.transform · (Spine.fetchCells (call ρ s))) failure
  | .atLeastOne s => Spine.onChildren t (Spine.transform · (Spine.someCells (call ρ s))) failure
  | .nil =>
    match t.shape with
    | .nil => pure t
    | _ => failure
  | .cons s₁ s₂ =>
    match t.shape with
    | .cons h tl => do
      let h' ← call ρ s₁ h
      let tl' ← call ρ s₂ tl
      if tl'.isList then
        pure (if h'.same h && tl'.same tl then t else t.withShape (.cons h' tl'))
      else fatal (.notAList tl')
    | _ => failure
  | .appl s₁ s₂ =>
    match t.shape with
    | .appl f as => do
      let f' ← call ρ s₁ f
      let as' ← call ρ s₂ as
      if f'.toStr?.isNone then fatal (.notAString f')
      else if as'.isList then
        pure (if f'.same f && as'.same as then t else t.withShape (.appl f' as'))
      else fatal (.notAList as')
    | _ => failure
  | .congruent name ss =>
    match t.shape with
    | .appl f as =>
      if f.toStr? = some name ∧ as.isList ∧ as.elems.length = ss.length then
        Spine.onChildren t (Spine.transform · (Spine.zipCells (ss.map (call ρ)))) failure
      else failure
    | _ => failure
  | .recursive l s => call ((l, s) :: ρ) s t
  | .call l =>
    match ρ.resolve l with
    | some (s, ρ) => call ρ s t
    | none => fatal .unsetRec
  | .repeat s => repeatFrom (call ρ s) n t
  | .setAnno anno => pure (t.setAnno anno)
  | .getAnno name => ofOption (t.anno? name)
  | .removeAnno name => pure (t.removeAnno name)
  | .strip => pure t.stripAnnotations
  | .length => do
    let ts ← elemsOf t
    pure (.make (.int (Int64.ofNat ts.length)) none)
  | .reverse => do
    let ts ← elemsOf t
    pure (listOf ts.reverse)
  | .concat => do
    let ls ← elemsOf t
    let tss ← inOrder (ls.map elemsOf)
    pure (listOf tss.flatten)
  | .add => arithmetic (· + ·) t
  | .sub => arithmetic (· - ·) t
  | .mul => arithmetic (· * ·) t
  | .lt => comparison (· < ·) t
  | .gt => comparison (· > ·) t
  | .eq => do
    let (a, b) ← pairOf t
    if a.equivalent b then pure t else failure
  | .trace label => do
    let c ← context
    report (.trace label c.depth t)
    pure t
  | .defined _ s => call [] s t

/-- Apply a strategy to a term, nesting at most to the given depth. -/
def apply : Nat → Env → Strategy → Term → Effect Term
  | 0, _, _, _ => .exhausted
  | n + 1, ρ, s, t => step (apply n) n ρ s t

/-- A depth that no strategy reaches in practice. -/
def depthLimit : Nat := 0x1000000000000000

/-- Apply a strategy on its own. -/
def perform (s : Strategy) (t : Term) : Effect Term :=
  s.apply depthLimit [] t

/-- Apply a strategy in a fresh context. -/
def run (s : Strategy) (t : Term) : Outcome Term × List Event :=
  let (o, σ) := s.perform t .initial
  (o, σ.events)

end Strategy

end StrategicRewriting
