import StrategicRewriting.Proofs.Strategy.Parts

/-!
Strategies as scripts that leave open how other strategies are applied. A script tells which
applications there are in a run, in their order, because nothing else in it applies a
strategy: it runs like the strategy for every way of applying the others.
-/
namespace StrategicRewriting

/-- A computation that applies strategies. -/
inductive Script : Type → Type 1
  | effect {α : Type} (x : Effect α) : Script α
  | apply (ρ : Env) (s : Strategy) (t : Term) : Script Term
  | bind {α β : Type} (x : Script α) (f : α → Script β) : Script β
  | attempt {α : Type} (x : Script α) : Script (Option α)
  | within {α : Type} (f : Frame) (x : Script α) : Script α

namespace Script

instance : Monad Script where
  pure a := effect (pure a)
  bind := bind

/-! The compound operations, with scripts in the place of computations. -/

def inOrder {α : Type} : List (Script α) → Script (List α)
  | [] => pure []
  | x :: xs => do
    let a ← x
    let as ← inOrder xs
    pure (a :: as)

def bindAll : List (String × Script Term) → Frame → Script Frame
  | [], f => pure f
  | (x, v) :: bs, f => do
    let t ← v
    bindAll bs (f.bind x t)

def repeatFrom (f : Term → Script Term) : Nat → Term → Script Term
  | 0, _ => effect .exhausted
  | n + 1, t => do
    match ← (f t).attempt with
    | some t => repeatFrom f n t
    | none => pure t

def iterateTables (m : Merge) (x : Script Term) : Nat → Script Term
  | 0 => effect .exhausted
  | n + 1 => do
    let before ← effect (.read m.snapshot)
    let t ← x
    let (changed, c) ← effect (.read (m.apply before))
    effect (.update fun _ => .ok c)
    if changed then iterateTables m x n
    else do
      effect (.report .fixpoint)
      pure t

def joinTables (m : Merge) (before : List Table) (left : Script Term)
    (right : Term → Script Term) : Script Term := do
  let t ← left
  let after ← effect (.read m.snapshot)
  effect (.update (m.restore before))
  let t ← right t
  let (_, c) ← effect (.read (m.apply after))
  effect (.update fun _ => .ok c)
  pure t

def transform (list : Term) (f : List Cell → Script (List (Option Term))) : Script Term :=
  if list.isList then do
    let new ← f list.cells
    pure (Spine.rebuild list new)
  else effect (.fatal (.notAList list))

def mapCells (f : Term → Script Term) (cs : List Cell) : Script (List (Option Term)) :=
  inOrder (cs.map fun c => some <$> f c.head)

def filterCells (f : Term → Script Term) (cs : List Cell) : Script (List (Option Term)) :=
  inOrder (cs.map fun c => (f c.head).attempt)

def fetchCells (f : Term → Script Term) : List Cell → Script (List (Option Term))
  | [] => effect .failure
  | c :: cs => do
    match ← (f c.head).attempt with
    | some y => pure (some y :: cs.map (some ·.head))
    | none =>
      let new ← fetchCells f cs
      pure (some c.head :: new)

def someCells (f : Term → Script Term) (cs : List Cell) : Script (List (Option Term)) := do
  let new ← filterCells f cs
  if new.any Option.isSome then
    pure (List.zipWith (fun c n => n.orElse fun _ => some c.head) cs new)
  else effect .failure

def zipCells (fs : List (Term → Script Term)) (cs : List Cell) : Script (List (Option Term)) :=
  inOrder (List.zipWith (fun f c => some <$> f c.head) fs cs)

def onChildren (t : Term) (f : Term → Script Term) (otherwise : Script Term) : Script Term :=
  match t.shape with
  | .nil | .cons .. => f t
  | .appl functor args =>
    if args.isList then do
      let new ← f args
      pure (if new.same args then t else t.withShape (.appl functor new))
    else otherwise
  | _ => otherwise

section

variable {α β : Type} (call : Env → Strategy → Term → Effect Term)

def run : {α : Type} → Script α → Effect α
  | _, effect x => x
  | _, apply ρ s t => call ρ s t
  | _, bind x f => do run (f (← run x))
  | _, attempt x => (run x).attempt
  | _, within f x => .within f (run x)

theorem run_bind (x : Script α) (f : α → Script β) :
    (x >>= f).run call = x.run call >>= fun a => (f a).run call := rfl

theorem run_inOrder (xs : List (Script α)) :
    (inOrder xs).run call = .inOrder (xs.map (run call)) := by
  induction xs with
  | nil => rfl
  | cons x xs ih =>
      rw [inOrder, run_bind, List.map_cons, Effect.inOrder, ← ih]
      rfl

theorem run_bindAll (bs : List (String × Script Term)) (f : Frame) :
    (bindAll bs f).run call = .bindAll (bs.map fun b => (b.1, b.2.run call)) f := by
  induction bs generalizing f with
  | nil => rfl
  | cons b bs ih =>
      rw [bindAll, run_bind, List.map_cons, Effect.bindAll]
      simp only [ih]

theorem run_repeatFrom (f : Term → Script Term) (n : Nat) (t : Term) :
    (repeatFrom f n t).run call = .repeatFrom (fun t => (f t).run call) n t := by
  induction n generalizing t with
  | zero => rfl
  | succ n ih =>
      rw [repeatFrom, run_bind, Effect.repeatFrom]
      refine bind_congr fun o => ?_
      cases o with
      | some t => exact ih t
      | none => rfl

theorem run_iterateTables (m : Merge) (x : Script Term) (n : Nat) :
    (iterateTables m x n).run call = .iterateTables m (x.run call) n := by
  induction n with
  | zero => rfl
  | succ n ih =>
      rw [iterateTables, Effect.iterateTables, ← ih]
      refine bind_congr fun before => bind_congr fun t => bind_congr fun merged => ?_
      refine bind_congr fun _ => ?_
      cases merged.1 <;> rfl

theorem run_transform (list : Term) (f : List Cell → Script (List (Option Term))) :
    (transform list f).run call = Spine.transform list fun cs => (f cs).run call := by
  rw [transform, Spine.transform]
  split <;> rfl

theorem run_mapCells (f : Term → Script Term) (cs : List Cell) :
    (mapCells f cs).run call = Spine.mapCells (fun t => (f t).run call) cs := by
  rw [mapCells, run_inOrder, List.map_map]
  rfl

theorem run_filterCells (f : Term → Script Term) (cs : List Cell) :
    (filterCells f cs).run call = Spine.filterCells (fun t => (f t).run call) cs := by
  rw [filterCells, run_inOrder, List.map_map]
  rfl

theorem run_fetchCells (f : Term → Script Term) (cs : List Cell) :
    (fetchCells f cs).run call = Spine.fetchCells (fun t => (f t).run call) cs := by
  induction cs with
  | nil => rfl
  | cons c cs ih =>
      rw [fetchCells, run_bind, Spine.fetchCells, ← ih]
      refine bind_congr fun o => ?_
      cases o <;> rfl

theorem run_someCells (f : Term → Script Term) (cs : List Cell) :
    (someCells f cs).run call = Spine.someCells (fun t => (f t).run call) cs := by
  rw [someCells, run_bind, run_filterCells, Spine.someCells]
  refine bind_congr fun new => ?_
  split <;> rfl

theorem run_zipCells (fs : List (Term → Script Term)) (cs : List Cell) :
    (zipCells fs cs).run call = Spine.zipCells (fs.map fun f t => (f t).run call) cs := by
  rw [zipCells, run_inOrder, Spine.zipCells, List.map_zipWith, List.zipWith_map_left]
  rfl

theorem run_onChildren (t : Term) (f : Term → Script Term) (otherwise : Script Term) :
    (onChildren t f otherwise).run call =
      Spine.onChildren t (fun t => (f t).run call) (otherwise.run call) := by
  rw [onChildren, Spine.onChildren]
  cases t.shape with
  | appl functor args =>
      dsimp only
      split <;> rfl
  | _ => rfl

end

end Script

/-- What a strategy does. Those that merge tables keep their contents, and restore them when
there is an error. -/
inductive Plan where
  | plain (x : Script Term)
  | saving (m : Merge) (x : List Table → Script Term)

def Plan.run (call : Env → Strategy → Term → Effect Term) : Plan → Effect Term
  | plain x => x.run call
  | saving m x => do
    let before ← .read m.snapshot
    ((x before).run call).undoing (.update (m.restore before))

open Script in
def Plan.ofStrategy (n : Nat) (ρ : Env) (s : Strategy) (t : Term) : Plan :=
  match s with
  | .seq s₁ s₂ => .plain do
    let t ← apply ρ s₁ t
    apply ρ s₂ t
  | .choice s₁ s₂ => .plain do
    match ← (apply ρ s₁ t).attempt with
    | some y => pure y
    | none => apply ρ s₂ t
  | .not s => .plain do
    match ← (apply ρ s t).attempt with
    | some _ => effect .failure
    | none => pure t
  | .test s => .plain do
    let _ ← apply ρ s t
    pure t
  | .guarded cond yes no => .plain do
    match ← (apply ρ cond t).attempt with
    | some y => apply ρ yes y
    | none => apply ρ no t
  | .scope names s => .plain (within (.declaring names) (apply ρ s t))
  | .letIn bs s => .plain do
    let frame ← bindAll (bs.map fun b => (b.1, apply ρ b.2 t)) .empty
    within frame (apply ρ s t)
  | .tables names s => .plain (within (.declaringTables names) (apply ρ s t))
  | .join left right m =>
    .saving m fun before => joinTables m before (apply ρ left t) (apply ρ right)
  | .iterate s m => .saving m fun _ => iterateTables m (apply ρ s t) n
  | .map s => .plain (transform t (mapCells (apply ρ s)))
  | .filter s => .plain (transform t (filterCells (apply ρ s)))
  | .fetch s => .plain (transform t (fetchCells (apply ρ s)))
  | .all s => .plain (onChildren t (transform · (mapCells (apply ρ s))) (pure t))
  | .one s => .plain (onChildren t (transform · (fetchCells (apply ρ s))) (effect .failure))
  | .atLeastOne s => .plain (onChildren t (transform · (someCells (apply ρ s))) (effect .failure))
  | .cons s₁ s₂ => .plain <|
    match t.shape with
    | .cons h tl => do
      let h' ← apply ρ s₁ h
      let tl' ← apply ρ s₂ tl
      if tl'.isList then
        pure (if h'.same h && tl'.same tl then t else t.withShape (.cons h' tl'))
      else effect (.fatal (.notAList tl'))
    | _ => effect .failure
  | .appl s₁ s₂ => .plain <|
    match t.shape with
    | .appl f as => do
      let f' ← apply ρ s₁ f
      let as' ← apply ρ s₂ as
      if f'.toStr?.isNone then effect (.fatal (.notAString f'))
      else if as'.isList then
        pure (if f'.same f && as'.same as then t else t.withShape (.appl f' as'))
      else effect (.fatal (.notAList as'))
    | _ => effect .failure
  | .congruent name ss => .plain <|
    match t.shape with
    | .appl f as =>
      if f.toStr? = some name ∧ as.isList ∧ as.elems.length = ss.length then
        onChildren t (transform · (zipCells (ss.map (apply ρ)))) (effect .failure)
      else effect .failure
    | _ => effect .failure
  | .recursive l s => .plain (apply ((l, s) :: ρ) s t)
  | .call l => .plain <|
    match ρ.resolve l with
    | some (s, ρ) => apply ρ s t
    | none => effect (.fatal .unsetRec)
  | .repeat s => .plain (repeatFrom (apply ρ s) n t)
  | .defined _ s => .plain (apply [] s t)
  | s => .plain (effect (s.effect t))

open Script in
/-- A strategy does what its plan says, whatever the strategies in it do. -/
theorem Plan.run_ofStrategy (call : Env → Strategy → Term → Effect Term) (n : Nat) (ρ : Env)
    (s : Strategy) (t : Term) : (ofStrategy n ρ s t).run call = s.step call n ρ t := by
  cases s with
  | seq a b | test a | scope names a | tables names a | join a b m | recursive l a
  | defined id a => rfl
  | choice a b | not a | guarded a b c =>
      refine bind_congr fun o => ?_
      cases o <;> rfl
  | letIn bs a =>
      rw [ofStrategy, Plan.run, run_bind, run_bindAll, List.map_map]
      rfl
  | iterate a m =>
      refine bind_congr fun before => ?_
      rw [run_iterateTables]
      rfl
  | map a | filter a | fetch a =>
      simp only [ofStrategy, Plan.run, run_transform, run_mapCells, run_filterCells, run_fetchCells]
      rfl
  | all a | one a | atLeastOne a =>
      simp only [ofStrategy, Plan.run, run_onChildren, run_transform, run_mapCells, run_fetchCells,
        run_someCells]
      rfl
  | cons a b =>
      simp only [ofStrategy, Plan.run, Strategy.step]
      cases t.shape with
      | cons h tl =>
          refine bind_congr fun h' => bind_congr fun tl' => ?_
          dsimp only
          split <;> rfl
      | _ => rfl
  | appl a b =>
      simp only [ofStrategy, Plan.run, Strategy.step]
      cases t.shape with
      | appl f as =>
          refine bind_congr fun f' => bind_congr fun as' => ?_
          dsimp only
          split
          · rfl
          · split <;> rfl
      | _ => rfl
  | congruent name ss =>
      simp only [ofStrategy, Plan.run, Strategy.step]
      cases t.shape with
      | appl f as =>
          dsimp only
          split
          · simp only [run_onChildren, run_transform, run_zipCells, List.map_map]
            rfl
          · rfl
      | _ => rfl
  | call l =>
      simp only [ofStrategy, Plan.run, Strategy.step]
      cases ρ.resolve l <;> rfl
  | «repeat» a =>
      rw [ofStrategy, Plan.run, run_repeatFrom]
      rfl
  | _ => rfl

/-! The applications in a run. -/

/-- An application begins, or it ends. -/
inductive Mark where
  | enter (ρ : Env) (s : Strategy) (t : Term) (σ : State)
  | leave (o : Outcome Term) (τ : State)

section

variable (call : Env → Strategy → Term → Effect Term)
  (inner : Env → Strategy → Term → State → List Mark)

/-- The applications in a run of a script, where `inner` gives those inside of them. -/
def Script.trail : {α : Type} → Script α → State → List Mark
  | _, effect _, _ => []
  | _, apply ρ s t, σ =>
    let (o, τ) := call ρ s t σ
    .enter ρ s t σ :: inner ρ s t σ ++ [.leave o τ]
  | _, bind x f, σ =>
    match x.run call σ with
    | (.ok a, τ) => trail x σ ++ trail (f a) τ
    | _ => trail x σ
  | _, attempt x, σ => trail x σ
  | _, within f x, σ => trail x { σ with context := σ.context.push f }

def Plan.trail : Plan → State → List Mark
  | plain x, σ => x.trail call inner σ
  | saving m x, σ =>
    match m.snapshot σ.context with
    | .ok before => (x before).trail call inner σ
    | .error _ => []

end

/-- The applications of other strategies while a strategy is applied. -/
def Strategy.trail : Nat → Env → Strategy → Term → State → List Mark
  | 0, _, _, _, _ => []
  | n + 1, ρ, s, t, σ => (Plan.ofStrategy n ρ s t).trail (apply n) (trail n) σ

end StrategicRewriting
