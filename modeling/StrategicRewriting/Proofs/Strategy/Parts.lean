import StrategicRewriting.Strategy.Eval

/-!
What a strategy consists of: the strategies right inside it, and the terms it was
given. An elementary strategy applies no others, so what it does depends neither on
the recursive strategies around it nor on the depth that is left.
-/
namespace StrategicRewriting.Strategy

/-- The strategies right inside a strategy. -/
def parts : Strategy → List Strategy
  | seq a b | choice a b | join a b _ | cons a b | appl a b => [a, b]
  | guarded a b c => [a, b, c]
  | not s | test s | scope _ s | tables _ s | iterate s _ | map s | filter s | fetch s | all s
  | one s | atLeastOne s | recursive _ s | .repeat s | defined _ s => [s]
  | letIn bs s => s :: bs.map (·.2)
  | congruent _ ss => ss
  | _ => []

/-- The strategy with the strategies right inside it replaced. -/
def mapParts (f : Strategy → Strategy) : Strategy → Strategy
  | seq a b => seq (f a) (f b)
  | choice a b => choice (f a) (f b)
  | not s => not (f s)
  | test s => test (f s)
  | guarded a b c => guarded (f a) (f b) (f c)
  | scope names s => scope names (f s)
  | letIn bs s => letIn (bs.map fun b => (b.1, f b.2)) (f s)
  | tables names s => tables names (f s)
  | join a b m => join (f a) (f b) m
  | iterate s m => iterate (f s) m
  | map s => map (f s)
  | filter s => filter (f s)
  | fetch s => fetch (f s)
  | all s => all (f s)
  | one s => one (f s)
  | atLeastOne s => atLeastOne (f s)
  | cons a b => cons (f a) (f b)
  | appl a b => appl (f a) (f b)
  | congruent name ss => congruent name (ss.map f)
  | recursive l s => recursive l (f s)
  | .repeat s => .repeat (f s)
  | defined id s => defined id (f s)
  | s => s

/-- The terms that a strategy was given, apart from those of its parts. -/
def embedded : Strategy → List Term
  | pattern p | build p | setAnno p => [p]
  | rule lhs rhs => [lhs, rhs]
  | _ => []

/-- The tables that a strategy names, apart from those of its parts. -/
def tableNames : Strategy → List String
  | tableSet name | tableAdd name | tableGet name | tableErase name | tableClear name => [name]
  | join _ _ m | iterate _ m => m.names
  | _ => []

/-- The property holds of the strategy and of all strategies inside it. -/
inductive Everywhere (p : Strategy → Prop) : Strategy → Prop
  | intro {s : Strategy} : p s → (∀ s' ∈ s.parts, Everywhere p s') → Everywhere p s

theorem Everywhere.here {p : Strategy → Prop} {s : Strategy} (h : s.Everywhere p) : p s := by
  cases h with
  | intro hs _ => exact hs

theorem Everywhere.part {p : Strategy → Prop} {s s' : Strategy} (h : s.Everywhere p)
    (hs' : s' ∈ s.parts) : s'.Everywhere p := by
  cases h with
  | intro _ hparts => exact hparts s' hs'

theorem sizeOf_lt_of_mem_parts {s s' : Strategy} (h : s' ∈ s.parts) : sizeOf s' < sizeOf s := by
  cases s with
  | letIn bs s =>
      cases h with
      | head => simp only [letIn.sizeOf_spec]; omega
      | tail _ h =>
          obtain ⟨b, hb, rfl⟩ := List.mem_map.mp h
          have hlt := List.sizeOf_lt_of_mem hb
          cases b
          simp only [letIn.sizeOf_spec, Prod.mk.sizeOf_spec] at hlt ⊢
          omega
  | congruent name ss =>
      have hlt : sizeOf s' < sizeOf ss := List.sizeOf_lt_of_mem h
      simp only [congruent.sizeOf_spec]
      omega
  | seq a b | choice a b | join a b m | cons a b | appl a b =>
      simp only [parts, List.mem_cons, List.not_mem_nil, or_false] at h
      rcases h with rfl | rfl <;> simp <;> omega
  | guarded a b c =>
      simp only [parts, List.mem_cons, List.not_mem_nil, or_false] at h
      rcases h with rfl | rfl | rfl <;> simp <;> omega
  | not s | test s | scope names s | tables names s | iterate s m | map s | filter s | fetch s
  | all s | one s | atLeastOne s | recursive l s | «repeat» s | defined id s =>
      obtain rfl := List.mem_singleton.mp h
      simp <;> omega
  | _ => cases h

theorem sizeOf_pos (s : Strategy) : 0 < sizeOf s := by
  cases s <;> simp [Nat.pos_iff_ne_zero]

/-- The strategy applies no others. -/
def isElementary : Strategy → Bool
  | seq .. | choice .. | not _ | test _ | guarded .. | scope .. | letIn .. | tables .. | join ..
  | iterate .. | map _ | filter _ | fetch _ | all _ | one _ | atLeastOne _ | cons .. | appl ..
  | congruent .. | recursive .. | call _ | .repeat _ | defined .. => false
  | _ => true

/-- What an elementary strategy does. -/
def effect (s : Strategy) (t : Term) : Effect Term :=
  step (fun _ _ _ => .exhausted) 0 [] s t

theorem step_of_isElementary {s : Strategy} (h : s.isElementary)
    (call : Env → Strategy → Term → Effect Term) (n : Nat) (ρ : Env) (t : Term) :
    step call n ρ s t = s.effect t := by
  cases s with
  | seq a b | choice a b | not s | test s | guarded a b c | scope names s | letIn bs s
  | tables names s | join a b m | iterate s m | map s | filter s | fetch s | all s | one s
  | atLeastOne s | cons a b | appl a b | congruent name ss | recursive l s | call l | «repeat» s
  | defined id s => cases h
  | _ => rfl

end StrategicRewriting.Strategy

namespace StrategicRewriting

namespace Env

/-- A call finds a strategy that is around it, together with those around this one. -/
theorem mem_of_resolve {l : Label} {ρ ρ' : Env} {s : Strategy}
    (h : ρ.resolve l = some (s, ρ')) : (∃ l', (l', s) ∈ ρ) ∧ ∀ e ∈ ρ', e ∈ ρ := by
  induction ρ with
  | nil => cases h
  | cons e ρ ih =>
      obtain ⟨l', s'⟩ := e
      simp only [resolve] at h
      split at h
      · cases h
        exact ⟨⟨l', List.mem_cons_self⟩, fun e he => he⟩
      · obtain ⟨⟨l'', hs⟩, hsub⟩ := ih h
        exact ⟨⟨l'', List.mem_cons_of_mem _ hs⟩, fun e he => List.mem_cons_of_mem _ (hsub e he)⟩

def mapBodies (f : Strategy → Strategy) (ρ : Env) : Env :=
  ρ.map fun e => (e.1, f e.2)

theorem resolve_mapBodies (f : Strategy → Strategy) (l : Label) (ρ : Env) :
    (ρ.mapBodies f).resolve l = (ρ.resolve l).map fun r => (f r.1, r.2.mapBodies f) := by
  induction ρ with
  | nil => rfl
  | cons e ρ ih =>
      obtain ⟨l', s⟩ := e
      rw [mapBodies, List.map_cons, resolve, resolve]
      split
      · rfl
      · exact ih

end Env

/-- One level of the application of a strategy looks at its parts only to apply them. -/
theorem Strategy.step_mapParts (f : Strategy → Strategy)
    (call : Env → Strategy → Term → Effect Term) (n : Nat) (ρ : Env) (s : Strategy) (t : Term) :
    step (fun ρ s t => call (ρ.mapBodies f) (f s) t) n ρ s t =
      step call n (ρ.mapBodies f) (s.mapParts f) t := by
  cases s with
  | letIn bs a => simp only [mapParts, step, List.map_map, Function.comp_def]
  | congruent name ss =>
      simp only [mapParts, step, List.map_map, List.length_map, Function.comp_def]
  | call l =>
      simp only [mapParts, step, Env.resolve_mapBodies]
      cases ρ.resolve l <;> rfl
  | _ => rfl

end StrategicRewriting
