import StrategicRewriting.Proofs.Strategy.Once
import StrategicRewriting.Proofs.Strategy.Rebuilt

/-!
Congruences of lists. They apply a strategy to the elements one after the other, each time in
the state that the application before has left behind, and rebuild the list from the results.
They differ in what they do about failures; a fatal error is the end of all of them.
-/
namespace StrategicRewriting

namespace Strategy

open Spine

variable {ρ : Env} {s c : Strategy} {t : Term} {es : List Term} {σ τ : State}
  {new : List (Option Term)}

/-- The strategy is applied to the terms one after the other, each time in the state that the
application before has left behind. The outcome has the results, none for a term on which the
strategy fails, or it is the first fatal error. -/
inductive Sweeps (ρ : Env) (s : Strategy) :
    List Term → State → Outcome (List (Option Term)) → State → Prop
  | nil (σ : State) : Sweeps ρ s [] σ (.ok []) σ
  | ok {e y : Term} {es : List Term} {σ σ' τ : State} {o : Outcome (List (Option Term))} :
      Ends ρ s e σ (.ok y) σ' → Sweeps ρ s es σ' o τ →
      Sweeps ρ s (e :: es) σ (o.map (some y :: ·)) τ
  | failure {e : Term} {es : List Term} {σ σ' τ : State} {o : Outcome (List (Option Term))} :
      Ends ρ s e σ .failure σ' → Sweeps ρ s es σ' o τ →
      Sweeps ρ s (e :: es) σ (o.map (none :: ·)) τ
  | fatal {e : Term} {es : List Term} {σ τ : State} {error : Fatal} :
      Ends ρ s e σ (.fatal error) τ → Sweeps ρ s (e :: es) σ (.fatal error) τ

/-- In the same way, the strategy is applied up to the first term on which it does not fail. The
term is the one at the index, and the outcome is what the strategy ends with. -/
inductive Stops (ρ : Env) (s : Strategy) :
    List Term → State → Nat → Outcome Term → State → Prop
  | here {e : Term} {σ τ : State} {o : Outcome Term} (es : List Term) :
      Ends ρ s e σ o τ → o ≠ .failure → Stops ρ s (e :: es) σ 0 o τ
  | later {e : Term} {es : List Term} {σ σ' τ : State} {i : Nat} {o : Outcome Term} :
      Ends ρ s e σ .failure σ' → Stops ρ s es σ' i o τ → Stops ρ s (e :: es) σ (i + 1) o τ

theorem filterCells_cons (f : Term → Effect Term) (cell : Cell) (cs : List Cell) :
    filterCells f (cell :: cs) =
      (f cell.head).attempt >>= fun n => filterCells f cs >>= fun ns => pure (n :: ns) := rfl

theorem mapCells_cons (f : Term → Effect Term) (cell : Cell) (cs : List Cell) :
    mapCells f (cell :: cs) =
      f cell.head >>= fun y => mapCells f cs >>= fun ns => pure (some y :: ns) := by
  have h : mapCells f (cell :: cs) =
      (some <$> f cell.head) >>= fun n => mapCells f cs >>= fun ns => pure (n :: ns) := rfl
  rw [h, map_eq_pure_bind, bind_assoc]
  simp only [pure_bind]

theorem Sweeps.filterCells {o : Outcome (List (Option Term))} (h : Sweeps ρ s es σ o τ) :
    ∃ n, ∀ m, n ≤ m → ∀ cs : List Cell, cs.map (·.head) = es →
      Spine.filterCells (s.apply m ρ) cs σ = (o, τ) := by
  induction h with
  | nil σ =>
      refine ⟨0, fun m _ cs hcs => ?_⟩
      cases List.map_eq_nil_iff.mp hcs
      rfl
  | ok he _ ih | failure he _ ih =>
      obtain ⟨n, hn⟩ := he.at_depth
      obtain ⟨n', hn'⟩ := ih
      refine ⟨max n n', fun m hm cs hcs => ?_⟩
      obtain ⟨hle, hle'⟩ := Nat.max_le.mp hm
      obtain ⟨cell, cs, rfl, rfl, hrest⟩ := List.map_eq_cons_iff.mp hcs
      rw [filterCells_cons, Effect.bind_apply, Effect.attempt, hn m hle]
      exact Effect.bind_pure_eq (hn' m hle' cs hrest) _
  | fatal he =>
      obtain ⟨n, hn⟩ := he.at_depth
      refine ⟨n, fun m hm cs hcs => ?_⟩
      obtain ⟨cell, cs, rfl, rfl, hrest⟩ := List.map_eq_cons_iff.mp hcs
      rw [filterCells_cons, Effect.bind_apply, Effect.attempt, hn m hm]

theorem sweeps_of_filterCells {n : Nat} {cs : List Cell} {o : Outcome (List (Option Term))}
    (h : Spine.filterCells (s.apply n ρ) cs σ = (o, τ)) (ho : o ≠ .exhausted) :
    Sweeps ρ s (cs.map (·.head)) σ o τ := by
  induction cs generalizing σ o with
  | nil =>
      cases h
      exact .nil _
  | cons cell cs ih =>
      rw [filterCells_cons, Effect.bind_apply, Effect.attempt] at h
      generalize hhead : s.apply n ρ cell.head σ = r at h
      obtain ⟨o', σ'⟩ := r
      -- the rest of the elements, after a result or a failure of the first one
      have hrest (a : Option Term)
          (h : (Spine.filterCells (s.apply n ρ) cs >>= fun as => pure (a :: as)) σ' = (o, τ)) :
          ∃ o', Sweeps ρ s (cs.map (·.head)) σ' o' τ ∧ o'.map (a :: ·) = o := by
        generalize hcells : Spine.filterCells (s.apply n ρ) cs σ' = r' at h
        obtain ⟨o', τ'⟩ := r'
        rw [Effect.bind_pure_eq hcells] at h
        cases h
        exact ⟨o', ih hcells fun heq => ho (Outcome.map_eq_exhausted.mpr heq), rfl⟩
      cases o' with
      | ok y =>
          obtain ⟨o', hsweep, rfl⟩ := hrest (some y) h
          exact .ok ⟨n, hhead, by simp⟩ hsweep
      | failure =>
          obtain ⟨o', hsweep, rfl⟩ := hrest none h
          exact .failure ⟨n, hhead, by simp⟩ hsweep
      | fatal error =>
          cases h
          exact .fatal ⟨n, hhead, by simp⟩
      | exhausted =>
          cases h
          exact absurd rfl ho

theorem Sweeps.length_eq {o : Outcome (List (Option Term))} (h : Sweeps ρ s es σ o τ)
    (ho : o = .ok new) : new.length = es.length := by
  induction h generalizing new with
  | nil σ =>
      cases ho
      rfl
  | @ok _ _ _ _ _ _ o _ _ ih | @failure _ _ _ _ _ o _ _ ih =>
      cases o with
      | ok new' =>
          cases ho
          exact congrArg Nat.succ (ih rfl)
      | failure | fatal error | exhausted => cases ho
  | fatal => cases ho

/-- Applying to all elements is the same, as long as the strategy succeeds. -/
theorem mapCells_eq_ok_iff {f : Term → Effect Term} {cs : List Cell} :
    Spine.mapCells f cs σ = (.ok new, τ) ↔
      Spine.filterCells f cs σ = (.ok new, τ) ∧ ∀ n ∈ new, n.isSome := by
  induction cs generalizing σ τ new with
  | nil =>
      refine ⟨fun h => ?_, fun h => h.1⟩
      cases h
      exact ⟨rfl, List.forall_mem_nil _⟩
  | cons cell cs ih =>
      rw [mapCells_cons, filterCells_cons, Effect.bind_apply, Effect.bind_apply, Effect.attempt]
      cases hhead : f cell.head σ with
      | mk o σ' =>
          cases o with
          | ok y =>
              simp only [Effect.bind_eq_ok, ih, Effect.pure_apply]
              constructor
              · rintro ⟨ns, υ, ⟨hns, hall⟩, heq⟩
                cases heq
                exact ⟨⟨ns, _, hns, rfl⟩, List.forall_mem_cons.mpr ⟨rfl, hall⟩⟩
              · rintro ⟨⟨ns, υ, hns, heq⟩, hall⟩
                cases heq
                exact ⟨ns, _, ⟨hns, (List.forall_mem_cons.mp hall).2⟩, rfl⟩
          | failure =>
              simp only [Effect.bind_eq_ok, Effect.pure_apply]
              refine ⟨fun h => (by cases h), ?_⟩
              rintro ⟨⟨ns, υ, -, heq⟩, hall⟩
              cases heq
              cases hall none (.head _)
          | fatal error | exhausted => exact ⟨fun h => (by cases h), fun h => (by cases h.1)⟩

theorem Stops.fetchCells {i : Nat} {o : Outcome Term} (h : Stops ρ s es σ i o τ) :
    ∃ n, ∀ m, n ≤ m → ∀ cs : List Cell, cs.map (·.head) = es →
      Spine.fetchCells (s.apply m ρ) cs σ = (o.map fun y => (es.set i y).map some, τ) := by
  induction h with
  | @here _ _ _ o es he ho =>
      obtain ⟨n, hn⟩ := he.at_depth
      refine ⟨n, fun m hm cs hcs => ?_⟩
      obtain ⟨cell, cs, rfl, rfl, rfl⟩ := List.map_eq_cons_iff.mp hcs
      rw [Spine.fetchCells, Effect.bind_apply, Effect.attempt, hn m hm]
      cases o with
      | ok y => simp [Outcome.map]
      | failure => exact absurd rfl ho
      | fatal error | exhausted => rfl
  | @later e es _ _ _ i o he _ ih =>
      obtain ⟨n, hn⟩ := he.at_depth
      obtain ⟨n', hn'⟩ := ih
      refine ⟨max n n', fun m hm cs hcs => ?_⟩
      obtain ⟨hle, hle'⟩ := Nat.max_le.mp hm
      obtain ⟨cell, cs, rfl, rfl, hrest⟩ := List.map_eq_cons_iff.mp hcs
      rw [Spine.fetchCells, Effect.bind_apply, Effect.attempt, hn m hle]
      have h := Effect.bind_pure_eq (hn' m hle' cs hrest) (some cell.head :: ·)
      rw [Outcome.map_map] at h
      exact h

theorem stops_of_fetchCells {n : Nat} {cs : List Cell} {o : Outcome (List (Option Term))}
    (h : Spine.fetchCells (s.apply n ρ) cs σ = (o, τ)) (ho : o ≠ .exhausted) (hne : o ≠ .failure) :
    ∃ i o', Stops ρ s (cs.map (·.head)) σ i o' τ ∧
      o = o'.map fun y => ((cs.map (·.head)).set i y).map some := by
  induction cs generalizing σ o with
  | nil =>
      cases h
      exact absurd rfl hne
  | cons cell cs ih =>
      rw [Spine.fetchCells, Effect.bind_apply, Effect.attempt] at h
      generalize hhead : s.apply n ρ cell.head σ = r at h
      obtain ⟨o', σ'⟩ := r
      cases o' with
      | ok y =>
          cases h
          refine ⟨0, .ok y, .here _ ⟨n, hhead, by simp⟩ (by simp), ?_⟩
          simp [Outcome.map]
      | failure =>
          dsimp only at h
          generalize hcells : Spine.fetchCells (s.apply n ρ) cs σ' = r' at h
          obtain ⟨o₁, τ'⟩ := r'
          rw [Effect.bind_pure_eq hcells] at h
          cases h
          obtain ⟨i, o', hstops, rfl⟩ := ih hcells
            (fun heq => ho (Outcome.map_eq_exhausted.mpr heq))
            (fun heq => hne (Outcome.map_eq_failure.mpr heq))
          refine ⟨i + 1, o', .later ⟨n, hhead, by simp⟩ hstops, ?_⟩
          rw [Outcome.map_map]
          rfl
      | fatal error =>
          cases h
          exact ⟨0, .fatal error, .here _ ⟨n, hhead, by simp⟩ (by simp), rfl⟩
      | exhausted =>
          cases h
          exact absurd rfl ho

theorem sweeps_iff {o : Outcome (List (Option Term))} (ho : o ≠ .exhausted) :
    Sweeps ρ s t.elems σ o τ ↔ ∃ n, Spine.filterCells (s.apply n ρ) t.cells σ = (o, τ) := by
  constructor
  · intro h
    obtain ⟨n, hn⟩ := h.filterCells
    exact ⟨n, hn n (Nat.le_refl n) _ t.map_head_cells⟩
  · rintro ⟨n, hn⟩
    rw [← t.map_head_cells]
    exact sweeps_of_filterCells hn ho

theorem stops_iff {o : Outcome (List (Option Term))} (ho : o ≠ .exhausted) (hne : o ≠ .failure) :
    (∃ i o', Stops ρ s t.elems σ i o' τ ∧ o = o'.map fun y => (t.elems.set i y).map some) ↔
      ∃ n, Spine.fetchCells (s.apply n ρ) t.cells σ = (o, τ) := by
  constructor
  · rintro ⟨i, o', h, rfl⟩
    obtain ⟨n, hn⟩ := h.fetchCells
    exact ⟨n, hn n (Nat.le_refl n) _ t.map_head_cells⟩
  · rintro ⟨n, hn⟩
    rw [← t.map_head_cells]
    exact stops_of_fetchCells hn ho hne

/-- Elements on which the strategy fails are kept. -/
def keepFailing (es : List Term) (ns : List (Option Term)) : List (Option Term) :=
  List.zipWith (fun e n => some (n.getD e)) es ns

theorem someCells_eq (f : Term → Effect Term) (cs : List Cell) :
    Spine.someCells f cs = Spine.filterCells f cs >>= fun ns =>
      if ns.any Option.isSome then pure (keepFailing (cs.map (·.head)) ns) else .failure := by
  have hkeep (ns : List (Option Term)) :
      List.zipWith (fun (c : Cell) (n : Option Term) => n.orElse fun _ => some c.head) cs ns =
        keepFailing (cs.map (·.head)) ns := by
    rw [keepFailing, List.zipWith_map_left]
    congr 1
    funext c n
    cases n <;> rfl
  simp only [Spine.someCells, hkeep]

theorem someCells_eq_ok_iff {f : Term → Effect Term} {cs : List Cell} :
    Spine.someCells f cs σ = (.ok new, τ) ↔
      ∃ ns, Spine.filterCells f cs σ = (.ok ns, τ) ∧ (∃ n ∈ ns, n.isSome) ∧
        new = keepFailing (cs.map (·.head)) ns := by
  rw [someCells_eq, Effect.bind_eq_ok]
  constructor
  · rintro ⟨ns, σ', hns, h⟩
    split at h
    · rename_i hany
      cases h
      exact ⟨ns, hns, List.any_eq_true.mp hany, rfl⟩
    · cases h
  · rintro ⟨ns, hns, hsome, rfl⟩
    refine ⟨ns, τ, hns, ?_⟩
    rw [if_pos (List.any_eq_true.mpr hsome)]
    rfl

theorem someCells_eq_fatal_iff {f : Term → Effect Term} {cs : List Cell} {error : Fatal} :
    Spine.someCells f cs σ = (.fatal error, τ) ↔
      Spine.filterCells f cs σ = (.fatal error, τ) := by
  rw [someCells_eq, Effect.bind_apply]
  cases Spine.filterCells f cs σ with
  | mk o σ' =>
      cases o with
      | ok ns =>
          dsimp only
          split <;> exact ⟨fun h => (by cases h), fun h => (by cases h)⟩
      | failure | exhausted => exact ⟨fun h => (by cases h), fun h => (by cases h)⟩
      | fatal e => rfl

/-! Rebuilding of lists. -/

/-- The strategy succeeds exactly with new elements for which the property holds, in the state that
goes with them, and returns the list with these elements. -/
def RebuildsWith (ρ : Env) (c : Strategy) (t : Term) (σ : State)
    (New : List (Option Term) → State → Prop) : Prop :=
  (∀ u τ, Ends ρ c t σ (.ok u) τ → ∃ new, New new τ ∧ Rebuilt t new u) ∧
  ∀ new τ, New new τ → ∃ u, Ends ρ c t σ (.ok u) τ ∧ Rebuilt t new u

section

variable (cells : Nat → List Cell → Effect (List (Option Term)))
  (hc : ∀ n, c.apply (n + 1) ρ t = Spine.transform t (cells n)) (ht : t.isList)
include hc ht

/-- A congruence ends on a list like the applications to its elements. -/
theorem ends_transform_iff {o : Outcome Term} : Ends ρ c t σ o τ ↔
    ∃ n o', cells n t.cells σ = (o', τ) ∧ o' ≠ .exhausted ∧ o = o'.map (rebuild t) := by
  have hstep {n : Nat} {o' : Outcome (List (Option Term))} {τ : State}
      (h : cells n t.cells σ = (o', τ)) : c.apply (n + 1) ρ t σ = (o'.map (rebuild t), τ) := by
    rw [hc, Spine.transform, if_pos ht]
    exact Effect.bind_pure_eq h _
  constructor
  · rintro ⟨n, hn, ho⟩
    cases n with
    | zero =>
        cases hn
        exact absurd rfl ho
    | succ n =>
        rw [hstep rfl] at hn
        cases hn
        exact ⟨n, _, rfl, fun heq => ho (Outcome.map_eq_exhausted.mpr heq), rfl⟩
  · rintro ⟨n, o', hn, hne, rfl⟩
    exact ⟨n + 1, hstep hn, mt Outcome.map_eq_exhausted.mp hne⟩

theorem ends_fatal_iff {error : Fatal} : Ends ρ c t σ (.fatal error) τ ↔
    ∃ n, cells n t.cells σ = (.fatal error, τ) := by
  rw [ends_transform_iff cells hc ht]
  constructor
  · rintro ⟨n, o, hn, -, ho⟩
    rw [Outcome.map_eq_fatal.mp ho.symm] at hn
    exact ⟨n, hn⟩
  · rintro ⟨n, hn⟩
    exact ⟨n, _, hn, by simp, rfl⟩

theorem rebuildsWith_of_cells {New : List (Option Term) → State → Prop}
    (hnew : ∀ new τ, New new τ ↔ ∃ n, cells n t.cells σ = (.ok new, τ))
    (hlen : ∀ new τ, New new τ → new.length = t.elems.length) : RebuildsWith ρ c t σ New := by
  constructor
  · intro u τ h
    obtain ⟨n, o, hn, -, ho⟩ := (ends_transform_iff cells hc ht).mp h
    cases o with
    | ok new =>
        cases ho
        have h := (hnew new τ).mpr ⟨n, hn⟩
        exact ⟨new, h, rebuilt_rebuild (hlen new τ h)⟩
    | failure | fatal error | exhausted => cases ho
  · intro new τ h
    obtain ⟨n, hn⟩ := (hnew new τ).mp h
    exact ⟨rebuild t new, (ends_transform_iff cells hc ht).mpr ⟨n, _, hn, by simp, rfl⟩,
      rebuilt_rebuild (hlen new τ h)⟩

end

section

variable (ht : t.isList)
include ht

theorem rebuildsWith_map : RebuildsWith ρ (map s) t σ fun new τ =>
    Sweeps ρ s t.elems σ (.ok new) τ ∧ ∀ n ∈ new, n.isSome := by
  refine rebuildsWith_of_cells (fun n => Spine.mapCells (s.apply n ρ))
    (fun _ => rfl) ht (fun new τ => ?_) fun new τ h => h.1.length_eq rfl
  simp only [mapCells_eq_ok_iff, exists_and_right, sweeps_iff, ne_eq, reduceCtorEq,
    not_false_eq_true]

theorem rebuildsWith_filter :
    RebuildsWith ρ (filter s) t σ fun new τ => Sweeps ρ s t.elems σ (.ok new) τ :=
  rebuildsWith_of_cells (fun n => Spine.filterCells (s.apply n ρ)) (fun _ => rfl) ht
    (fun _ _ => sweeps_iff (by simp)) fun _ _ h => h.length_eq rfl

theorem onChildren_of_isList (f : Term → Effect Term) (otherwise : Effect Term) :
    onChildren t f otherwise = f t := by
  rw [Term.isList] at ht
  rw [onChildren]
  split at ht <;> simp_all

theorem apply_atLeastOne (n : Nat) :
    (atLeastOne s).apply (n + 1) ρ t = Spine.transform t (Spine.someCells (s.apply n ρ)) :=
  onChildren_of_isList ht (Spine.transform · (Spine.someCells (s.apply n ρ))) .failure

theorem rebuildsWith_atLeastOne : RebuildsWith ρ (atLeastOne s) t σ fun new τ =>
    ∃ ns, Sweeps ρ s t.elems σ (.ok ns) τ ∧ (∃ n ∈ ns, n.isSome) ∧
      new = keepFailing t.elems ns := by
  refine rebuildsWith_of_cells (fun n => Spine.someCells (s.apply n ρ))
    (apply_atLeastOne ht) ht (fun new τ => ?_) fun new τ h => ?_
  · simp only [someCells_eq_ok_iff, t.map_head_cells]
    rw [exists_comm]
    simp only [exists_and_right, sweeps_iff, ne_eq, reduceCtorEq, not_false_eq_true]
  · obtain ⟨ns, hsweep, -, rfl⟩ := h
    rw [keepFailing, List.length_zipWith, hsweep.length_eq rfl, Nat.min_self]

theorem rebuildsWith_fetch : RebuildsWith ρ (fetch s) t σ fun new τ =>
    ∃ i y, Stops ρ s t.elems σ i (.ok y) τ ∧ new = (t.elems.set i y).map some := by
  refine rebuildsWith_of_cells (fun n => Spine.fetchCells (s.apply n ρ))
    (fun _ => rfl) ht (fun new τ => ?_) fun new τ h => ?_
  · rw [← stops_iff (by simp) (by simp)]
    constructor
    · rintro ⟨i, y, hstops, rfl⟩
      exact ⟨i, .ok y, hstops, rfl⟩
    · rintro ⟨i, o, hstops, ho⟩
      cases o with
      | ok y =>
          cases ho
          exact ⟨i, y, hstops, rfl⟩
      | failure | fatal error | exhausted => cases ho
  · obtain ⟨i, y, -, rfl⟩ := h
    rw [List.length_map, List.length_set]

end

/-- The congruences of a list apply the strategy to the elements in their order, in one state
after the other. To map succeeds if the strategy succeeds on all elements, to filter if it is
never fatal, and `atLeastOne` if it is never fatal and succeeds at least once; to fetch stops at
the first element on which the strategy does not fail. The list that they return has the results
in the places of the elements, and shares all nodes that it can with the list that they are
applied to. -/
theorem lists_rebuilt (ht : t.isList) (σ : State) :
    (RebuildsWith ρ (map s) t σ fun new τ =>
      Sweeps ρ s t.elems σ (.ok new) τ ∧ ∀ n ∈ new, n.isSome) ∧
    (RebuildsWith ρ (filter s) t σ fun new τ => Sweeps ρ s t.elems σ (.ok new) τ) ∧
    (RebuildsWith ρ (atLeastOne s) t σ fun new τ =>
      ∃ ns, Sweeps ρ s t.elems σ (.ok ns) τ ∧ (∃ n ∈ ns, n.isSome) ∧
        new = keepFailing t.elems ns) ∧
    (RebuildsWith ρ (fetch s) t σ fun new τ =>
      ∃ i y, Stops ρ s t.elems σ i (.ok y) τ ∧ new = (t.elems.set i y).map some) ∧
    ∀ error τ,
      (Ends ρ (filter s) t σ (.fatal error) τ ↔ Sweeps ρ s t.elems σ (.fatal error) τ) ∧
      (Ends ρ (atLeastOne s) t σ (.fatal error) τ ↔ Sweeps ρ s t.elems σ (.fatal error) τ) ∧
      (Ends ρ (fetch s) t σ (.fatal error) τ ↔ ∃ i, Stops ρ s t.elems σ i (.fatal error) τ) := by
  refine ⟨rebuildsWith_map ht, rebuildsWith_filter ht, rebuildsWith_atLeastOne ht,
    rebuildsWith_fetch ht, fun error τ => ⟨?_, ?_, ?_⟩⟩
  · rw [ends_fatal_iff (fun n => Spine.filterCells (s.apply n ρ)) (fun _ => rfl) ht,
      sweeps_iff (by simp)]
  · rw [ends_fatal_iff (fun n => Spine.someCells (s.apply n ρ))
      (apply_atLeastOne ht) ht, sweeps_iff (by simp)]
    simp only [someCells_eq_fatal_iff]
  · rw [ends_fatal_iff (fun n => Spine.fetchCells (s.apply n ρ)) (fun _ => rfl) ht,
      ← stops_iff (by simp) (by simp)]
    refine exists_congr fun i => ⟨?_, fun h => ⟨_, h, rfl⟩⟩
    rintro ⟨o, hstops, ho⟩
    rwa [Outcome.map_eq_fatal.mp ho.symm] at hstops

theorem lists_rebuilt_annotated :
    ∃ (s : Strategy) (t u v as x seven six : Term) (τ τ' : State), t.isList ∧
      t.annotations = some as ∧ t.lastTail = x ∧
      Ends [] (filter s) t .initial (.ok u) τ ∧ u.elems = [seven, six] ∧ ¬u.same t ∧
      t.nodes.drop 2 <:+ u.nodes ∧
      Ends [] (filter (pattern six)) t .initial (.ok v) τ' ∧ v.elems = [six] ∧
      v.annotations = some as ∧ v.shape = .cons six x := by
  -- `[0, 5, 6, *x]{A}`, with `5 -> 7` and `6`, and with `6` alone
  let x : Term := .var (.serial 2) "x" (.wildcard (.serial 1))
  let as : Term := .cons (.serial 3) (.str (.serial 4) "A") (.nil (.serial 0))
  let six : Term := .int (.serial 5) 6
  let five : Term := .int (.serial 6) 5
  let seven : Term := .int (.serial 7) 7
  let zero : Term := .int (.serial 8) 0
  let t : Term := .annotated (.serial 9) (.cons .derived zero
    (.cons (.serial 10) five (.cons (.serial 11) six x))) as
  let s : Strategy := choice (rule five seven) (pattern six)
  have ht : t.isList := rfl
  have hends (s : Strategy) (e : Term) (σ : State) (o : Outcome Term)
      (h : (s.apply 3 [] e σ).1 = o) (ho : o ≠ .exhausted) :
      Ends [] s e σ o (s.apply 3 [] e σ).2 := .of_fst h ho
  obtain ⟨-, hfilter, -⟩ := lists_rebuilt (ρ := []) (s := s) ht .initial
  obtain ⟨-, hfilter', -⟩ := lists_rebuilt (ρ := []) (s := pattern six) ht .initial
  have hsweep := Sweeps.failure (hends s zero .initial .failure (by decide +kernel) (by simp))
    (.ok (hends s five _ (.ok seven) (by decide +kernel) (by simp))
      (.ok (hends s six _ (.ok six) (by decide +kernel) (by simp)) (.nil _)))
  have hsweep' := Sweeps.failure
    (hends (pattern six) zero .initial .failure (by decide +kernel) (by simp))
    (.failure (hends (pattern six) five _ .failure (by decide +kernel) (by simp))
      (.ok (hends (pattern six) six _ (.ok six) (by decide +kernel) (by simp)) (.nil _)))
  obtain ⟨u, hu, hrebuilt⟩ := hfilter.2 [none, some seven, some six] _ hsweep
  obtain ⟨v, hv, hrebuilt'⟩ := hfilter'.2 [none, none, some six] _ hsweep'
  have hshape : v.shape = .cons six x :=
    hrebuilt'.copied 2 (.cons (.serial 11) six x) rfl (by simp) rfl
  have hannos : v.annotations = some as :=
    hrebuilt'.annotations (.cons (.serial 11) six x) rfl
  refine ⟨s, t, u, v, as, x, seven, six, _, _, ht, rfl, rfl, hu, hrebuilt.elems, ?_,
    hrebuilt.reused 2 rfl (.inr (.inr ⟨seven, .tail _ (.head _)⟩)), hv, hrebuilt'.elems, hannos,
    hshape⟩
  rw [hrebuilt.same_iff]
  simp [t, Term.elems]

end Strategy

end StrategicRewriting
