import Mathlib.Data.List.Forall2
import StrategicRewriting.Proofs.Strategy.Depth
import StrategicRewriting.Proofs.Strategy.Rebuild

/-!
Strategies that act like functions: they end on a term with another one, whatever the state,
and leave the state as it is. If a strategy maps all immediate subterms of a term, then a
traversal puts the results in their places, and a bottom-up traversal goes on from there.
-/
namespace StrategicRewriting

namespace Term

/-- Induction over the subterms that traversals go to. -/
@[elab_as_elim]
theorem children_induction {P : Term → Prop}
    (node : ∀ t : Term, (∀ c ∈ t.children, P c) → P t) (t : Term) : P t := by
  -- the arguments of an application are reached through the list of them
  have hboth : (∀ e ∈ t.elems, P e) ∧ ∀ c ∈ t.children, P c := by
    induction t with
    | cons o h tl ihh iht =>
        have helems : ∀ e ∈ (cons o h tl).elems, P e :=
          List.forall_mem_cons.mpr ⟨node h ihh.2, iht.1⟩
        exact ⟨helems, helems⟩
    | appl o f as _ ihas =>
        refine ⟨List.forall_mem_nil P, ?_⟩
        simp only [children, shape]
        split
        · exact ihas.1
        · exact List.forall_mem_nil P
    | annotated o b as ih _ => exact ih
    | _ => exact ⟨List.forall_mem_nil P, List.forall_mem_nil P⟩
  exact node t hboth.2

end Term

namespace Spine

open Term

/-- The term with other immediate subterms, as many as it has. -/
def withChildren (t : Term) (us : List Term) : Term :=
  match t.shape with
  | .nil | .cons .. => rebuild t (us.map some)
  | .appl functor args =>
    if args.isList then
      let new := rebuild args (us.map some)
      if new.same args then t else t.withShape (.appl functor new)
    else t
  | _ => t

theorem shape_withChildren_appl {t functor args : Term} (hshape : t.shape = .appl functor args)
    (us : List Term) : (withChildren t us).shape =
      .appl functor (if args.isList then rebuild args (us.map some) else args) := by
  simp only [withChildren, hshape]
  split
  · split
    · rename_i hsame
      rw [hshape, same_iff_eq.mp hsame]
    · rw [shape_withShape]
  · exact hshape

end Spine

namespace Strategy

/-- In every state, the strategy turns the first term into the second one and leaves the state
as it is. -/
def Maps (ρ : Env) (s : Strategy) (t u : Term) : Prop :=
  ∃ n, ∀ m, n ≤ m → ∀ σ, s.apply m ρ t σ = (.ok u, σ)

variable {ρ ρ' : Env} {s s₁ s₂ : Strategy} {t u v : Term} {us : List Term} {l : Label}

theorem Maps.ends (h : Maps ρ s t u) (σ : State) : Ends ρ s t σ (.ok u) σ := by
  obtain ⟨n, hn⟩ := h
  exact ⟨n, hn n (Nat.le_refl n) σ, by simp⟩

/-- It is enough to look at one level of the application. -/
theorem Maps.of_step {n : Nat}
    (h : ∀ m, n ≤ m → ∀ σ, step (apply m) m ρ s t σ = (.ok u, σ)) : Maps ρ s t u := by
  refine ⟨n + 1, fun m hm σ => ?_⟩
  obtain ⟨k, rfl⟩ := Nat.exists_eq_succ_of_ne_zero (Nat.ne_of_gt (Nat.lt_of_lt_of_le n.succ_pos hm))
  exact h k (Nat.le_of_succ_le_succ hm) σ

theorem maps_strip (ρ : Env) (t : Term) : Maps ρ .strip t t.stripAnnotations :=
  .of_step (n := 0) fun _ _ _ => rfl

theorem Maps.seq (h₁ : Maps ρ s₁ t u) (h₂ : Maps ρ s₂ u v) : Maps ρ (seq s₁ s₂) t v := by
  obtain ⟨n₁, h₁⟩ := h₁
  obtain ⟨n₂, h₂⟩ := h₂
  refine .of_step (n := max n₁ n₂) fun m hm σ => ?_
  obtain ⟨hm₁, hm₂⟩ := Nat.max_le.mp hm
  exact Effect.bind_eq_ok.mpr ⟨u, σ, h₁ m hm₁ σ, h₂ m hm₂ σ⟩

theorem maps_recursive_iff : Maps ρ (recursive l s) t u ↔ Maps ((l, s) :: ρ) s t u := by
  constructor
  · rintro ⟨n, hn⟩
    exact ⟨n, fun m hm => hn (m + 1) (Nat.le_succ_of_le hm)⟩
  · rintro ⟨n, hn⟩
    exact .of_step hn

theorem Maps.call (hl : ρ.resolve l = some (s, ρ')) (h : Maps ρ' s t u) :
    Maps ρ (call l) t u := by
  obtain ⟨n, h⟩ := h
  refine .of_step (n := n) fun m hm σ => ?_
  simp only [step, hl]
  exact h m hm σ

theorem exists_forall₂ {R : Term → Term → Prop} {ts : List Term} (h : ∀ t ∈ ts, ∃ u, R t u) :
    ∃ us, List.Forall₂ R ts us := by
  induction ts with
  | nil => exact ⟨[], .nil⟩
  | cons t ts ih =>
      rw [List.forall_mem_cons] at h
      obtain ⟨u, hu⟩ := h.1
      obtain ⟨us, hus⟩ := ih h.2
      exact ⟨u :: us, .cons hu hus⟩

/-- All elements are mapped at a common depth, one after the other. -/
theorem mapCells_of_maps {es : List Term} (h : List.Forall₂ (Maps ρ s) es us) :
    ∃ n, ∀ m, n ≤ m → ∀ (cs : List Cell), cs.map (·.head) = es → ∀ σ,
      Spine.mapCells (s.apply m ρ) cs σ = (.ok (us.map some), σ) := by
  induction h with
  | nil =>
      refine ⟨0, fun m _ cs hcs σ => ?_⟩
      cases List.map_eq_nil_iff.mp hcs
      rfl
  | @cons e u es us he _ ih =>
      obtain ⟨n, he⟩ := he
      obtain ⟨k, ih⟩ := ih
      refine ⟨max n k, fun m hm cs hcs σ => ?_⟩
      obtain ⟨hn, hk⟩ := Nat.max_le.mp hm
      obtain ⟨c, cs, rfl, rfl, hrest⟩ := List.map_eq_cons_iff.mp hcs
      have hhead : (some <$> s.apply m ρ c.head) σ = (.ok (some u), σ) :=
        Effect.bind_eq_ok.mpr ⟨u, σ, he m hn σ, rfl⟩
      exact Effect.bind_eq_ok.mpr ⟨some u, σ, hhead,
        Effect.bind_eq_ok.mpr ⟨us.map some, σ, ih m hk cs hrest σ, rfl⟩⟩

theorem transform_of_maps {list : Term} (hlist : list.isList)
    (h : List.Forall₂ (Maps ρ s) list.elems us) :
    ∃ n, ∀ m, n ≤ m → ∀ σ, Spine.transform list (Spine.mapCells (s.apply m ρ)) σ =
      (.ok (Spine.rebuild list (us.map some)), σ) := by
  obtain ⟨n, hn⟩ := mapCells_of_maps h
  refine ⟨n, fun m hm σ => ?_⟩
  rw [Spine.transform, if_pos hlist]
  exact Effect.bind_eq_ok.mpr ⟨_, σ, hn m hm _ list.map_head_cells σ, rfl⟩

theorem maps_all (h : List.Forall₂ (Maps ρ s) t.children us) :
    Maps ρ (.all s) t (Spine.withChildren t us) := by
  simp only [Term.children] at h
  cases hshape : t.shape with
  | nil | cons hd tl =>
      simp only [hshape] at h
      have hlist : t.isList := by rw [Term.isList, hshape]
      obtain ⟨n, hn⟩ := transform_of_maps hlist h
      refine .of_step (n := n) fun m hm σ => ?_
      simp only [step, Spine.onChildren, Spine.withChildren, hshape]
      exact hn m hm σ
  | appl functor args =>
      simp only [hshape] at h
      split at h
      · rename_i hargs
        obtain ⟨n, hn⟩ := transform_of_maps hargs h
        refine .of_step (n := n) fun m hm σ => ?_
        simp only [step, Spine.onChildren, Spine.withChildren, hshape, hargs, if_true]
        exact Effect.bind_eq_ok.mpr ⟨_, σ, hn m hm σ, rfl⟩
      · rename_i hargs
        refine .of_step (n := 0) fun m _ σ => ?_
        simp only [step, Spine.onChildren, Spine.withChildren, hshape, hargs]
        rfl
  | _ =>
      refine .of_step (n := 0) fun m _ σ => ?_
      simp only [step, Spine.onChildren, Spine.withChildren, hshape]
      rfl

/-- A bottom-up traversal maps the immediate subterms, then what they make of the term. -/
theorem Maps.bottomup (hchildren : List.Forall₂ (Maps ρ (bottomup s)) t.children us)
    (h : ∀ ρ, Maps ρ s (Spine.withChildren t us) u) : Maps ρ (bottomup s) t u := by
  refine maps_recursive_iff.mpr (Maps.seq (maps_all (hchildren.imp fun c u hc => ?_)) (h _))
  exact .call rfl (maps_recursive_iff.mp hc)

end Strategy

end StrategicRewriting
