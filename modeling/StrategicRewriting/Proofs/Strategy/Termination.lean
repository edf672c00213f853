import StrategicRewriting.Proofs.Strategy.InputOnly
import StrategicRewriting.Proofs.Strategy.Nesting
import StrategicRewriting.Proofs.Strategy.Traversal

/-!
Traversals that terminate. They go on with the immediate subterms of the term that they are applied
to, and not with those of a term that a strategy has returned, so that every call of the recursion
is on a smaller term than the one before, whatever the strategies return.
-/
namespace StrategicRewriting

namespace Term

variable {t e c : Term}

/-- How many levels of elements and arguments there are below the root. -/
def depth : Term → Nat
  | .cons _ h t => max (h.depth + 1) t.depth
  | .appl _ _ as => as.depth
  | .annotated _ b _ => b.depth
  | _ => 0

theorem depth_lt_of_mem_elems (h : e ∈ t.elems) : e.depth < t.depth := by
  induction t with
  | cons o hd tl _ ih =>
      rcases List.mem_cons.mp h with rfl | htl
      · exact Nat.lt_of_succ_le (Nat.le_max_left _ _)
      · exact Nat.lt_of_lt_of_le (ih htl) (Nat.le_max_right _ _)
  | annotated o b as ih _ => exact ih h
  | _ => cases h

theorem depth_lt_of_mem_children (h : c ∈ t.children) : c.depth < t.depth := by
  induction t with
  | appl o f as =>
      simp only [children, shape] at h
      split at h
      · exact (depth_lt_of_mem_elems h : c.depth < as.depth)
      · cases h
  | annotated o b as ih _ => exact ih h
  | nil | cons => exact depth_lt_of_mem_elems h
  | _ => cases h

end Term

namespace Strategy

variable {ρ : Env} {d body w : Strategy} {given : List Strategy} {t : Term} {k n : Nat}

/-- Traversals that go from a term to its own subterms, with the strategies that they are given. -/
inductive GoesDown : Strategy → List Strategy → Prop
  | bottomup (s : Strategy) : GoesDown (bottomup s) [s]
  | bottomupStop (s stop : Strategy) : GoesDown (bottomupStop s stop) [s, stop]
  | alltd (s : Strategy) : GoesDown (alltd s) [s]
  | oncetd (s : Strategy) : GoesDown (oncetd s) [s]
  | oncebu (s : Strategy) : GoesDown (oncebu s) [s]

/-- What a body of a recursion does with a term before it applies a given strategy to another term:
it applies given strategies to the term itself, and goes on with the immediate subterms. -/
inductive Descends (given : List Strategy) : Strategy → Prop
  | given {s : Strategy} : s ∈ given → Descends given s
  | all : Descends given (all (call .walk))
  | one : Descends given (one (call .walk))
  | choice {a b : Strategy} : Descends given a → Descends given b → Descends given (choice a b)
  | seq {a s : Strategy} : Descends given a → s ∈ given → Descends given (seq a s)

theorem GoesDown.exists_body (hw : GoesDown w given) :
    ∃ body, w = recursive .walk body ∧ Descends given body := by
  cases hw with
  | bottomup s => exact ⟨_, rfl, .seq .all (.head _)⟩
  | bottomupStop s stop =>
      exact ⟨_, rfl, .seq (.choice (.given (.tail _ (.head _))) .all) (.head _)⟩
  | alltd s => exact ⟨_, rfl, .choice (.given (.head _)) .all⟩
  | oncetd s => exact ⟨_, rfl, .choice (.given (.head _)) .one⟩
  | oncebu s => exact ⟨_, rfl, .choice .one (.given (.head _))⟩

theorem Descends.isWalk (hd : Descends given d) (hnot : d ∉ given) : d.isWalk = false := by
  cases hd with
  | given hd => exact absurd hd hnot
  | all | one | choice | seq => rfl

/-- If the given strategies terminate on all terms, then the body does. -/
theorem Descends.terminates (hbody : Descends given body)
    (hgiven : ∀ g ∈ given, ∀ u, Terminates ((.walk, body) :: ρ) g u) (hd : Descends given d)
    (t : Term) : Terminates ((.walk, body) :: ρ) d t := by
  induction t using Term.children_induction generalizing d with
  | node t ih =>
      have hcall (c : Term) (hc : c ∈ t.children) :
          Terminates ((.walk, body) :: ρ) (call .walk) c :=
        (AppliesOnly.call rfl (ih c hc hbody)).terminates
      induction hd with
      | given hs => exact hgiven _ hs t
      | all => exact (AppliesOnly.all hcall).terminates
      | one => exact (AppliesOnly.one hcall).terminates
      | choice _ _ iha ihb => exact (AppliesOnly.choice iha ihb).terminates
      | seq _ hs iha => exact (AppliesOnly.seq iha (hgiven _ hs)).terminates

theorem Descends.staysWithin (hd : Descends given d)
    (h : d ∉ given → ∀ σ, Mark.Confined given k (d.trail n ρ t σ)) :
    StaysWithin given k n ρ d t := by
  intro σ
  by_cases hmem : d ∈ given
  · exact Mark.confined_given hmem (balanced_trail n ρ d t σ) k
  · refine (h hmem σ).enclose (balanced_trail n ρ d t σ) ?_
    simp [hd.isWalk hmem]

/-- On the way down, the depth of the terms becomes smaller with every call. -/
theorem staysWithin_depth (hbody : Descends given body) (n : Nat) :
    (∀ t d, Descends given d → StaysWithin given t.depth n ((.walk, body) :: ρ) d t) ∧
    ∀ c, StaysWithin given (c.depth + 1) n ((.walk, body) :: ρ) (call .walk) c := by
  induction n with
  | zero =>
      refine ⟨fun t d hd => hd.staysWithin fun _ _ => Mark.confined_nil _ _, fun c σ => ?_⟩
      exact (Mark.confined_nil given c.depth).enclose Mark.balanced_nil (Nat.le_refl _)
  | succ n ih =>
      obtain ⟨ihbody, ihcall⟩ := ih
      refine ⟨fun t d hd => hd.staysWithin fun hnot σ => ?_, fun c σ => ?_⟩
      · have hcall (c : Term) (hc : c ∈ t.children) :
            StaysWithin given t.depth n ((.walk, body) :: ρ) (call .walk) c :=
          fun σ => (ihcall c σ).mono (Term.depth_lt_of_mem_children hc)
        cases hd with
        | given hs => exact absurd hs hnot
        | all => exact (AppliesOnly.all hcall).confined σ
        | one => exact (AppliesOnly.one hcall).confined σ
        | choice ha hb => exact (AppliesOnly.choice (ihbody t _ ha) (ihbody t _ hb)).confined σ
        | seq ha hs =>
            refine (AppliesOnly.seq (ihbody t _ ha) fun u => ?_).confined σ
            exact fun σ => Mark.confined_given hs (balanced_trail n _ _ u σ) _
      · have hconfined : Mark.Confined given c.depth
            ((call .walk).trail (n + 1) ((.walk, body) :: ρ) c σ) :=
          (AppliesOnly.call rfl (ihbody c body hbody)).confined σ
        exact hconfined.enclose (balanced_trail (n + 1) _ _ c σ) (Nat.le_refl _)

/-- If the strategies that they are given terminate on all terms and in all states, then so do the
traversals that go from a term to its own subterms. As long as none of the given strategies is
applied, no more calls of the recursion are open than the term has levels of subterms. -/
theorem traversals_terminate (hw : GoesDown w given)
    (hgiven : ∀ g ∈ given, ∀ b t, Terminates ((.walk, b) :: ρ) g t) (t : Term) (σ : State) :
    (∃ o τ, Ends ρ w t σ o τ) ∧
    ∀ n before, before <+: w.trail n ρ t σ → (∀ g ∈ given, g ∉ Mark.opened [] before) →
      (Mark.opened [] before).countP isWalk ≤ t.depth := by
  obtain ⟨body, rfl, hbody⟩ := hw.exists_body
  constructor
  · have hends := hbody.terminates (fun g hg => hgiven g hg body) hbody t
    exact (AppliesOnly.recursive hends).terminates σ
  · intro n before hbefore hopened
    have hconfined : Mark.Confined given t.depth ((recursive .walk body).trail n ρ t σ) := by
      cases n with
      | zero => exact Mark.confined_nil given t.depth
      | succ n =>
          exact (AppliesOnly.recursive ((staysWithin_depth hbody n).1 t body hbody)).confined σ
    exact hconfined [] before hbefore hopened

theorem traversals_terminate_growing :
    ∃ (s : Strategy) (t u : Term), (∃ τ, Ends [] s t .initial (.ok u) τ) ∧ t.depth < u.depth ∧
      (∀ σ, ∃ o τ, Ends [] (bottomupStop s fail) t σ o τ) ∧
      (∀ σ n before, before <+: (bottomupStop s fail).trail n [] t σ →
        (∀ g ∈ [s, fail], g ∉ Mark.opened [] before) →
          (Mark.opened [] before).countP isWalk ≤ t.depth) ∧
      ∃ before, before <+: (bottomupStop s fail).trail 12 [] t .initial ∧
        (Mark.opened [] before).countP isWalk = t.depth := by
  -- `x -> [x,x]` on `[[1],2]`
  let x : Term := .var .derived "x" (.wildcard .derived)
  let s : Strategy := rule x (.listOnto .empty [x, x])
  let t : Term := .listOnto .empty [.listOnto .empty [.int .derived 1], .int .derived 2]
  have hplain : x.PlainVars := rfl
  have hsub : ∀ y ∈ (Term.listOnto .empty [x, x]).vars, y ∈ x.vars := by decide
  have hrule (ρ : Env) (t : Term) : Terminates ρ s t := by
    obtain ⟨o, ho, hrun⟩ := InputOnly.applyRule_outcome
      (fun _ _ hm y hy => Term.isSome_of_matchTerm hplain hm y (hsub y hy)) t
    intro σ
    obtain ⟨τ, hτ, -⟩ := hrun σ
    exact ⟨o, τ, 1, hτ, ho⟩
  have hgiven : ∀ g ∈ [s, fail], ∀ b t, Terminates [(.walk, b)] g t := by
    refine List.forall_mem_cons.mpr ⟨fun b => hrule _, List.forall_mem_singleton.mpr ?_⟩
    exact fun b t σ => ⟨.failure, σ, 1, rfl, by simp⟩
  have hall (σ : State) := traversals_terminate (.bottomupStop s fail) hgiven t σ
  have hout : (s.apply 1 [] t .initial).1 = .ok (.listOnto .empty [t, t]) := by decide +kernel
  refine ⟨s, t, _, ⟨_, .of_fst hout (by simp)⟩, by decide, fun σ => (hall σ).1,
    fun σ => (hall σ).2, _, List.take_prefix 12 _, ?_⟩
  decide +kernel

end Strategy

end StrategicRewriting
