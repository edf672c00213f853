import StrategicRewriting.Proofs.Strategy.InputOnly
import StrategicRewriting.Proofs.Strategy.Rebuild

/-!
Innermost normalisation. It never fails: the recursion into subterms fails on none
of them, and a failure of the rewriting itself is recovered from. What it returns
is in normal form, because a term is returned only if the rewriting fails on it,
after all its immediate subterms were normalised.
-/
namespace StrategicRewriting.Strategy

/-- The strategy fails on the term, wherever it is applied to it. -/
def FailsOn (s : Strategy) (t : Term) : Prop :=
  ∀ ρ σ, ∃ τ, Ends ρ s t σ .failure τ

/-- The strategy fails on the term and on all terms below it. -/
def NormalForm (s : Strategy) (t : Term) : Prop :=
  ∀ u, t.Reaches u → s.FailsOn u

theorem NormalForm.of_children {s : Strategy} {t : Term} (ht : s.FailsOn t)
    (hchildren : ∀ u ∈ t.children, s.NormalForm u) : s.NormalForm t := by
  intro u hu
  cases hu with
  | refl => exact ht
  | child hv hu => exact hchildren _ hv u hu

theorem InputOnly.failsOn {s : Strategy} (hs : s.InputOnly) {n : Nat} {ρ : Env} {t : Term}
    {σ τ : State} (h : s.apply n ρ t σ = (.failure, τ)) : s.FailsOn t := by
  intro ρ' σ'
  have hends : Ends ρ s t σ .failure τ := ⟨n, h, nofun⟩
  exact (hs ρ t σ .failure τ hends).2 ρ' σ'

/-- Rewrite once and normalise the result, or return the input. -/
def rewriteStep (s : Strategy) : Strategy :=
  attempt (seq s (call .normalise))

/-- The body of the recursion into subterms. -/
def walkBody (s : Strategy) : Strategy :=
  seq (all (call .walk)) (rewriteStep s)

/-- The recursive strategies around the body. -/
def walkEnv (s : Strategy) (ρ : Env) : Env :=
  (.walk, walkBody s) :: (.normalise, recursive .walk (walkBody s)) :: ρ

theorem apply_innermost (n : Nat) (s : Strategy) (ρ : Env) (t : Term) :
    (innermost s).apply (n + 2) ρ t = (walkBody s).apply n (walkEnv s ρ) t := rfl

theorem apply_call_walk (n : Nat) (s : Strategy) (ρ : Env) (t : Term) :
    (call .walk).apply (n + 1) (walkEnv s ρ) t = (walkBody s).apply n (walkEnv s ρ) t := rfl

theorem apply_call_normalise (n : Nat) (s : Strategy) (ρ : Env) (t : Term) :
    (call .normalise).apply (n + 2) (walkEnv s ρ) t = (walkBody s).apply n (walkEnv s ρ) t := rfl

theorem attempt_ne_failure (s : Strategy) (n : Nat) (ρ : Env) (t : Term) (σ τ : State) :
    (attempt s).apply n ρ t σ ≠ (.failure, τ) := by
  intro h
  cases n with
  | zero => cases h
  | succ n =>
      cases apply_choice_iff.mp h with
      | inl h =>
          obtain ⟨σ', -, h⟩ := h
          cases n <;> cases h
      | inr h => exact h.2 rfl

section

variable {s : Strategy} {ρ : Env} {n : Nat} {t t' : Term} {σ τ : State}

/-- The recursion into subterms never fails. -/
theorem walkBody_ne_failure : (walkBody s).apply n (walkEnv s ρ) t σ ≠ (.failure, τ) := by
  induction n using Nat.strongRecOn generalizing t σ τ with
  | ind n ih =>
      intro h
      match n with
      | 0 => cases h
      | n + 1 =>
          cases apply_seq_iff.mp h with
          | inl h =>
              obtain ⟨u, σ', -, h⟩ := h
              exact attempt_ne_failure _ _ _ _ _ _ h
          | inr h =>
              match n, h.1 with
              | n + 1, h =>
                  refine Spine.onChildren_ne_failure ?_ h
                  intro v σ τ hv
                  match n, hv with
                  | n + 1, hv =>
                      rw [apply_call_walk] at hv
                      exact ih n (by omega) hv

theorem call_normalise_ne_failure :
    (call .normalise).apply n (walkEnv s ρ) t σ ≠ (.failure, τ) := by
  intro h
  match n, h with
  | 1, h => cases h
  | n + 2, h =>
      rw [apply_call_normalise] at h
      exact walkBody_ne_failure h

/-- The immediate subterms were returned by the recursion. -/
theorem all_walk_children {u : Term}
    (h : (all (call .walk)).apply n (walkEnv s ρ) t σ = (.ok u, τ)) :
    ∀ y ∈ u.children, ∃ m < n, ∃ v σ' τ',
      (walkBody s).apply m (walkEnv s ρ) v σ' = (.ok y, τ') := by
  intro y hy
  match n, h with
  | n + 1, h =>
      obtain ⟨v, σ', τ', hv⟩ := Spine.onChildren_eq_ok h y hy
      match n, hv with
      | n + 1, hv =>
          rw [apply_call_walk] at hv
          exact ⟨n, by omega, v, σ', τ', hv⟩

/-- A term is returned as it is only if the strategy fails on it. -/
theorem rewriteStep_cases {u : Term}
    (h : (rewriteStep s).apply n (walkEnv s ρ) u σ = (.ok t', τ)) :
    (t' = u ∧ ∃ m τ', s.apply m (walkEnv s ρ) u σ = (.failure, τ')) ∨
    ∃ m < n, ∃ v σ', (walkBody s).apply m (walkEnv s ρ) v σ' = (.ok t', τ) := by
  match n, h with
  | n + 1, h =>
      cases apply_choice_iff.mp h with
      | inl h =>
          obtain ⟨σ', hseq, hident⟩ := h
          match n, hseq, hident with
          | n + 1, hseq, hident =>
              cases hident
              cases apply_seq_iff.mp hseq with
              | inl h =>
                  -- this failure would be taken for one of `s`
                  obtain ⟨v, σ₁, -, hcall⟩ := h
                  exact absurd hcall call_normalise_ne_failure
              | inr h => exact .inl ⟨rfl, n, _, h.1⟩
      | inr h =>
          match n, h.1 with
          | n + 1, hseq =>
              cases apply_seq_iff.mp hseq with
              | inl h =>
                  obtain ⟨v, σ₁, -, hcall⟩ := h
                  match n, hcall with
                  | n + 2, hcall =>
                      rw [apply_call_normalise] at hcall
                      exact .inr ⟨n, by omega, v, σ₁, hcall⟩
              | inr h => exact absurd rfl (h.2 t')

/-- What the recursion into subterms returns is in normal form. -/
theorem walkBody_normalForm (hs : s.InputOnly)
    (h : (walkBody s).apply n (walkEnv s ρ) t σ = (.ok t', τ)) : s.NormalForm t' := by
  -- not on the term: what is normalised next is any term that `s` returns
  induction n using Nat.strongRecOn generalizing t t' σ τ with
  | ind n ih =>
      match n, h with
      | n + 1, h =>
          cases apply_seq_iff.mp h with
          | inl h =>
              obtain ⟨u, σ', hall, hstep⟩ := h
              cases rewriteStep_cases hstep with
              | inl h =>
                  obtain ⟨rfl, m, τ', hfail⟩ := h
                  refine .of_children (hs.failsOn hfail) fun y hy => ?_
                  obtain ⟨m, hm, v, σ₁, τ₁, hv⟩ := all_walk_children hall y hy
                  exact ih m (by omega) hv
              | inr h =>
                  obtain ⟨m, hm, v, σ₁, hv⟩ := h
                  exact ih m (by omega) hv
          | inr h => exact absurd rfl (h.2 t')

end

/-- Innermost normalisation returns normal forms, and it never fails. -/
theorem innermost_normalForm (s : Strategy) (ρ : Env) (t : Term) (σ τ : State) :
    (s.InputOnly → ∀ t', Ends ρ (innermost s) t σ (.ok t') τ → s.NormalForm t') ∧
    ¬ Ends ρ (innermost s) t σ .failure τ := by
  constructor
  · rintro hs t' ⟨n, hn, -⟩
    match n, hn with
    | 1, hn => cases hn
    | n + 2, hn =>
        rw [apply_innermost] at hn
        exact walkBody_normalForm hs hn
  · rintro ⟨n, hn, -⟩
    match n, hn with
    | 1, hn => cases hn
    | n + 2, hn =>
        rw [apply_innermost] at hn
        exact walkBody_ne_failure hn

theorem innermost_normalForm_choice :
    ∃ (s : Strategy) (t t' : Term) (τ : State), s.InputOnly ∧
      Ends [] (innermost s) t .initial (.ok t') τ ∧ s.NormalForm t' := by
  -- `P(x,0) -> x`, and `M(x,1) -> N(x)` followed by `N(x) -> x`, on `[P(M(A,1),0)]`
  let x : Term := .var .derived "x" (.wildcard .derived)
  let app (f : String) (ts : List Term) : Term :=
    .appl .derived (.str .derived f) (.listOnto .empty ts)
  let zero : Term := .int .derived 0
  let one : Term := .int .derived 1
  let a : Term := app "A" []
  let s : Strategy := choice (rule (app "P" [x, zero]) x)
    (seq (rule (app "M" [x, one]) (app "N" [x])) (rule (app "N" [x]) x))
  let t : Term := .listOnto .empty [app "P" [app "M" [a, one], zero]]
  have hs : s.InputOnly :=
    .choice (.rule_of_subset ⟨trivial, rfl, trivial, trivial⟩ (by decide))
      (.seq (.rule_of_subset ⟨trivial, rfl, trivial, trivial⟩ (by decide))
        (.rule_of_subset ⟨trivial, rfl, trivial⟩ (by decide)))
  have hout : ((innermost s).apply 40 [] t .initial).1 = .ok (.listOnto .empty [a]) := by
    decide +kernel
  have hends := Ends.of_fst hout nofun
  exact ⟨s, t, _, _, hs, hends, (innermost_normalForm s [] t .initial _).1 hs _ hends⟩

end StrategicRewriting.Strategy
