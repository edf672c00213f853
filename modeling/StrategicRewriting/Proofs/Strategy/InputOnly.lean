import StrategicRewriting.Proofs.Pattern.Build
import StrategicRewriting.Proofs.Pattern.Match
import StrategicRewriting.Proofs.Strategy.Depth

/-!
Strategies whose outcome depends on nothing but the input. Among them are the rules
whose right-hand sides have no other variables than those that matching gives values
to, and all sequences and choices of such strategies.
-/
namespace StrategicRewriting.Strategy

/-- What the strategy ends with depends on nothing but the input, and it leaves the
context as it is. -/
def InputOnly (s : Strategy) : Prop :=
  ∀ ρ t σ o τ, Ends ρ s t σ o τ →
    τ.context = σ.context ∧ ∀ ρ' σ', ∃ τ', Ends ρ' s t σ' o τ'

namespace InputOnly

variable {s₁ s₂ : Strategy}

theorem seq (h₁ : s₁.InputOnly) (h₂ : s₂.InputOnly) : (seq s₁ s₂).InputOnly := by
  intro ρ t σ o τ h
  cases ends_seq_iff.mp h with
  | inl h =>
      obtain ⟨u, σ', hfirst, hsecond⟩ := h
      obtain ⟨hcontext, hagain⟩ := h₁ ρ t σ _ σ' hfirst
      obtain ⟨hcontext', hagain'⟩ := h₂ ρ u σ' o τ hsecond
      refine ⟨hcontext'.trans hcontext, fun ρ' σ'' => ?_⟩
      obtain ⟨τ₁, hτ₁⟩ := hagain ρ' σ''
      obtain ⟨τ₂, hτ₂⟩ := hagain' ρ' τ₁
      exact ⟨τ₂, ends_seq_iff.mpr (.inl ⟨u, τ₁, hτ₁, hτ₂⟩)⟩
  | inr h =>
      obtain ⟨hcontext, hagain⟩ := h₁ ρ t σ o τ h.1
      refine ⟨hcontext, fun ρ' σ' => ?_⟩
      obtain ⟨τ', hτ'⟩ := hagain ρ' σ'
      exact ⟨τ', ends_seq_iff.mpr (.inr ⟨hτ', h.2⟩)⟩

theorem choice (h₁ : s₁.InputOnly) (h₂ : s₂.InputOnly) : (choice s₁ s₂).InputOnly := by
  intro ρ t σ o τ h
  cases ends_choice_iff.mp h with
  | inl h =>
      obtain ⟨σ', hfirst, hsecond⟩ := h
      obtain ⟨hcontext, hagain⟩ := h₁ ρ t σ _ σ' hfirst
      obtain ⟨hcontext', hagain'⟩ := h₂ ρ t σ' o τ hsecond
      refine ⟨hcontext'.trans hcontext, fun ρ' σ'' => ?_⟩
      obtain ⟨τ₁, hτ₁⟩ := hagain ρ' σ''
      obtain ⟨τ₂, hτ₂⟩ := hagain' ρ' τ₁
      exact ⟨τ₂, ends_choice_iff.mpr (.inl ⟨τ₁, hτ₁, hτ₂⟩)⟩
  | inr h =>
      obtain ⟨hcontext, hagain⟩ := h₁ ρ t σ o τ h.1
      refine ⟨hcontext, fun ρ' σ' => ?_⟩
      obtain ⟨τ', hτ'⟩ := hagain ρ' σ'
      exact ⟨τ', ends_choice_iff.mpr (.inr ⟨hτ', h.2⟩)⟩

/-- Values of the context are not looked up for variables that have values. -/
theorem lookup_orElse {b : Bindings} {x : String} (h : (b.get? x).isSome) (vars : Lookup) :
    b.lookup.orElse vars x = b.lookup x := by
  obtain ⟨v, hv⟩ := Option.isSome_iff_exists.mp h
  simp only [Lookup.orElse, Bindings.lookup, hv]

/-- Two states in which the right-hand side is built alike cannot be told apart by a rule. -/
theorem applyRule_same (lhs rhs t : Term) (σ σ' : State)
    (h : ∀ b, lhs.matchTerm t .empty = (true, b) →
      rhs.build (b.lookup.orElse σ'.context.get) = rhs.build (b.lookup.orElse σ.context.get)) :
    ∃ o τ τ', o ≠ .exhausted ∧
      Effect.applyRule lhs rhs t σ = (o, τ) ∧ τ.context = σ.context ∧
      Effect.applyRule lhs rhs t σ' = (o, τ') ∧ τ'.context = σ'.context := by
  rw [Effect.applyRule]
  cases hm : lhs.matchTerm t .empty with
  | mk ok b =>
      cases ok with
      | false => exact ⟨.failure, σ, σ', by simp, rfl, rfl, rfl, rfl⟩
      | true =>
          simp only [Effect.bind_apply, Effect.read, h b hm]
          cases (rhs.build (b.lookup.orElse σ.context.get) b.captures).1 with
          | ok out => exact ⟨.ok out, _, _, by simp, rfl, rfl, rfl, rfl⟩
          | error e => exact ⟨.fatal e, σ, σ', by simp, rfl, rfl, rfl, rfl⟩

/-- A rule of which no variable is looked up in the context ends in the same way in
every state. -/
theorem applyRule_outcome {lhs rhs : Term}
    (h : ∀ t b, lhs.matchTerm t .empty = (true, b) → ∀ x ∈ rhs.vars, (b.get? x).isSome)
    (t : Term) :
    ∃ o, o ≠ .exhausted ∧ ∀ σ, ∃ τ,
      Effect.applyRule lhs rhs t σ = (o, τ) ∧ τ.context = σ.context := by
  have hsame (σ : State) := applyRule_same lhs rhs t .initial σ fun b hm =>
    Term.build_congr rhs fun x hx => by
      rw [lookup_orElse (h t b hm x hx), lookup_orElse (h t b hm x hx)]
  obtain ⟨o, τ, -, hne, hinitial, -⟩ := hsame .initial
  refine ⟨o, hne, fun σ => ?_⟩
  obtain ⟨o', τ₁, τ₂, -, h₁, -, h₂, hcontext⟩ := hsame σ
  obtain rfl : o' = o := congrArg Prod.fst (h₁.symm.trans hinitial)
  exact ⟨τ₂, h₂, hcontext⟩

theorem rule {lhs rhs : Term}
    (h : ∀ t b, lhs.matchTerm t .empty = (true, b) → ∀ x ∈ rhs.vars, (b.get? x).isSome) :
    (rule lhs rhs).InputOnly := by
  intro ρ t σ o τ hends
  obtain ⟨o', hne, hrule⟩ := applyRule_outcome h t
  have hagain (ρ' : Env) (σ' : State) :
      ∃ τ', Ends ρ' (.rule lhs rhs) t σ' o' τ' ∧ τ'.context = σ'.context := by
    obtain ⟨τ', hτ', hcontext⟩ := hrule σ'
    exact ⟨τ', ⟨1, hτ', hne⟩, hcontext⟩
  obtain ⟨τ', hτ', hcontext⟩ := hagain ρ σ
  obtain ⟨rfl, rfl⟩ := hends.unique hτ'
  refine ⟨hcontext, fun ρ' σ' => ?_⟩
  obtain ⟨τ', hτ', -⟩ := hagain ρ' σ'
  exact ⟨τ', hτ'⟩

/-- No variable of a rule is looked up in the context if those of its left-hand side
have no constraints and those of its right-hand side are among them. -/
theorem rule_of_subset {lhs rhs : Term} (hplain : lhs.PlainVars)
    (hsub : ∀ x ∈ rhs.vars, x ∈ lhs.vars) : (Strategy.rule lhs rhs).InputOnly :=
  rule fun _ _ hm x hx => Term.isSome_of_matchTerm hplain hm x (hsub x hx)

end InputOnly

end StrategicRewriting.Strategy
