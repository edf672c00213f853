import StrategicRewriting.Proofs.Strategy.Simulation

/-!
More depth never changes an answer of the evaluator. So what a strategy ends with
is well defined: it is the answer at every depth that suffices.
-/
namespace StrategicRewriting

namespace Correspondence

/-- Runs that go through the same states. -/
def same (P : Strategy → Prop) : Correspondence :=
  identical P (fun _ => trivial) fun {_ _ _} _ _ => trivial

theorem same_lawful {P : Strategy → Prop} (hpart : ∀ s s', P s → s' ∈ s.parts → P s') :
    (same P).Lawful :=
  identical_lawful _ _ hpart (fun _ _ _ _ => trivial) (fun _ _ _ _ _ => trivial)
    fun _ _ _ _ _ => trivial

end Correspondence

namespace Effect

variable {α β : Type}

/-- Where the first computation has an answer, the second has the same one. -/
def Refines (x y : Effect α) : Prop :=
  ∀ σ, (x σ).1 ≠ .exhausted → y σ = x σ

theorem refines_iff (P : Strategy → Prop) {x y : Effect α} :
    Refines x y ↔ (Correspondence.same P).Simulates Eq x y := by
  constructor
  · intro h σ τ hστ
    obtain rfl : σ = τ := hστ
    have hx := h σ
    generalize x σ = r at hx
    obtain ⟨o, σ'⟩ := r
    cases o with
    | ok a =>
        rw [hx nofun]
        exact .ok rfl rfl trivial
    | failure =>
        rw [hx nofun]
        exact .failure rfl trivial
    | fatal e =>
        rw [hx nofun]
        exact .fatal rfl rfl trivial
    | exhausted => exact .exhausted
  · intro h σ hne
    have hxy := h σ σ rfl
    generalize x σ = r at hne hxy
    generalize y σ = r' at hxy
    cases hxy with
    | ok ha hσ _ => rw [show _ = _ from ha, show _ = _ from hσ]
    | failure hσ _ => rw [show _ = _ from hσ]
    | fatal he hσ _ => rw [show _ = _ from he, show _ = _ from hσ]
    | exhausted => exact absurd rfl hne

end Effect

namespace Strategy

open Effect (Refines)

theorem refines_step {P : Strategy → Prop} (hpart : ∀ s s', P s → s' ∈ s.parts → P s')
    {f g : Env → Strategy → Term → Effect Term}
    (hcall : ∀ ρ s t, (∀ e ∈ ρ, P e.2) → P s → Refines (f ρ s t) (g ρ s t)) {n m : Nat}
    (hnm : n ≤ m) {ρ : Env} (hρ : ∀ e ∈ ρ, P e.2) {s : Strategy} (hs : P s) (t : Term) :
    Refines (step f n ρ s t) (step g m ρ s t) := by
  rw [Effect.refines_iff P]
  refine simulates_step (Correspondence.same_lawful hpart) (fun ρ s t t' hρ hs ht => ?_) hnm hρ
    hs rfl
  obtain rfl : t = t' := ht
  exact (Effect.refines_iff P).mp (hcall ρ s t hρ hs)

theorem refines_apply {n m : Nat} (hnm : n ≤ m) (ρ : Env) (s : Strategy) (t : Term) :
    Refines (s.apply n ρ t) (s.apply m ρ t) := by
  rw [Effect.refines_iff fun _ => True]
  exact simulates_apply (Correspondence.same_lawful fun _ _ _ _ => trivial) hnm
    (fun _ _ => trivial) trivial rfl

/-- With enough depth, the strategy ends with the outcome and leaves the second state
behind. -/
def Ends (ρ : Env) (s : Strategy) (t : Term) (σ : State) (o : Outcome Term) (τ : State) : Prop :=
  ∃ n, s.apply n ρ t σ = (o, τ) ∧ o ≠ .exhausted

section

variable {ρ : Env} {s s₁ s₂ : Strategy} {t : Term} {σ τ τ' : State} {o o' : Outcome Term}

theorem Ends.of_fst {n : Nat} (h : (s.apply n ρ t σ).1 = o) (ho : o ≠ .exhausted) :
    Ends ρ s t σ o (s.apply n ρ t σ).2 := by
  subst h
  exact ⟨n, rfl, ho⟩

theorem Ends.at_depth (h : Ends ρ s t σ o τ) : ∃ n, ∀ m, n ≤ m → s.apply m ρ t σ = (o, τ) := by
  obtain ⟨n, hn, ho⟩ := h
  refine ⟨n, fun m hnm => ?_⟩
  have hne : (s.apply n ρ t σ).1 ≠ .exhausted := by rwa [hn]
  rw [refines_apply hnm ρ s t σ hne, hn]

/-- Two applications that end do so at a common depth. -/
theorem Ends.common_depth {u : Term} {σ' : State} (h₁ : Ends ρ s₁ t σ o τ)
    (h₂ : Ends ρ s₂ u σ' o' τ') :
    ∃ n, s₁.apply n ρ t σ = (o, τ) ∧ s₂.apply n ρ u σ' = (o', τ') := by
  obtain ⟨n, hn⟩ := h₁.at_depth
  obtain ⟨m, hm⟩ := h₂.at_depth
  exact ⟨max n m, hn _ (Nat.le_max_left n m), hm _ (Nat.le_max_right n m)⟩

theorem Ends.unique (h : Ends ρ s t σ o τ) (h' : Ends ρ s t σ o' τ') : o = o' ∧ τ = τ' := by
  obtain ⟨n, hn, hn'⟩ := h.common_depth h'
  exact Prod.mk.inj (hn.symm.trans hn')

theorem apply_seq_iff {n : Nat} :
    (seq s₁ s₂).apply (n + 1) ρ t σ = (o, τ) ↔
      (∃ u σ', s₁.apply n ρ t σ = (.ok u, σ') ∧ s₂.apply n ρ u σ' = (o, τ)) ∨
      (s₁.apply n ρ t σ = (o, τ) ∧ ∀ u, o ≠ .ok u) :=
  Effect.bind_eq_iff

theorem apply_choice_iff {n : Nat} :
    (choice s₁ s₂).apply (n + 1) ρ t σ = (o, τ) ↔
      (∃ σ', s₁.apply n ρ t σ = (.failure, σ') ∧ s₂.apply n ρ t σ' = (o, τ)) ∨
      (s₁.apply n ρ t σ = (o, τ) ∧ o ≠ .failure) :=
  Effect.attempt_bind_eq_iff fun _ => rfl

theorem ends_seq_iff :
    Ends ρ (seq s₁ s₂) t σ o τ ↔
      (∃ u σ', Ends ρ s₁ t σ (.ok u) σ' ∧ Ends ρ s₂ u σ' o τ) ∨
      (Ends ρ s₁ t σ o τ ∧ ∀ u, o ≠ .ok u) := by
  constructor
  · rintro ⟨n, hn, ho⟩
    cases n with
    | zero => cases hn; exact absurd rfl ho
    | succ n =>
        rcases apply_seq_iff.mp hn with ⟨u, σ', h₁, h₂⟩ | ⟨h₁, hne⟩
        · exact .inl ⟨u, σ', ⟨n, h₁, nofun⟩, ⟨n, h₂, ho⟩⟩
        · exact .inr ⟨⟨n, h₁, ho⟩, hne⟩
  · rintro (⟨u, σ', h₁, h₂⟩ | ⟨⟨n, h₁, ho⟩, hne⟩)
    · obtain ⟨n, hn₁, hn₂⟩ := h₁.common_depth h₂
      obtain ⟨-, -, ho⟩ := h₂
      exact ⟨n + 1, apply_seq_iff.mpr (.inl ⟨u, σ', hn₁, hn₂⟩), ho⟩
    · exact ⟨n + 1, apply_seq_iff.mpr (.inr ⟨h₁, hne⟩), ho⟩

theorem ends_choice_iff :
    Ends ρ (choice s₁ s₂) t σ o τ ↔
      (∃ σ', Ends ρ s₁ t σ .failure σ' ∧ Ends ρ s₂ t σ' o τ) ∨
      (Ends ρ s₁ t σ o τ ∧ o ≠ .failure) := by
  constructor
  · rintro ⟨n, hn, ho⟩
    cases n with
    | zero => cases hn; exact absurd rfl ho
    | succ n =>
        rcases apply_choice_iff.mp hn with ⟨σ', h₁, h₂⟩ | ⟨h₁, hne⟩
        · exact .inl ⟨σ', ⟨n, h₁, nofun⟩, ⟨n, h₂, ho⟩⟩
        · exact .inr ⟨⟨n, h₁, ho⟩, hne⟩
  · rintro (⟨σ', h₁, h₂⟩ | ⟨⟨n, h₁, ho⟩, hne⟩)
    · obtain ⟨n, hn₁, hn₂⟩ := h₁.common_depth h₂
      obtain ⟨-, -, ho⟩ := h₂
      exact ⟨n + 1, apply_choice_iff.mpr (.inl ⟨σ', hn₁, hn₂⟩), ho⟩
    · exact ⟨n + 1, apply_choice_iff.mpr (.inr ⟨h₁, hne⟩), ho⟩

end

end Strategy

end StrategicRewriting
