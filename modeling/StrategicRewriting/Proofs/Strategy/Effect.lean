import StrategicRewriting.Strategy.Effect

/-!
How a compound computation can have ended, in terms of how its parts ended.
-/
namespace StrategicRewriting.Effect

variable {α β : Type} {x : Effect α} {σ τ : State}

instance : LawfulMonad Effect :=
  LawfulMonad.mk' Effect
    (by
      intro α x
      funext σ
      change (x >>= pure) σ = x σ
      rw [bind_apply]
      cases x σ with
      | mk o σ' => cases o <;> rfl)
    (fun _ _ => rfl)
    (by
      intro α β γ x f g
      funext σ
      simp only [bind_apply]
      cases x σ with
      | mk o σ' => cases o <;> rfl)

theorem bind_eq_ok {f : α → Effect β} {b : β} :
    (x >>= f) σ = (.ok b, τ) ↔ ∃ a σ', x σ = (.ok a, σ') ∧ f a σ' = (.ok b, τ) := by
  rw [bind_apply]
  cases hx : x σ with
  | mk o σ' => cases o <;> simp [and_assoc]

theorem bind_eq_failure {f : α → Effect β} :
    (x >>= f) σ = (.failure, τ) ↔
      x σ = (.failure, τ) ∨ ∃ a σ', x σ = (.ok a, σ') ∧ f a σ' = (.failure, τ) := by
  rw [bind_apply]
  cases hx : x σ with
  | mk o σ' => cases o <;> simp [and_assoc]

/-- A sequence ends like its first part, unless this one succeeds. -/
theorem bind_eq_iff {f : α → Effect α} {o : Outcome α} :
    (x >>= f) σ = (o, τ) ↔
      (∃ a σ', x σ = (.ok a, σ') ∧ f a σ' = (o, τ)) ∨ (x σ = (o, τ) ∧ ∀ a, o ≠ .ok a) := by
  rw [bind_apply]
  cases hx : x σ with
  | mk p σ' => cases p <;> cases o <;> simp [and_assoc]

/-- An alternative is taken only if a computation fails. -/
theorem attempt_bind_eq_iff {f : Option α → Effect α} (hsome : ∀ a, f (some a) = pure a)
    {o : Outcome α} :
    (x.attempt >>= f) σ = (o, τ) ↔
      (∃ σ', x σ = (.failure, σ') ∧ f none σ' = (o, τ)) ∨ (x σ = (o, τ) ∧ o ≠ .failure) := by
  rw [bind_apply, attempt]
  cases hx : x σ with
  | mk p σ' => cases p <;> cases o <;> simp [hsome]

end StrategicRewriting.Effect
