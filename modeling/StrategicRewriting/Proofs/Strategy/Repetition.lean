import StrategicRewriting.Proofs.Strategy.Calls
import StrategicRewriting.Proofs.Strategy.Script
import StrategicRewriting.Proofs.Strategy.Simplify

/-!
Repetition. The loop applies a strategy until it fails, and ends like the recursive strategy that
tries to apply it and then itself. The recursion goes through an attempt in every round, but an
attempt that is further out has nothing to catch: what goes on in it never fails, because it has
an attempt of its own around it.
-/
namespace StrategicRewriting

namespace Strategy

variable {ρ ρ' : Env} {s b : Strategy} {l : Label} {t u : Term} {σ σ' τ : State}
  {o : Outcome Term} {n : Nat}

/-! How recursive strategies end. -/

theorem apply_call (hl : ρ.resolve l = some (b, ρ')) (n : Nat) (t : Term) :
    (call l).apply (n + 1) ρ t = b.apply n ρ' t := by
  simp only [apply, step, hl]

/-- One strategy ends like the other if it is this one with another level around it. -/
theorem ends_iff_of_apply_succ (h : ∀ n, s.apply (n + 1) ρ t = b.apply n ρ' u) :
    Ends ρ s t σ o τ ↔ Ends ρ' b u σ o τ := by
  constructor
  · rintro ⟨n, hn, ho⟩
    cases n with
    | zero => cases hn; exact absurd rfl ho
    | succ n => exact ⟨n, by rw [← h, hn], ho⟩
  · rintro ⟨n, hn, ho⟩
    exact ⟨n + 1, by rw [h, hn], ho⟩

theorem ends_recursive_iff : Ends ρ (recursive l b) t σ o τ ↔ Ends ((l, b) :: ρ) b t σ o τ :=
  ends_iff_of_apply_succ fun _ => rfl

theorem ends_call_iff (hl : ρ.resolve l = some (b, ρ')) :
    Ends ρ (call l) t σ o τ ↔ Ends ρ' b t σ o τ :=
  ends_iff_of_apply_succ fun n => apply_call hl n t

theorem ends_of_not_calls (h : ¬s.Calls l) (b : Strategy) :
    Ends ((l, b) :: ρ) s t σ o τ ↔ Ends ρ s t σ o τ := by
  simp only [Ends, apply_of_not_calls h b]

/-! The rounds of a repetition. -/

/-- The strategy is applied as long as it succeeds. A failure ends the repetition with the term
that was reached, a fatal error ends it with this error. -/
inductive Repeats (ρ : Env) (s : Strategy) : Term → State → Outcome Term → State → Prop
  | stop {t : Term} {σ τ : State} : Ends ρ s t σ .failure τ → Repeats ρ s t σ (.ok t) τ
  | abort {t : Term} {σ τ : State} {e : Fatal} :
      Ends ρ s t σ (.fatal e) τ → Repeats ρ s t σ (.fatal e) τ
  | again {t u : Term} {σ σ' τ : State} {o : Outcome Term} :
      Ends ρ s t σ (.ok u) σ' → Repeats ρ s u σ' o τ → Repeats ρ s t σ o τ

theorem Repeats.ne_failure (h : Repeats ρ s t σ o τ) : o ≠ .failure := by
  induction h with
  | stop _ | abort _ => simp
  | again _ _ ih => exact ih

theorem Repeats.ne_exhausted (h : Repeats ρ s t σ o τ) : o ≠ .exhausted := by
  induction h with
  | stop _ | abort _ => simp
  | again _ _ ih => exact ih

theorem repeats_of_repeatFrom {k : Nat}
    (h : Effect.repeatFrom (s.apply n ρ) k t σ = (o, τ)) (ho : o ≠ .exhausted) :
    Repeats ρ s t σ o τ := by
  induction k generalizing t σ with
  | zero =>
      cases h
      exact absurd rfl ho
  | succ k ih =>
      rw [Effect.repeatFrom, Effect.bind_apply, Effect.attempt] at h
      cases hround : s.apply n ρ t σ with
      | mk o' σ' =>
          rw [hround] at h
          cases o' with
          | ok u => exact .again ⟨n, hround, by simp⟩ (ih h)
          | failure =>
              cases h
              exact .stop ⟨n, hround, by simp⟩
          | fatal e =>
              cases h
              exact .abort ⟨n, hround, by simp⟩
          | exhausted =>
              cases h
              exact absurd rfl ho

theorem Repeats.repeatFrom (h : Repeats ρ s t σ o τ) :
    ∃ n, ∀ m k, n ≤ m → n ≤ k → Effect.repeatFrom (s.apply m ρ) k t σ = (o, τ) := by
  induction h with
  | stop hround | abort hround =>
      obtain ⟨n, hn⟩ := hround.at_depth
      refine ⟨n + 1, fun m k hm hk => ?_⟩
      obtain ⟨k, rfl⟩ := Nat.exists_eq_add_of_le' (Nat.le_trans (Nat.le_add_left 1 n) hk)
      simp [Effect.repeatFrom, Effect.bind_apply, Effect.attempt, hn m (Nat.le_of_succ_le hm)]
  | again hround _ ih =>
      obtain ⟨n, hn⟩ := hround.at_depth
      obtain ⟨n', hn'⟩ := ih
      refine ⟨max n n' + 1, fun m k hm hk => ?_⟩
      obtain ⟨k, rfl⟩ := Nat.exists_eq_add_of_le' (Nat.le_trans (Nat.le_add_left 1 _) hk)
      rw [Effect.repeatFrom, Effect.bind_apply, Effect.attempt, hn m (by omega)]
      exact hn' m k (by omega) (by omega)

theorem ends_repeat_iff : Ends ρ (.repeat s) t σ o τ ↔ Repeats ρ s t σ o τ := by
  constructor
  · rintro ⟨n, hn, ho⟩
    cases n with
    | zero => cases hn; exact absurd rfl ho
    | succ n => exact repeats_of_repeatFrom hn ho
  · intro h
    obtain ⟨n, hn⟩ := h.repeatFrom
    exact ⟨n + 1, hn n n (Nat.le_refl n) (Nat.le_refl n), h.ne_exhausted⟩

/-! The recursion. -/

/-- Apply the strategy and then the recursive one, and return the input if this fails. -/
def repeatBody (l : Label) (s : Strategy) : Strategy :=
  attempt (seq s (call l))

/-- How an attempt of two strategies in sequence can end: with what the second one gives, with
the input as one of the two failed, or with a fatal error of the first one. -/
theorem attempt_seq_cases {a : Strategy} (h : (attempt (seq a b)).apply n ρ t σ = (o, τ))
    (ho : o ≠ .exhausted) :
    ∃ m < n,
      (∃ u σ', a.apply m ρ t σ = (.ok u, σ') ∧
        (b.apply m ρ u σ' = (o, τ) ∨ b.apply m ρ u σ' = (.failure, τ) ∧ o = .ok t)) ∨
      (a.apply m ρ t σ = (.failure, τ) ∧ o = .ok t) ∨
      ∃ e, a.apply m ρ t σ = (.fatal e, τ) ∧ o = .fatal e := by
  match n with
  | 0 => cases h; exact absurd rfl ho
  | 1 =>
      rcases apply_choice_iff.mp h with ⟨σ', hseq, -⟩ | ⟨hseq, -⟩ <;> cases hseq
      exact absurd rfl ho
  | n + 2 =>
      refine ⟨n, by omega, ?_⟩
      rcases apply_choice_iff.mp h with ⟨σ', hseq, hident⟩ | ⟨hseq, hne⟩
      · cases hident
        rcases apply_seq_iff.mp hseq with ⟨u, σ', hfirst, hsecond⟩ | ⟨hfirst, -⟩
        · exact .inl ⟨u, σ', hfirst, .inr ⟨hsecond, rfl⟩⟩
        · exact .inr (.inl ⟨hfirst, rfl⟩)
      · rcases apply_seq_iff.mp hseq with ⟨u, σ', hfirst, hsecond⟩ | ⟨hfirst, hnok⟩
        · exact .inl ⟨u, σ', hfirst, .inl hsecond⟩
        · cases o with
          | ok u => exact absurd rfl (hnok u)
          | failure => exact absurd rfl hne
          | fatal e => exact .inr (.inr ⟨e, hfirst, rfl⟩)
          | exhausted => exact absurd rfl ho

section

variable (hl : ¬s.Calls l)
include hl

/-- The inner rounds of a recursion never fail, so the attempt of a round catches failures of the
strategy on its own input only. -/
theorem repeats_of_apply (h : (repeatBody l s).apply n ((l, repeatBody l s) :: ρ) t σ = (o, τ))
    (ho : o ≠ .exhausted) : Repeats ρ s t σ o τ := by
  induction n using Nat.strongRecOn generalizing t σ o τ with
  | ind n ih =>
      have hround {m : Nat} {o' : Outcome Term} {τ' : State} (ho' : o' ≠ .exhausted)
          (h : s.apply m ((l, repeatBody l s) :: ρ) t σ = (o', τ')) : Ends ρ s t σ o' τ' :=
        (ends_of_not_calls hl _).mp ⟨m, h, ho'⟩
      obtain ⟨m, hm, hcases⟩ := attempt_seq_cases h ho
      rcases hcases with ⟨u, σ', hfirst, hrest⟩ | ⟨hfirst, rfl⟩ | ⟨e, hfirst, rfl⟩
      · cases m with
        | zero => cases hfirst
        | succ m =>
            rw [apply_call (Env.resolve_self l (repeatBody l s) ρ)] at hrest
            rcases hrest with hrest | ⟨hrest, -⟩
            · exact .again (hround (by simp) hfirst) (ih m (by omega) hrest ho)
            · exact absurd rfl (ih m (by omega) hrest (by simp)).ne_failure
      · exact .stop (hround (by simp) hfirst)
      · exact .abort (hround (by simp) hfirst)

theorem Repeats.ends (h : Repeats ρ s t σ o τ) :
    Ends ((l, repeatBody l s) :: ρ) (repeatBody l s) t σ o τ := by
  induction h with
  | stop hround =>
      have hround := (ends_of_not_calls hl (repeatBody l s)).mpr hround
      exact ends_choice_iff.mpr
        (.inl ⟨_, ends_seq_iff.mpr (.inr ⟨hround, by simp⟩), ⟨1, rfl, by simp⟩⟩)
  | abort hround =>
      have hround := (ends_of_not_calls hl (repeatBody l s)).mpr hround
      exact ends_choice_iff.mpr (.inr ⟨ends_seq_iff.mpr (.inr ⟨hround, by simp⟩), by simp⟩)
  | again hround hrest ih =>
      have hround := (ends_of_not_calls hl (repeatBody l s)).mpr hround
      have hcall := (ends_call_iff (Env.resolve_self l (repeatBody l s) _)).mpr ih
      exact ends_choice_iff.mpr
        (.inr ⟨ends_seq_iff.mpr (.inl ⟨_, _, hround, hcall⟩), hrest.ne_failure⟩)

theorem ends_recursion_iff :
    Ends ρ (recursive l (repeatBody l s)) t σ o τ ↔ Repeats ρ s t σ o τ := by
  rw [ends_recursive_iff]
  exact ⟨fun ⟨n, hn, ho⟩ => repeats_of_apply hl hn ho, fun h => h.ends hl⟩

end

/-! The last application. -/

theorem trail_repeatFrom_succ (k : Nat) :
    (Script.repeatFrom (.apply ρ s) (k + 1) t).trail (apply n) (trail n) σ =
      .enter ρ s t σ :: s.trail n ρ t σ ++ .leave (s.apply n ρ t σ).1 (s.apply n ρ t σ).2 ::
        match s.apply n ρ t σ with
        | (.ok u, σ') => (Script.repeatFrom (.apply ρ s) k u).trail (apply n) (trail n) σ'
        | _ => [] := by
  change Script.trail _ _ (.bind (.attempt (.apply ρ s t)) _) σ = _
  simp only [Script.trail, Script.run, Effect.attempt]
  cases s.apply n ρ t σ with
  | mk o σ' =>
      cases o with
      | ok u => simp
      | failure | fatal e | exhausted => simp [Script.trail, pure]

/-- The marks of a repetition end with those of an application to the result, which fails. -/
theorem trail_repeatFrom {k : Nat} (h : Effect.repeatFrom (s.apply n ρ) k t σ = (.ok u, τ)) :
    ∃ before σ', (Script.repeatFrom (.apply ρ s) k t).trail (apply n) (trail n) σ =
        before ++ .enter ρ s u σ' :: s.trail n ρ u σ' ++ [.leave .failure τ] ∧
      s.apply n ρ u σ' = (.failure, τ) := by
  induction k generalizing t σ with
  | zero => cases h
  | succ k ih =>
      rw [Effect.repeatFrom, Effect.bind_apply, Effect.attempt] at h
      rw [trail_repeatFrom_succ]
      cases hround : s.apply n ρ t σ with
      | mk o σ' =>
          rw [hround] at h
          cases o with
          | ok v =>
              obtain ⟨before, σ'', hrest, hlast⟩ := ih h
              refine ⟨.enter ρ s t σ :: s.trail n ρ t σ ++ .leave (.ok v) σ' :: before, σ'', ?_,
                hlast⟩
              simp [hrest]
          | failure =>
              cases h
              exact ⟨[], σ, rfl, hround⟩
          | fatal e | exhausted => cases h

/-- Repeating a strategy is the same as trying to apply it and then to repeat it, as a recursive
strategy with any label that the strategy does not call, simplified or not. It never fails. If it
gives a term, then the last application of the strategy was to this term, and it failed. -/
theorem repeat_eq_recursion :
    (∃ l, ¬s.Calls l) ∧
    (∀ l, ¬s.Calls l → ∀ ρ t σ o τ,
      (Ends ρ (.repeat s) t σ o τ ↔ Ends ρ (recursive l (attempt (seq s (call l)))) t σ o τ) ∧
      (Ends ρ (.repeat s) t σ o τ ↔
        Ends (ρ.mapBodies simplify) (recursive l (attempt (seq s (call l)))).simplify t σ o τ)) ∧
    (∀ ρ t σ τ, ¬Ends ρ (.repeat s) t σ .failure τ) ∧
    ∀ n ρ t u σ τ, (Strategy.repeat s).apply (n + 1) ρ t σ = (.ok u, τ) →
      ∃ before σ', (Strategy.repeat s).trail (n + 1) ρ t σ =
          before ++ .enter ρ s u σ' :: s.trail n ρ u σ' ++ [.leave .failure τ] ∧
        s.apply n ρ u σ' = (.failure, τ) := by
  refine ⟨exists_not_calls s, fun l hl ρ t σ o τ => ?_, fun ρ t σ τ h => ?_,
    fun n ρ t u σ τ h => trail_repeatFrom h⟩
  · have hsame : Ends ρ (.repeat s) t σ o τ ↔ Ends ρ (recursive l (repeatBody l s)) t σ o τ :=
      ends_repeat_iff.trans (ends_recursion_iff hl).symm
    exact ⟨hsame, hsame.trans ends_mapBodies_iff.symm⟩
  · exact (ends_repeat_iff.mp h).ne_failure rfl

theorem repeat_eq_recursion_storing :
    ∃ (s : Strategy) (l : Label) (ρ : Env) (t u : Term) (σ τ : State),
      ¬s.Calls l ∧ ρ ≠ [] ∧ Ends ρ (.repeat s) t σ (.ok u) τ ∧
      Ends ρ (recursive l (attempt (seq s (call l)))) t σ (.ok u) τ ∧
      Ends (ρ.mapBodies simplify) (recursive l (attempt (seq s (call l)))).simplify t σ (.ok u) τ ∧
      (τ.context.frames.map fun f => (f.tables.get? "k").map Table.size) = [some 3] ∧
      ∃ n before σ', (Strategy.repeat s).trail (n + 1) ρ t σ =
          before ++ .enter ρ s u σ' :: s.trail n ρ u σ' ++ [.leave .failure τ] ∧
        s.apply n ρ u σ' = (.failure, τ) := by
  -- every round stores its input, also the one that fails, and drops the first element of a list
  let var (x : String) : Term := .var .derived x (.wildcard .derived)
  let int (i : Int64) : Term := .int .derived i
  let store : Label := .named "store"
  let s : Strategy := seq (call store) (rule (.cons .derived (var "x") (var "xs")) (var "xs"))
  let l : Label := .named "again"
  let ρ : Env := [(store, tableAdd "k")]
  let t : Term := .listOnto .empty [int 1, int 2]
  let σ : State := ⟨⟨.empty, .declaringTables ["k"]⟩, []⟩
  have hstore : ¬(call store).Calls l := not_calls (by simp [store, l]) (List.forall_mem_nil _)
  have hcalls : ¬s.Calls l := by
    refine not_calls (by simp [s]) (List.forall_mem_cons.mpr ⟨hstore, ?_⟩)
    exact List.forall_mem_singleton.mpr (not_calls (by simp) (List.forall_mem_nil _))
  have hrun : ((Strategy.repeat s).apply 9 ρ t σ).1 = .ok .empty := by decide +kernel
  have hends := Ends.of_fst hrun (by simp)
  obtain ⟨-, hsame, -, hlast⟩ := repeat_eq_recursion (s := s)
  obtain ⟨hrecursion, hsimplified⟩ := hsame l hcalls ρ t σ (.ok .empty) _
  refine ⟨s, l, ρ, t, .empty, σ, _, hcalls, by simp [ρ], hends, hrecursion.mp hends,
    hsimplified.mp hends, by decide +kernel, 8, hlast 8 ρ t .empty σ _ (Prod.ext hrun rfl)⟩

end Strategy

end StrategicRewriting
