import StrategicRewriting.Proofs.Strategy.Depth
import StrategicRewriting.Strategy.Simplify

/-!
A strategy and its simplified form have the same answers. Where simplification does more
than to go on to the parts, it follows one of a few laws, each of which replaces a
strategy by a smaller one. Both forms nest to different depths, so each direction has a
bound of its own on the depth that the other form needs.
-/
namespace StrategicRewriting

namespace Effect

variable {α β : Type} {x y z : Effect α}

theorem Refines.refl (x : Effect α) : Refines x x :=
  fun _ _ => rfl

theorem Refines.trans (hxy : Refines x y) (hyz : Refines y z) : Refines x z := by
  intro σ hne
  have hy := hxy σ hne
  rw [hyz σ (hy.symm ▸ hne), hy]

theorem Refines.bind {f g : α → Effect β} (h : Refines x y) (hfg : ∀ a, Refines (f a) (g a)) :
    Refines (x >>= f) (y >>= g) := by
  rw [refines_iff fun _ => True] at h ⊢
  refine h.bind fun a b hab => ?_
  subst hab
  exact (refines_iff _).mp (hfg a)

theorem Refines.attempt (h : Refines x y) : Refines x.attempt y.attempt := by
  rw [refines_iff fun _ => True] at h ⊢
  refine h.attempt.mono fun a b hab => ?_
  cases hab with
  | some hab => rw [show _ = _ from hab]
  | none => rfl

theorem bind_eq_attempt_bind (x : Effect α) (f : α → Effect β) :
    x >>= f = x.attempt >>= fun o => o.elim failure f := by
  funext σ
  rw [bind_apply, bind_apply, attempt]
  cases x σ with
  | mk o σ' => cases o <;> rfl

/-- What does not change the only answer a computation can give changes nothing, also
where there is no time for this answer. -/
theorem Refines.absorb {c : Effect α} {f : Option α → Effect α} (h : Refines x c)
    (hc : c.attempt >>= f = c) : Refines (x.attempt >>= f) x := by
  intro σ hne
  have hx : (x σ).1 ≠ .exhausted := by
    intro hx
    refine hne ?_
    rw [bind_apply, Effect.attempt]
    cases hσ : x σ with
    | mk o σ' =>
        obtain rfl : o = .exhausted := by rwa [hσ] at hx
        rfl
  have hcσ := congrFun hc σ
  rw [bind_apply, Effect.attempt, h σ hx] at hcσ
  exact hcσ.symm

/-- A relation that the ways to compose computations respect. -/
structure Compatible (R : {α : Type} → Effect α → Effect α → Prop) : Prop where
  refl {α : Type} (x : Effect α) : R x x
  bind {α β : Type} {x y : Effect α} {f g : α → Effect β} :
    R x y → (∀ a, R (f a) (g a)) → R (x >>= f) (y >>= g)
  attempt {α : Type} {x y : Effect α} : R x y → R x.attempt y.attempt
  absorb {α : Type} {x c : Effect α} {f : Option α → Effect α} :
    R x c → c.attempt >>= f = c → R (x.attempt >>= f) x

theorem compatible_eq : Compatible fun x y => x = y where
  refl _ := rfl
  bind hx hf := congrArg₂ Bind.bind hx (funext hf)
  attempt := congrArg Effect.attempt
  absorb hx hc := hx ▸ hc

theorem compatible_refines : Compatible Refines where
  refl := .refl
  bind := .bind
  attempt := .attempt
  absorb := .absorb

end Effect

namespace Strategy

open Effect (Refines Compatible)

/-- The laws of simplification, for strategies whose parts simplify to `ident` or to
`fail`. -/
inductive Law : Strategy → Strategy → Prop
  | ident_seq {a b : Strategy} : a.simplify.isIdent → Law (seq a b) b
  | seq_ident {a b : Strategy} : b.simplify.isIdent → Law (seq a b) a
  | fail_seq {a b : Strategy} : a.simplify.isFail → Law (seq a b) a
  | ident_choice {a b : Strategy} : a.simplify.isIdent → Law (choice a b) a
  | choice_fail {a b : Strategy} : b.simplify.isFail → Law (choice a b) a
  | fail_choice {a b : Strategy} : a.simplify.isFail → Law (choice a b) b
  | not_ident {a : Strategy} : a.simplify.isIdent → Law (not a) fail
  | not_fail {a : Strategy} : a.simplify.isFail → Law (not a) ident
  | test_ident {a : Strategy} : a.simplify.isIdent → Law (test a) a
  | test_fail {a : Strategy} : a.simplify.isFail → Law (test a) a
  | guarded_ident {a b c : Strategy} : a.simplify.isIdent → Law (guarded a b c) b
  | guarded_fail {a b c : Strategy} : a.simplify.isFail → Law (guarded a b c) c

theorem Law.sizeOf_lt {s p : Strategy} (h : Law s p) : sizeOf p < sizeOf s := by
  cases h with
  | @not_ident a _ | @not_fail a _ =>
      have := sizeOf_pos a
      simp
      omega
  | _ => simp <;> omega

theorem simplifyAll_eq_map (ss : List Strategy) : simplifyAll ss = ss.map simplify := by
  induction ss with
  | nil => rfl
  | cons s ss ih => rw [simplifyAll, ih, List.map_cons]

theorem simplifyBindings_eq_map (bs : List (String × Strategy)) :
    simplifyBindings bs = bs.map fun b => (b.1, b.2.simplify) := by
  induction bs with
  | nil => rfl
  | cons b bs ih => rw [simplifyBindings, ih, List.map_cons]

/-- Simplification follows a law or goes on to the parts. -/
theorem simplify_cases (s : Strategy) :
    (∃ p, Law s p ∧ s.simplify = p.simplify) ∨ s.simplify = s.mapParts simplify := by
  cases s with
  | seq a b =>
      simp only [simplify, mkSeq, mapParts, Bool.or_eq_true]
      split
      · rename_i ha
        exact .inl ⟨b, .ident_seq ha, rfl⟩
      · split
        · rename_i h
          rcases h with hb | ha
          · exact .inl ⟨a, .seq_ident hb, rfl⟩
          · exact .inl ⟨a, .fail_seq ha, rfl⟩
        · exact .inr rfl
  | choice a b =>
      simp only [simplify, mkChoice, mapParts, Bool.or_eq_true]
      split
      · rename_i h
        rcases h with ha | hb
        · exact .inl ⟨a, .ident_choice ha, rfl⟩
        · exact .inl ⟨a, .choice_fail hb, rfl⟩
      · split
        · rename_i ha
          exact .inl ⟨b, .fail_choice ha, rfl⟩
        · exact .inr rfl
  | not a =>
      simp only [simplify, mkNot, mapParts]
      split
      · rename_i ha
        exact .inl ⟨fail, .not_ident ha, rfl⟩
      · split
        · rename_i ha
          exact .inl ⟨ident, .not_fail ha, rfl⟩
        · exact .inr rfl
  | test a =>
      simp only [simplify, mkTest, mapParts, Bool.or_eq_true]
      split
      · rename_i h
        rcases h with ha | ha
        · exact .inl ⟨a, .test_ident ha, rfl⟩
        · exact .inl ⟨a, .test_fail ha, rfl⟩
      · exact .inr rfl
  | guarded a b c =>
      simp only [simplify, mkGuarded, mapParts]
      split
      · rename_i ha
        exact .inl ⟨b, .guarded_ident ha, rfl⟩
      · split
        · rename_i ha
          exact .inl ⟨c, .guarded_fail ha, rfl⟩
        · exact .inr rfl
  | letIn bs a => exact .inr (by rw [simplify, mapParts, simplifyBindings_eq_map])
  | congruent name ss => exact .inr (by rw [simplify, mapParts, simplifyAll_eq_map])
  | _ => exact .inr (by simp only [simplify, mapParts])

/-- At the depth, the strategy does what it simplifies to, if this is `ident` or
`fail`. -/
structure Settled (R : {α : Type} → Effect α → Effect α → Prop) (n : Nat) (s : Strategy) :
    Prop where
  ident : s.simplify.isIdent → ∀ ρ t, R (s.apply n ρ t) (pure t)
  fail : s.simplify.isFail → ∀ ρ t, R (s.apply n ρ t) .failure

theorem Law.apply {R : {α : Type} → Effect α → Effect α → Prop} (hR : Compatible R)
    {s p : Strategy} (h : Law s p) {n : Nat} (hparts : ∀ a ∈ s.parts, Settled R (n + 1) a)
    (ρ : Env) (t : Term) : R (s.apply (n + 2) ρ t) (p.apply (n + 1) ρ t) := by
  have hident {a : Strategy} (ha : a ∈ s.parts) := (hparts a ha).ident
  have hfail {a : Strategy} (ha : a ∈ s.parts) := (hparts a ha).fail
  cases h with
  | ident_seq ha => exact hR.bind (hident (.head _) ha ρ t) fun _ => hR.refl _
  | seq_ident hb =>
      have hbind := hR.bind (hR.refl (p.apply (n + 1) ρ t)) (hident (.tail _ (.head _)) hb ρ)
      rwa [bind_pure] at hbind
  | fail_seq ha =>
      change R (p.apply (n + 1) ρ t >>= _) _
      rw [Effect.bind_eq_attempt_bind]
      exact hR.absorb (hfail (.head _) ha ρ t) rfl
  | ident_choice ha => exact hR.absorb (hident (.head _) ha ρ t) rfl
  | choice_fail hb =>
      rw [← bind_pure (p.apply (n + 1) ρ t), Effect.bind_eq_attempt_bind]
      refine hR.bind (hR.refl _) fun o => ?_
      cases o with
      | some y => exact hR.refl _
      | none => exact hfail (.tail _ (.head _)) hb ρ t
  | fail_choice ha => exact hR.bind (hR.attempt (hfail (.head _) ha ρ t)) fun _ => hR.refl _
  | test_ident ha =>
      change R (p.apply (n + 1) ρ t >>= _) _
      rw [Effect.bind_eq_attempt_bind]
      exact hR.absorb (hident (.head _) ha ρ t) rfl
  | test_fail ha =>
      change R (p.apply (n + 1) ρ t >>= _) _
      rw [Effect.bind_eq_attempt_bind]
      exact hR.absorb (hfail (.head _) ha ρ t) rfl
  | not_ident ha | guarded_ident ha =>
      exact hR.bind (hR.attempt (hident (.head _) ha ρ t)) fun _ => hR.refl _
  | not_fail ha | guarded_fail ha =>
      exact hR.bind (hR.attempt (hfail (.head _) ha ρ t)) fun _ => hR.refl _

theorem settled {s : Strategy} {n : Nat} (h : sizeOf s ≤ n) :
    Settled (fun x y => x = y) n s := by
  induction hk : sizeOf s using Nat.strongRecOn generalizing s n with
  | ind k ih =>
      subst hk
      obtain ⟨n, rfl⟩ := Nat.exists_eq_succ_of_ne_zero
        (Nat.ne_zero_of_lt (Nat.lt_of_lt_of_le s.sizeOf_pos h))
      have hpart (a : Strategy) (ha : a ∈ s.parts) : Settled (fun x y => x = y) n a := by
        have hlt := sizeOf_lt_of_mem_parts ha
        exact ih _ hlt (by omega) rfl
      rcases simplify_cases s with ⟨p, hlaw, heq⟩ | heq
      · have hlt := hlaw.sizeOf_lt
        have hp : Settled (fun x y => x = y) n p := ih _ hlt (by omega) rfl
        obtain ⟨n, rfl⟩ := Nat.exists_eq_succ_of_ne_zero
          (show n ≠ 0 by have := p.sizeOf_pos; omega)
        have happly := hlaw.apply Effect.compatible_eq hpart
        constructor
        · intro hs ρ t
          rw [heq] at hs
          exact (happly ρ t).trans (hp.ident hs ρ t)
        · intro hs ρ t
          rw [heq] at hs
          exact (happly ρ t).trans (hp.fail hs ρ t)
      · constructor
        · intro hs ρ t
          rw [heq] at hs
          cases s with
          | ident => rfl
          | recursive l a => exact (hpart a (.head _)).ident hs _ t
          | defined id a => exact (hpart a (.head _)).ident hs _ t
          | _ => cases hs
        · intro hs ρ t
          rw [heq] at hs
          cases s with
          | fail => rfl
          | recursive l a => exact (hpart a (.head _)).fail hs _ t
          | defined id a => exact (hpart a (.head _)).fail hs _ t
          | _ => cases hs

theorem settled_refines (s : Strategy) (n : Nat) : Settled Refines n s := by
  have hmax := settled (Nat.le_max_right n (sizeOf s))
  constructor
  · intro hs ρ t
    rw [← hmax.ident hs ρ t]
    exact refines_apply (Nat.le_max_left n (sizeOf s)) ρ s t
  · intro hs ρ t
    rw [← hmax.fail hs ρ t]
    exact refines_apply (Nat.le_max_left n (sizeOf s)) ρ s t

/-- Induction on the depth, and on the size where a law is followed. -/
theorem simplify_induction {motive : Nat → Strategy → Prop} (zero : ∀ s, motive 0 s)
    (law : ∀ n s p, Law s p → s.simplify = p.simplify → motive (n + 1) p → motive (n + 1) s)
    (parts : ∀ n s, s.simplify = s.mapParts simplify → (∀ s, motive n s) → motive (n + 1) s)
    (n : Nat) (s : Strategy) : motive n s := by
  induction n generalizing s with
  | zero => exact zero s
  | succ n ihn =>
      induction hk : sizeOf s using Nat.strongRecOn generalizing s with
      | ind k ihs =>
          subst hk
          rcases simplify_cases s with ⟨p, hlaw, heq⟩ | heq
          · exact law n s p hlaw heq (ihs _ hlaw.sizeOf_lt p rfl)
          · exact parts n s heq ihn

theorem refines_simplify (n : Nat) (s : Strategy) (ρ : Env) (t : Term) :
    Refines (s.apply n ρ t) (s.simplify.apply n (ρ.mapBodies simplify) t) := by
  induction n, s using simplify_induction generalizing ρ t with
  | zero s => exact fun σ hne => absurd rfl hne
  | law n s p hlaw heq ih =>
      rw [heq]
      have hs := refines_apply (Nat.le_succ (n + 1)) ρ s t
      have hp := hlaw.apply Effect.compatible_refines (fun a _ => a.settled_refines (n + 1)) ρ t
      exact (hs.trans hp).trans (ih ρ t)
  | parts n s heq ih =>
      rw [heq, apply, apply, ← step_mapParts]
      exact refines_step (fun _ _ _ _ => trivial) (fun ρ s t _ _ => ih s ρ t) (Nat.le_refl n)
        (fun _ _ => trivial) trivial t

theorem simplify_refines {k : Nat} (n : Nat) {s : Strategy} (hs : sizeOf s ≤ k) {ρ : Env}
    (hρ : ∀ e ∈ ρ, sizeOf e.2 ≤ k) (t : Term) :
    Refines (s.simplify.apply n (ρ.mapBodies simplify) t)
      (s.apply (n * (k + 1) + sizeOf s) ρ t) := by
  induction n, s using simplify_induction generalizing ρ t with
  | zero s => exact fun σ hne => absurd rfl hne
  | law n s p hlaw heq ih =>
      have hlt := hlaw.sizeOf_lt
      obtain ⟨m, hm⟩ := Nat.exists_eq_succ_of_ne_zero
        (show (n + 1) * (k + 1) + sizeOf p ≠ 0 by have := p.sizeOf_pos; omega)
      have hkm : k ≤ m := by
        rw [Nat.succ_mul] at hm
        omega
      have happly := hlaw.apply Effect.compatible_eq (n := m)
        (fun a ha => settled (by have := sizeOf_lt_of_mem_parts ha; omega)) ρ t
      rw [heq]
      refine (ih (Nat.le_trans (Nat.le_of_lt hlt) hs) hρ t).trans ?_
      rw [hm, ← happly]
      exact refines_apply (by omega) ρ s t
  | parts n s heq ih =>
      have hle : n * (k + 1) + k + 1 ≤ (n + 1) * (k + 1) + sizeOf s := by
        rw [Nat.succ_mul]
        omega
      rw [heq, apply, ← step_mapParts]
      refine Refines.trans ?_ (refines_apply hle ρ s t)
      refine refines_step (P := fun s => sizeOf s ≤ k) ?_ ?_ ?_ hρ hs t
      · intro s s' hs hs'
        exact Nat.le_trans (Nat.le_of_lt (sizeOf_lt_of_mem_parts hs')) hs
      · intro ρ s t hρ hs
        exact (ih s hs hρ t).trans (refines_apply (Nat.add_le_add_left hs _) ρ s t)
      · rw [Nat.mul_succ]
        omega

/-- A simplified strategy ends like the strategy, if those around it are simplified as well. -/
theorem ends_mapBodies_iff {ρ : Env} {s : Strategy} {t : Term} {σ τ : State} {o : Outcome Term} :
    Ends (ρ.mapBodies simplify) s.simplify t σ o τ ↔ Ends ρ s t σ o τ := by
  constructor
  · rintro ⟨n, hn, ho⟩
    have hne : (s.simplify.apply n (ρ.mapBodies simplify) t σ).1 ≠ .exhausted := by rwa [hn]
    have hρ : ∀ e ∈ ρ, sizeOf e.2 ≤ max (sizeOf s) (sizeOf ρ) := by
      intro e he
      have hlt := List.sizeOf_lt_of_mem he
      obtain ⟨l, b⟩ := e
      rw [Prod.mk.sizeOf_spec] at hlt
      have hle : sizeOf b ≤ sizeOf ρ := by omega
      exact Nat.le_trans hle (Nat.le_max_right (sizeOf s) (sizeOf ρ))
    have href := simplify_refines n (Nat.le_max_left (sizeOf s) (sizeOf ρ)) hρ t σ hne
    exact ⟨_, href.trans hn, ho⟩
  · rintro ⟨n, hn, ho⟩
    have hne : (s.apply n ρ t σ).1 ≠ .exhausted := by rwa [hn]
    exact ⟨n, (refines_simplify n s ρ t σ hne).trans hn, ho⟩

/-- Simplification does not change what a strategy does: not its outcome, not the context
and the events it leaves behind, and not whether it ends. -/
theorem ends_simplify_iff {s : Strategy} {t : Term} {σ τ : State} {o : Outcome Term} :
    Ends [] s.simplify t σ o τ ↔ Ends [] s t σ o τ := by
  constructor
  · rintro ⟨n, hn, ho⟩
    have hne : (s.simplify.apply n [] t σ).1 ≠ .exhausted := by rwa [hn]
    have href := simplify_refines n (Nat.le_refl (sizeOf s)) (ρ := []) nofun t σ hne
    exact ⟨_, href.trans hn, ho⟩
  · rintro ⟨n, hn, ho⟩
    have hne : (s.apply n [] t σ).1 ≠ .exhausted := by rwa [hn]
    exact ⟨n, (refines_simplify n s [] t σ hne).trans hn, ho⟩

end Strategy

end StrategicRewriting
