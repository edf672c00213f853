import StrategicRewriting.Proofs.Pattern.Match
import StrategicRewriting.Proofs.Term.Equivalence

/-!
The variables that matching gives values to. Which ones these are depends on the pattern and on
the variables that have values already, and not on the term: the constraint of a variable that
has a value is not looked at, so variables that occur only there get none. What has matched once
matches again with the values that were found, because all variables on its way have one then.
-/
namespace StrategicRewriting

namespace Bindings

/-- The variables with values are those of the list. -/
def BindsExactly (b : Bindings) (bound : List String) : Prop :=
  ∀ x, (b.get? x).isSome ↔ x ∈ bound

variable {b : Bindings} {bound : List String} {x : String}

theorem bindsExactly_empty : empty.BindsExactly [] :=
  fun _ => by simp [empty, get?, NameMap.empty, NameMap.get?]

theorem BindsExactly.not_mem (h : b.BindsExactly bound) (hx : b.get? x = none) : x ∉ bound := by
  rw [← h x, hx]
  exact Bool.false_ne_true

theorem BindsExactly.bind (h : b.BindsExactly bound) (x : String) (t : Term) :
    (b.bind x t).BindsExactly (x :: bound) := by
  intro y
  rw [get?_bind, List.mem_cons, ← h y]
  by_cases hy : y = x <;> simp [hy]

end Bindings

namespace Term

/-- Successful matching, node by node. Ground patterns, which find out nothing, are one step. -/
inductive Matches : Term → Term → Bindings → Bindings → Prop
  | ground {p t : Term} {b : Bindings} :
      p.isGround → p.matchTerm t b = (true, b) → Matches p t b b
  | wildcard (o : Origin) (t : Term) (b : Bindings) : Matches (.wildcard o) t b (b.capture t)
  | known {o : Origin} {x : String} {c t v : Term} {b : Bindings} :
      b.get? x = some v → v.equivalent t → Matches (.var o x c) t b b
  | plain {o : Origin} {x : String} {c t : Term} {b : Bindings} :
      b.get? x = none → c.isUnconstrained → Matches (.var o x c) t b (b.bind x t)
  | constrained {o : Origin} {x : String} {c t : Term} {b b' : Bindings} :
      b.get? x = none → ¬c.isUnconstrained → Matches c t b b' →
      Matches (.var o x c) t b (b'.bind x t)
  | cons {o : Origin} {p q t l r : Term} {b b₁ b' : Bindings} :
      ¬(cons o p q).isGround → t.shape = .cons l r → Matches p l b b₁ → Matches q r b₁ b' →
      Matches (.cons o p q) t b b'
  | appl {o : Origin} {p q t l r : Term} {b b₁ b' : Bindings} :
      ¬(appl o p q).isGround → t.shape = .appl l r → Matches p l b b₁ → Matches q r b₁ b' →
      Matches (.appl o p q) t b b'
  | annotated {o : Origin} {p q t : Term} {b b₁ b' : Bindings} :
      ¬(annotated o p q).isGround → Matches p t b b₁ →
      Matches q (t.annotations.getD empty) b₁ b' → Matches (.annotated o p q) t b b'

variable {p q c t : Term} {b b' σ : Bindings} {bound : List String} {x : String}

theorem Matches.of_isGround (hp : p.isGround) (h : p.matchTerm t b = (true, b')) :
    Matches p t b b' := by
  have hkept := (matchTerm_of_isGround hp t b).1
  rw [h] at hkept
  obtain rfl : b' = b := hkept
  exact .ground hp h

theorem matches_of_matchTerm (h : p.matchTerm t b = (true, b')) : Matches p t b b' := by
  induction p generalizing t b b' with
  | int o i | real o r | str o s | nil o => exact .of_isGround rfl h
  | wildcard o =>
      cases h
      exact .wildcard o t b
  | var o x c ih =>
      rcases matchTerm_var_iff.mp h with ⟨v, hv, hequiv, rfl⟩ | ⟨hx, b₁, ⟨hc, rfl⟩ | ⟨hc, hm⟩, rfl⟩
      · exact .known hv hequiv
      · exact .plain hx hc
      · exact .constrained hx hc (ih hm)
  | cons o p q ihp ihq =>
      by_cases hpq : (Term.cons o p q).isGround
      · exact .of_isGround hpq h
      · obtain ⟨l, r, b₁, hshape, hl, hr⟩ := (matchTerm_cons_iff hpq).mp h
        exact .cons hpq hshape (ihp hl) (ihq hr)
  | appl o p q ihp ihq =>
      by_cases hpq : (Term.appl o p q).isGround
      · exact .of_isGround hpq h
      · obtain ⟨l, r, b₁, hshape, hl, hr⟩ := (matchTerm_appl_iff hpq).mp h
        exact .appl hpq hshape (ihp hl) (ihq hr)
  | annotated o p q ihp ihq =>
      by_cases hpq : (Term.annotated o p q).isGround
      · exact .of_isGround hpq h
      · obtain ⟨b₁, hl, hr⟩ := (matchTerm_annotated_iff hpq).mp h
        exact .annotated hpq (ihp hl) (ihq hr)

theorem Matches.matchTerm_eq (h : Matches p t b b') : p.matchTerm t b = (true, b') := by
  induction h with
  | ground _ h => exact h
  | wildcard o t b => exact matchTerm_wildcard o t b
  | known hv hequiv => exact matchTerm_var_iff.mpr (.inl ⟨_, hv, hequiv, rfl⟩)
  | plain hx hc => exact matchTerm_var_iff.mpr (.inr ⟨hx, _, .inl ⟨hc, rfl⟩, rfl⟩)
  | constrained hx hc _ ih => exact matchTerm_var_iff.mpr (.inr ⟨hx, _, .inr ⟨hc, ih⟩, rfl⟩)
  | cons hpq hshape _ _ ihp ihq => exact (matchTerm_cons_iff hpq).mpr ⟨_, _, _, hshape, ihp, ihq⟩
  | appl hpq hshape _ _ ihp ihq => exact (matchTerm_appl_iff hpq).mpr ⟨_, _, _, hshape, ihp, ihq⟩
  | annotated hpq _ _ ihp ihq => exact (matchTerm_annotated_iff hpq).mpr ⟨_, ihp, ihq⟩

theorem Matches.extends (h : Matches p t b b') : b.Extends b' :=
  .of_matchTerm h.matchTerm_eq

/-- The variables that have a value after the pattern has matched, if those of `bound` had one
before. -/
def boundAfter (p : Term) (bound : List String) : List String :=
  match p with
  | .int .. | .real .. | .str .. | .nil _ | .wildcard _ => bound
  | .cons _ l r | .appl _ l r | .annotated _ l r => r.boundAfter (l.boundAfter bound)
  | .var _ x c => if x ∈ bound then bound else x :: c.boundAfter bound

theorem boundAfter_of_isGround (hp : p.isGround) (bound : List String) :
    p.boundAfter bound = bound := by
  induction p generalizing bound with
  | int o i | real o r | str o s | nil o => rfl
  | wildcard o | var o x c => cases hp
  | cons o p q ihp ihq | appl o p q ihp ihq | annotated o p q ihp ihq =>
      obtain ⟨hp, hq⟩ := Bool.and_eq_true_iff.mp hp
      rw [boundAfter, ihp hp, ihq hq]

/-- Only variables of the pattern are added. -/
theorem hasVar_of_mem_boundAfter (h : x ∈ p.boundAfter bound) : x ∈ bound ∨ p.HasVar x := by
  induction p generalizing bound with
  | int o i | real o r | str o s | nil o | wildcard o => exact .inl h
  | cons o p q ihp ihq | appl o p q ihp ihq | annotated o p q ihp ihq =>
      rcases ihq h with hmid | hq
      · exact (ihp hmid).imp_right .inl
      · exact .inr (.inr hq)
  | var o y c ih =>
      rw [boundAfter] at h
      split at h
      · exact .inl h
      · rcases List.mem_cons.mp h with rfl | h
        · exact .inr (.inl rfl)
        · exact (ih h).imp_right .inr

/-- All variables are added if none has a constraint. -/
theorem mem_boundAfter_of_plainVars (hp : p.PlainVars) (hx : x ∈ bound ∨ p.HasVar x) :
    x ∈ p.boundAfter bound := by
  induction p generalizing bound with
  | int o i | real o r | str o s | nil o | wildcard o => exact hx.resolve_right not_false
  | cons o p q ihp ihq | appl o p q ihp ihq | annotated o p q ihp ihq =>
      refine ihq hp.2 ?_
      rcases hx with hbound | hvar | hvar
      · exact .inl (ihp hp.1 (.inl hbound))
      · exact .inl (ihp hp.1 (.inr hvar))
      · exact .inr hvar
  | var o y c ih =>
      have hc : ¬c.HasVar x := by
        rw [← mem_vars_iff, vars_of_isUnconstrained hp]
        exact List.not_mem_nil
      cases c with
      | wildcard o' =>
          rw [boundAfter, boundAfter]
          rcases hx with hbound | rfl | hvar
          · split
            · exact hbound
            · exact List.mem_cons_of_mem y hbound
          · split
            · assumption
            · exact List.mem_cons_self
          · exact absurd hvar hc
      | _ => cases hp

/-- Which variables have values after a match is known from the pattern. -/
theorem Matches.bindsExactly (h : Matches p t b b') (hb : b.BindsExactly bound) :
    b'.BindsExactly (p.boundAfter bound) := by
  induction h generalizing bound with
  | ground hp _ =>
      rw [boundAfter_of_isGround hp]
      exact hb
  | wildcard o t b => exact hb
  | @known o x c t v b hv _ =>
      have hx : x ∈ bound := (hb x).mp (Option.isSome_of_eq_some hv)
      rw [boundAfter, if_pos hx]
      exact hb
  | @plain o x c t b hnone hc =>
      cases c with
      | wildcard o' =>
          rw [boundAfter, if_neg (hb.not_mem hnone)]
          exact hb.bind x t
      | _ => cases hc
  | @constrained o x c t b b₁ hnone _ _ ih =>
      rw [boundAfter, if_neg (hb.not_mem hnone)]
      exact (ih hb).bind x t
  | cons _ _ _ _ ihp ihq | appl _ _ _ _ ihp ihq | annotated _ _ _ ihp ihq =>
      exact ihq (ihp hb)

/-- Matching a ground pattern is a test that does not depend on the bindings. -/
theorem exists_matchTerm_of_isGround (hp : p.isGround) (t : Term) :
    ∃ ok, ∀ b, p.matchTerm t b = (ok, b) := by
  induction p generalizing t with
  | wildcard o | var o x c => cases hp
  | int o i | real o r | str o s | nil o =>
      simp only [matchTerm]
      split
      · exact ⟨true, fun b => rfl⟩
      · cases t.shape <;> exact ⟨_, fun b => rfl⟩
  | cons o p q ihp ihq | appl o p q ihp ihq =>
      obtain ⟨hp, hq⟩ := Bool.and_eq_true_iff.mp hp
      simp only [matchTerm]
      split
      · exact ⟨true, fun b => rfl⟩
      · split
        · rename_i l r _
          obtain ⟨ok, hl⟩ := ihp hp l
          simp only [hl]
          cases ok with
          | true => exact ihq hq r
          | false => exact ⟨false, fun b => rfl⟩
        · exact ⟨false, fun b => rfl⟩
  | annotated o p q ihp ihq =>
      obtain ⟨hp, hq⟩ := Bool.and_eq_true_iff.mp hp
      simp only [matchTerm]
      split
      · exact ⟨true, fun b => rfl⟩
      · obtain ⟨ok, hbody⟩ := ihp hp t
        simp only [hbody]
        cases ok with
        | true => exact ihq hq _
        | false => exact ⟨false, fun b => rfl⟩

/-- With the values of the bindings, and with any others besides, the term matches and no
variable is given a value. -/
def Settled (p t : Term) (b : Bindings) : Prop :=
  ∀ σ, b.Extends σ → ∃ σ', p.matchTerm t σ = (true, σ') ∧ ∀ x, σ'.get? x = σ.get? x

theorem settled_var {o : Origin} {v : Term} (hv : b.get? x = some v) (hequiv : v.equivalent t) :
    Settled (var o x c) t b :=
  fun σ hσ => ⟨σ, matchTerm_var_iff.mpr (.inl ⟨v, hσ x v hv, hequiv, rfl⟩), fun _ => rfl⟩

theorem Settled.both {l r : Term} (hl : Settled p l b) (hr : Settled q r b') (hb : b.Extends b')
    (hσ : b'.Extends σ) :
    ∃ σ₁ σ', p.matchTerm l σ = (true, σ₁) ∧ q.matchTerm r σ₁ = (true, σ') ∧
      ∀ x, σ'.get? x = σ.get? x := by
  obtain ⟨σ₁, hl, hsame⟩ := hl σ (hb.trans hσ)
  obtain ⟨σ', hr, hsame'⟩ := hr σ₁ fun x v hv => (hsame x).trans (hσ x v hv)
  exact ⟨σ₁, σ', hl, hr, fun x => (hsame' x).trans (hsame x)⟩

/-- What has matched once matches again with the values that were found. A constraint that was
looked at is not looked at again, because its variable has a value now. -/
theorem Matches.settled (h : Matches p t b b') : Settled p t b' := by
  induction h with
  | @ground p t b hp hm =>
      obtain ⟨ok, hok⟩ := exists_matchTerm_of_isGround hp t
      obtain rfl : ok = true := congrArg Prod.fst ((hok b).symm.trans hm)
      exact fun σ _ => ⟨σ, hok σ, fun _ => rfl⟩
  | wildcard o t b => exact fun σ _ => ⟨_, matchTerm_wildcard o t σ, fun _ => rfl⟩
  | known hv hequiv => exact settled_var hv hequiv
  | plain | constrained =>
      exact settled_var (by rw [Bindings.get?_bind, if_pos rfl]) (equivalent_refl _)
  | cons hpq hshape _ hr ihp ihq =>
      intro σ hσ
      obtain ⟨σ₁, σ', hl, hr, hsame⟩ := ihp.both ihq hr.extends hσ
      exact ⟨σ', (matchTerm_cons_iff hpq).mpr ⟨_, _, σ₁, hshape, hl, hr⟩, hsame⟩
  | appl hpq hshape _ hr ihp ihq =>
      intro σ hσ
      obtain ⟨σ₁, σ', hl, hr, hsame⟩ := ihp.both ihq hr.extends hσ
      exact ⟨σ', (matchTerm_appl_iff hpq).mpr ⟨_, _, σ₁, hshape, hl, hr⟩, hsame⟩
  | annotated hpq _ hr ihp ihq =>
      intro σ hσ
      obtain ⟨σ₁, σ', hl, hr, hsame⟩ := ihp.both ihq hr.extends hσ
      exact ⟨σ', (matchTerm_annotated_iff hpq).mpr ⟨σ₁, hl, hr⟩, hsame⟩

end Term

end StrategicRewriting
