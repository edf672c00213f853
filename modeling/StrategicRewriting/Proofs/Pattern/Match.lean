import StrategicRewriting.Pattern.Match
import StrategicRewriting.Proofs.Term.Parts

/-!
What matching does to the bindings, and when it succeeds. Values that variables
have are kept. A ground pattern finds out nothing, and matches equivalent terms
only.
-/
namespace StrategicRewriting

namespace Bindings

@[simp]
theorem get?_bind (b : Bindings) (x y : String) (t : Term) :
    (b.bind x t).get? y = if y = x then some t else b.get? y :=
  NameMap.get?_insert b.vars x y t

@[simp]
theorem captures_bind (b : Bindings) (x : String) (t : Term) :
    (b.bind x t).captures = b.captures := rfl

@[simp]
theorem get?_capture (b : Bindings) (t : Term) (x : String) :
    (b.capture t).get? x = b.get? x := rfl

/-- The values of the first bindings are values of the second ones. -/
def Extends (b b' : Bindings) : Prop :=
  ∀ x v, b.get? x = some v → b'.get? x = some v

theorem Extends.refl (b : Bindings) : b.Extends b :=
  fun _ _ h => h

theorem Extends.trans {b b₁ b₂ : Bindings} (h : b.Extends b₁) (h' : b₁.Extends b₂) :
    b.Extends b₂ :=
  fun x v hv => h' x v (h x v hv)

theorem Extends.bind {b b' : Bindings} (h : b.Extends b') {x : String} (hx : b.get? x = none)
    (t : Term) : b.Extends (b'.bind x t) := by
  intro y v hv
  have hne : y ≠ x := by
    rintro rfl
    rw [hx] at hv
    cases hv
  rw [get?_bind, if_neg hne]
  exact h y v hv

end Bindings

open Term

namespace Term

/-- Matching the pattern captures nothing. -/
def Captureless : Term → Prop
  | .int .. | .real .. | .str .. | .nil _ => True
  | .wildcard _ => False
  | .cons _ l r | .appl _ l r | .annotated _ l r => l.Captureless ∧ r.Captureless
  | .var _ _ c => c.isUnconstrained ∨ c.Captureless

/-- No variable has a constraint. -/
def PlainVars : Term → Prop
  | .int .. | .real .. | .str .. | .nil _ | .wildcard _ => True
  | .cons _ l r | .appl _ l r | .annotated _ l r => l.PlainVars ∧ r.PlainVars
  | .var _ _ c => c.isUnconstrained

/-- What is found out node by node, as far as matching gets. It may stop at any node, with what
it has found out before. -/
inductive Collects : Term → Term → Bindings → Bindings → Prop
  | stopped (p t : Term) (b : Bindings) : Collects p t b b
  | wildcard (o : Origin) (t : Term) (b : Bindings) : Collects (.wildcard o) t b (b.capture t)
  | plain {o : Origin} {x : String} {c t : Term} {b : Bindings} :
      b.get? x = none → c.isUnconstrained → Collects (.var o x c) t b (b.bind x t)
  | constrained {o : Origin} {x : String} {c t : Term} {b b' : Bindings} :
      b.get? x = none → ¬c.isUnconstrained → Collects c t b b' →
      Collects (.var o x c) t b (b'.bind x t)
  | mismatched {o : Origin} {x : String} {c t : Term} {b b' : Bindings} :
      ¬c.isUnconstrained → Collects c t b b' → Collects (.var o x c) t b b'
  | cons {o : Origin} {p q t l r : Term} {b b₁ b' : Bindings} :
      t.shape = .cons l r → Collects p l b b₁ → Collects q r b₁ b' →
      Collects (.cons o p q) t b b'
  | appl {o : Origin} {p q t l r : Term} {b b₁ b' : Bindings} :
      t.shape = .appl l r → Collects p l b b₁ → Collects q r b₁ b' →
      Collects (.appl o p q) t b b'
  | annotated {o : Origin} {p q t : Term} {b b₁ b' : Bindings} :
      Collects p t b b₁ → Collects q (t.annotations.getD empty) b₁ b' →
      Collects (.annotated o p q) t b b'

theorem collects_matchTerm (p t : Term) (b : Bindings) : Collects p t b (p.matchTerm t b).2 := by
  induction p generalizing t b with
  | int o i | real o r | str o s | nil o =>
      simp only [matchTerm]
      split
      · exact .stopped _ t b
      · cases t.shape <;> exact .stopped _ t b
  | wildcard o =>
      rw [matchTerm_wildcard]
      exact .wildcard o t b
  | cons o p q ihp ihq =>
      simp only [matchTerm]
      split
      · exact .stopped _ t b
      · split
        · rename_i l r hshape
          have hl := ihp l b
          split <;> rename_i b₁ hm <;> rw [hm] at hl
          · exact .cons hshape hl (ihq r b₁)
          · exact .cons hshape hl (.stopped q r b₁)
        · exact .stopped _ t b
  | appl o p q ihp ihq =>
      simp only [matchTerm]
      split
      · exact .stopped _ t b
      · split
        · rename_i l r hshape
          have hl := ihp l b
          split <;> rename_i b₁ hm <;> rw [hm] at hl
          · exact .appl hshape hl (ihq r b₁)
          · exact .appl hshape hl (.stopped q r b₁)
        · exact .stopped _ t b
  | var o x c ih =>
      simp only [matchTerm]
      split
      · exact .stopped _ t b
      · split
        · exact .stopped _ t b
        · rename_i hx
          split
          · rename_i hc
            exact .plain hx hc
          · rename_i hc
            have hm := ih t b
            split <;> rename_i b₁ heq <;> rw [heq] at hm
            · exact .constrained hx hc hm
            · exact .mismatched hc hm
  | annotated o p q ihp ihq =>
      simp only [matchTerm]
      split
      · exact .stopped _ t b
      · have hl := ihp t b
        split <;> rename_i b₁ hm <;> rw [hm] at hl
        · exact .annotated hl (ihq _ b₁)
        · exact .annotated hl (.stopped q _ b₁)

theorem Collects.extends {p t : Term} {b b' : Bindings} (h : Collects p t b b') :
    b.Extends b' := by
  induction h with
  | stopped p t b => exact .refl b
  | wildcard o t b => exact .refl b
  | @plain o x c t b hx _ => exact (Bindings.Extends.refl b).bind hx t
  | @constrained o x c t b b' hx _ _ ih => exact ih.bind hx t
  | mismatched _ _ ih => exact ih
  | cons _ _ _ ihp ihq | appl _ _ _ ihp ihq | annotated _ _ ihp ihq => exact ihp.trans ihq

theorem Collects.captures_eq {p t : Term} {b b' : Bindings} (h : Collects p t b b')
    (hp : p.Captureless) : b'.captures = b.captures := by
  induction h with
  | stopped p t b => rfl
  | wildcard o t b => exact hp.elim
  | plain _ _ => rfl
  | constrained _ hc _ ih | mismatched hc _ ih => exact ih (hp.resolve_left hc)
  | cons _ _ _ ihp ihq | appl _ _ _ ihp ihq | annotated _ _ ihp ihq =>
      exact (ihq hp.2).trans (ihp hp.1)

end Term

theorem Bindings.Extends.of_matchTerm {p t : Term} {b b' : Bindings} {ok : Bool}
    (h : p.matchTerm t b = (ok, b')) : b.Extends b' := by
  have hcollects := collects_matchTerm p t b
  rw [h] at hcollects
  exact hcollects.extends

namespace Term

variable {o : Origin} {p q c t : Term} {b b' : Bindings}

/-! Successful matching of a pattern that is not ground. -/

theorem matchTerm_cons_iff (h : ¬ (cons o p q).isGround) :
    (cons o p q).matchTerm t b = (true, b') ↔
      ∃ l r b₁, t.shape = .cons l r ∧ p.matchTerm l b = (true, b₁) ∧
        q.matchTerm r b₁ = (true, b') := by
  simp only [matchTerm, h, Bool.false_and, Bool.false_eq_true, if_false]
  cases t.shape with
  | cons l r =>
      cases hm : p.matchTerm l b with
      | mk ok b₁ => cases ok <;> simp [hm, and_assoc]
  | _ => simp

theorem matchTerm_appl_iff (h : ¬ (appl o p q).isGround) :
    (appl o p q).matchTerm t b = (true, b') ↔
      ∃ l r b₁, t.shape = .appl l r ∧ p.matchTerm l b = (true, b₁) ∧
        q.matchTerm r b₁ = (true, b') := by
  simp only [matchTerm, h, Bool.false_and, Bool.false_eq_true, if_false]
  cases t.shape with
  | appl l r =>
      cases hm : p.matchTerm l b with
      | mk ok b₁ => cases ok <;> simp [hm, and_assoc]
  | _ => simp

theorem matchTerm_annotated_iff (h : ¬ (annotated o p q).isGround) :
    (annotated o p q).matchTerm t b = (true, b') ↔
      ∃ b₁, p.matchTerm t b = (true, b₁) ∧
        q.matchTerm (t.annotations.getD empty) b₁ = (true, b') := by
  simp only [matchTerm, h, Bool.false_and, Bool.false_eq_true, if_false]
  cases hm : p.matchTerm t b with
  | mk ok b₁ => cases ok <;> simp

theorem matchTerm_var_iff {x : String} :
    (var o x c).matchTerm t b = (true, b') ↔
      (∃ v, b.get? x = some v ∧ v.equivalent t ∧ b = b') ∨
      (b.get? x = none ∧ ∃ b₁, (c.isUnconstrained ∧ b = b₁ ∨
        ¬ c.isUnconstrained ∧ c.matchTerm t b = (true, b₁)) ∧ b₁.bind x t = b') := by
  have hground : (var o x c).isGround = false := rfl
  simp only [matchTerm, hground, Bool.false_and, Bool.false_eq_true, if_false]
  cases hx : b.get? x with
  | some v => simp
  | none =>
      by_cases hc : c.isUnconstrained = true
      · simp [hc]
      · cases hm : c.matchTerm t b with
        | mk ok b₁ => cases ok <;> simp [hc]

/-- Go on from a match that succeeded. -/
def andThen (m : Bool × Bindings) (f : Bindings → Bool × Bindings) : Bool × Bindings :=
  match m with
  | (true, b) => f b
  | (false, b) => (false, b)

theorem eq_of_shortcut (h : p.isGround && p.same t) : p = t :=
  same_iff_eq.mp (Bool.and_eq_true_iff.mp h).2

/-- Ground patterns find out nothing, and match equivalent terms only. -/
theorem matchTerm_of_isGround (hp : p.isGround) (t : Term) (b : Bindings) :
    (p.matchTerm t b).2 = b ∧ ((p.matchTerm t b).1 → p.bare = t.bare) := by
  induction p generalizing t b with
  | wildcard o | var o x c => cases hp
  | int o i | real o r | str o s =>
      simp only [matchTerm, bare_eq_ofShape t]
      split
      · rename_i hsame
        obtain rfl := eq_of_shortcut hsame
        exact ⟨rfl, fun _ => rfl⟩
      · split
        · rename_i hshape
          refine ⟨rfl, fun h => ?_⟩
          rw [hshape, beq_iff_eq.mp h]
          rfl
        · exact ⟨rfl, fun h => absurd h Bool.false_ne_true⟩
  | nil o =>
      simp only [matchTerm, bare_eq_ofShape t]
      split
      · rename_i hsame
        obtain rfl := eq_of_shortcut hsame
        exact ⟨rfl, fun _ => rfl⟩
      · split
        · rename_i hshape
          rw [hshape]
          exact ⟨rfl, fun _ => rfl⟩
        · exact ⟨rfl, fun h => absurd h Bool.false_ne_true⟩
  | cons o p q ihp ihq | appl o p q ihp ihq =>
      obtain ⟨hp, hq⟩ := Bool.and_eq_true_iff.mp hp
      simp only [matchTerm, bare_eq_ofShape t]
      split
      · rename_i hsame
        obtain rfl := eq_of_shortcut hsame
        exact ⟨rfl, fun _ => rfl⟩
      · split
        · rename_i l r hshape
          have hl := ihp hp l b
          split
          · rename_i b₁ hm
            rw [hm] at hl
            have hr := ihq hq r b₁
            refine ⟨hr.1.trans hl.1, fun h => ?_⟩
            rw [hshape, bare, hl.2 rfl, hr.2 h]
            rfl
          · rename_i b₁ hm
            rw [hm] at hl
            exact ⟨hl.1, fun h => absurd h Bool.false_ne_true⟩
        · exact ⟨rfl, fun h => absurd h Bool.false_ne_true⟩
  | annotated o p q ihp ihq =>
      obtain ⟨hp, hq⟩ := Bool.and_eq_true_iff.mp hp
      simp only [matchTerm]
      split
      · rename_i hsame
        obtain rfl := eq_of_shortcut hsame
        exact ⟨rfl, fun _ => rfl⟩
      · have hl := ihp hp t b
        split
        · rename_i b₁ hm
          rw [hm] at hl
          have hr := ihq hq (t.annotations.getD empty) b₁
          exact ⟨hr.1.trans hl.1, fun _ => hl.2 rfl⟩
        · rename_i b₁ hm
          rw [hm] at hl
          exact ⟨hl.1, fun h => absurd h Bool.false_ne_true⟩

theorem isSome_get?_of_both {b₁ : Bindings} (hext : b₁.Extends b')
    (hp : ∀ x ∈ p.vars, (b₁.get? x).isSome) (hq : ∀ x ∈ q.vars, (b'.get? x).isSome)
    {x : String} (hx : x ∈ p.vars ∨ x ∈ q.vars) : (b'.get? x).isSome := by
  cases hx with
  | inl hx =>
      obtain ⟨v, hv⟩ := Option.isSome_iff_exists.mp (hp x hx)
      rw [hext x v hv]
      rfl
  | inr hx => exact hq x hx

/-- Successful matching gives values to all variables without constraints. The
constraint of a variable that has a value already would not be looked at. -/
theorem isSome_of_matchTerm (hp : p.PlainVars) (h : p.matchTerm t b = (true, b')) :
    ∀ x ∈ p.vars, (b'.get? x).isSome := by
  induction p generalizing t b b' with
  | int o i | real o r | str o s | nil o | wildcard o => exact nofun
  | var o y c _ =>
      intro x hx
      rw [mem_vars_var, vars_of_isUnconstrained hp] at hx
      obtain rfl := hx.resolve_right List.not_mem_nil
      cases matchTerm_var_iff.mp h with
      | inl h =>
          obtain ⟨v, hv, -, rfl⟩ := h
          rw [hv]
          rfl
      | inr h =>
          obtain ⟨-, b₁, -, rfl⟩ := h
          rw [Bindings.get?_bind, if_pos rfl]
          rfl
  | cons o p q ihp ihq =>
      intro x hx
      by_cases hpq : (cons o p q).isGround
      · exact absurd hx (not_mem_vars_of_isGround hpq)
      · obtain ⟨l, r, b₁, -, hl, hr⟩ := (matchTerm_cons_iff hpq).mp h
        exact isSome_get?_of_both (.of_matchTerm hr) (ihp hp.1 hl) (ihq hp.2 hr)
          (mem_vars_cons.mp hx)
  | appl o p q ihp ihq =>
      intro x hx
      by_cases hpq : (appl o p q).isGround
      · exact absurd hx (not_mem_vars_of_isGround hpq)
      · obtain ⟨l, r, b₁, -, hl, hr⟩ := (matchTerm_appl_iff hpq).mp h
        exact isSome_get?_of_both (.of_matchTerm hr) (ihp hp.1 hl) (ihq hp.2 hr)
          (mem_vars_appl.mp hx)
  | annotated o p q ihp ihq =>
      intro x hx
      by_cases hpq : (annotated o p q).isGround
      · exact absurd hx (not_mem_vars_of_isGround hpq)
      · obtain ⟨b₁, hl, hr⟩ := (matchTerm_annotated_iff hpq).mp h
        exact isSome_get?_of_both (.of_matchTerm hr) (ihp hp.1 hl) (ihq hp.2 hr)
          (mem_vars_annotated.mp hx)

end Term

end StrategicRewriting
