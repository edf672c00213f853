import StrategicRewriting.Proofs.Pattern.Build
import StrategicRewriting.Proofs.Strategy.Correspondence

/-!
Building from corresponding values of variables and corresponding captured terms gives
corresponding terms, or corresponding errors.
-/
namespace StrategicRewriting.Correspondence

variable {K : Correspondence} {α β γ δ : Type} {P : α → β → Prop} {Q : γ → δ → Prop}

/-- Constructions that take corresponding captured terms, and leave corresponding ones. -/
def Builds (K : Correspondence) {α β : Type} (P : α → β → Prop) (x : Building α)
    (y : Building β) : Prop :=
  ∀ caps caps', List.Forall₂ K.term caps caps' →
    K.Results P (x caps).1 (y caps').1 ∧ List.Forall₂ K.term (x caps).2 (y caps').2

namespace Builds

theorem pure {a : α} {b : β} (h : P a b) : K.Builds P (pure a) (pure b) :=
  fun _ _ hcaps => ⟨.ok h, hcaps⟩

theorem throw {e e' : Fatal} (h : K.error e e') :
    K.Builds P (throw e : Building α) (throw e' : Building β) :=
  fun _ _ hcaps => ⟨.error h, hcaps⟩

theorem bind {x : Building α} {y : Building β} {f : α → Building γ} {g : β → Building δ}
    (h : K.Builds P x y) (hfg : ∀ a b, P a b → K.Builds Q (f a) (g b)) :
    K.Builds Q (x >>= f) (y >>= g) := by
  intro caps caps' hcaps
  obtain ⟨hresults, hrest⟩ := h caps caps' hcaps
  cases hx : x caps with
  | mk r rest =>
      cases hy : y caps' with
      | mk r' rest' =>
          rw [hx, hy] at hresults hrest
          cases r with
          | ok a =>
              cases r' with
              | ok b =>
                  cases hresults with
                  | ok hab =>
                      rw [Building.bind_of_ok hx, Building.bind_of_ok hy]
                      exact hfg a b hab rest rest' hrest
              | error e => cases hresults
          | error e =>
              cases r' with
              | ok b => cases hresults
              | error e' =>
                  cases hresults with
                  | error he =>
                      rw [Building.bind_of_error hx, Building.bind_of_error hy]
                      exact ⟨.error he, hrest⟩

end Builds

/-- What building needs of a correspondence, for patterns of a kind. -/
structure Constructive (K : Correspondence) (pat : Term → Prop) : Prop where
  shape {t t' : Term} : K.term t t' → Shape.Rel K.term t.shape t'.shape
  emptyCaptures : K.error .emptyCaptures .emptyCaptures
  unboundVar (x : String) : K.error (.unboundVar x) (.unboundVar x)
  notAList {t t' : Term} : K.term t t' → K.error (.notAList t) (.notAList t')
  notAString {t t' : Term} : K.term t t' → K.error (.notAString t) (.notAString t')
  consParts {o : Origin} {p q : Term} : pat (.cons o p q) → pat p ∧ pat q
  applParts {o : Origin} {p q : Term} : pat (.appl o p q) → pat p ∧ pat q
  annotatedParts {o : Origin} {p q : Term} : pat (.annotated o p q) → pat p ∧ pat q
  ground {p : Term} : pat p → p.isGround → K.term p p
  cons {h h' t t' : Term} : K.term h h' → K.term t t' → t.isList →
    K.term (.make (.cons h t) none) (.make (.cons h' t') none)
  appl {f f' as as' : Term} : K.term f f' → f.toStr?.isNone = false → K.term as as' → as.isList →
    K.term (.make (.appl f as) none) (.make (.appl f' as') none)
  setAnnotations {o : Origin} {p q t t' as as' : Term} : pat (.annotated o p q) → K.term t t' →
    K.term as as' → K.Results K.term (t.setAnnotations as) (t'.setAnnotations as')

namespace Constructive

variable {pat : Term → Prop} (hK : K.Constructive pat) {vars vars' : Lookup}

include hK

theorem takeCapture : K.Builds K.term Building.takeCapture Building.takeCapture := by
  intro caps caps' hcaps
  cases hcaps with
  | nil => exact ⟨.error hK.emptyCaptures, .nil⟩
  | cons ht hrest => exact ⟨.ok ht, hrest⟩

theorem valueOf {x : String} (hx : K.Results (Option.Rel K.term) (vars x) (vars' x)) :
    K.Builds K.term (Building.valueOf vars x) (Building.valueOf vars' x) := by
  refine Builds.bind (fun _ _ hcaps => ⟨hx, hcaps⟩) fun v v' hv => ?_
  cases hv with
  | some ht => exact .pure ht
  | none => exact .throw (hK.unboundVar x)

theorem build_of_isGround {p : Term} (hp : pat p) (hground : p.isGround) :
    K.Builds K.term (p.build vars) (p.build vars') := by
  rw [Term.build_of_isGround hground, Term.build_of_isGround hground]
  exact .pure (hK.ground hp hground)

theorem build (hvars : ∀ x, K.Results (Option.Rel K.term) (vars x) (vars' x)) {p : Term}
    (hp : pat p) : K.Builds K.term (p.build vars) (p.build vars') := by
  induction p with
  | int o i | real o r | str o s | nil o => exact hK.build_of_isGround hp rfl
  | wildcard o => exact hK.takeCapture
  | var o x c _ => exact hK.valueOf (hvars x)
  | cons o p q ihp ihq =>
      by_cases hground : (Term.cons o p q).isGround
      · exact hK.build_of_isGround hp hground
      · obtain ⟨hp, hq⟩ := hK.consParts hp
        rw [Term.build, Term.build, if_neg hground, if_neg hground]
        refine (ihp hp).bind fun l l' hl => (ihq hq).bind fun r r' hr => ?_
        rw [← (hK.shape hr).isList]
        split
        · rename_i hlist
          exact .pure (hK.cons hl hr hlist)
        · exact .throw (hK.notAList hr)
  | appl o p q ihp ihq =>
      by_cases hground : (Term.appl o p q).isGround
      · exact hK.build_of_isGround hp hground
      · obtain ⟨hp, hq⟩ := hK.applParts hp
        rw [Term.build, Term.build, if_neg hground, if_neg hground]
        refine (ihp hp).bind fun l l' hl => ?_
        rw [← (hK.shape hl).toStr?]
        cases hstr : l.toStr?.isNone with
        | true => exact .throw (hK.notAString hl)
        | false =>
            refine (ihq hq).bind fun r r' hr => ?_
            rw [← (hK.shape hr).isList]
            split
            · rename_i hlist
              exact .pure (hK.appl hl hstr hr hlist)
            · exact .throw (hK.notAList hr)
  | annotated o p q ihp ihq =>
      by_cases hground : (Term.annotated o p q).isGround
      · exact hK.build_of_isGround hp hground
      · have hpq := hK.annotatedParts hp
        rw [Term.build, Term.build, if_neg hground, if_neg hground]
        refine (ihp hpq.1).bind fun t t' ht => (ihq hpq.2).bind fun as as' has => ?_
        have hset := hK.setAnnotations hp ht has
        generalize t.setAnnotations as = r at hset
        generalize t'.setAnnotations as' = r' at hset
        cases hset with
        | ok hu => exact .pure hu
        | error he => exact .throw he

end Constructive

end StrategicRewriting.Correspondence
