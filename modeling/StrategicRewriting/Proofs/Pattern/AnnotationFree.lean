import Mathlib.Data.List.Forall2
import StrategicRewriting.Proofs.Pattern.Match
import StrategicRewriting.Proofs.Term.Equivalence

/-!
Patterns without annotations do not see the annotations of what they match: they match
equivalent terms alike, and what they find out is equivalent.
-/
namespace StrategicRewriting

/-- The bindings have equivalent values for the same variables, and equivalent captured
terms. -/
structure Bindings.Equivalent (b b' : Bindings) : Prop where
  get? (x : String) : Option.Rel (fun t t' => t.equivalent t') (b.get? x) (b'.get? x)
  captures : List.Forall₂ (fun t t' => t.equivalent t') b.captures b'.captures

namespace Bindings.Equivalent

variable {b b' : Bindings} {t t' : Term}

theorem empty : Equivalent .empty .empty :=
  ⟨fun _ => .none, .nil⟩

theorem bind (h : Equivalent b b') (x : String) (ht : t.equivalent t') :
    Equivalent (b.bind x t) (b'.bind x t') := by
  refine ⟨fun y => ?_, h.captures⟩
  rw [get?_bind, get?_bind]
  split
  · exact .some ht
  · exact h.get? y

theorem capture (h : Equivalent b b') (ht : t.equivalent t') :
    Equivalent (b.capture t) (b'.capture t') :=
  ⟨h.get?, List.rel_append h.captures (.cons ht .nil)⟩

end Bindings.Equivalent

namespace Term

/-- No node of the term has annotations. -/
def AnnotationFree : Term → Prop
  | .int .. | .real .. | .str .. | .nil _ | .wildcard _ => True
  | .cons _ l r | .appl _ l r => l.AnnotationFree ∧ r.AnnotationFree
  | .var _ _ c => c.AnnotationFree
  | .annotated .. => False

variable {p t t' : Term} {b b' : Bindings}

theorem matchTerm_of_equivalent (hground : p.isGround) (hp : p.AnnotationFree)
    (h : p.equivalent t) (b : Bindings) : p.matchTerm t b = (true, b) := by
  have hrel := equivalent_iff_shape.mp h
  induction p generalizing t with
  | annotated o p q => cases hp
  | wildcard o | var o x c => cases hground
  | int o i | real o r | str o s =>
      simp only [matchTerm]
      split
      · rfl
      · cases hshape : t.shape <;> rw [hshape] at hrel <;> cases hrel
        simp only [BEq.rfl]
  | nil o =>
      simp only [matchTerm]
      split
      · rfl
      · cases hshape : t.shape <;> rw [hshape] at hrel <;> cases hrel
  | cons o p q ihp ihq | appl o p q ihp ihq =>
      obtain ⟨hgp, hgq⟩ := Bool.and_eq_true_iff.mp hground
      simp only [matchTerm]
      split
      · rfl
      · cases hshape : t.shape <;> rw [hshape] at hrel <;> cases hrel
        rename_i hl hr
        dsimp only
        rw [ihp hgp hp.1 hl (equivalent_iff_shape.mp hl)]
        exact ihq hgq hp.2 hr (equivalent_iff_shape.mp hr)

theorem matchTerm_of_isGround_of_annotationFree (hground : p.isGround) (hp : p.AnnotationFree)
    (t : Term) (b : Bindings) : p.matchTerm t b = (p.equivalent t, b) := by
  obtain ⟨hb, hbare⟩ := matchTerm_of_isGround hground t b
  cases h : p.equivalent t with
  | true => exact matchTerm_of_equivalent hground hp h b
  | false =>
      refine Prod.ext ?_ hb
      cases hok : (p.matchTerm t b).1 with
      | true => exact absurd (equivalent_iff.mpr (hbare hok)) (by simp [h])
      | false => rfl

/-- Both answers are the same, with equivalent bindings. -/
def SameAnswer (m m' : Bool × Bindings) : Prop :=
  m.1 = m'.1 ∧ m.2.Equivalent m'.2

theorem SameAnswer.andThen {m m' : Bool × Bindings} {f f' : Bindings → Bool × Bindings}
    (hm : SameAnswer m m') (hf : ∀ b b', b.Equivalent b' → SameAnswer (f b) (f' b')) :
    SameAnswer (Term.andThen m f) (Term.andThen m' f') := by
  obtain ⟨ok, b⟩ := m
  obtain ⟨ok', b'⟩ := m'
  obtain ⟨hok, hb⟩ := hm
  obtain rfl : ok = ok' := hok
  cases ok with
  | true => exact hf b b' hb
  | false => exact ⟨rfl, hb⟩

theorem matchTerm_equivalent_of_isGround (hground : p.isGround) (hp : p.AnnotationFree)
    (ht : t.equivalent t') (hb : b.Equivalent b') :
    SameAnswer (p.matchTerm t b) (p.matchTerm t' b') := by
  rw [matchTerm_of_isGround_of_annotationFree hground hp,
    matchTerm_of_isGround_of_annotationFree hground hp]
  refine ⟨?_, hb⟩
  rw [Bool.eq_iff_iff, equivalent_iff, equivalent_iff, equivalent_iff.mp ht]

/-- Equivalent terms are matched alike, from equivalent bindings. -/
theorem matchTerm_equivalent (hp : p.AnnotationFree) (ht : t.equivalent t')
    (hb : b.Equivalent b') : SameAnswer (p.matchTerm t b) (p.matchTerm t' b') := by
  have hrel := equivalent_iff_shape.mp ht
  induction p generalizing t t' b b' with
  | annotated o p q => cases hp
  | int o i | real o r | str o s | nil o =>
      exact matchTerm_equivalent_of_isGround rfl hp ht hb
  | wildcard o =>
      rw [matchTerm_wildcard, matchTerm_wildcard]
      exact ⟨rfl, hb.capture ht⟩
  | var o x c ih =>
      have hx := hb.get? x
      simp only [matchTerm, isGround, Bool.false_and, Bool.false_eq_true, if_false]
      generalize b.get? x = v at hx
      generalize b'.get? x = v' at hx
      cases hx with
      | some hv =>
          refine ⟨?_, hb⟩
          rw [Bool.eq_iff_iff, equivalent_iff, equivalent_iff, equivalent_iff.mp ht,
            equivalent_iff.mp hv]
      | none =>
          dsimp only
          split
          · exact ⟨rfl, hb.bind x ht⟩
          · exact (ih hp ht hb hrel).andThen (f := fun b => (true, b.bind x t))
              fun _ _ hb => ⟨rfl, hb.bind x ht⟩
  | cons o p q ihp ihq =>
      by_cases hground : (cons o p q).isGround
      · exact matchTerm_equivalent_of_isGround hground hp ht hb
      · simp only [matchTerm, hground, Bool.false_and, Bool.false_eq_true, if_false]
        generalize t.shape = k at hrel
        generalize t'.shape = k' at hrel
        cases hrel with
        | cons hl hr =>
            exact (ihp hp.1 hl hb (equivalent_iff_shape.mp hl)).andThen fun _ _ hb =>
              ihq hp.2 hr hb (equivalent_iff_shape.mp hr)
        | _ => exact ⟨rfl, hb⟩
  | appl o p q ihp ihq =>
      by_cases hground : (appl o p q).isGround
      · exact matchTerm_equivalent_of_isGround hground hp ht hb
      · simp only [matchTerm, hground, Bool.false_and, Bool.false_eq_true, if_false]
        generalize t.shape = k at hrel
        generalize t'.shape = k' at hrel
        cases hrel with
        | appl hl hr =>
            exact (ihp hp.1 hl hb (equivalent_iff_shape.mp hl)).andThen fun _ _ hb =>
              ihq hp.2 hr hb (equivalent_iff_shape.mp hr)
        | _ => exact ⟨rfl, hb⟩

end Term

end StrategicRewriting
