import StrategicRewriting.Proofs.Term.Erasure
import StrategicRewriting.Term.Annotations

/-!
What holds of a node in terms of its parts: well-formedness, the absence of
variables, and the list of variables. The kind of a node does not depend on its
annotations.
-/
namespace StrategicRewriting

namespace Term

/-- The term may stand before arguments. -/
def isFunctor (t : Term) : Bool :=
  match t.shape with
  | .str _ | .var .. | .wildcard => true
  | _ => false

def isCons (t : Term) : Bool :=
  match t.shape with
  | .cons .. => true
  | _ => false

/-- List tails, functors, arguments and annotation lists are what they have to be,
and every node has at most one annotation list. -/
def WellFormed : Term → Prop
  | .int .. | .real .. | .str .. | .nil _ | .wildcard _ => True
  | .cons _ h t => h.WellFormed ∧ t.WellFormed ∧ t.isTail
  | .appl _ f as => f.WellFormed ∧ as.WellFormed ∧ f.isFunctor ∧ as.isTail
  | .var _ _ c => c.WellFormed
  | .annotated _ b as => b.WellFormed ∧ b.annotations = none ∧ as.WellFormed ∧ as.isCons

end Term

namespace Shape

def WellFormed : Shape → Prop
  | .cons h t => h.WellFormed ∧ t.WellFormed ∧ t.isTail
  | .appl f as => f.WellFormed ∧ as.WellFormed ∧ f.isFunctor ∧ as.isTail
  | .var _ c => c.WellFormed
  | _ => True

def isGround : Shape → Bool
  | .cons l r | .appl l r => l.isGround && r.isGround
  | .wildcard | .var .. => false
  | _ => true

end Shape

namespace Term

theorem WellFormed.shape {t : Term} (h : t.WellFormed) : t.shape.WellFormed := by
  induction t with
  | annotated o b as ih _ => exact ih h.1
  | _ => exact h

theorem WellFormed.annotations {t as : Term} (h : t.WellFormed) (has : t.annotations = some as) :
    as.WellFormed ∧ as.isCons := by
  cases t with
  | annotated o b as' =>
      cases has
      exact h.2.2
  | _ => cases has

theorem isGround_shape {t : Term} (h : t.isGround) : t.shape.isGround := by
  induction t with
  | annotated o b as ih _ => exact ih (Bool.and_eq_true_iff.mp h).1
  | _ => exact h

theorem isGround_annotations {t as : Term} (h : t.isGround) (has : t.annotations = some as) :
    as.isGround := by
  cases t with
  | annotated o b as' =>
      cases has
      exact (Bool.and_eq_true_iff.mp h).2
  | _ => cases has

@[simp]
theorem shape_bare (t : Term) : t.bare.shape = t.shape.map bare := by
  rw [bare_eq_ofShape, shape_ofShape]

theorem bare_eq_of_shape_eq {t u : Term} (h : t.shape = u.shape) : t.bare = u.bare := by
  rw [bare_eq_ofShape, bare_eq_ofShape, h]

theorem isList_bare (t : Term) : t.bare.isList = t.isList := by
  rw [isList, isList, shape_bare]
  cases t.shape <;> rfl

theorem toStr?_bare (t : Term) : t.bare.toStr? = t.toStr? := by
  rw [toStr?, toStr?, shape_bare]
  cases t.shape <;> rfl

theorem isList_of_isCons {t : Term} (h : t.isCons) : t.isList := by
  rw [isCons] at h
  rw [isList]
  split at h
  · rename_i hshape
    rw [hshape]
  · cases h

/-- The end of a ground list is a list. -/
theorem isList_of_isTail {t : Term} (h : t.isTail) (hground : t.isGround) : t.isList := by
  have hshape := isGround_shape hground
  rw [isTail] at h
  rw [isList]
  cases hs : t.shape <;> simp_all [Shape.isGround]

/-- The functor of a ground application is a string. -/
theorem toStr?_of_isFunctor {t : Term} (h : t.isFunctor) (hground : t.isGround) :
    t.toStr?.isNone = false := by
  have hshape := isGround_shape hground
  rw [isFunctor] at h
  rw [toStr?]
  cases hs : t.shape <;> simp_all [Shape.isGround]

theorem setAnnotations_of_isList (t : Term) {annos : Term} (h : annos.isList) :
    ∃ u, t.setAnnotations annos = .ok u := by
  rw [isList] at h
  rw [setAnnotations]
  cases hs : annos.shape <;> simp_all

theorem shape_of_setAnnotations {t annos u : Term} (h : t.setAnnotations annos = .ok u) :
    u.shape = t.shape := by
  rw [setAnnotations] at h
  split at h <;> cases h <;> exact shape_make _ _

theorem setAnnotations_of_isCons (t : Term) {annos : Term} (h : annos.isCons) :
    t.setAnnotations annos = .ok (make t.shape (some annos)) := by
  rw [isCons] at h
  rw [setAnnotations]
  cases hs : annos.shape <;> simp_all

theorem collectVars_of_isGround {t : Term} (h : t.isGround) (seen : List String) :
    t.collectVars seen = seen := by
  unfold collectVars
  rw [if_pos h]

/-- The shortcut for ground terms leaves nothing out. -/
theorem collectVars_pair (o : Origin) (l r : Term) (seen : List String) :
    (cons o l r).collectVars seen = r.collectVars (l.collectVars seen) ∧
    (appl o l r).collectVars seen = r.collectVars (l.collectVars seen) ∧
    (annotated o l r).collectVars seen = r.collectVars (l.collectVars seen) := by
  by_cases h : (l.isGround && r.isGround) = true
  · obtain ⟨hl, hr⟩ := Bool.and_eq_true_iff.mp h
    rw [collectVars_of_isGround hl, collectVars_of_isGround hr]
    refine ⟨?_, ?_, ?_⟩ <;> exact collectVars_of_isGround (by exact h) seen
  · have hcons : ¬ (cons o l r).isGround := h
    have happl : ¬ (appl o l r).isGround := h
    have hannotated : ¬ (annotated o l r).isGround := h
    refine ⟨?_, ?_, ?_⟩ <;> rw [collectVars]
    · rw [if_neg hcons]
    · rw [if_neg happl]
    · rw [if_neg hannotated]

theorem collectVars_var (o : Origin) (x : String) (c : Term) (seen : List String) :
    (var o x c).collectVars seen = c.collectVars (if x ∈ seen then seen else seen ++ [x]) := by
  rw [collectVars, if_neg nofun]

theorem mem_collectVars (t : Term) {x : String} {seen : List String} :
    x ∈ t.collectVars seen ↔ x ∈ seen ∨ x ∈ t.vars := by
  induction t generalizing seen with
  | int o i | real o r | str o s | nil o =>
      rw [vars, collectVars_of_isGround rfl, collectVars_of_isGround rfl]
      simp
  | wildcard o => simp [vars, collectVars]
  | cons o l r ihl ihr | appl o l r ihl ihr | annotated o l r ihl ihr =>
      simp only [vars, collectVars_pair]
      rw [ihr, ihl, ihr, ihl]
      simp [or_assoc]
  | var o y c ih =>
      simp only [vars, collectVars_var]
      rw [ih, ih]
      split
      · rename_i hy
        simp only [List.not_mem_nil, if_false, List.nil_append, List.mem_singleton]
        constructor
        · rintro (hx | hx)
          · exact .inl hx
          · exact .inr (.inr hx)
        · rintro (hx | rfl | hx)
          · exact .inl hx
          · exact .inl hy
          · exact .inr hx
      · simp [or_assoc]

theorem mem_vars_cons {o : Origin} {l r : Term} {x : String} :
    x ∈ (cons o l r).vars ↔ x ∈ l.vars ∨ x ∈ r.vars := by
  rw [vars, (collectVars_pair o l r []).1, mem_collectVars]
  rfl

theorem mem_vars_appl {o : Origin} {l r : Term} {x : String} :
    x ∈ (appl o l r).vars ↔ x ∈ l.vars ∨ x ∈ r.vars := by
  rw [vars, (collectVars_pair o l r []).2.1, mem_collectVars]
  rfl

theorem mem_vars_annotated {o : Origin} {l r : Term} {x : String} :
    x ∈ (annotated o l r).vars ↔ x ∈ l.vars ∨ x ∈ r.vars := by
  rw [vars, (collectVars_pair o l r []).2.2, mem_collectVars]
  rfl

theorem mem_vars_var {o : Origin} {y : String} {c : Term} {x : String} :
    x ∈ (var o y c).vars ↔ x = y ∨ x ∈ c.vars := by
  rw [vars, collectVars_var, mem_collectVars]
  simp

/-- The variable occurs in the term, be it in a functor, a tail, a constraint or an annotation. -/
def HasVar (x : String) : Term → Prop
  | .int .. | .real .. | .str .. | .nil _ | .wildcard _ => False
  | .cons _ l r | .appl _ l r | .annotated _ l r => l.HasVar x ∨ r.HasVar x
  | .var _ y c => x = y ∨ c.HasVar x

theorem mem_vars_iff {t : Term} {x : String} : x ∈ t.vars ↔ t.HasVar x := by
  induction t with
  | int o i | real o r | str o s | nil o =>
      rw [vars, collectVars_of_isGround rfl]
      exact iff_of_false List.not_mem_nil not_false
  | wildcard o => exact iff_of_false List.not_mem_nil not_false
  | cons o l r ihl ihr => rw [mem_vars_cons, ihl, ihr, HasVar]
  | appl o l r ihl ihr => rw [mem_vars_appl, ihl, ihr, HasVar]
  | annotated o l r ihl ihr => rw [mem_vars_annotated, ihl, ihr, HasVar]
  | var o y c ih => rw [mem_vars_var, ih, HasVar]

theorem not_mem_vars_of_isGround {t : Term} (h : t.isGround) {x : String} : x ∉ t.vars := by
  rw [vars, collectVars_of_isGround h]
  exact List.not_mem_nil

theorem vars_of_isUnconstrained {c : Term} (hc : c.isUnconstrained) : c.vars = [] := by
  cases c with
  | wildcard o => rfl
  | _ => cases hc

end Term

end StrategicRewriting
