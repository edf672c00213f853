import StrategicRewriting.Proofs.Term.Parts

/-!
Relations between terms seen from their shapes. Equivalent terms have shapes of the same
kind with equivalent terms below them, whatever annotations the nodes have.
-/
namespace StrategicRewriting

/-- Shapes of the same kind, with corresponding terms below them. -/
inductive Shape.Rel (V : Term → Term → Prop) : Shape → Shape → Prop
  | int (i : Int64) : Rel V (.int i) (.int i)
  | real (r : Double) : Rel V (.real r) (.real r)
  | str (s : String) : Rel V (.str s) (.str s)
  | nil : Rel V .nil .nil
  | cons {h t h' t' : Term} : V h h' → V t t' → Rel V (.cons h t) (.cons h' t')
  | appl {f as f' as' : Term} : V f f' → V as as' → Rel V (.appl f as) (.appl f' as')
  | wildcard : Rel V .wildcard .wildcard
  | var (x : String) {c c' : Term} : V c c' → Rel V (.var x c) (.var x c')

theorem Shape.Rel.refl {V : Term → Term → Prop} (h : ∀ t, V t t) (s : Shape) : Rel V s s := by
  cases s with
  | int i => exact .int i
  | real r => exact .real r
  | str s => exact .str s
  | nil => exact .nil
  | cons hd tl => exact .cons (h hd) (h tl)
  | appl f as => exact .appl (h f) (h as)
  | wildcard => exact .wildcard
  | var x c => exact .var x (h c)

theorem Shape.Rel.eq {s s' : Shape} (h : Rel Eq s s') : s = s' := by
  cases h with
  | cons hl hr | appl hl hr => rw [hl, hr]
  | var x hc => rw [hc]
  | _ => rfl

theorem Shape.Rel.isList {V : Term → Term → Prop} {t t' : Term} (h : Rel V t.shape t'.shape) :
    t.isList = t'.isList := by
  rw [Term.isList, Term.isList]
  generalize t.shape = s at h
  generalize t'.shape = s' at h
  cases h <;> rfl

theorem Shape.Rel.toStr? {V : Term → Term → Prop} {t t' : Term} (h : Rel V t.shape t'.shape) :
    t.toStr? = t'.toStr? := by
  rw [Term.toStr?, Term.toStr?]
  generalize t.shape = s at h
  generalize t'.shape = s' at h
  cases h <;> rfl

theorem Shape.Rel.ne_cons {V : Term → Term → Prop} {s s' : Shape} (h : Rel V s s')
    (hs : ∀ hd tl, s ≠ .cons hd tl) (hd tl : Term) : s' ≠ .cons hd tl := by
  rintro rfl
  cases h with
  | cons _ _ => exact hs _ _ rfl

namespace Term

theorem equivalent_refl (t : Term) : t.equivalent t :=
  equivalent_iff.mpr rfl

theorem map_bare_of_rel {s s' : Shape} (h : Shape.Rel (fun t t' => t.equivalent t') s s') :
    s.map bare = s'.map bare := by
  cases h with
  | cons hl hr | appl hl hr =>
      simp only [Shape.map, equivalent_iff.mp hl, equivalent_iff.mp hr]
  | var x hc => simp only [Shape.map, equivalent_iff.mp hc]
  | _ => rfl

theorem rel_of_map_bare {s s' : Shape} (h : s.map bare = s'.map bare) :
    Shape.Rel (fun t t' => t.equivalent t') s s' := by
  cases s <;> cases s' <;> simp only [Shape.map, reduceCtorEq, Shape.int.injEq, Shape.real.injEq,
    Shape.str.injEq, Shape.cons.injEq, Shape.appl.injEq, Shape.var.injEq] at h
  · exact h ▸ .int _
  · exact h ▸ .real _
  · exact h ▸ .str _
  · exact .nil
  · exact .cons (equivalent_iff.mpr h.1) (equivalent_iff.mpr h.2)
  · exact .appl (equivalent_iff.mpr h.1) (equivalent_iff.mpr h.2)
  · exact .wildcard
  · obtain ⟨rfl, hc⟩ := h
    exact .var _ (equivalent_iff.mpr hc)

theorem equivalent_iff_shape {t t' : Term} :
    t.equivalent t' ↔ Shape.Rel (fun t t' => t.equivalent t') t.shape t'.shape := by
  rw [equivalent_iff]
  constructor
  · intro h
    refine rel_of_map_bare ?_
    rw [← shape_bare, ← shape_bare, h]
  · intro h
    rw [bare_eq_ofShape, bare_eq_ofShape, map_bare_of_rel h]

end Term

end StrategicRewriting
