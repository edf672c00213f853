import StrategicRewriting.Proofs.Term.WellFormed
import StrategicRewriting.Proofs.Written.RoundTrip

/-!
What the text of a term shows of it. The annotations of inner list nodes, of argument lists
and of literal functor names are left out, and braces after a constrained variable belong to
the constraint as long as it has no annotations. The term that is left has the same text and
is equivalent; it is readable unless a place that takes no annotations or no constraint shows
one.
-/
namespace StrategicRewriting

open Token (isUpperName isLowerName)

/-- Terms at the position are parts of a sequence of elements. -/
def Position.isInner : Position → Bool
  | alone => false
  | first | later => true

namespace Term

/-- Literal functor names are capitalized, and names of variables are not. -/
def Spelled : Term → Prop
  | .int .. | .real .. | .str .. | .nil _ | .wildcard _ => True
  | .cons _ h t => h.Spelled ∧ t.Spelled
  | .appl _ f as => f.toStr?.all (isUpperName ·.toList) ∧ f.Spelled ∧ as.Spelled
  | .var _ x c => isLowerName x.toList ∧ c.Spelled
  | .annotated _ b as => b.Spelled ∧ as.Spelled

instance decidableSpelled : (t : Term) → Decidable t.Spelled
  | .int .. | .real .. | .str .. | .nil _ | .wildcard _ => .isTrue trivial
  | .cons _ l r | .annotated _ l r =>
    have := decidableSpelled l
    have := decidableSpelled r
    inferInstanceAs (Decidable (l.Spelled ∧ r.Spelled))
  | .appl _ f as =>
    have := decidableSpelled f
    have := decidableSpelled as
    inferInstanceAs (Decidable (_ ∧ f.Spelled ∧ as.Spelled))
  | .var _ _ c =>
    have := decidableSpelled c
    inferInstanceAs (Decidable (_ ∧ c.Spelled))

/-- The reals of a term, those of its annotations and constraints included. -/
def reals : Term → List Double
  | .real _ r => [r]
  | .cons _ l r | .appl _ l r | .annotated _ l r => l.reals ++ r.reals
  | .var _ _ c => c.reals
  | _ => []

/-- The term whose text is that of `t` with annotations in braces after it. -/
def attach (t annos : Term) : Term :=
  match t with
  | .var o x c =>
    if c.isUnconstrained || c.annotations.isSome then .annotated .derived (.var o x c) annos
    else .var o x (c.attach annos)
  | _ => .annotated .derived t annos

/-- What the text of a term shows at a position. -/
def shownAt : Position → Term → Term
  | _, .int o i => .int o i
  | _, .real o r => .real o r
  | _, .str o s => .str o s
  | _, .nil o => .nil o
  | _, .cons o h t => .cons o (h.shownAt .alone) (t.shownAt .later)
  | _, .appl o f as =>
    let functor := match f.toStr? with
      | some s => .str .derived s
      | none => f.shownAt .alone
    .appl o functor (as.shownAt .first)
  | _, .wildcard o => .wildcard o
  | _, .var o x c => .var o x (c.shownAt .alone)
  | p, .annotated _ b as =>
    if p.isInner && b.isList then b.shownAt p else (b.shownAt p).attach (as.shownAt .first)

/-- The text shows annotations of the term itself, not only of its constraint. -/
def showsAnnotations : Term → Bool
  | .annotated _ (.var _ _ c) _ => c.isUnconstrained || c.showsAnnotations
  | .annotated .. => true
  | _ => false

/-- Where the text shows annotations, it has a place for them: not at the end of a list or of
arguments, where only list nodes leave them out, nor at a functor. Functors that are variables
have no constraint, and annotation lists end with the empty list. -/
def ExpressibleAt : Position → Term → Prop
  | _, .int .. | _, .real .. | _, .str .. | _, .nil _ | _, .wildcard _ => True
  | _, .cons _ h t =>
    h.ExpressibleAt .alone ∧ t.ExpressibleAt .later ∧ (t.isList ∨ t.showsAnnotations = false)
  | _, .appl _ f as =>
    (f.toStr? = none → f.isPlainFunctor) ∧
      as.ExpressibleAt .first ∧ (as.isList ∨ as.showsAnnotations = false)
  | _, .var _ _ c => c.ExpressibleAt .alone
  | p, .annotated _ b as =>
    b.ExpressibleAt p ∧
      ((p.isInner && b.isList) = false → as.ExpressibleAt .first ∧ as.toList?.isSome)

instance decidableExpressibleAt : (p : Position) → (t : Term) → Decidable (t.ExpressibleAt p)
  | _, .int .. | _, .real .. | _, .str .. | _, .nil _ | _, .wildcard _ => .isTrue trivial
  | _, .cons _ h t =>
    have := decidableExpressibleAt .alone h
    have := decidableExpressibleAt .later t
    inferInstanceAs (Decidable (h.ExpressibleAt .alone ∧ t.ExpressibleAt .later ∧ (_ ∨ _)))
  | _, .appl _ _ as =>
    have := decidableExpressibleAt .first as
    inferInstanceAs (Decidable ((_ → _) ∧ as.ExpressibleAt .first ∧ (_ ∨ _)))
  | _, .var _ _ c => decidableExpressibleAt .alone c
  | p, .annotated _ b as =>
    have := decidableExpressibleAt p b
    have := decidableExpressibleAt .first as
    inferInstanceAs (Decidable (b.ExpressibleAt p ∧ (_ → as.ExpressibleAt .first ∧ _)))

/-! Annotations in braces. -/

theorem bare_attach (t annos : Term) : (t.attach annos).bare = t.bare := by
  induction t with
  | var o x c ih =>
      rw [attach]
      split
      · rfl
      · simp only [bare, ih]
  | _ => rfl

theorem isUnconstrained_attach (t annos : Term) : (t.attach annos).isUnconstrained = false := by
  cases t with
  | var o x c =>
      rw [attach]
      split <;> rfl
  | _ => rfl

theorem renderAt_annotated (p : Position) (o : Origin) (b as : Term) :
    (annotated o b as).renderAt p =
      if p.isInner && b.isList then b.renderAt p
      else b.renderAt p ++ '{' :: as.renderAt .first ++ ['}'] := by
  cases p <;> rfl

theorem renderAt_attach {p : Position} {t : Term} (annos : Term)
    (h : (p.isInner && t.isList) = false) : (t.attach annos).renderAt p =
      t.renderAt p ++ '{' :: annos.renderAt .first ++ ['}'] := by
  induction t generalizing p with
  | var o x c ih =>
      rw [attach]
      split
      · rw [renderAt_annotated, if_neg (by simp [h])]
      · rename_i hc
        obtain ⟨hplain, -⟩ : c.isUnconstrained = false ∧ c.annotations.isSome = false := by
          simpa using hc
        have hconstraint := @ih .alone rfl
        simp only [renderAt, isUnconstrained_attach, hplain, hconstraint, Bool.false_eq_true,
          if_false, List.append_assoc, List.cons_append]
  | _ => exact (renderAt_annotated p _ _ annos).trans (if_neg (by simp [h]))

/-- The braces are read as annotations of the variable, or of its constraint. -/
theorem readable_attach {t annos : Term} (ht : t.Readable) (hnone : t.annotations = none)
    (hannos : annos.Readable) (hlist : annos.isAnnotationList) : (t.attach annos).Readable := by
  induction t with
  | var o x c ih =>
      rw [attach]
      split
      · rename_i hc
        exact ⟨ht, hc, hannos, hlist⟩
      · rename_i hc
        obtain ⟨-, hc⟩ : c.isUnconstrained = false ∧ c.annotations = none := by simpa using hc
        exact ⟨ht.1, ih ht.2 hc⟩
  | annotated o b as => cases hnone
  | _ => exact ⟨ht, rfl, hannos, hlist⟩

/-! What is shown is equivalent and has the same text. -/

theorem bare_shownAt (p : Position) (t : Term) : (t.shownAt p).bare = t.bare := by
  induction t generalizing p with
  | cons o h t ihh iht => simp only [shownAt, bare, ihh, iht]
  | appl o f as ihf ihas =>
      simp only [shownAt, bare, ihas]
      split
      · rename_i s hs
        rw [← toStr?_bare, toStr?, shape_bare] at hs
        rw [bare_eq_ofShape f]
        cases hshape : f.shape <;> simp_all [Shape.map, ofShape, bare]
      · rw [ihf]
  | var o x c ih => simp only [shownAt, bare, ih]
  | annotated o b as ihb _ =>
      rw [shownAt]
      split
      · rw [ihb, bare]
      · rw [bare_attach, ihb, bare]
  | _ => rfl

theorem isList_shownAt (p : Position) (t : Term) : (t.shownAt p).isList = t.isList := by
  rw [← isList_bare, bare_shownAt, isList_bare]

theorem toStr?_shownAt (p : Position) (t : Term) : (t.shownAt p).toStr? = t.toStr? := by
  rw [← toStr?_bare, bare_shownAt, toStr?_bare]

theorem isTail_shownAt (p : Position) (t : Term) : (t.shownAt p).isTail = t.isTail := by
  have hbare (u : Term) : u.bare.isTail = u.isTail := by
    rw [isTail, isTail, shape_bare]
    cases u.shape <;> rfl
  rw [← hbare, bare_shownAt, hbare]

theorem isUnconstrained_shownAt (t : Term) :
    (t.shownAt .alone).isUnconstrained = t.isUnconstrained := by
  cases t with
  | annotated o b as => exact isUnconstrained_attach _ _
  | _ => rfl

/-- After a literal name, empty arguments are left out. -/
theorem renderAt_appl_name (p : Position) (o : Origin) {f : Term} {s : String} (as : Term)
    (hf : f.toStr? = some s) :
    (appl o f as).renderAt p = p.lead ++ s.toList ++
      if as.bare = empty then [] else '(' :: as.renderAt .first ++ [')'] := by
  have hshape : f.shape = .str s := by
    rw [toStr?] at hf
    cases hshape : f.shape <;> simp_all
  simp only [renderAt, hshape, bare_eq_ofShape as]
  cases hargs : as.shape <;> rfl

theorem renderAt_shownAt (p : Position) (t : Term) : (t.shownAt p).renderAt p = t.renderAt p := by
  induction t generalizing p with
  | cons o h t ihh iht => cases p <;> simp only [shownAt, renderAt, ihh, iht]
  | appl o f as ihf ihas =>
      rw [shownAt]
      split
      · rename_i s hstr
        rw [renderAt_appl_name p o _ rfl, renderAt_appl_name p o _ hstr, bare_shownAt, ihas]
      · rename_i hstr
        rw [renderAt_appl p o _ ((toStr?_shownAt .alone f).trans hstr),
          renderAt_appl p o _ hstr, ihf, ihas]
  | var o x c ih => simp only [shownAt, renderAt, ih, isUnconstrained_shownAt]
  | annotated o b as ihb ihas =>
      rw [shownAt, renderAt_annotated]
      split
      · exact ihb p
      · rename_i hinner
        rw [renderAt_attach _ (by simpa [isList_shownAt] using hinner), ihb, ihas]
  | nil o => cases p <;> rfl
  | _ => rfl

/-! What is shown is readable. -/

theorem annotations_shownAt {t : Term} (h : t.showsAnnotations = false) (p : Position) :
    (t.shownAt p).annotations = none := by
  fun_induction showsAnnotations t generalizing p with
  | case1 o o' x c as ih =>
      obtain ⟨hplain, hc⟩ := Bool.or_eq_false_iff.mp h
      have hvar : ((c.shownAt .alone).isUnconstrained || (c.shownAt .alone).annotations.isSome) =
          false := by
        rw [isUnconstrained_shownAt, hplain, ih hc]
        rfl
      rw [shownAt, if_neg (by simp [isList, shape]), shownAt, attach, if_neg (by simp [hvar])]
      rfl
  | case2 o b as hvar => cases h
  | case3 t _ hannotated =>
      cases t with
      | annotated o b as => exact absurd rfl (hannotated o b as)
      | _ => rfl

theorem showsAnnotations_of_annotations {t : Term} (h : t.annotations = none) :
    t.showsAnnotations = false := by
  cases t with
  | annotated o b as => cases h
  | _ => rfl

/-- Inside of a sequence, list nodes show no annotations. -/
theorem annotations_shownAt_of_isList {t : Term} (h : t.isList) {p : Position} (hp : p.isInner) :
    (t.shownAt p).annotations = none := by
  induction t with
  | annotated o b as ih _ =>
      have hb : b.isList := h
      rw [shownAt, if_pos (by simp [hp, hb])]
      exact ih hb
  | _ => rfl

theorem isPlainTail_shownAt {t : Term} (htail : t.isTail)
    (h : t.isList ∨ t.showsAnnotations = false) {p : Position} (hp : p.isInner) :
    (t.shownAt p).isPlainTail := by
  have hnone : (t.shownAt p).annotations = none := by
    rcases h with h | h
    · exact annotations_shownAt_of_isList h hp
    · exact annotations_shownAt h p
  rw [← isTail_shownAt p] at htail
  cases hshown : t.shownAt p <;> rw [hshown] at hnone htail
  case nil | cons | var | wildcard => rfl
  case annotated => cases hnone
  all_goals cases htail

theorem isList_of_toList? {t : Term} (h : t.toList?.isSome) : t.isList := by
  induction t with
  | nil o | cons o a t => rfl
  | annotated o b as ih _ => exact ih h
  | _ => cases h

theorem endsInNil_shownAt {t : Term} (h : t.toList?.isSome) {p : Position} (hp : p.isInner) :
    (t.shownAt p).endsInNil := by
  induction t generalizing p with
  | nil o => rfl
  | cons o a t _ ih => exact ih (by simpa [toList?] using h) rfl
  | annotated o b as ih _ =>
      have hb : b.isList := isList_of_toList? h
      rw [shownAt, if_pos (by simp [hp, hb])]
      exact ih h hp
  | _ => cases h

theorem isAnnotationList_shownAt {t : Term} (h : t.toList?.isSome) (hcons : t.isCons)
    {p : Position} (hp : p.isInner) : (t.shownAt p).isAnnotationList := by
  induction t with
  | cons o a t => exact endsInNil_shownAt h hp
  | annotated o b as ih _ =>
      have hb : b.isList := isList_of_toList? h
      rw [shownAt, if_pos (by simp [hp, hb])]
      exact ih h hcons
  | _ => cases hcons

/-- A functor shows its name, or is a variable or wildcard that has nothing else to show. -/
theorem readable_functor_shownAt {f : Term} (hname : f.toStr?.all (isUpperName ·.toList))
    (hplain : f.toStr? = none → f.isPlainFunctor) (hspelled : f.Spelled) :
    let functor : Term := match f.toStr? with
      | some s => .str .derived s
      | none => f.shownAt .alone
    functor.Readable ∧ functor.isPlainFunctor := by
  cases hstr : f.toStr? with
  | some s =>
      rw [hstr] at hname
      exact ⟨trivial, hname⟩
  | none =>
      have hplain := hplain hstr
      cases f with
      | str o s => cases hstr
      | wildcard o => exact ⟨trivial, rfl⟩
      | var o x c =>
          have hc : c.isUnconstrained := hplain
          cases c with
          | wildcard o' => exact ⟨⟨hspelled.1, trivial⟩, rfl⟩
          | _ => cases hc
      | _ => cases hplain

theorem readable_shownAt {t : Term} (ht : t.WellFormed) (hspelled : t.Spelled)
    (hreals : ∀ r ∈ t.reals, r.isFinite) {p : Position} (h : t.ExpressibleAt p) :
    (t.shownAt p).Readable := by
  induction t generalizing p with
  | int o i | str o s | nil o | wildcard o => trivial
  | real o r => exact hreals r List.mem_cons_self
  | cons o a t iha iht =>
      obtain ⟨ha, ht, htail⟩ := ht
      obtain ⟨hsa, hst⟩ := hspelled
      obtain ⟨hra, hrt⟩ := List.forall_mem_append.mp hreals
      obtain ⟨hea, het, hshown⟩ := h
      exact ⟨iha ha hsa hra hea, iht ht hst hrt het, isPlainTail_shownAt htail hshown rfl⟩
  | appl o f as ihf ihas =>
      obtain ⟨hf, has, hfunctor, htail⟩ := ht
      obtain ⟨hname, hsf, hsas⟩ := hspelled
      obtain ⟨-, hras⟩ := List.forall_mem_append.mp hreals
      obtain ⟨hplain, heas, hshown⟩ := h
      obtain ⟨hread, hplain⟩ := readable_functor_shownAt hname hplain hsf
      exact ⟨hread, hplain, ihas has hsas hras heas, isPlainTail_shownAt htail hshown rfl⟩
  | var o x c ih => exact ⟨hspelled.1, ih ht hspelled.2 hreals h⟩
  | annotated o b as ihb ihas =>
      obtain ⟨hb, hnone, has, hcons⟩ := ht
      obtain ⟨hrb, hras⟩ := List.forall_mem_append.mp hreals
      have hbody := ihb hb hspelled.1 hrb h.1
      rw [shownAt]
      split
      · exact hbody
      · rename_i hinner
        obtain ⟨heas, hlist⟩ := h.2 (by simpa using hinner)
        exact readable_attach hbody
          (annotations_shownAt (showsAnnotations_of_annotations hnone) p)
          (ihas has hspelled.2 hras heas) (isAnnotationList_shownAt hlist hcons rfl)

/-! Ground terms. -/

theorem toList?_of_isGround {t : Term} (ht : t.WellFormed) (hground : t.isGround)
    (hlist : t.isList) : t.toList?.isSome := by
  induction t with
  | nil o => rfl
  | cons o a t _ ih =>
      have hground := (Bool.and_eq_true_iff.mp hground).2
      simpa [toList?] using ih ht.2.1 hground (isList_of_isTail ht.2.2 hground)
  | annotated o b as ih _ => exact ih ht.1 (Bool.and_eq_true_iff.mp hground).1 hlist
  | _ => cases hlist

theorem expressibleAt_of_isGround {t : Term} (ht : t.WellFormed) (hground : t.isGround)
    (p : Position) : t.ExpressibleAt p := by
  induction t generalizing p with
  | int o i | real o r | str o s | nil o => trivial
  | cons o a t iha iht =>
      obtain ⟨ha, ht, htail⟩ := ht
      obtain ⟨hga, hgt⟩ := Bool.and_eq_true_iff.mp hground
      exact ⟨iha ha hga _, iht ht hgt _, .inl (isList_of_isTail htail hgt)⟩
  | appl o f as _ ihas =>
      obtain ⟨-, has, hfunctor, htail⟩ := ht
      obtain ⟨hgf, hgas⟩ := Bool.and_eq_true_iff.mp hground
      have hname := toStr?_of_isFunctor hfunctor hgf
      refine ⟨fun hnone => ?_, ihas has hgas _, .inl (isList_of_isTail htail hgas)⟩
      rw [hnone] at hname
      cases hname
  | wildcard o | var o x c => cases hground
  | annotated o b as ihb ihas =>
      obtain ⟨hb, -, has, hcons⟩ := ht
      obtain ⟨hgb, hgas⟩ := Bool.and_eq_true_iff.mp hground
      exact ⟨ihb hb hgb p,
        fun _ => ⟨ihas has hgas _, toList?_of_isGround has hgas (isList_of_isCons hcons)⟩⟩

/-- Without variables, annotations of the whole term are shown as such. -/
theorem annotations_shownAt_of_isGround {t : Term} (ht : t.WellFormed) (hground : t.isGround) :
    (t.shownAt .alone).annotations.map bare = t.annotations.map bare := by
  cases t with
  | annotated o b as =>
      cases b with
      | var o' x c => cases hground
      | annotated o' b' as' => cases ht.2.1
      | _ => exact congrArg some (bare_shownAt .first as)
  | _ => rfl

end Term

end StrategicRewriting
