import StrategicRewriting.Term.Printer

/-!
Two ways to forget a part of a term: the numbers of its nodes, or its annotations
as well. The text of a term does not depend on the numbers, and terms are
equivalent exactly if nothing but numbers and annotations tells them apart, in
spite of the shortcuts through identity and hashes.
-/
namespace StrategicRewriting

/-- Apply a function to the terms right below a node. -/
def Shape.map (f : Term → Term) : Shape → Shape
  | .int i => .int i
  | .real r => .real r
  | .str s => .str s
  | .nil => .nil
  | .cons h t => .cons (f h) (f t)
  | .appl g as => .appl (f g) (f as)
  | .wildcard => .wildcard
  | .var x c => .var x (f c)

namespace Term

/-- The same term with all nodes derived. -/
def unnumbered : Term → Term
  | .int _ i => .int .derived i
  | .real _ r => .real .derived r
  | .str _ s => .str .derived s
  | .nil _ => .nil .derived
  | .cons _ h t => .cons .derived h.unnumbered t.unnumbered
  | .appl _ f as => .appl .derived f.unnumbered as.unnumbered
  | .wildcard _ => .wildcard .derived
  | .var _ x c => .var .derived x c.unnumbered
  | .annotated _ b as => .annotated .derived b.unnumbered as.unnumbered

/-- The term with all nodes derived and without annotations at any depth. -/
def bare : Term → Term
  | .int _ i => .int .derived i
  | .real _ r => .real .derived r
  | .str _ s => .str .derived s
  | .nil _ => .nil .derived
  | .cons _ h t => .cons .derived h.bare t.bare
  | .appl _ f as => .appl .derived f.bare as.bare
  | .wildcard _ => .wildcard .derived
  | .var _ x c => .var .derived x c.bare
  | .annotated _ b _ => b.bare

@[simp]
theorem shape_unnumbered (t : Term) : t.unnumbered.shape = t.shape.map unnumbered := by
  induction t with
  | annotated o b as ih _ => exact ih
  | _ => rfl

theorem annotations_unnumbered (t : Term) :
    t.unnumbered.annotations = t.annotations.map unnumbered := by
  cases t <;> rfl

@[simp]
theorem unnumbered_ofShape (o : Origin) (s : Shape) :
    (ofShape o s).unnumbered = ofShape .derived (s.map unnumbered) := by
  cases s <;> rfl

theorem unnumbered_unnumbered (t : Term) : t.unnumbered.unnumbered = t.unnumbered := by
  induction t with
  | cons o l r ihl ihr | appl o l r ihl ihr | annotated o l r ihl ihr =>
      simp only [unnumbered, ihl, ihr]
  | var o x c ih => simp only [unnumbered, ih]
  | _ => rfl

theorem isUnconstrained_unnumbered (t : Term) :
    t.unnumbered.isUnconstrained = t.isUnconstrained := by
  cases t <;> rfl

theorem isList_unnumbered (t : Term) : t.unnumbered.isList = t.isList := by
  rw [isList, isList, shape_unnumbered]
  cases t.shape <;> rfl

/-- Texts do not show the numbers of nodes. -/
theorem renderAt_unnumbered (p : Position) (t : Term) :
    t.unnumbered.renderAt p = t.renderAt p := by
  induction t generalizing p with
  | int o i | real o r | str o s | wildcard o => rfl
  | nil o => cases p <;> rfl
  | cons o h t ihh iht => cases p <;> simp only [unnumbered, renderAt, ihh, iht]
  | appl o f as ihf ihas =>
      simp only [unnumbered, renderAt, ihf, ihas, shape_unnumbered]
      cases f.shape <;> cases as.shape <;> rfl
  | var o x c ih => simp only [unnumbered, renderAt, ih, isUnconstrained_unnumbered]
  | annotated o b as ihb ihas =>
      cases p <;> simp only [unnumbered, renderAt, ihb, ihas, isList_unnumbered]

theorem text_unnumbered (t : Term) : t.unnumbered.text = t.text := by
  rw [text, text, render, render, renderAt_unnumbered]

theorem bare_unnumbered (t : Term) : t.unnumbered.bare = t.bare := by
  induction t with
  | cons o l r ihl ihr | appl o l r ihl ihr => simp only [unnumbered, bare, ihl, ihr]
  | var o x c ih => simp only [unnumbered, bare, ih]
  | annotated o b as ih _ => exact ih
  | _ => rfl

@[simp]
theorem hash_bare (t : Term) : t.bare.hash = t.hash := by
  induction t with
  | cons o h t ihh iht => simp only [bare, hash, ihh, iht]
  | appl o f as ihf ihas => simp only [bare, hash, ihf, ihas]
  | var o x c ih => simp only [bare, hash, ih]
  | annotated o b as ih _ => exact ih
  | _ => rfl

theorem hash_eq_of_bare_eq {l r : Term} (h : l.bare = r.bare) : l.hash = r.hash := by
  rw [← hash_bare l, h, hash_bare r]

theorem bare_eq_ofShape (t : Term) : t.bare = ofShape .derived (t.shape.map bare) := by
  induction t with
  | annotated o b as ih _ => exact ih
  | _ => rfl

@[simp]
theorem bare_make (s : Shape) (annos : Option Term) :
    (make s annos).bare = ofShape .derived (s.map bare) := by
  rw [bare_eq_ofShape, shape_make]

/-- Equivalence of terms, with any test in the place of the identity of nodes. -/
def equivalentBy (shared : Term → Term → Bool) (l r : Term) : Bool :=
  shared l r || (l.hash == r.hash &&
    match l, r.shape with
    | .int _ i, .int j => i == j
    | .real _ x, .real y => x == y
    | .str _ s, .str s' => s == s'
    | .nil _, .nil | .wildcard _, .wildcard => true
    | .cons _ h t, .cons h' t' => h.equivalentBy shared h' && t.equivalentBy shared t'
    | .appl _ f as, .appl f' as' => f.equivalentBy shared f' && as.equivalentBy shared as'
    | .var _ x p, .var x' p' => x == x' && p.equivalentBy shared p'
    | .annotated _ b _, _ => b.equivalentBy shared r
    | _, _ => false)

theorem equivalentBy_same (l r : Term) : l.equivalentBy same r = l.equivalent r := by
  induction l generalizing r with
  | annotated o b as ih _ => rw [equivalentBy, equivalent, ih]
  | cons o a b iha ihb | appl o a b iha ihb =>
      rw [equivalentBy.eq_def, equivalent]
      cases r.shape <;> simp only [iha, ihb]
  | var o x c ih =>
      rw [equivalentBy.eq_def, equivalent]
      cases r.shape <;> simp only [ih]
  | int o i | real o x | str o s | nil o | wildcard o =>
      rw [equivalentBy.eq_def, equivalent]
      cases r.shape <;> rfl

section

variable {shared : Term → Term → Bool} (hshared : ∀ a b, shared a b → a = b) {l r : Term}

include hshared

/-- Identity and hashes are shortcuts to what the comparison of the shapes would give. -/
theorem shortcuts_iff {p : Bool} (hp : p ↔ l.bare = r.bare) :
    (shared l r || (l.hash == r.hash && p)) ↔ l.bare = r.bare := by
  rw [Bool.or_eq_true, Bool.and_eq_true, beq_iff_eq, hp]
  constructor
  · rintro (h | ⟨-, h⟩)
    · rw [hshared l r h]
    · exact h
  · exact fun h => .inr ⟨hash_eq_of_bare_eq h, h⟩

/-- Equivalence is equality up to numbers and annotations, whatever nodes are shared. -/
theorem equivalentBy_iff : l.equivalentBy shared r ↔ l.bare = r.bare := by
  -- the left term takes the steps, while of the right one only the shape is seen
  induction l generalizing r with
  | annotated o b as ih _ =>
      rw [equivalentBy.eq_def]
      exact shortcuts_iff hshared ih
  | int o i | real o x | str o s | nil o | wildcard o =>
      rw [equivalentBy.eq_def]
      refine shortcuts_iff hshared ?_
      rw [bare_eq_ofShape r]
      cases r.shape <;> simp [bare, ofShape, Shape.map]
  | cons o a b iha ihb | appl o a b iha ihb =>
      rw [equivalentBy.eq_def]
      refine shortcuts_iff hshared ?_
      rw [bare_eq_ofShape r]
      cases r.shape <;> simp [bare, ofShape, Shape.map, iha, ihb]
  | var o x c ih =>
      rw [equivalentBy.eq_def]
      refine shortcuts_iff hshared ?_
      rw [bare_eq_ofShape r]
      cases r.shape <;> simp [bare, ofShape, Shape.map, ih]

end

theorem equivalent_iff {l r : Term} : l.equivalent r ↔ l.bare = r.bare := by
  rw [← equivalentBy_same]
  exact equivalentBy_iff fun _ _ h => same_iff_eq.mp h

theorem bare_of_equivalent {l r : Term} (h : l.equivalent r) : l.bare = r.bare :=
  equivalent_iff.mp h

theorem equivalent_of_bare {l r : Term} (h : l.bare = r.bare) : l.equivalent r :=
  equivalent_iff.mpr h

end Term

end StrategicRewriting
