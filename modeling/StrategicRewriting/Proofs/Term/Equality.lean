import StrategicRewriting.Proofs.Term.Equivalence

/-!
Comparison and hashing of terms agree with each other. Both comparisons are equivalence
relations, they do not depend on which nodes are shared, and the hashes respect them.
-/
namespace StrategicRewriting

namespace Term

variable {l r : Term}

theorem equivalence_equivalent : Equivalence fun l r : Term => (l.equivalent r : Prop) where
  refl := equivalent_refl
  symm h := equivalent_iff.mpr (equivalent_iff.mp h).symm
  trans h h' := equivalent_iff.mpr ((equivalent_iff.mp h).trans (equivalent_iff.mp h'))

/-- The annotations of the terms count, but not those below them. -/
theorem equal_iff : l.equal r ↔
    l.bare = r.bare ∧ l.annotations.map bare = r.annotations.map bare := by
  rw [equal, Bool.and_eq_true, equivalent_iff]
  refine and_congr_right fun _ => ?_
  cases l.annotations <;> cases r.annotations <;> simp [equivalent_iff]

/-- Terms that differ in the numbers of their nodes only are equal. -/
theorem equal_of_unnumbered (h : l.unnumbered = r.unnumbered) : l.equal r := by
  have hannos (t : Term) : t.unnumbered.annotations.map bare = t.annotations.map bare := by
    rw [annotations_unnumbered, Option.map_map, Function.comp_def]
    simp only [bare_unnumbered]
  rw [equal_iff, ← bare_unnumbered l, ← hannos l, h, bare_unnumbered, hannos]
  exact ⟨rfl, rfl⟩

theorem equivalence_equal : Equivalence fun l r : Term => (l.equal r : Prop) where
  refl _ := equal_iff.mpr ⟨rfl, rfl⟩
  symm h := equal_iff.mpr ⟨(equal_iff.mp h).1.symm, (equal_iff.mp h).2.symm⟩
  trans h h' := by
    obtain ⟨hbare, hannos⟩ := equal_iff.mp h
    obtain ⟨hbare', hannos'⟩ := equal_iff.mp h'
    exact equal_iff.mpr ⟨hbare.trans hbare', hannos.trans hannos'⟩

theorem map_bare_eq_iff {as bs : Option Term} : as.map bare = bs.map bare ↔
    (as = none ∧ bs = none) ∨ ∃ a b, as = some a ∧ bs = some b ∧ a.equivalent b := by
  cases as <;> cases bs <;> simp [equivalent_iff]

theorem hash_getD_eq {as bs : Option Term} (h : as.map bare = bs.map bare) :
    (as.getD empty).hash = (bs.getD empty).hash := by
  rcases map_bare_eq_iff.mp h with ⟨rfl, rfl⟩ | ⟨a, b, rfl, rfl, hab⟩
  · rfl
  · exact hash_eq_of_bare_eq (equivalent_iff.mp hab)

theorem fullHash_eq_of_equal (h : l.equal r) : l.fullHash = r.fullHash := by
  obtain ⟨hbare, hannos⟩ := equal_iff.mp h
  rw [fullHash, fullHash, hash_eq_of_bare_eq hbare, hash_getD_eq hannos]

/-- Terms are equivalent if they are the same without annotations, and they are equal if in
addition they have equivalent annotation lists or none. These are equivalence relations on
all terms, whatever nodes are shared, and the hashes are constant on their classes. -/
theorem equality_coherent :
    (∀ shared : Term → Term → Bool, (∀ a b, shared a b → a = b) →
      ∀ a b : Term, a.equivalentBy shared b = a.equivalent b) ∧
    (∀ a b : Term, a.equivalent b ↔ a.bare = b.bare) ∧
    (∀ a b : Term, a.equal b ↔ a.bare = b.bare ∧
      ((a.annotations = none ∧ b.annotations = none) ∨
        ∃ as bs, a.annotations = some as ∧ b.annotations = some bs ∧ as.equivalent bs)) ∧
    Equivalence (fun a b : Term => (a.equivalent b : Prop)) ∧
    Equivalence (fun a b : Term => (a.equal b : Prop)) ∧
    (∀ a b : Term, a.equivalent b → a.hash = b.hash) ∧
    (∀ a b : Term, a.equal b → a.fullHash = b.fullHash) := by
  refine ⟨?_, fun a b => equivalent_iff, ?_, equivalence_equivalent, equivalence_equal, ?_, ?_⟩
  · intro shared hshared a b
    rw [Bool.eq_iff_iff, equivalentBy_iff hshared, equivalent_iff]
  · intro a b
    rw [equal_iff, map_bare_eq_iff]
  · exact fun a b h => hash_eq_of_bare_eq (equivalent_iff.mp h)
  · exact fun a b => fullHash_eq_of_equal

theorem equality_coherent_annotated :
    ∃ a b : Term, a ≠ b ∧ a.equal b ∧ a.hash = b.hash ∧ a.fullHash = b.fullHash ∧
      a.equivalentBy (fun _ _ => false) b := by
  let notes (o : Origin) : Term := .cons o (.str o "A") (.nil o)
  let list (o : Origin) (elem : Term) : Term := .cons o elem (.nil o)
  -- an annotation of an element and one of the annotation list, which count for nothing
  let elem : Term := .annotated (.serial 5) (.int .derived 1) (notes (.serial 2))
  let a : Term := .annotated (.serial 7) (list .derived elem) (notes (.serial 2))
  let b : Term := .annotated .derived
    (list .derived (.int (.serial 3) 1)) (.annotated .derived (notes .derived) (notes .derived))
  obtain ⟨hshared, -, hequal, -, -, hhash, hfull⟩ := equality_coherent
  have hab : a.equal b := (hequal a b).mpr ⟨rfl, .inr ⟨_, _, rfl, rfl, by decide +kernel⟩⟩
  have hequiv : a.equivalent b := by decide +kernel
  refine ⟨a, b, by decide, hab, hhash a b hequiv, hfull a b hab, ?_⟩
  rw [hshared (fun _ _ => false) (by simp) a b]
  exact hequiv

end Term

end StrategicRewriting
