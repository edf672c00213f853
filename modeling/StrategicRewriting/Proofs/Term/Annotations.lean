import StrategicRewriting.Proofs.Term.Equivalence

/-!
Annotations by name. A term has at most one value for a name, the first annotation that is an
application of this name; setting replaces all annotations of the name by one at the end, and
removing takes them all away. The value of a name is what was set last, and what is done to one
name makes no difference to the values of others.
-/
namespace StrategicRewriting.Term

variable {t a b : Term} {n m : String}

@[simp]
theorem elems_listOnto_empty (ts : List Term) : (listOnto empty ts).elems = ts := by
  induction ts with
  | nil => rfl
  | cons t ts ih => exact congrArg (t :: ·) ih

theorem elems_ne_nil_of_isCons (h : t.isCons) : t.elems ≠ [] := by
  induction t with
  | cons o hd tl => exact List.cons_ne_nil hd tl.elems
  | annotated o body as ih _ => exact ih h
  | _ => cases h

theorem annotationElems_make_none (s : Shape) : (make s none).annotationElems = [] := by
  rw [annotationElems, annotations_make]
  rfl

theorem annotationElems_make_some (s : Shape) (ts : List Term) :
    (make s (some (listOnto empty ts))).annotationElems = ts := by
  rw [annotationElems, annotations_make]
  exact elems_listOnto_empty ts

theorem equivalent_of_shape_eq (h : a.shape = t.shape) : a.equivalent t :=
  equivalent_of_bare (bare_eq_of_shape_eq h)

/-! Setting. -/

theorem shape_setAnno (t a : Term) : (t.setAnno a).shape = t.shape := by
  rw [setAnno, shape_make]

theorem annotationElems_setAnno (h : a.functorName? = some n) :
    (t.setAnno a).annotationElems = t.annotationsWithout n ++ [a] := by
  rw [setAnno, annotationElems_make_some, h]

theorem find?_annotationsWithout_self (t : Term) (n : String) :
    (t.annotationsWithout n).find? (·.functorName? == some n) = none := by
  refine List.find?_eq_none.mpr fun u hu => ?_
  have hother := (List.mem_filter.mp hu).2
  simpa using hother

theorem find?_annotationsWithout (t : Term) (hne : m ≠ n) :
    (t.annotationsWithout n).find? (·.functorName? == some m) = t.anno? m := by
  rw [annotationsWithout, List.find?_filter, anno?]
  congr 1
  funext u
  by_cases hu : u.functorName? = some m <;> simp [hu, hne]

/-- Setting gives a value to one name, and leaves those of all others as they are. -/
theorem anno?_setAnno (h : a.functorName? = some n) (m : String) :
    (t.setAnno a).anno? m = if m = n then some a else t.anno? m := by
  rw [anno?, annotationElems_setAnno h, List.find?_append, List.find?_singleton, h]
  by_cases hm : m = n
  · rw [hm, find?_annotationsWithout_self, BEq.rfl, if_pos rfl, if_pos rfl]
    rfl
  · have hlast : ¬(some n == some m) = true := by simpa using Ne.symm hm
    rw [find?_annotationsWithout t hm, if_neg hlast, if_neg hm, Option.or_none]

/-! Removing. -/

theorem annotationsWithout_eq_self (h : t.anno? n = none) :
    t.annotationsWithout n = t.annotationElems := by
  rw [anno?, List.find?_eq_none] at h
  exact List.filter_eq_self.mpr fun u hu => by simpa using h u hu

/-- Removing has nothing to do if the name has no value, and else it makes a node with the
annotations that remain. -/
theorem removeAnno_cases (t : Term) (n : String) :
    (t.anno? n = none ∧ t.removeAnno n = t) ∨
      t.removeAnno n = make t.shape
        (if t.annotationsWithout n = [] then none
          else some (listOnto empty (t.annotationsWithout n))) := by
  rw [removeAnno]
  cases t.anno? n with
  | none => exact .inl ⟨rfl, rfl⟩
  | some u =>
      right
      cases hkept : t.annotationsWithout n with
      | nil => rfl
      | cons v kept => rw [if_neg (List.cons_ne_nil v kept)]

theorem shape_removeAnno (t : Term) (n : String) : (t.removeAnno n).shape = t.shape := by
  rcases removeAnno_cases t n with ⟨-, h⟩ | h
  · rw [h]
  · rw [h, shape_make]

theorem annotationElems_removeAnno (t : Term) (n : String) :
    (t.removeAnno n).annotationElems = t.annotationsWithout n := by
  rcases removeAnno_cases t n with ⟨hnone, h⟩ | h
  · rw [h, annotationsWithout_eq_self hnone]
  · rw [h]
    split
    · rename_i hkept
      rw [annotationElems_make_none, hkept]
    · exact annotationElems_make_some _ _

/-- A node that loses its last annotation has no annotation list any more. -/
theorem annotations_removeAnno (ht : ∀ as ∈ t.annotations, as.isCons)
    (hkept : t.annotationsWithout n = []) : (t.removeAnno n).annotations = none := by
  rcases removeAnno_cases t n with ⟨hnone, h⟩ | h
  · rw [annotationsWithout_eq_self hnone, annotationElems] at hkept
    rw [h]
    cases has : t.annotations with
    | none => rfl
    | some as =>
        rw [has] at hkept
        exact absurd hkept (elems_ne_nil_of_isCons (ht as has))
  · rw [h, if_pos hkept, annotations_make]

theorem removeAnno_of_anno?_eq_none (h : t.anno? n = none) : t.removeAnno n = t := by
  rw [removeAnno, h]

/-- What was set last for a name is what removing the name takes away. -/
theorem annotationsWithout_setAnno (h : a.functorName? = some n) :
    (t.setAnno a).annotationsWithout n = t.annotationsWithout n := by
  have hself : [a].filter (·.functorName? != some n) = [] := by simp [h]
  rw [annotationsWithout, annotationElems_setAnno h, List.filter_append, hself, List.append_nil,
    annotationsWithout, List.filter_filter]
  simp only [Bool.and_self]

/-- Annotations obey the laws of values by name: what was set last for a name is its value,
setting and removing make no difference to other names, and removing undoes setting up to what
the name had before. The annotated nodes differ in nothing but their annotations. -/
theorem setAnno_lens_laws (t : Term) :
    (∀ (a : Term) (n : String), a.functorName? = some n →
      (t.setAnno a).annotationElems =
        t.annotationElems.filter (·.functorName? != some n) ++ [a] ∧
      (t.setAnno a).anno? n = some a ∧
      (∀ m, m ≠ n → (t.setAnno a).anno? m = t.anno? m) ∧
      ((t.setAnno a).setAnno a).annotationElems = (t.setAnno a).annotationElems ∧
      ((t.setAnno a).removeAnno n).annotationElems = (t.removeAnno n).annotationElems) ∧
    (∀ n, (t.removeAnno n).annotationElems =
      t.annotationElems.filter (·.functorName? != some n)) ∧
    (∀ n, (∀ as ∈ t.annotations, as.isCons) →
      t.annotationElems.filter (·.functorName? != some n) = [] →
      (t.removeAnno n).annotations = none) ∧
    (∀ n, t.anno? n = none → (t.removeAnno n).same t) ∧
    (∀ (a b : Term) (n m : String), a.functorName? = some n → b.functorName? = some m → n ≠ m →
      ∀ k, ((t.setAnno a).setAnno b).anno? k = ((t.setAnno b).setAnno a).anno? k) ∧
    (∀ (a b : Term) (n : String),
      (t.setAnno a).equivalent t ∧ (t.removeAnno n).equivalent t ∧
      ((t.setAnno a).setAnno b).equivalent t ∧ ((t.setAnno a).removeAnno n).equivalent t) := by
  refine ⟨fun a n ha => ⟨annotationElems_setAnno ha, ?_, fun m hm => ?_, ?_, ?_⟩,
    annotationElems_removeAnno t, fun n => annotations_removeAnno, fun n hnone => ?_,
    fun a b n m ha hb hne k => ?_, fun a b n => ⟨?_, ?_, ?_, ?_⟩⟩
  · rw [anno?_setAnno ha, if_pos rfl]
  · rw [anno?_setAnno ha, if_neg hm]
  · rw [annotationElems_setAnno ha, annotationsWithout_setAnno ha, annotationElems_setAnno ha]
  · rw [annotationElems_removeAnno, annotationsWithout_setAnno ha, annotationElems_removeAnno]
  · rw [removeAnno_of_anno?_eq_none hnone]
    exact same_iff_eq.mpr rfl
  · simp only [anno?_setAnno ha, anno?_setAnno hb]
    by_cases hk : k = n
    · subst hk
      rw [if_neg hne, if_pos rfl, if_pos rfl]
    · rw [if_neg hk, if_neg hk]
  all_goals exact equivalent_of_shape_eq (by simp only [shape_setAnno, shape_removeAnno])

theorem setAnno_lens_laws_duplicates :
    ∃ t t' a b x f old oldest text : Term,
      t.annotationElems = [oldest, text, f, b, old] ∧ t.anno? "A" = some oldest ∧
      (t.setAnno a).annotationElems = [text, f, b, a] ∧
      (t.setAnno a).anno? "A" = some a ∧ (t.setAnno a).anno? "B" = some b ∧
      ((t.setAnno a).setAnno a).annotationElems = [text, f, b, a] ∧
      ((t.setAnno a).removeAnno "A").annotationElems = [text, f, b] ∧
      (t'.removeAnno "A").annotations = none ∧ (t.removeAnno "X").same t ∧
      (∀ k, ((t.setAnno a).setAnno x).anno? k = ((t.setAnno x).setAnno a).anno? k) ∧
      ((t.setAnno a).removeAnno "A").equivalent t := by
  -- `C{A(1){X},"A",f(2),B,A(3)}` and `C{A(1){X},A(3)}`, with the new annotations `A(4)` and `X`
  let list (ts : List Term) : Term := .listOnto .empty ts
  let appl (f : Term) (ts : List Term) : Term := .appl .derived f (list ts)
  let name (s : String) : Term := .str .derived s
  let int (i : Int64) : Term := .int .derived i
  let x := appl (name "X") []
  let oldest : Term := .annotated .derived (appl (name "A") [int 1]) (list [x])
  let f := appl (.var .derived "f" (.wildcard .derived)) [int 2]
  let b := appl (name "B") []
  let old := appl (name "A") [int 3]
  let t : Term := .annotated .derived (appl (name "C") []) (list [oldest, name "A", f, b, old])
  let t' : Term := .annotated .derived (appl (name "C") []) (list [oldest, old])
  let a := appl (name "A") [int 4]
  have ha : a.functorName? = some "A" := rfl
  have hx : x.functorName? = some "X" := rfl
  have hcons : ∀ as ∈ t'.annotations, as.isCons := by
    rintro _ ⟨⟩
    rfl
  obtain ⟨hset, hremoved, -, hsame, hcomm, hequiv⟩ := setAnno_lens_laws t
  obtain ⟨helems, hget, hother, htwice, hundone⟩ := hset a "A" ha
  have hempty := (setAnno_lens_laws t').2.2.1 "A" hcons (by decide +kernel)
  have helems' : (t.setAnno a).annotationElems = [name "A", f, b, a] :=
    helems.trans (by decide +kernel)
  refine ⟨t, t', a, b, x, f, old, oldest, name "A", rfl, by decide +kernel, helems', hget,
    (hother "B" (by decide)).trans (by decide +kernel), htwice.trans helems',
    (hundone.trans (hremoved "A")).trans (by decide +kernel), hempty,
    hsame "X" (by decide +kernel), hcomm a x "A" "X" ha hx (by decide), (hequiv a x "A").2.2.2⟩

end StrategicRewriting.Term
