import StrategicRewriting.Proofs.Term.Parts

/-!
Well-formed terms are made of well-formed ones: by putting nodes together, by taking
lists apart and by changing annotations.
-/
namespace StrategicRewriting.Term

variable {t annos : Term} {s : Shape}

theorem isTail_of_isList (h : t.isList) : t.isTail := by
  rw [isList] at h
  rw [isTail]
  cases hs : t.shape <;> simp_all

theorem isFunctor_of_toStr? (h : t.toStr?.isNone = false) : t.isFunctor := by
  rw [toStr?] at h
  rw [isFunctor]
  cases hs : t.shape <;> simp_all

theorem wellFormed_ofShape (o : Origin) : (ofShape o s).WellFormed ↔ s.WellFormed := by
  cases s <;> exact Iff.rfl

theorem wellFormed_make {annos : Option Term} (hs : s.WellFormed)
    (hannos : ∀ as, annos = some as → as.WellFormed ∧ as.isCons) : (make s annos).WellFormed := by
  have hbody := (wellFormed_ofShape .derived).mpr hs
  cases annos with
  | none => exact hbody
  | some as => exact ⟨hbody, annotations_ofShape .derived s, hannos as rfl⟩

theorem WellFormed.withShape (ht : t.WellFormed) (hs : s.WellFormed) :
    (t.withShape s).WellFormed :=
  wellFormed_make hs fun _ => ht.annotations

theorem WellFormed.withOrigin (o : Origin) (ht : t.WellFormed) : (t.withOrigin o).WellFormed := by
  cases t with
  | annotated o' b as => exact ht
  | _ => exact (wellFormed_ofShape o).mpr ht.shape

/-! Lists. -/

theorem wellFormed_empty : empty.WellFormed :=
  trivial

theorem WellFormed.elems (ht : t.WellFormed) : ∀ u ∈ t.elems, u.WellFormed := by
  induction t with
  | cons o h tl _ ih => exact List.forall_mem_cons.mpr ⟨ht.1, ih ht.2.1⟩
  | annotated o b as ih _ => exact ih ht.1
  | _ => exact nofun

theorem wellFormed_listOnto {tail : Term} {ts : List Term} (htail : tail.WellFormed)
    (hend : tail.isTail) (hts : ∀ t ∈ ts, t.WellFormed) :
    (listOnto tail ts).WellFormed ∧ (listOnto tail ts).isTail := by
  induction ts with
  | nil => exact ⟨htail, hend⟩
  | cons t ts ih =>
      obtain ⟨ht, hts⟩ := List.forall_mem_cons.mp hts
      exact ⟨⟨ht, ih hts⟩, rfl⟩

theorem isCons_listOnto {tail : Term} {ts : List Term} (h : ts ≠ []) :
    (listOnto tail ts).isCons := by
  cases ts with
  | nil => exact absurd rfl h
  | cons t ts => rfl

/-! Annotations. -/

theorem wellFormed_make_listOnto {ts : List Term} (ht : t.WellFormed) (hne : ts ≠ [])
    (hts : ∀ u ∈ ts, u.WellFormed) : (make t.shape (some (listOnto empty ts))).WellFormed := by
  refine wellFormed_make ht.shape ?_
  rintro _ ⟨⟩
  exact ⟨(wellFormed_listOnto wellFormed_empty rfl hts).1, isCons_listOnto hne⟩

theorem WellFormed.setAnnotations {u : Term} (ht : t.WellFormed) (hannos : annos.WellFormed)
    (h : t.setAnnotations annos = .ok u) : u.WellFormed := by
  rw [Term.setAnnotations] at h
  split at h
  · cases h
    exact (wellFormed_ofShape .derived).mpr ht.shape
  · rename_i hshape
    cases h
    refine wellFormed_make ht.shape ?_
    rintro _ ⟨⟩
    exact ⟨hannos, by rw [isCons, hshape]⟩
  · cases h

theorem WellFormed.stripAnnotations (ht : t.WellFormed) : t.stripAnnotations.WellFormed := by
  rw [Term.stripAnnotations]
  split
  · exact ht
  · exact (wellFormed_ofShape .derived).mpr ht.shape

theorem WellFormed.annotationElems (ht : t.WellFormed) :
    ∀ u ∈ t.annotationElems, u.WellFormed := by
  rw [Term.annotationElems]
  cases has : t.annotations with
  | none => exact nofun
  | some as => exact (ht.annotations has).1.elems

theorem WellFormed.anno? {u : Term} {name : String} (ht : t.WellFormed)
    (h : t.anno? name = some u) : u.WellFormed :=
  ht.annotationElems u (List.mem_of_find?_eq_some h)

theorem WellFormed.annotationsWithout (ht : t.WellFormed) (name : String) :
    ∀ u ∈ t.annotationsWithout name, u.WellFormed :=
  fun u hu => ht.annotationElems u (List.mem_filter.mp hu).1

theorem WellFormed.setAnno {anno : Term} (ht : t.WellFormed) (hanno : anno.WellFormed) :
    (t.setAnno anno).WellFormed := by
  have hlast {ts : List Term} (hts : ∀ u ∈ ts, u.WellFormed) :
      ∀ u ∈ ts ++ [anno], u.WellFormed := by
    intro u hu
    rcases List.mem_append.mp hu with hu | hu
    · exact hts u hu
    · rwa [List.mem_singleton.mp hu]
  rw [Term.setAnno]
  refine wellFormed_make_listOnto ht (List.append_ne_nil_of_right_ne_nil _ nofun) (hlast ?_)
  split
  · exact ht.annotationsWithout _
  · exact ht.annotationElems

theorem WellFormed.removeAnno (ht : t.WellFormed) (name : String) :
    (t.removeAnno name).WellFormed := by
  rw [Term.removeAnno]
  split
  · exact ht
  · split
    · exact (wellFormed_ofShape .derived).mpr ht.shape
    · rename_i hne
      exact wellFormed_make_listOnto ht hne (ht.annotationsWithout name)

/-! The numbers of the nodes. -/

theorem isTail_unnumbered (t : Term) : t.unnumbered.isTail = t.isTail := by
  rw [isTail, isTail, shape_unnumbered]
  cases t.shape <;> rfl

theorem isFunctor_unnumbered (t : Term) : t.unnumbered.isFunctor = t.isFunctor := by
  rw [isFunctor, isFunctor, shape_unnumbered]
  cases t.shape <;> rfl

theorem isCons_unnumbered (t : Term) : t.unnumbered.isCons = t.isCons := by
  rw [isCons, isCons, shape_unnumbered]
  cases t.shape <;> rfl

theorem wellFormed_unnumbered (t : Term) : t.unnumbered.WellFormed ↔ t.WellFormed := by
  induction t with
  | int o i | real o r | str o s | nil o | wildcard o => rfl
  | cons o h tl ihh iht => simp only [unnumbered, WellFormed, ihh, iht, isTail_unnumbered]
  | appl o f as ihf ihas =>
      simp only [unnumbered, WellFormed, ihf, ihas, isFunctor_unnumbered, isTail_unnumbered]
  | var o x c ih => exact ih
  | annotated o b as ihb ihas =>
      simp only [unnumbered, WellFormed, ihb, ihas, annotations_unnumbered, Option.map_eq_none_iff,
        isCons_unnumbered]

end StrategicRewriting.Term
