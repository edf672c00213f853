import Mathlib.Data.List.Forall2
import StrategicRewriting.Proofs.Pattern.Build
import StrategicRewriting.Proofs.Pattern.Shortcuts

/-!
Matching and building undo each other. Both visit a pattern in the same order, so
that captured terms are taken in the order in which they were found: building what
a ground term was matched with gives an equivalent term, and a term that was built
matches its pattern again, with equivalent values and captured terms.
-/
namespace StrategicRewriting

open Term

/-- All values of the bindings are found by the lookup. -/
def Bindings.FoundBy (b : Bindings) (vars : Lookup) : Prop :=
  ∀ x v, b.get? x = some v → vars x = .ok (some v)

theorem Bindings.FoundBy.of_extends {b b' : Bindings} {vars : Lookup} (h : b'.FoundBy vars)
    (hb : b.Extends b') : b.FoundBy vars :=
  fun x v hv => h x v (hb x v hv)

/-- All values of the bindings are equivalent to those that the lookup finds. -/
def Bindings.AgreesWith (b : Bindings) (vars : Lookup) : Prop :=
  ∀ x v, b.get? x = some v → ∃ w, vars x = .ok (some w) ∧ v.equivalent w

namespace Term

/-- Variables may have constraints, but these capture nothing. -/
def ConstraintsCaptureless : Term → Prop
  | .int .. | .real .. | .str .. | .nil _ | .wildcard _ => True
  | .cons _ l r | .appl _ l r | .annotated _ l r =>
    l.ConstraintsCaptureless ∧ r.ConstraintsCaptureless
  | .var _ _ c => c.isUnconstrained ∨ c.Captureless

/-- Building the pattern takes what matching it has captured and gives back the
term up to annotations. -/
def Rebuilds (p t : Term) (b b' : Bindings) : Prop :=
  ∃ caps, b'.captures = b.captures ++ caps ∧ ∀ vars, b'.FoundBy vars → ∀ rest,
    ∃ u, p.build vars (caps ++ rest) = (.ok u, rest) ∧ u.bare = t.bare

variable {p q t : Term} {b b' : Bindings}

theorem rebuilds_of_isGround (hp : p.isGround) (h : p.matchTerm t b = (true, b')) :
    Rebuilds p t b b' := by
  obtain ⟨hsame, hbare⟩ := matchTerm_of_isGround hp t b
  rw [h] at hsame hbare
  subst hsame
  refine ⟨[], (List.append_nil _).symm, fun vars _ rest => ⟨p, ?_, hbare rfl⟩⟩
  rw [build_of_isGround hp]
  rfl

/-- Two patterns that are matched one after the other are built one after the other. -/
theorem Rebuilds.both {l r : Term} {b₁ : Bindings} (hl : Rebuilds p l b b₁)
    (hr : Rebuilds q r b₁ b') (hext : b₁.Extends b') :
    ∃ caps, b'.captures = b.captures ++ caps ∧ ∀ vars, b'.FoundBy vars → ∀ rest,
      ∃ u v mid, p.build vars (caps ++ rest) = (.ok u, mid) ∧ q.build vars mid = (.ok v, rest) ∧
        u.bare = l.bare ∧ v.bare = r.bare := by
  obtain ⟨capsl, hcapsl, hl⟩ := hl
  obtain ⟨capsr, hcapsr, hr⟩ := hr
  refine ⟨capsl ++ capsr, by rw [hcapsr, hcapsl, List.append_assoc], fun vars hvars rest => ?_⟩
  obtain ⟨u, hu, hubare⟩ := hl vars (hvars.of_extends hext) (capsr ++ rest)
  obtain ⟨v, hv, hvbare⟩ := hr vars hvars rest
  refine ⟨u, v, capsr ++ rest, ?_, hv, hubare, hvbare⟩
  rw [List.append_assoc]
  exact hu

/-- A variable is built as the value that matching has compared with or given to it. -/
theorem rebuilds_var {o : Origin} {x : String} {c : Term}
    (hp : (var o x c).ConstraintsCaptureless) (h : (var o x c).matchTerm t b = (true, b')) :
    Rebuilds (var o x c) t b b' := by
  cases matchTerm_var_iff.mp h with
  | inl h =>
      obtain ⟨v, hv, heq, rfl⟩ := h
      refine ⟨[], (List.append_nil _).symm, fun vars hvars rest => ?_⟩
      refine ⟨v, ?_, bare_of_equivalent heq⟩
      exact Building.valueOf_eq_ok.mpr ⟨hvars x v hv, rfl⟩
  | inr h =>
      obtain ⟨-, b₁, hb₁, rfl⟩ := h
      -- building does not look at the constraint, so it must not have captured anything
      have hcaps : b₁.captures = b.captures := by
        cases hb₁ with
        | inl h => rw [h.2]
        | inr h =>
            have hkept := (collects_matchTerm c t b).captures_eq (hp.resolve_left h.1)
            rwa [h.2] at hkept
      refine ⟨[], by simp [hcaps], fun vars hvars rest => ?_⟩
      refine ⟨t, ?_, rfl⟩
      refine Building.valueOf_eq_ok.mpr ⟨hvars x t ?_, rfl⟩
      rw [Bindings.get?_bind, if_pos rfl]

theorem wellFormed_annotations (ht : t.WellFormed) (hground : t.isGround) :
    (t.annotations.getD empty).WellFormed ∧ (t.annotations.getD empty).isGround ∧
      (t.annotations.getD empty).isList := by
  cases h : t.annotations with
  | none => exact ⟨trivial, rfl, rfl⟩
  | some as =>
      obtain ⟨has, hcons⟩ := ht.annotations h
      exact ⟨has, isGround_annotations hground h, isList_of_isCons hcons⟩

theorem rebuilds_of_matchTerm (hp : p.ConstraintsCaptureless) (ht : t.WellFormed)
    (hground : t.isGround) (h : p.matchTerm t b = (true, b')) : Rebuilds p t b b' := by
  induction p generalizing t b b' with
  | int o i | real o r | str o s | nil o => exact rebuilds_of_isGround rfl h
  | wildcard o =>
      cases h
      exact ⟨[t], rfl, fun vars _ rest => ⟨t, rfl, rfl⟩⟩
  | var o x c _ => exact rebuilds_var hp h
  | cons o p q ihp ihq =>
      by_cases hpq : (cons o p q).isGround
      · exact rebuilds_of_isGround hpq h
      · obtain ⟨l, r, b₁, hshape, hl, hr⟩ := (matchTerm_cons_iff hpq).mp h
        have hparts := ht.shape
        have hgrounds := isGround_shape hground
        rw [hshape] at hparts hgrounds
        obtain ⟨hwl, hwr, htail⟩ := hparts
        obtain ⟨hgl, hgr⟩ := Bool.and_eq_true_iff.mp hgrounds
        have hpair := (ihp hp.1 hwl hgl hl).both (ihq hp.2 hwr hgr hr) (.of_matchTerm hr)
        obtain ⟨caps, hcaps, hbuild⟩ := hpair
        refine ⟨caps, hcaps, fun vars hvars rest => ?_⟩
        obtain ⟨u, v, mid, hu, hv, hubare, hvbare⟩ := hbuild vars hvars rest
        have hlist : v.isList := by
          rw [← isList_bare, hvbare, isList_bare]
          exact isList_of_isTail htail hgr
        refine ⟨_, (build_cons_iff hpq).mpr ⟨u, v, mid, hu, hv, hlist, rfl⟩, ?_⟩
        rw [bare_make, bare_eq_ofShape t, hshape, Shape.map, Shape.map, hubare, hvbare]
  | appl o p q ihp ihq =>
      by_cases hpq : (appl o p q).isGround
      · exact rebuilds_of_isGround hpq h
      · obtain ⟨l, r, b₁, hshape, hl, hr⟩ := (matchTerm_appl_iff hpq).mp h
        have hparts := ht.shape
        have hgrounds := isGround_shape hground
        rw [hshape] at hparts hgrounds
        obtain ⟨hwl, hwr, hfunctor, htail⟩ := hparts
        obtain ⟨hgl, hgr⟩ := Bool.and_eq_true_iff.mp hgrounds
        have hpair := (ihp hp.1 hwl hgl hl).both (ihq hp.2 hwr hgr hr) (.of_matchTerm hr)
        obtain ⟨caps, hcaps, hbuild⟩ := hpair
        refine ⟨caps, hcaps, fun vars hvars rest => ?_⟩
        obtain ⟨u, v, mid, hu, hv, hubare, hvbare⟩ := hbuild vars hvars rest
        have hstr : u.toStr?.isNone = false := by
          rw [← toStr?_bare, hubare, toStr?_bare]
          exact toStr?_of_isFunctor hfunctor hgl
        have hlist : v.isList := by
          rw [← isList_bare, hvbare, isList_bare]
          exact isList_of_isTail htail hgr
        refine ⟨_, (build_appl_iff hpq).mpr ⟨u, v, mid, hu, hstr, hv, hlist, rfl⟩, ?_⟩
        rw [bare_make, bare_eq_ofShape t, hshape, Shape.map, Shape.map, hubare, hvbare]
  | annotated o p q ihp ihq =>
      by_cases hpq : (annotated o p q).isGround
      · exact rebuilds_of_isGround hpq h
      · obtain ⟨b₁, hbody, hannos⟩ := (matchTerm_annotated_iff hpq).mp h
        obtain ⟨hwas, hgas, hlas⟩ := wellFormed_annotations ht hground
        have hpair :=
          (ihp hp.1 ht hground hbody).both (ihq hp.2 hwas hgas hannos) (.of_matchTerm hannos)
        obtain ⟨caps, hcaps, hbuild⟩ := hpair
        refine ⟨caps, hcaps, fun vars hvars rest => ?_⟩
        obtain ⟨u, v, mid, hu, hv, hubare, hvbare⟩ := hbuild vars hvars rest
        have hlist : v.isList := by rw [← isList_bare, hvbare, isList_bare, hlas]
        obtain ⟨w, hset⟩ := setAnnotations_of_isList u hlist
        refine ⟨w, (build_annotated_iff hpq).mpr ⟨u, v, mid, hu, hv, hset⟩, ?_⟩
        rw [bare_eq_of_shape_eq (shape_of_setAnnotations hset), hubare]

/-- Building undoes matching: with what matching a ground term has found out, the
pattern is built as an equivalent term, and nothing captured is left over. -/
theorem build_of_matchTerm (hp : p.ConstraintsCaptureless) (ht : t.WellFormed)
    (hground : t.isGround) (hb : b.captures = []) (h : p.matchTerm t b = (true, b')) :
    ∃ u, p.build b'.lookup b'.captures = (.ok u, []) ∧ u.equivalent t := by
  obtain ⟨caps, hcaps, hbuild⟩ := rebuilds_of_matchTerm hp ht hground h
  have hfound : b'.FoundBy b'.lookup := fun x v hv => congrArg Except.ok hv
  obtain ⟨u, hu, hbare⟩ := hbuild b'.lookup hfound []
  refine ⟨u, ?_, equivalent_of_bare hbare⟩
  rw [hcaps, hb, List.nil_append, ← List.append_nil caps]
  exact hu

theorem build_of_matchTerm_nonlinear :
    ∃ (p t : Term) (b : Bindings), p.ConstraintsCaptureless ∧ t.WellFormed ∧ t.isGround ∧
      p.matchTerm t .empty = (true, b) ∧
      ∃ u, p.build b.lookup b.captures = (.ok u, []) ∧ u.equivalent t := by
  -- the pattern `_(x,*_){x}` and the term `C(1,2){1}`
  let x : Term := .var .derived "x" (.wildcard .derived)
  let one : Term := .int .derived 1
  let tail : Term := .cons .derived (.int .derived 2) .empty
  let p : Term := .annotated .derived
    (.appl .derived (.wildcard .derived) (.cons .derived x (.wildcard .derived)))
    (.cons .derived x .empty)
  let t : Term := .annotated .derived
    (.appl .derived (.str .derived "C") (.cons .derived one tail)) (.cons .derived one .empty)
  have hp : p.ConstraintsCaptureless := ⟨⟨trivial, .inl rfl, trivial⟩, .inl rfl, trivial⟩
  have ht : t.WellFormed :=
    ⟨⟨trivial, ⟨trivial, ⟨trivial, trivial, rfl⟩, rfl⟩, rfl, rfl⟩,
      rfl, ⟨trivial, trivial, rfl⟩, rfl⟩
  have h : p.matchTerm t .empty = (true, ⟨⟨[("x", one)]⟩, [.str .derived "C", tail]⟩) := rfl
  exact ⟨p, t, _, hp, ht, rfl, h, build_of_matchTerm hp ht rfl rfl h⟩

/-- Matching succeeds and finds, up to annotations, the terms that were taken and the
values that were looked up, for all variables of the pattern and no others. -/
structure Rematches (vars : Lookup) (p t : Term) (b : Bindings) (taken : List Term)
    (b' : Bindings) : Prop where
  succeeds : p.matchTerm t b = (true, b')
  captures : ∃ cs, b'.captures = b.captures ++ cs ∧ List.Forall₂ (·.equivalent ·) cs taken
  values : b'.AgreesWith vars
  bound : ∀ x, (b'.get? x).isSome ↔ (b.get? x).isSome ∨ x ∈ p.vars

variable {vars : Lookup} {caps rest : List Term}

theorem exists_rematches_of_isGround (hp : p.WellFormed) (hground : p.isGround)
    (h : p.build vars caps = (.ok t, rest)) (hb : b.AgreesWith vars) {t' : Term}
    (hshape : t'.shape = t.shape)
    (hannos : p.annotations.isSome → t'.annotations = t.annotations) :
    ∃ taken b', caps = taken ++ rest ∧ Rematches vars p t' b taken b' := by
  rw [build_of_isGround hground] at h
  cases h
  have hmatch : p.matchTerm t' b = (true, b) := by
    refine matchTerm_self hp hground hshape (fun as has => ?_) b
    rw [hannos (by rw [has]; rfl), has]
  refine ⟨[], b, rfl, hmatch, ⟨[], (List.append_nil _).symm, .nil⟩, hb, ?_⟩
  intro x
  simp [not_mem_vars_of_isGround hground]

theorem exists_rematches_var {o : Origin} {x : String} {c : Term}
    (hplain : (var o x c).PlainVars) (h : (var o x c).build vars caps = (.ok t, rest))
    (hb : b.AgreesWith vars) {t' : Term} (hshape : t'.shape = t.shape) :
    ∃ taken b', caps = taken ++ rest ∧ Rematches vars (var o x c) t' b taken b' := by
  obtain ⟨hx, rfl⟩ := Building.valueOf_eq_ok.mp h
  have hbare := bare_eq_of_shape_eq hshape
  have hvars (y : String) : y ∈ (var o x c).vars ↔ y = x := by
    rw [mem_vars_var, vars_of_isUnconstrained hplain]
    exact or_iff_left List.not_mem_nil
  cases hbx : b.get? x with
  | some v =>
      obtain ⟨w, hw, hequiv⟩ := hb x v hbx
      rw [hx] at hw
      cases hw
      have hmatch : (var o x c).matchTerm t' b = (true, b) := by
        refine matchTerm_var_iff.mpr (.inl ⟨v, hbx, ?_, rfl⟩)
        rw [equivalent_iff, hbare, ← equivalent_iff]
        exact hequiv
      refine ⟨[], b, rfl, hmatch, ⟨[], (List.append_nil _).symm, .nil⟩, hb, ?_⟩
      intro y
      rw [hvars]
      by_cases hy : y = x <;> simp [hy, hbx]
  | none =>
      have hmatch : (var o x c).matchTerm t' b = (true, b.bind x t') :=
        matchTerm_var_iff.mpr (.inr ⟨hbx, b, .inl ⟨hplain, rfl⟩, rfl⟩)
      refine ⟨[], b.bind x t', rfl, hmatch, ⟨[], (List.append_nil _).symm, .nil⟩, ?_, ?_⟩
      · intro y v hv
        rw [Bindings.get?_bind] at hv
        split at hv
        · rename_i hy
          cases hv
          exact ⟨t, hy ▸ hx, equivalent_of_bare hbare⟩
        · exact hb y v hv
      · intro y
        rw [hvars, Bindings.get?_bind]
        by_cases hy : y = x <;> simp [hy]

/-- Two patterns that were built one after the other are matched one after the other. -/
theorem Rematches.both {pq l r : Term} {b₁ : Bindings} {takenl takenr : List Term}
    (hl : Rematches vars p l b takenl b₁) (hr : Rematches vars q r b₁ takenr b')
    (hvars : ∀ x, x ∈ pq.vars ↔ x ∈ p.vars ∨ x ∈ q.vars)
    (h : pq.matchTerm t b = (true, b')) : Rematches vars pq t b (takenl ++ takenr) b' where
  succeeds := h
  captures := by
    obtain ⟨csl, hcsl, hequivl⟩ := hl.captures
    obtain ⟨csr, hcsr, hequivr⟩ := hr.captures
    refine ⟨csl ++ csr, ?_, List.rel_append hequivl hequivr⟩
    rw [hcsr, hcsl, List.append_assoc]
  values := hr.values
  bound x := by rw [hr.bound, hl.bound, hvars, or_assoc]

/-- What is built from a list node is a list node. -/
theorem isCons_of_build (hp : p.isCons) (h : p.build vars caps = (.ok t, rest)) : t.isCons := by
  induction p generalizing t caps rest with
  | cons o p q =>
      by_cases hground : (cons o p q).isGround
      · rw [build_of_isGround hground] at h
        cases h
        exact hp
      · obtain ⟨l, r, mid, -, -, -, rfl⟩ := (build_cons_iff hground).mp h
        rw [isCons, shape_make]
  | annotated o p q ihp _ =>
      by_cases hground : (annotated o p q).isGround
      · rw [build_of_isGround hground] at h
        cases h
        exact hp
      · obtain ⟨u, as, mid, hu, -, hset⟩ := (build_annotated_iff hground).mp h
        have hcons := ihp hp hu
        rwa [isCons, ← shape_of_setAnnotations hset] at hcons
  | _ => cases hp

theorem rematches_of_build (hp : p.WellFormed) (hplain : p.PlainVars)
    (h : p.build vars caps = (.ok t, rest)) (hb : b.AgreesWith vars) {t' : Term}
    (hshape : t'.shape = t.shape)
    (hannos : p.annotations.isSome → t'.annotations = t.annotations) :
    ∃ taken b', caps = taken ++ rest ∧ Rematches vars p t' b taken b' := by
  induction p generalizing t t' b caps rest with
  | int o i | real o r | str o s | nil o =>
      exact exists_rematches_of_isGround hp rfl h hb hshape hannos
  | wildcard o =>
      obtain rfl := Building.takeCapture_eq_ok.mp h
      have hequiv := equivalent_of_bare (bare_eq_of_shape_eq hshape)
      refine ⟨[t], b.capture t', rfl, rfl, ⟨[t'], rfl, .cons hequiv .nil⟩, hb, ?_⟩
      intro x
      rw [Bindings.get?_capture]
      exact (or_iff_left List.not_mem_nil).symm
  | var o x c _ => exact exists_rematches_var hplain h hb hshape
  | cons o p q ihp ihq =>
      by_cases hpq : (cons o p q).isGround
      · exact exists_rematches_of_isGround hp hpq h hb hshape hannos
      · obtain ⟨l, r, mid, hbl, hbr, -, rfl⟩ := (build_cons_iff hpq).mp h
        rw [shape_make] at hshape
        obtain ⟨takenl, b₁, rfl, hl⟩ := ihp hp.1 hplain.1 hbl hb rfl fun _ => rfl
        obtain ⟨takenr, b', rfl, hr⟩ := ihq hp.2.1 hplain.2 hbr hl.values rfl fun _ => rfl
        have hmatch := (matchTerm_cons_iff hpq).mpr ⟨l, r, b₁, hshape, hl.succeeds, hr.succeeds⟩
        refine ⟨takenl ++ takenr, b', (List.append_assoc ..).symm, ?_⟩
        exact hl.both hr (fun _ => mem_vars_cons) hmatch
  | appl o p q ihp ihq =>
      by_cases hpq : (appl o p q).isGround
      · exact exists_rematches_of_isGround hp hpq h hb hshape hannos
      · obtain ⟨l, r, mid, hbl, -, hbr, -, rfl⟩ := (build_appl_iff hpq).mp h
        rw [shape_make] at hshape
        obtain ⟨takenl, b₁, rfl, hl⟩ := ihp hp.1 hplain.1 hbl hb rfl fun _ => rfl
        obtain ⟨takenr, b', rfl, hr⟩ := ihq hp.2.1 hplain.2 hbr hl.values rfl fun _ => rfl
        have hmatch := (matchTerm_appl_iff hpq).mpr ⟨l, r, b₁, hshape, hl.succeeds, hr.succeeds⟩
        refine ⟨takenl ++ takenr, b', (List.append_assoc ..).symm, ?_⟩
        exact hl.both hr (fun _ => mem_vars_appl) hmatch
  | annotated o p q ihp ihq =>
      by_cases hpq : (annotated o p q).isGround
      · exact exists_rematches_of_isGround hp hpq h hb hshape hannos
      · obtain ⟨u, as, mid, hu, has, hset⟩ := (build_annotated_iff hpq).mp h
        rw [setAnnotations_of_isCons u (isCons_of_build hp.2.2.2 has)] at hset
        cases hset
        rw [shape_make] at hshape
        -- the annotations of `u` were replaced, so only its shape is known to be matched
        have hnone : p.annotations.isSome → t'.annotations = u.annotations := by
          rw [hp.2.1]
          exact nofun
        obtain ⟨takenl, b₁, rfl, hl⟩ := ihp hp.1 hplain.1 hu hb hshape hnone
        obtain ⟨takenr, b', rfl, hr⟩ := ihq hp.2.2.1 hplain.2 has hl.values rfl fun _ => rfl
        have hmatch : (annotated o p q).matchTerm t' b = (true, b') := by
          refine (matchTerm_annotated_iff hpq).mpr ⟨b₁, hl.succeeds, ?_⟩
          rw [hannos rfl, annotations_make]
          exact hr.succeeds
        refine ⟨takenl ++ takenr, b', (List.append_assoc ..).symm, ?_⟩
        exact hl.both hr (fun _ => mem_vars_annotated) hmatch

/-- Matching undoes building: a term that was built matches its pattern. The variables
of the pattern, and no others, have values equivalent to those that were looked up, and
the captured terms are equivalent to those that were taken, in the same order. -/
theorem matchTerm_of_build (hp : p.WellFormed) (hplain : p.PlainVars) {σ : Bindings}
    (h : p.build σ.lookup caps = (.ok t, rest)) :
    ∃ taken b, caps = taken ++ rest ∧ p.matchTerm t .empty = (true, b) ∧
      (∀ x, (b.get? x).isSome ↔ x ∈ p.vars) ∧
      (∀ x v, b.get? x = some v → ∃ w, σ.get? x = some w ∧ v.equivalent w) ∧
      List.Forall₂ (·.equivalent ·) b.captures taken := by
  have hempty : Bindings.empty.AgreesWith σ.lookup := fun x v hv => nomatch hv
  obtain ⟨taken, b, hcaps, hmatch⟩ := rematches_of_build hp hplain h hempty rfl fun _ => rfl
  refine ⟨taken, b, hcaps, hmatch.succeeds, fun x => ?_, fun x v hv => ?_, ?_⟩
  · rw [hmatch.bound]
    exact or_iff_right nofun
  · obtain ⟨w, hw, hequiv⟩ := hmatch.values x v hv
    exact ⟨w, Except.ok.inj hw, hequiv⟩
  · obtain ⟨cs, hcs, hequiv⟩ := hmatch.captures
    rw [hcs]
    exact hequiv

theorem matchTerm_of_build_nonlinear :
    ∃ (p t : Term) (σ : Bindings) (caps rest : List Term), p.WellFormed ∧ p.PlainVars ∧
      p.build σ.lookup caps = (.ok t, rest) ∧
      ∃ taken b, caps = taken ++ rest ∧ p.matchTerm t .empty = (true, b) ∧
        (∀ x, (b.get? x).isSome ↔ x ∈ p.vars) ∧
        (∀ x v, b.get? x = some v → ∃ w, σ.get? x = some w ∧ v.equivalent w) ∧
        List.Forall₂ (·.equivalent ·) b.captures taken := by
  -- the pattern `_(x{_},x){x}`, where `x` is 1, and the captured terms "C", 7 and 5
  let x : Term := .var .derived "x" (.wildcard .derived)
  let one : Term := .int .derived 1
  let seven : Term := .int .derived 7
  let name : Term := .str .derived "C"
  let p : Term := .annotated .derived
    (.appl .derived (.wildcard .derived)
      (.cons .derived (.annotated .derived x (.cons .derived (.wildcard .derived) .empty))
        (.cons .derived x .empty)))
    (.cons .derived x .empty)
  let t : Term := .annotated .derived
    (.appl .derived name
      (.cons .derived (.annotated .derived one (.cons .derived seven .empty))
        (.cons .derived one .empty)))
    (.cons .derived one .empty)
  let σ : Bindings := Bindings.empty.bind "x" one
  have hp : p.WellFormed :=
    ⟨⟨trivial, ⟨⟨trivial, rfl, ⟨trivial, trivial, rfl⟩, rfl⟩, ⟨trivial, trivial, rfl⟩, rfl⟩,
        rfl, rfl⟩,
      rfl, ⟨trivial, trivial, rfl⟩, rfl⟩
  have hplain : p.PlainVars := ⟨⟨trivial, ⟨rfl, trivial, trivial⟩, rfl, trivial⟩, rfl, trivial⟩
  have h : p.build σ.lookup [name, seven, .int .derived 5] = (.ok t, [.int .derived 5]) := rfl
  exact ⟨p, t, σ, _, _, hp, hplain, h, matchTerm_of_build hp hplain h⟩

end Term

end StrategicRewriting
