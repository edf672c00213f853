import StrategicRewriting.Proofs.Context.Frames
import StrategicRewriting.Proofs.Pattern.AnnotationFree
import StrategicRewriting.Proofs.Strategy.Building
import StrategicRewriting.Proofs.Strategy.Depth

/-!
Annotations do not influence strategies that neither look at annotations nor at tables:
on equivalent terms, in contexts with equivalent values, they do the same up to
annotations.
-/
namespace StrategicRewriting

/-- Errors of the same kind, about equivalent terms or about the same name. -/
inductive Fatal.Equivalent : Fatal → Fatal → Prop
  | refl (e : Fatal) : Equivalent e e
  | notAList {t t' : Term} : t.equivalent t' → Equivalent (.notAList t) (.notAList t')
  | notAString {t t' : Term} : t.equivalent t' → Equivalent (.notAString t) (.notAString t')
  | notAnInt {t t' : Term} : t.equivalent t' → Equivalent (.notAnInt t) (.notAnInt t')
  | notAPair {t t' : Term} : t.equivalent t' → Equivalent (.notAPair t) (.notAPair t')

inductive Outcome.Equivalent : Outcome Term → Outcome Term → Prop
  | ok {t t' : Term} : t.equivalent t' → Equivalent (.ok t) (.ok t')
  | failure : Equivalent .failure .failure
  | fatal {e e' : Fatal} : e.Equivalent e' → Equivalent (.fatal e) (.fatal e')

/-- The frames declare the same variables, with equivalent values or without values, and
the same tables. -/
structure Frame.Equivalent (f f' : Frame) : Prop where
  vars (x : String) :
    Option.Rel (Option.Rel fun t t' => t.equivalent t') (f.vars.get? x) (f'.vars.get? x)
  tables (name : String) : name ∈ f.tables.names ↔ name ∈ f'.tables.names

def Context.Equivalent : Context → Context → Prop :=
  Context.Framewise Frame.Equivalent

namespace Strategy

def readsAnnotations : Strategy → Bool
  | setAnno _ | getAnno _ | removeAnno _ | strip => true
  | _ => false

def usesTables : Strategy → Bool
  | tables .. | tableSet _ | tableAdd _ | tableGet _ | tableErase _ | tableClear _ | join ..
  | iterate .. => true
  | _ => false

/-- Neither annotations nor tables occur anywhere in the strategy. -/
def AnnotationFree (s : Strategy) : Prop :=
  s.Everywhere fun s => s.readsAnnotations = false ∧ s.usesTables = false ∧
    ∀ p ∈ s.embedded, p.AnnotationFree

theorem usesTables_of_mem_tableNames {s : Strategy} {name : String} (h : name ∈ s.tableNames) :
    s.usesTables := by
  cases s with
  | tableSet _ | tableAdd _ | tableGet _ | tableErase _ | tableClear _ | join _ _ _
  | iterate _ _ => rfl
  | _ => cases h

end Strategy

namespace Frame.Equivalent

theorem refl (f : Frame) : Equivalent f f := by
  refine ⟨fun x => ?_, fun _ => .rfl⟩
  cases f.vars.get? x with
  | none => exact .none
  | some v =>
      cases v with
      | none => exact .some .none
      | some t => exact .some (.some t.equivalent_refl)

variable {f f' : Frame} {v v' : Option Term}

theorem insert (h : Equivalent f f') (x : String)
    (hv : Option.Rel (fun t t' => t.equivalent t') v v') :
    Equivalent { f with vars := f.vars.insert x v } { f' with vars := f'.vars.insert x v' } := by
  refine ⟨fun y => ?_, h.tables⟩
  rw [NameMap.get?_insert, NameMap.get?_insert]
  split
  · exact .some hv
  · exact h.vars y

theorem setVar? (h : Equivalent f f') (x : String)
    (hv : Option.Rel (fun t t' => t.equivalent t') v v') :
    Option.Rel Equivalent (f.setVar? x v) (f'.setVar? x v') := by
  have hx := h.vars x
  rw [Frame.setVar?, Frame.setVar?]
  generalize f.vars.get? x = a at hx
  generalize f'.vars.get? x = b at hx
  cases hx with
  | some _ => exact .some (h.insert x hv)
  | none => exact .none

end Frame.Equivalent

namespace Term

variable {t t' : Term}

theorem equivalent_replaced {new new' : List (Option Term)} (ht : t.equivalent t')
    (hnew : List.Forall₂ (Option.Rel fun t t' => t.equivalent t') new new') :
    (Spine.replaced t new).equivalent (Spine.replaced t' new') := by
  induction t using spine_induction generalizing t' new new' with
  | cons t hd tl hshape ih =>
      cases hnew with
      | nil => rwa [Spine.replaced_nil, Spine.replaced_nil]
      | cons hn hnew =>
          have hrel := equivalent_iff_shape.mp ht
          generalize hshape' : t'.shape = k' at hrel
          rw [hshape] at hrel
          cases hrel with
          | cons hhd htl =>
              cases hn with
              | none =>
                  rw [Spine.replaced_none hshape, Spine.replaced_none hshape']
                  exact ih htl hnew
              | some hy =>
                  rw [equivalent_iff_shape, Spine.shape_replaced_some hshape,
                    Spine.shape_replaced_some hshape']
                  exact .cons hy (ih htl hnew)
  | other t hshape =>
      have hshape' := (equivalent_iff_shape.mp ht).ne_cons hshape
      rwa [Spine.replaced_of_not_cons hshape, Spine.replaced_of_not_cons hshape']

theorem equivalent_listOnto {ts ts' : List Term}
    (h : List.Forall₂ (fun t t' => t.equivalent t') ts ts') :
    (listOnto empty ts).equivalent (listOnto empty ts') := by
  induction h with
  | nil => exact equivalent_refl _
  | cons ht _ ih => exact equivalent_iff_shape.mpr (.cons ht ih)

end Term

namespace Correspondence

/-- Runs of strategies that do not look at annotations, in states that differ in
annotations only. -/
def upToAnnotations : Correspondence where
  state σ τ := σ.context.Equivalent τ.context
  term t t' := t.equivalent t'
  error := Fatal.Equivalent
  frame := Frame.Equivalent
  table _ _ := False
  bindings := Bindings.Equivalent
  strategy := Strategy.AnnotationFree
  moves _ _ := True
  moves_refl _ := trivial
  moves_trans _ _ := trivial

theorem upToAnnotations_constructive : upToAnnotations.Constructive Term.AnnotationFree where
  shape := Term.equivalent_iff_shape.mp
  emptyCaptures := .refl _
  unboundVar _ := .refl _
  notAList := .notAList
  notAString := .notAString
  consParts h := h
  applParts h := h
  annotatedParts h := h.elim
  ground {p} _ _ := p.equivalent_refl
  cons hh ht _ := Term.equivalent_iff_shape.mpr (.cons hh ht)
  appl hf _ has _ := Term.equivalent_iff_shape.mpr (.appl hf has)
  setAnnotations h _ _ := h.elim

theorem upToAnnotations_get {c c' : Context} (h : c.Equivalent c') (x : String) :
    upToAnnotations.Results (Option.Rel upToAnnotations.term) (c.get x) (c'.get x) := by
  have hx := Context.Framewise.findSome? (R := Frame.Equivalent) (fun _ _ hf => hf.vars x) h
  rw [Context.get, Context.get]
  generalize List.findSome? _ c.frames = v at hx
  generalize List.findSome? _ c'.frames = v' at hx
  cases hx with
  | some hv => exact .ok hv
  | none => exact .error (.refl _)

theorem upToAnnotations_assign {c c' : Context} (h : c.Equivalent c') (x : String)
    {v v' : Option Term} (hv : Option.Rel upToAnnotations.term v v') :
    upToAnnotations.Results Context.Equivalent (c.assign x v) (c'.assign x v') := by
  have hupdate := Context.Framewise.update? (R := Frame.Equivalent)
    (fun _ _ hf => hf.setVar? x hv) h
  rw [Context.assign, Context.assign]
  generalize c.update? _ = d at hupdate
  generalize c'.update? _ = d' at hupdate
  cases hupdate with
  | some hd => exact .ok hd
  | none => exact .error (.refl _)

theorem upToAnnotations_lawful : upToAnnotations.Lawful where
  part h hpart := h.part hpart
  unsetRec := .refl _
  notAList := .notAList
  notAString := .notAString
  notAnInt := .notAnInt
  notAPair := .notAPair
  shape := Term.equivalent_iff_shape.mp
  renew {t t' s s'} _ _ hs := by
    refine Term.equivalent_iff_shape.mpr ?_
    rwa [Term.shape_renew, Term.shape_renew]
  rebuild {t t' new new'} ht hnew := by
    refine Term.equivalent_iff_shape.mpr ?_
    rw [Spine.shape_rebuild, Spine.shape_rebuild]
    exact Term.equivalent_iff_shape.mp (Term.equivalent_replaced ht hnew)
  int i := Term.equivalent_refl _
  list := Term.equivalent_listOnto
  equivalent {t t' u u'} ht hu := by
    rw [Bool.eq_iff_iff, Term.equivalent_iff, Term.equivalent_iff, Term.equivalent_iff.mp ht,
      Term.equivalent_iff.mp hu]
  setAnno hs _ := absurd hs.here.1 nofun
  getAnno hs _ := absurd hs.here.1 nofun
  removeAnno hs _ := absurd hs.here.1 nofun
  strip hs _ := absurd hs.here.1 nofun
  noBindings := .empty
  bindVar x hb ht := hb.bind x ht
  getVar x hb := hb.get? x
  matchTerm hs hp ht hb :=
    have h := Term.matchTerm_equivalent (hs.here.2.2 _ hp) ht hb
    ⟨h.1, fun _ => h.2⟩
  build {s p b b'} hs hp hb := by
    refine simulates_read_iff.mpr fun σ τ hστ => ?_
    have hvars (x : String) : upToAnnotations.Results (Option.Rel upToAnnotations.term)
        (b.lookup.orElse σ.context.get x) (b'.lookup.orElse τ.context.get x) := by
      have hx := hb.get? x
      simp only [Lookup.orElse, Bindings.lookup]
      generalize b.get? x = v at hx
      generalize b'.get? x = v' at hx
      cases hx with
      | some hv => exact .ok (.some hv)
      | none => exact upToAnnotations_get hστ x
    exact (upToAnnotations_constructive.build hvars (hs.here.2.2 p hp) _ _ hb.captures).1
  declaring names := .refl _
  declaringTables hs := absurd hs.here.2.1 nofun
  bind x hf ht := hf.insert x (.some ht)
  push hστ hf := Context.Framewise.push hστ hf
  pop hστ := Context.Framewise.pop hστ
  moves_pop _ := trivial
  get x := simulates_read_iff.mpr fun _ _ hστ => upToAnnotations_get hστ x
  assign x hv := simulates_update_iff.mpr fun _ _ hστ =>
    (upToAnnotations_assign hστ x hv).mono fun _ _ hc => ⟨hc, trivial⟩
  table hs hname := absurd (Strategy.usesTables_of_mem_tableNames hname) (by simp [hs.here.2.1])
  setTable hs hname _ :=
    absurd (Strategy.usesTables_of_mem_tableNames hname) (by simp [hs.here.2.1])
  clear hs := absurd hs.here.2.1 nofun
  insert hT _ _ := hT.elim
  erase hT _ := hT.elim
  entry hT _ := hT.elim
  union hT _ := hT.elim
  inter hT _ := hT.elim
  equalTables hT _ := hT.elim
  ruleApplied _ _ := fun _ _ hστ => .ok rfl hστ trivial
  trace _ _ := fun _ _ hστ => .ok rfl hστ trivial
  fixpoint := fun _ _ hστ => .ok rfl hστ trivial

end Correspondence

namespace Strategy

variable {s : Strategy} {t t' : Term} {σ σ' τ τ' : State} {o o' : Outcome Term}

theorem Ends.exists_equivalent (hs : s.AnnotationFree) (ht : t.equivalent t')
    (hσ : σ.context.Equivalent σ'.context) (h : Ends [] s t σ o τ) :
    ∃ o' τ', Ends [] s t' σ' o' τ' ∧ o.Equivalent o' ∧ τ.context.Equivalent τ'.context := by
  obtain ⟨n, hn, ho⟩ := h
  have hboth := simulates_apply Correspondence.upToAnnotations_lawful (Nat.le_refl n) (ρ := [])
    nofun hs ht σ σ' hσ
  rw [hn] at hboth
  generalize hn' : s.apply n [] t' σ' = r at hboth
  cases hboth with
  | ok hu hτ _ => exact ⟨_, _, ⟨n, hn', nofun⟩, .ok hu, hτ⟩
  | failure hτ _ => exact ⟨_, _, ⟨n, hn', nofun⟩, .failure, hτ⟩
  | fatal he hτ _ => exact ⟨_, _, ⟨n, hn', nofun⟩, .fatal he, hτ⟩
  | exhausted => exact absurd rfl ho

/-- Annotations influence neither whether such a strategy ends nor, up to annotations,
what it ends with. -/
theorem annotations_irrelevant (hs : s.AnnotationFree) (ht : t.equivalent t')
    (hσ : σ.context.Equivalent σ'.context) (h : Ends [] s t σ o τ) :
    (∃ o' τ', Ends [] s t' σ' o' τ') ∧
      ∀ o' τ', Ends [] s t' σ' o' τ' →
        o.Equivalent o' ∧ τ.context.Equivalent τ'.context := by
  obtain ⟨o₁, τ₁, h₁, ho, hτ⟩ := h.exists_equivalent hs ht hσ
  refine ⟨⟨o₁, τ₁, h₁⟩, fun o' τ' h' => ?_⟩
  obtain ⟨rfl, rfl⟩ := h₁.unique h'
  exact ⟨ho, hτ⟩

theorem annotations_irrelevant_nonlinear :
    ∃ (s : Strategy) (t t' : Term) (σ σ' τ τ' : State) (e e' : Fatal), e ≠ e' ∧
      s.AnnotationFree ∧ t.equivalent t' ∧ σ.context.Equivalent σ'.context ∧
      Ends [] s t σ (.fatal e) τ ∧ Ends [] s t' σ' (.fatal e') τ' ∧
      e.Equivalent e' ∧ τ.context.Equivalent τ'.context := by
  -- `[x, x]` is matched against `[A{P}, A]` and `[A, A{P}]`, then `F(x)` is not a list
  let x : Term := .var .derived "x" (.wildcard .derived)
  let app (f : String) (ts : List Term) : Term :=
    .appl .derived (.str .derived f) (.listOnto .empty ts)
  let a : Term := app "A" []
  let a' : Term := .annotated .derived a (.listOnto .empty [app "P" []])
  let s : Strategy :=
    seq (pattern (.listOnto .empty [x, x])) (seq (build (app "F" [x])) (map ident))
  let t : Term := .listOnto .empty [a', a]
  let t' : Term := .listOnto .empty [a, a']
  let σ : State := ⟨⟨⟨[.declaring ["x"]]⟩, Frame.empty.bind "y" a⟩, []⟩
  let σ' : State := ⟨⟨⟨[.declaring ["x"]]⟩, Frame.empty.bind "y" a'⟩, []⟩
  have hpattern : (pattern (.listOnto .empty [x, x])).AnnotationFree :=
    .intro ⟨rfl, rfl, List.forall_mem_singleton.mpr ⟨trivial, trivial, trivial⟩⟩ nofun
  have hbuild : (build (app "F" [x])).AnnotationFree :=
    .intro ⟨rfl, rfl, List.forall_mem_singleton.mpr ⟨trivial, trivial, trivial⟩⟩ nofun
  have hmap : (map ident).AnnotationFree :=
    .intro ⟨rfl, rfl, nofun⟩ (List.forall_mem_singleton.mpr (.intro ⟨rfl, rfl, nofun⟩ nofun))
  have hseq {s₁ s₂ : Strategy} (h₁ : s₁.AnnotationFree) (h₂ : s₂.AnnotationFree) :
      (seq s₁ s₂).AnnotationFree :=
    .intro ⟨rfl, rfl, nofun⟩ (List.forall_mem_cons.mpr ⟨h₁, List.forall_mem_singleton.mpr h₂⟩)
  have hs : s.AnnotationFree := hseq hpattern (hseq hbuild hmap)
  have ht : t.equivalent t' := by decide +kernel
  have hσ : σ.context.Equivalent σ'.context := by
    refine .cons (.refl _) (.cons ?_ .nil)
    exact (Frame.Equivalent.refl .empty).insert "y" (.some (by decide +kernel))
  have h : (s.apply 9 [] t σ).1 = .fatal (.notAList (app "F" [a'])) := by decide +kernel
  have h' : (s.apply 9 [] t' σ').1 = .fatal (.notAList (app "F" [a])) := by decide +kernel
  have hends := Ends.of_fst h nofun
  have hends' := Ends.of_fst h' nofun
  obtain ⟨ho, hτ⟩ := (annotations_irrelevant hs ht hσ hends).2 _ _ hends'
  cases ho with
  | fatal he =>
      exact ⟨s, t, t', σ, σ', _, _, _, _, by decide +kernel, hs, ht, hσ, hends, hends', he, hτ⟩

end Strategy

end StrategicRewriting
