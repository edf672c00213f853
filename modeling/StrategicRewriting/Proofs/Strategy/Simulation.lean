import StrategicRewriting.Proofs.Strategy.Elementary

/-!
Two runs of a strategy, from corresponding terms and states. All strategies respect a
lawful correspondence, to whatever depth they nest. What a single run preserves is the
case of a run that corresponds to itself, so it needs no induction of its own.
-/
namespace StrategicRewriting

namespace Term

variable {t l r : Term}

theorem renew_cons (h : t.shape = .cons l r) (l' r' : Term) :
    (if l'.same l && r'.same r then t else t.withShape (.cons l' r')) = t.renew (.cons l' r') := by
  simp only [renew, h, Shape.sameParts]

theorem renew_appl (h : t.shape = .appl l r) (l' r' : Term) :
    (if l'.same l && r'.same r then t else t.withShape (.appl l' r')) = t.renew (.appl l' r') := by
  simp only [renew, h, Shape.sameParts]

theorem renew_args (h : t.shape = .appl l r) (r' : Term) :
    (if r'.same r then t else t.withShape (.appl l r')) = t.renew (.appl l r') := by
  have hsame : l.same l = true := same_iff_eq.mpr rfl
  simp only [renew, h, Shape.sameParts, hsame, Bool.true_and]

end Term

namespace Correspondence

/-- Both elements are kept, and they correspond. -/
def Kept (K : Correspondence) (n n' : Option Term) : Prop :=
  n.isSome ∧ Option.Rel K.term n n'

/-- Both cells have corresponding heads. -/
def Cells (K : Correspondence) (cs cs' : List Cell) : Prop :=
  List.Forall₂ (fun c c' => K.term c.head c'.head) cs cs'

variable {K : Correspondence} {f g : Term → Effect Term} {cs cs' : List Cell} {t t' : Term}

theorem Kept.some {t t' : Term} (h : K.term t t') : K.Kept (some t) (some t') :=
  ⟨rfl, .some h⟩

theorem Cells.kept (h : K.Cells cs cs') :
    List.Forall₂ K.Kept (cs.map (Option.some ·.head)) (cs'.map (Option.some ·.head)) := by
  induction h with
  | nil => exact .nil
  | cons hc _ ih => exact .cons (.some hc) ih

section

variable (h : ∀ t t', K.term t t' → K.Simulates K.term (f t) (g t'))

include h

theorem simulates_mapCells (hcs : K.Cells cs cs') :
    K.Simulates (List.Forall₂ K.Kept) (Spine.mapCells f cs) (Spine.mapCells g cs') := by
  refine .inOrder ?_
  induction hcs with
  | nil => exact .nil
  | cons hc _ ih => exact .cons ((h _ _ hc).map fun _ _ => .some) ih

theorem simulates_filterCells (hcs : K.Cells cs cs') :
    K.Simulates (List.Forall₂ (Option.Rel K.term)) (Spine.filterCells f cs)
      (Spine.filterCells g cs') := by
  refine .inOrder ?_
  induction hcs with
  | nil => exact .nil
  | cons hc _ ih => exact .cons (h _ _ hc).attempt ih

theorem simulates_fetchCells (hcs : K.Cells cs cs') :
    K.Simulates (List.Forall₂ K.Kept) (Spine.fetchCells f cs) (Spine.fetchCells g cs') := by
  induction hcs with
  | nil => exact .failure
  | cons hc hcs ih =>
      refine (h _ _ hc).attempt.bind fun o o' ho => ?_
      cases ho with
      | some hy => exact .pure (.cons (.some hy) (Cells.kept hcs))
      | none => exact ih.bind fun _ _ hnew => .pure (.cons (.some hc) hnew)

theorem simulates_someCells (hcs : K.Cells cs cs') :
    K.Simulates (List.Forall₂ K.Kept) (Spine.someCells f cs) (Spine.someCells g cs') := by
  refine (simulates_filterCells h hcs).bind fun new new' hnew => ?_
  have hany : new.any Option.isSome = new'.any Option.isSome := by
    clear hcs
    induction hnew with
    | nil => rfl
    | cons hn _ ih => cases hn <;> simp [ih]
  have hkept : List.Forall₂ K.Kept
      (List.zipWith (fun c n => n.orElse fun _ => some c.head) cs new)
      (List.zipWith (fun c n => n.orElse fun _ => some c.head) cs' new') := by
    clear hany
    induction hcs generalizing new new' with
    | nil => exact .nil
    | cons hc _ ih =>
        cases hnew with
        | nil => exact .nil
        | cons hn hns =>
            refine .cons ?_ (ih _ _ hns)
            cases hn with
            | some hy => exact .some hy
            | none => exact .some hc
  rw [hany]
  split
  · exact .pure hkept
  · exact .failure

end

theorem simulates_zipCells {fs gs : List (Term → Effect Term)}
    (h : List.Forall₂ (fun f g => ∀ t t', K.term t t' → K.Simulates K.term (f t) (g t')) fs gs)
    (hcs : K.Cells cs cs') :
    K.Simulates (List.Forall₂ K.Kept) (Spine.zipCells fs cs) (Spine.zipCells gs cs') := by
  refine .inOrder ?_
  induction h generalizing cs cs' with
  | nil => exact .nil
  | cons hf _ ih =>
      cases hcs with
      | nil => exact .nil
      | cons hc hcs => exact .cons ((hf _ _ hc).map fun _ _ => .some) (ih hcs)

namespace Lawful

variable {F G : List Cell → Effect (List (Option Term))}

theorem transform (hK : K.Lawful)
    (h : ∀ cs cs', K.Cells cs cs' → K.Simulates (List.Forall₂ (Option.Rel K.term)) (F cs) (G cs'))
    (ht : K.term t t') : K.Simulates K.term (Spine.transform t F) (Spine.transform t' G) := by
  rw [Spine.transform, Spine.transform, hK.isList ht]
  split
  · exact (h _ _ (hK.cells ht)).bind fun _ _ hnew => .pure (hK.rebuild ht hnew)
  · exact .fatal (hK.notAList ht)

theorem transform_kept (hK : K.Lawful)
    (h : ∀ cs cs', K.Cells cs cs' → K.Simulates (List.Forall₂ K.Kept) (F cs) (G cs'))
    (ht : K.term t t') :
    K.Simulates (fun u u' => K.term u u' ∧ u.isList) (Spine.transform t F)
      (Spine.transform t' G) := by
  rw [Spine.transform, Spine.transform]
  cases hlist : t.isList with
  | true =>
      rw [← hK.isList ht, hlist]
      refine (h _ _ (hK.cells ht)).bind fun new new' hnew => ?_
      obtain ⟨hsome, hrel⟩ := (List.forall₂_and_left _ _).mp hnew
      exact .pure ⟨hK.rebuild ht hrel, Spine.isList_rebuild hlist hsome⟩
  | false =>
      rw [← hK.isList ht, hlist]
      exact .fatal (hK.notAList ht)

theorem onChildren (hK : K.Lawful)
    (h : ∀ t t', K.term t t' → K.Simulates (fun u u' => K.term u u' ∧ u.isList) (f t) (g t'))
    {x y : Effect Term} (hxy : K.Simulates K.term x y) (ht : K.term t t') :
    K.Simulates K.term (Spine.onChildren t f x) (Spine.onChildren t' g y) := by
  have hrel := hK.shape ht
  simp only [Spine.onChildren]
  generalize hshape : t.shape = s at hrel
  generalize hshape' : t'.shape = s' at hrel
  cases hrel with
  | nil | cons _ _ => exact (h t t' ht).mono fun _ _ => And.left
  | appl hf has =>
      dsimp only
      rw [hK.isList has]
      split
      · refine (h _ _ has).bind fun new new' hnew => .pure ?_
        rw [Term.renew_args hshape, Term.renew_args hshape']
        exact hK.renew ht (hshape ▸ .args hnew.2) (.appl hf hnew.1)
      · exact hxy
  | _ => exact hxy

end Lawful

end Correspondence

namespace Strategy

variable {K : Correspondence}

/-- One level of the application of a strategy respects the correspondence if the
applications of the strategies inside it do. -/
theorem simulates_step (hK : K.Lawful) {f g : Env → Strategy → Term → Effect Term}
    (hcall : ∀ ρ s t t', (∀ e ∈ ρ, K.strategy e.2) → K.strategy s → K.term t t' →
      K.Simulates K.term (f ρ s t) (g ρ s t'))
    {n m : Nat} (hnm : n ≤ m) {ρ : Env} (hρ : ∀ e ∈ ρ, K.strategy e.2) {s : Strategy}
    (hs : K.strategy s) {t t' : Term} (ht : K.term t t') :
    K.Simulates K.term (step f n ρ s t) (step g m ρ s t') := by
  have hpart (s' : Strategy) (hs' : s' ∈ s.parts) (u u' : Term) (hu : K.term u u') :
      K.Simulates K.term (f ρ s' u) (g ρ s' u') :=
    hcall ρ s' u u' hρ (hK.part hs hs') hu
  cases s with
  | seq a b =>
      refine (hpart a (.head _) t t' ht).bind ?_
      exact hpart b (.tail _ (.head _))
  | choice a b =>
      refine (hpart a (.head _) t t' ht).attempt.bind fun o o' ho => ?_
      cases ho with
      | some hu => exact .pure hu
      | none => exact hpart b (.tail _ (.head _)) t t' ht
  | not a =>
      refine (hpart a (.head _) t t' ht).attempt.bind fun o o' ho => ?_
      cases ho with
      | some _ => exact .failure
      | none => exact .pure ht
  | test a => exact (hpart a (.head _) t t' ht).bind fun _ _ _ => .pure ht
  | guarded a b c =>
      refine (hpart a (.head _) t t' ht).attempt.bind fun o o' ho => ?_
      cases ho with
      | some hu => exact hpart b (.tail _ (.head _)) _ _ hu
      | none => exact hpart c (.tail _ (.tail _ (.head _))) t t' ht
  | scope names a => exact hK.within (hK.declaring names) (hpart a (.head _) t t' ht)
  | tables names a => exact hK.within (hK.declaringTables hs) (hpart a (.head _) t t' ht)
  | letIn bs a =>
      have hbs : List.Forall₂ (fun b b' => b.1 = b'.1 ∧ K.Simulates K.term b.2 b'.2)
          (bs.map fun b => (b.1, f ρ b.2 t)) (bs.map fun b => (b.1, g ρ b.2 t')) := by
        rw [List.forall₂_map_left_iff, List.forall₂_map_right_iff, List.forall₂_same]
        intro b hb
        exact ⟨rfl, hpart b.2 (.tail _ (List.mem_map_of_mem hb)) t t' ht⟩
      refine (hK.bindAll hbs (hK.declaring [])).bind fun _ _ hframe => ?_
      exact hK.within hframe (hpart a (.head _) t t' ht)
  | join a b merge =>
      have hnames : ∀ name ∈ merge.names, name ∈ (join a b merge).tableNames := fun _ h => h
      refine (hK.snapshot hs hnames).bind fun before before' hbefore => ?_
      refine Correspondence.Simulates.undoing ?_ (hK.restore hs hnames hbefore)
      exact hK.joinTables hs hnames hbefore (hpart a (.head _) t t' ht)
        (hpart b (.tail _ (.head _)))
  | iterate a merge =>
      have hnames : ∀ name ∈ merge.names, name ∈ (iterate a merge).tableNames := fun _ h => h
      refine (hK.snapshot hs hnames).bind fun before before' hbefore => ?_
      refine Correspondence.Simulates.undoing ?_ (hK.restore hs hnames hbefore)
      exact hK.iterateTables hs hnames (hpart a (.head _) t t' ht) hnm
  | map a =>
      refine (hK.transform_kept (fun _ _ => ?_) ht).mono fun _ _ => And.left
      exact Correspondence.simulates_mapCells (hpart a (.head _))
  | filter a =>
      refine hK.transform (fun _ _ => ?_) ht
      exact Correspondence.simulates_filterCells (hpart a (.head _))
  | fetch a =>
      refine (hK.transform_kept (fun _ _ => ?_) ht).mono fun _ _ => And.left
      exact Correspondence.simulates_fetchCells (hpart a (.head _))
  | all a =>
      refine hK.onChildren (fun u u' hu => hK.transform_kept (fun _ _ => ?_) hu) (.pure ht) ht
      exact Correspondence.simulates_mapCells (hpart a (.head _))
  | one a =>
      refine hK.onChildren (fun u u' hu => hK.transform_kept (fun _ _ => ?_) hu) .failure ht
      exact Correspondence.simulates_fetchCells (hpart a (.head _))
  | atLeastOne a =>
      refine hK.onChildren (fun u u' hu => hK.transform_kept (fun _ _ => ?_) hu) .failure ht
      exact Correspondence.simulates_someCells (hpart a (.head _))
  | cons a b =>
      have hrel := hK.shape ht
      simp only [step]
      generalize hshape : t.shape = k at hrel
      generalize hshape' : t'.shape = k' at hrel
      cases hrel with
      | cons hhd htl =>
          refine (hpart a (.head _) _ _ hhd).bind fun hd hd' hhd' => ?_
          refine (hpart b (.tail _ (.head _)) _ _ htl).bind fun tl tl' htl' => ?_
          rw [Term.renew_cons hshape, Term.renew_cons hshape', ← hK.isList htl']
          split
          · rename_i hlist
            exact .pure (hK.renew ht (hshape ▸ .cons hlist) (.cons hhd' htl'))
          · exact .fatal (hK.notAList htl')
      | _ => exact .failure
  | appl a b =>
      have hrel := hK.shape ht
      simp only [step]
      generalize hshape : t.shape = k at hrel
      generalize hshape' : t'.shape = k' at hrel
      cases hrel with
      | appl hfn has =>
          refine (hpart a (.head _) _ _ hfn).bind fun fn fn' hfn' => ?_
          refine (hpart b (.tail _ (.head _)) _ _ has).bind fun as as' has' => ?_
          rw [Term.renew_appl hshape, Term.renew_appl hshape', ← hK.toStr? hfn', ← hK.isList has']
          split
          · exact .fatal (hK.notAString hfn')
          · rename_i hstr
            split
            · rename_i hlist
              have hfits : t.shape.Fits (.appl fn as) :=
                hshape ▸ .appl (Bool.eq_false_iff.mpr hstr) hlist
              exact .pure (hK.renew ht hfits (.appl hfn' has'))
            · exact .fatal (hK.notAList has')
      | _ => exact .failure
  | congruent name ss =>
      have hss : List.Forall₂ (fun f g => ∀ u u', K.term u u' → K.Simulates K.term (f u) (g u'))
          (ss.map (f ρ)) (ss.map (g ρ)) := by
        rw [List.forall₂_map_left_iff, List.forall₂_map_right_iff, List.forall₂_same]
        exact hpart
      have hrel := hK.shape ht
      simp only [step]
      generalize hshape : t.shape = k at hrel
      generalize hshape' : t'.shape = k' at hrel
      cases hrel with
      | appl hfn has =>
          dsimp only
          rw [hK.toStr? hfn, hK.isList has, hK.length_elems has]
          split
          · refine hK.onChildren (fun u u' hu => hK.transform_kept (fun _ _ => ?_) hu) .failure ht
            exact Correspondence.simulates_zipCells hss
          · exact .failure
      | _ => exact .failure
  | recursive l a =>
      refine hcall _ a t t' (fun e he => ?_) (hK.part hs (.head _)) ht
      cases he with
      | head => exact hK.part hs (.head _)
      | tail _ he => exact hρ e he
  | call l =>
      simp only [step]
      split
      · rename_i a ρ' hresolve
        obtain ⟨⟨l', ha⟩, hsub⟩ := Env.mem_of_resolve hresolve
        exact hcall ρ' a t t' (fun e he => hρ e (hsub e he)) (hρ _ ha) ht
      · exact .fatal hK.unsetRec
  | «repeat» a => exact .repeatFrom (hpart a (.head _)) hnm ht
  | defined id a => exact hcall [] a t t' (List.forall_mem_nil _) (hK.part hs (.head _)) ht
  | _ =>
      rw [step_of_isElementary rfl, step_of_isElementary rfl]
      exact hK.elementary rfl hs ht

theorem simulates_apply (hK : K.Lawful) {n m : Nat} (hnm : n ≤ m) {ρ : Env}
    (hρ : ∀ e ∈ ρ, K.strategy e.2) {s : Strategy} (hs : K.strategy s) {t t' : Term}
    (ht : K.term t t') : K.Simulates K.term (s.apply n ρ t) (s.apply m ρ t') := by
  induction n generalizing m ρ s t t' with
  | zero => exact .exhausted _
  | succ n ih =>
      obtain ⟨m, rfl⟩ := Nat.exists_eq_succ_of_ne_zero (Nat.ne_zero_of_lt hnm)
      have hle : n ≤ m := Nat.le_of_succ_le_succ hnm
      exact simulates_step hK (fun ρ s t t' hρ hs ht => ih hle hρ hs ht) hle hρ hs ht

end Strategy

namespace Correspondence

/-! Runs that go through the same states, changing the context in certain ways. -/

section

variable {P : Strategy → Prop} {R : Context → Context → Prop} (refl : ∀ c, R c c)
  (trans : ∀ {c c' c''}, R c c' → R c' c'' → R c c'')

variable (P) in
def identical : Correspondence where
  state := Eq
  term := Eq
  error := Eq
  frame := Eq
  table := Eq
  bindings := Eq
  strategy := P
  moves := R
  moves_refl := refl
  moves_trans := trans

theorem identical_read {α : Type} (f : Context → Except Fatal α) :
    (identical P refl trans).Simulates Eq (.read f) (.read f) := by
  refine simulates_read_iff.mpr fun σ τ hστ => ?_
  obtain rfl : σ = τ := hστ
  cases f σ.context with
  | ok a => exact .ok rfl
  | error e => exact .error rfl

theorem identical_update {f : Context → Except Fatal Context} (h : ∀ c c', f c = .ok c' → R c c') :
    (identical P refl trans).Simulates Eq (.update f) (.update f) := by
  refine simulates_update_iff.mpr fun σ τ hστ => ?_
  obtain rfl : σ = τ := hστ
  cases hf : f σ.context with
  | ok c => exact .ok ⟨rfl, h _ _ hf⟩
  | error e => exact .error rfl

theorem identical_report (e : Event) :
    (identical P refl trans).Simulates Eq (.report e) (.report e) := by
  intro σ τ hστ
  obtain rfl : σ = τ := hστ
  exact .ok rfl rfl (refl σ.context)

theorem optionRel_eq {α : Type} {a b : Option α} : Option.Rel Eq a b ↔ a = b := by
  constructor
  · intro h
    cases h with
    | some hab => rw [hab]
    | none => rfl
  · rintro rfl
    cases a with
    | some a => exact .some rfl
    | none => exact .none

theorem identical_lawful (hpart : ∀ s s', P s → s' ∈ s.parts → P s')
    (hpop : ∀ c c' f, R (c.push f) c' → R c c'.pop)
    (hassign : ∀ x v c c', Context.assign c x v = .ok c' → R c c')
    (hsetTable : ∀ name T c c', Context.setTable c name T = .ok c' → R c c') :
    (identical P refl trans).Lawful where
  part {s s'} := hpart s s'
  unsetRec := rfl
  notAList := congrArg Fatal.notAList
  notAString := congrArg Fatal.notAString
  notAnInt := congrArg Fatal.notAnInt
  notAPair := congrArg Fatal.notAPair
  shape {t t'} ht := by
    obtain rfl : t = t' := ht
    exact .refl (fun _ => rfl) t.shape
  renew {t t' s s'} ht _ hs := by
    obtain rfl : t = t' := ht
    exact congrArg t.renew hs.eq
  rebuild {t t' new new'} ht hnew := by
    obtain rfl : t = t' := ht
    obtain rfl : new = new' := List.forall₂_eq_eq_eq ▸ hnew.imp fun _ _ => optionRel_eq.mp
    rfl
  int _ := rfl
  list {ts ts'} hts := by
    obtain rfl : ts = ts' := List.forall₂_eq_eq_eq ▸ hts
    rfl
  equivalent := congrArg₂ Term.equivalent
  setAnno {anno _ _} _ := congrArg (Term.setAnno · anno)
  getAnno {name _ _} _ ht := optionRel_eq.mpr (congrArg (Term.anno? · name) ht)
  removeAnno {name _ _} _ := congrArg (Term.removeAnno · name)
  strip _ := congrArg Term.stripAnnotations
  noBindings := rfl
  bindVar x := congrArg₂ (Bindings.bind · x ·)
  getVar x hb := optionRel_eq.mpr (congrArg (Bindings.get? · x) hb)
  matchTerm {_ p t t' b b'} _ _ ht hb := by
    obtain rfl : t = t' := ht
    obtain rfl : b = b' := hb
    exact ⟨rfl, fun _ => rfl⟩
  build {_ p b b'} _ _ hb := by
    obtain rfl : b = b' := hb
    exact identical_read refl trans _
  declaring _ := rfl
  declaringTables _ := rfl
  bind x := congrArg₂ (Frame.bind · x ·)
  push := congrArg₂ State.push
  pop := congrArg State.pop
  moves_pop {c c' f} := hpop c c' f
  get x := (identical_read refl trans _).mono fun _ _ => optionRel_eq.mpr
  assign {v v'} x hv := by
    obtain rfl : v = v' := optionRel_eq.mp hv
    exact identical_update refl trans fun c c' => hassign x v c c'
  table _ _ := identical_read refl trans _
  setTable {_ name T T'} _ _ hT := by
    obtain rfl : T = T' := hT
    exact identical_update refl trans fun c c' => hsetTable name T c c'
  clear _ := rfl
  insert {T T' k k' v v'} hT hk hv := by
    obtain rfl : T = T' := hT
    exact congrArg₂ T.insert hk hv
  erase := congrArg₂ Table.erase
  entry hT hk := optionRel_eq.mpr (congrArg₂ Table.get? hT hk)
  union := congrArg₂ Table.union
  inter := congrArg₂ Table.inter
  equalTables := congrArg₂ Table.equal
  ruleApplied {t t' u u'} ht hu := by
    obtain rfl : t = t' := ht
    obtain rfl : u = u' := hu
    exact identical_report refl trans _
  trace {t t'} label ht := by
    obtain rfl : t = t' := ht
    intro σ τ hστ
    obtain rfl : σ = τ := hστ
    exact .ok rfl rfl (refl σ.context)
  fixpoint := identical_report refl trans _

end

end Correspondence

end StrategicRewriting
