import StrategicRewriting.Proofs.Strategy.Simulation

/-!
How the result of a strategy relates to its input. Control, scopes, recursion and traversals
add nothing of their own to a term: if the strategies they are made of relate every input to
their result, in a way that can be composed and carried over from the elements of a list and
the arguments of an application, then so do they.
-/
namespace StrategicRewriting

namespace Effect

variable {α β γ : Type} {P : α → Prop} {Q : β → Prop} {x : Effect α}

/-- Every value that the computation ends with has the property. -/
def Yields (P : α → Prop) (x : Effect α) : Prop :=
  ∀ σ a τ, x σ = (.ok a, τ) → P a

namespace Yields

theorem any (x : Effect α) : x.Yields fun _ => True :=
  fun _ _ _ _ => trivial

theorem pure {a : α} (h : P a) : (pure a : Effect α).Yields P := by
  rintro σ _ τ ⟨⟩
  exact h

theorem failure : (failure : Effect α).Yields P :=
  nofun

theorem fatal (e : Fatal) : (fatal e : Effect α).Yields P :=
  nofun

theorem exhausted : (exhausted : Effect α).Yields P :=
  nofun

theorem bind {f : α → Effect β} (h : x.Yields P) (hf : ∀ a, P a → (f a).Yields Q) :
    (x >>= f).Yields Q := by
  intro σ b τ hb
  obtain ⟨a, σ', ha, hb⟩ := bind_eq_ok.mp hb
  exact hf a (h σ a σ' ha) σ' b τ hb

/-- What comes before does not matter. -/
theorem after {f : α → Effect β} (hf : ∀ a, (f a).Yields Q) : (x >>= f).Yields Q :=
  (any x).bind fun a _ => hf a

theorem attempt (h : x.Yields P) : x.attempt.Yields fun o => ∀ a, o = some a → P a := by
  rintro σ _ τ ho a rfl
  refine h σ a τ ?_
  rw [Effect.attempt] at ho
  generalize x σ = r at ho ⊢
  obtain ⟨o, σ'⟩ := r
  cases o <;> cases ho
  rfl

theorem undoing (undo : Effect Unit) (h : x.Yields P) : (x.undoing undo).Yields P := by
  intro σ a τ ha
  refine h σ a τ ?_
  rw [Effect.undoing] at ha
  generalize x σ = r at ha ⊢
  obtain ⟨o, σ'⟩ := r
  cases o with
  | ok b => exact ha
  | exhausted => cases ha
  | failure | fatal e =>
      obtain ⟨_, _, _, hend⟩ := bind_eq_ok.mp ha
      cases hend

theorem within (f : Frame) (h : x.Yields P) : (x.within f).Yields P := by
  intro σ a τ ha
  rw [within_apply] at ha
  exact h (σ.push f) a _ (Prod.ext (Prod.mk.inj ha).1 rfl)

theorem inOrder {R : γ → α → Prop} {cs : List γ} {xs : List (Effect α)}
    (h : List.Forall₂ (fun c x => x.Yields (R c)) cs xs) :
    (Effect.inOrder xs).Yields (List.Forall₂ R cs) := by
  induction h with
  | nil => exact .pure .nil
  | cons hx _ ih => exact hx.bind fun a ha => ih.bind fun as has => .pure (.cons ha has)

theorem repeatFrom {R : Term → Term → Prop} (refl : ∀ t, R t t)
    (trans : ∀ {t u v}, R t u → R u v → R t v) {f : Term → Effect Term}
    (h : ∀ t, (f t).Yields (R t)) (n : Nat) (t : Term) :
    (Effect.repeatFrom f n t).Yields (R t) := by
  -- invariant: the input is related to the term that the loop has reached
  suffices hall : ∀ u, R t u → (Effect.repeatFrom f n u).Yields (R t) from hall t (refl t)
  induction n with
  | zero => exact fun _ _ => .exhausted
  | succ n ih =>
      intro u hu
      refine (h u).attempt.bind fun o ho => ?_
      cases o with
      | some v => exact ih v (trans hu (ho v rfl))
      | none => exact .pure hu

theorem iterateTables {P : Term → Prop} {x : Effect Term} (m : Merge) (h : x.Yields P)
    (n : Nat) : (Effect.iterateTables m x n).Yields P := by
  induction n with
  | zero => exact .exhausted
  | succ n ih =>
      refine .after fun before => h.bind fun t ht => .after fun merged => .after fun _ => ?_
      split
      · exact ih
      · exact .after fun _ => .pure ht

theorem joinTables {P Q : Term → Prop} {left : Effect Term} {right : Term → Effect Term}
    (m : Merge) (before : List Table) (hleft : left.Yields P)
    (hright : ∀ t, P t → (right t).Yields Q) :
    (Effect.joinTables m before left right).Yields Q := by
  refine hleft.bind fun t ht => .after fun after => .after fun _ => ?_
  exact (hright t ht).bind fun u hu => .after fun merged => .after fun _ => .pure hu

end Yields

end Effect

namespace Spine

variable {R : Term → Term → Prop} {f : Term → Effect Term} {cs : List Cell}

/-- No element is left out, and every one is related to the one in its place. -/
def Renewed (R : Term → Term → Prop) : List Cell → List (Option Term) → Prop :=
  List.Forall₂ fun c n => ∃ y, n = some y ∧ R c.head y

theorem renewed_heads (refl : ∀ t, R t t) (cs : List Cell) :
    Renewed R cs (cs.map (some ·.head)) :=
  List.forall₂_map_right_iff.mpr (List.forall₂_same.mpr fun c _ => ⟨c.head, rfl, refl c.head⟩)

theorem rebuildCells_unchanged (tail : Term) {cs : List Cell} {new : List (Option Term)}
    (h : Renewed Eq cs new) : rebuildCells tail cs new = none := by
  induction h with
  | nil => rfl
  | @cons c n cs new hn _ ih =>
      obtain ⟨y, rfl, rfl⟩ := hn
      simp only [rebuildCells, ih, Term.same_iff_eq.mpr, if_true]

theorem rebuild_unchanged {t : Term} {new : List (Option Term)} (h : Renewed Eq t.cells new) :
    rebuild t new = t := by
  rw [rebuild, rebuildCells_unchanged t.lastTail h]

theorem yields_some {R : Term → Prop} {x : Effect Term} (h : x.Yields R) :
    (some <$> x).Yields fun n => ∃ y, n = some y ∧ R y :=
  h.bind fun y hy => .pure ⟨y, rfl, hy⟩

theorem yields_mapCells (h : ∀ t, (f t).Yields (R t)) (cs : List Cell) :
    (mapCells f cs).Yields (Renewed R cs) := by
  refine .inOrder (List.forall₂_map_right_iff.mpr (List.forall₂_same.mpr fun c _ => ?_))
  exact yields_some (h c.head)

theorem yields_fetchCells (refl : ∀ t, R t t) (h : ∀ t, (f t).Yields (R t)) (cs : List Cell) :
    (fetchCells f cs).Yields (Renewed R cs) := by
  induction cs with
  | nil => exact .failure
  | cons c cs ih =>
      refine (h c.head).attempt.bind fun o ho => ?_
      cases o with
      | some y => exact .pure (.cons ⟨y, rfl, ho y rfl⟩ (renewed_heads refl cs))
      | none => exact ih.bind fun new hnew => .pure (.cons ⟨c.head, rfl, refl c.head⟩ hnew)

theorem yields_someCells (refl : ∀ t, R t t) (h : ∀ t, (f t).Yields (R t)) (cs : List Cell) :
    (someCells f cs).Yields (Renewed R cs) := by
  have hfilter : (filterCells f cs).Yields
      (List.Forall₂ (fun c n => ∀ y, n = some y → R c.head y) cs) :=
    .inOrder (List.forall₂_map_right_iff.mpr (List.forall₂_same.mpr fun c _ => (h c.head).attempt))
  refine hfilter.bind fun new hnew => ?_
  have hkept : Renewed R cs (List.zipWith (fun c n => n.orElse fun _ => some c.head) cs new) := by
    clear hfilter
    induction hnew with
    | nil => exact .nil
    | @cons c n cs new hn _ ih =>
        refine .cons ?_ ih
        cases n with
        | some y => exact ⟨y, rfl, hn y rfl⟩
        | none => exact ⟨c.head, rfl, refl c.head⟩
  split
  · exact .pure hkept
  · exact .failure

theorem yields_zipCells {fs : List (Term → Effect Term)} (h : ∀ f ∈ fs, ∀ t, (f t).Yields (R t))
    (hlen : fs.length = cs.length) : (zipCells fs cs).Yields (Renewed R cs) := by
  refine .inOrder ?_
  induction fs generalizing cs with
  | nil =>
      obtain rfl := List.eq_nil_of_length_eq_zero hlen.symm
      exact .nil
  | cons f fs ih =>
      obtain ⟨c, cs, rfl⟩ := List.exists_cons_of_length_eq_add_one hlen.symm
      obtain ⟨hf, hfs⟩ := List.forall_mem_cons.mp h
      exact .cons (yields_some (hf c.head)) (ih hfs (Nat.succ.inj hlen))

section

variable {F : List Cell → Effect (List (Option Term))} {P : Term → Prop} {t : Term}

theorem yields_transform (hF : (F t.cells).Yields (Renewed R t.cells))
    (elems : ∀ new, t.isList → Renewed R t.cells new → P (rebuild t new)) :
    (transform t F).Yields P := by
  rw [transform]
  split
  · exact hF.bind fun new hnew => .pure (elems new ‹_› hnew)
  · exact .fatal _

theorem yields_onChildren
    (hF : ∀ list : Term, t.children = list.elems → (F list.cells).Yields (Renewed R list.cells))
    (elems : ∀ new, t.isList → Renewed R t.cells new → P (rebuild t new))
    (args : ∀ functor args new, t.shape = .appl functor args → Renewed R args.cells new →
      P (t.renew (.appl functor (rebuild args new))))
    {otherwise : Effect Term} (hotherwise : otherwise.Yields P) :
    (onChildren t (transform · F) otherwise).Yields P := by
  rcases onChildren_cases t (transform · F) otherwise with
    ⟨hlist, heq⟩ | ⟨functor, list, hshape, hlist, heq⟩ | ⟨-, heq⟩ <;> rw [heq]
  · exact yields_transform (hF t (Term.children_of_isList hlist)) elems
  · simp only [transform, if_pos hlist, bind_assoc, pure_bind]
    refine (hF list (Term.children_of_appl hshape hlist)).bind fun new hnew => .pure ?_
    rw [Term.renew_args hshape]
    exact args functor list new hshape hnew
  · exact hotherwise

end

end Spine

/-- A relation that holds between a term and itself, can be composed, and carries over from
the immediate subterms of a term to the term with new ones in their place. -/
structure Congruence (R : Term → Term → Prop) : Prop where
  refl (t : Term) : R t t
  trans {t u v : Term} : R t u → R u v → R t v
  elems {t : Term} {new : List (Option Term)} : t.isList → Spine.Renewed R t.cells new →
    R t (Spine.rebuild t new)
  args {t functor args : Term} {new : List (Option Term)} : t.shape = .appl functor args →
    Spine.Renewed R args.cells new → R t (t.renew (.appl functor (Spine.rebuild args new)))

namespace Congruence

variable {R : Term → Term → Prop} {F : List Cell → Effect (List (Option Term))}

theorem transform (hR : Congruence R) (hF : ∀ cs, (F cs).Yields (Spine.Renewed R cs)) (t : Term) :
    (Spine.transform t F).Yields (R t) :=
  Spine.yields_transform (hF t.cells) fun _ => hR.elems

/-- The new elements only have to be as they should for the list that is really there. -/
theorem onChildren (hR : Congruence R) {t : Term}
    (hF : ∀ list : Term, t.children = list.elems →
      (F list.cells).Yields (Spine.Renewed R list.cells))
    {otherwise : Effect Term} (hotherwise : otherwise.Yields (R t)) :
    (Spine.onChildren t (Spine.transform · F) otherwise).Yields (R t) :=
  Spine.yields_onChildren hF (fun _ => hR.elems) (fun _ _ _ => hR.args) hotherwise

end Congruence

namespace Strategy

/-- The strategy combines strategies of the class. Where it does not return what a strategy
inside it returns, this one is any strategy. -/
inductive Composed (C : Strategy → Prop) : Strategy → Prop
  | ident : Composed C ident
  | fail : Composed C fail
  | seq {a b : Strategy} : C a → C b → Composed C (seq a b)
  | choice {a b : Strategy} : C a → C b → Composed C (choice a b)
  | not (a : Strategy) : Composed C (not a)
  | test (a : Strategy) : Composed C (test a)
  | guarded {a b c : Strategy} : C a → C b → C c → Composed C (guarded a b c)
  | scope (names : List String) {a : Strategy} : C a → Composed C (scope names a)
  | letIn (bs : List (String × Strategy)) {a : Strategy} : C a → Composed C (letIn bs a)
  | tables (names : List String) {a : Strategy} : C a → Composed C (tables names a)
  | join {a b : Strategy} (m : Merge) : C a → C b → Composed C (join a b m)
  | iterate {a : Strategy} (m : Merge) : C a → Composed C (iterate a m)
  | map {a : Strategy} : C a → Composed C (map a)
  | fetch {a : Strategy} : C a → Composed C (fetch a)
  | all {a : Strategy} : C a → Composed C (all a)
  | one {a : Strategy} : C a → Composed C (one a)
  | atLeastOne {a : Strategy} : C a → Composed C (atLeastOne a)
  | congruent (name : String) {ss : List Strategy} :
      (∀ a ∈ ss, C a) → Composed C (congruent name ss)
  | recursive (l : Label) {a : Strategy} : C a → Composed C (recursive l a)
  | call (l : Label) : Composed C (call l)
  | repeat {a : Strategy} : C a → Composed C (.repeat a)
  | defined (id : Nat) {a : Strategy} : C a → Composed C (defined id a)

variable {C : Strategy → Prop} {R : Term → Term → Prop}

/-- The class contains the traversals with strategies of the class. -/
structure HasTraversals (C : Strategy → Prop) : Prop where
  attempt {a : Strategy} : C a → C (attempt a)
  topdown {a : Strategy} : C a → C (topdown a)
  topdownStop {a stop : Strategy} : C a → C stop → C (topdownStop a stop)
  bottomup {a : Strategy} : C a → C (bottomup a)
  bottomupStop {a stop : Strategy} : C a → C stop → C (bottomupStop a stop)
  downup {a b : Strategy} : C a → C b → C (downup a b)
  alltd {a : Strategy} : C a → C (alltd a)
  oncetd {a : Strategy} : C a → C (oncetd a)
  oncebu {a : Strategy} : C a → C (oncebu a)
  innermost {a : Strategy} : C a → C (innermost a)

/-- The traversals are composed of what they are given. -/
theorem hasTraversals_of_composed (hC : ∀ s, Composed C s → C s) : HasTraversals C := by
  have hattempt {s : Strategy} (hs : C s) : C (attempt s) := hC _ (.choice hs (hC _ .ident))
  have hwalk : C (call .walk) := hC _ (.call _)
  have hall : C (all (call .walk)) := hC _ (.all hwalk)
  have hone : C (one (call .walk)) := hC _ (.one hwalk)
  have hrec {l : Label} {s : Strategy} (hs : Composed C s) : C (recursive l s) :=
    hC _ (.recursive l (hC _ hs))
  have hbottomup {s : Strategy} (hs : C s) : C (bottomup s) := hrec (.seq hall hs)
  exact {
    attempt := hattempt
    topdown := fun ha => hrec (.seq ha hall)
    topdownStop := fun ha hstop => hrec (.seq ha (hC _ (.choice hstop hall)))
    bottomup := hbottomup
    bottomupStop := fun ha hstop => hrec (.seq (hC _ (.choice hstop hall)) ha)
    downup := fun ha hb => hrec (.seq ha (hC _ (.seq hall hb)))
    alltd := fun ha => hrec (.choice ha hall)
    oncetd := fun ha => hrec (.choice ha hone)
    oncebu := fun ha => hrec (.choice hone ha)
    innermost := fun ha =>
      hC _ (.recursive _ (hbottomup (hattempt (hC _ (.seq ha (hC _ (.call _))))))) }

theorem congruent_cases (apply : Env → Strategy → Term → Effect Term) (n : Nat) (ρ : Env)
    (name : String) (ss : List Strategy) (t : Term) :
    step apply n ρ (congruent name ss) t = .failure ∨
      ss.length = t.children.length ∧ step apply n ρ (congruent name ss) t =
        Spine.onChildren t (Spine.transform · (Spine.zipCells (ss.map (apply ρ)))) .failure := by
  simp only [step]
  split
  · rename_i functor args hshape
    split
    · rename_i hargs
      exact .inr ⟨by rw [Term.children_of_appl hshape hargs.2.1, hargs.2.2], rfl⟩
    · exact .inl rfl
  · exact .inl rfl

/-- One level of the application of a composed strategy relates the input to the result if
the applications inside it do. -/
theorem Composed.yields {s : Strategy} (hs : Composed C s) (hR : Congruence R)
    {apply : Env → Strategy → Term → Effect Term}
    (happly : ∀ ρ a t, (∀ e ∈ ρ, C e.2) → C a → (apply ρ a t).Yields (R t))
    {ρ : Env} (hρ : ∀ e ∈ ρ, C e.2) (n : Nat) (t : Term) :
    (step apply n ρ s t).Yields (R t) := by
  have hpart {a : Strategy} (ha : C a) (t : Term) : (apply ρ a t).Yields (R t) := happly ρ a t hρ ha
  have hthen {a : Strategy} (ha : C a) {t u : Term} (hu : R t u) : (apply ρ a u).Yields (R t) :=
    fun σ v τ hv => hR.trans hu (hpart ha u σ v τ hv)
  cases hs with
  | ident => exact .pure (hR.refl t)
  | fail => exact .failure
  | seq ha hb => exact (hpart ha t).bind fun u hu => hthen hb hu
  | choice ha hb =>
      refine (hpart ha t).attempt.bind fun o ho => ?_
      cases o with
      | some y => exact .pure (ho y rfl)
      | none => exact hpart hb t
  | not a =>
      refine .after fun o => ?_
      cases o with
      | some _ => exact .failure
      | none => exact .pure (hR.refl t)
  | test a => exact .after fun _ => .pure (hR.refl t)
  | guarded ha hb hc =>
      refine (hpart ha t).attempt.bind fun o ho => ?_
      cases o with
      | some y => exact hthen hb (ho y rfl)
      | none => exact hpart hc t
  | scope names ha | tables names ha => exact .within _ (hpart ha t)
  | letIn bs ha => exact .after fun frame => .within frame (hpart ha t)
  | join m ha hb =>
      exact .after fun before => .undoing _ (.joinTables m before (hpart ha t) fun u => hthen hb)
  | iterate m ha => exact .after fun before => .undoing _ (.iterateTables m (hpart ha t) n)
  | map ha => exact hR.transform (Spine.yields_mapCells (hpart ha)) t
  | fetch ha => exact hR.transform (Spine.yields_fetchCells hR.refl (hpart ha)) t
  | all ha =>
      exact hR.onChildren (fun _ _ => Spine.yields_mapCells (hpart ha) _) (.pure (hR.refl t))
  | one ha =>
      exact hR.onChildren (fun _ _ => Spine.yields_fetchCells hR.refl (hpart ha) _) .failure
  | atLeastOne ha =>
      exact hR.onChildren (fun _ _ => Spine.yields_someCells hR.refl (hpart ha) _) .failure
  | @congruent name ss hss =>
      rcases congruent_cases apply n ρ name ss t with hfail | ⟨hlen, heq⟩
      · rw [hfail]
        exact .failure
      · rw [heq]
        refine hR.onChildren (fun list hlist => Spine.yields_zipCells ?_ ?_) .failure
        · intro f hf
          obtain ⟨a, ha, rfl⟩ := List.mem_map.mp hf
          exact hpart (hss a ha)
        · rw [List.length_map, Term.length_cells, ← hlist, hlen]
  | recursive l ha => exact happly _ _ t (List.forall_mem_cons.mpr ⟨ha, hρ⟩) ha
  | call l =>
      simp only [step]
      split
      · rename_i a ρ' hresolve
        obtain ⟨⟨l', ha⟩, hsub⟩ := Env.mem_of_resolve hresolve
        exact happly ρ' a t (fun e he => hρ e (hsub e he)) (hρ _ ha)
      · exact .fatal _
  | «repeat» ha => exact .repeatFrom hR.refl hR.trans (hpart ha) n t
  | defined id ha => exact happly [] _ t (List.forall_mem_nil _) ha

end Strategy

end StrategicRewriting
