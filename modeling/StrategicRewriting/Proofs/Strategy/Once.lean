import Mathlib.Data.Nat.Find
import StrategicRewriting.Proofs.Strategy.Innermost
import StrategicRewriting.Proofs.Strategy.Positions

/-!
Traversals that apply a strategy once. They visit the positions of a term in an order, the root
before or after what is below it, and end with what the strategy makes of the first position on
which it does not fail. This position is found by a search from the left through the immediate
subterms, each of which is searched as a whole before the next one.
-/
namespace StrategicRewriting

/-- The outcome with another value. -/
def Outcome.map {α β : Type} (f : α → β) : Outcome α → Outcome β
  | .ok a => .ok (f a)
  | .failure => .failure
  | .fatal e => .fatal e
  | .exhausted => .exhausted

theorem Outcome.map_map {α β γ : Type} (f : α → β) (g : β → γ) (o : Outcome α) :
    (o.map f).map g = o.map (g ∘ f) := by
  cases o <;> rfl

theorem Outcome.map_id {α : Type} (o : Outcome α) : o.map id = o := by
  cases o <;> rfl

theorem Outcome.map_eq_failure {α β : Type} {f : α → β} {o : Outcome α} :
    o.map f = .failure ↔ o = .failure := by
  cases o <;> simp [map]

theorem Outcome.map_eq_fatal {α β : Type} {f : α → β} {o : Outcome α} {e : Fatal} :
    o.map f = .fatal e ↔ o = .fatal e := by
  cases o <;> simp [map]

theorem Outcome.map_eq_exhausted {α β : Type} {f : α → β} {o : Outcome α} :
    o.map f = .exhausted ↔ o = .exhausted := by
  cases o <;> simp [map]

theorem Effect.bind_pure_eq {α β : Type} {x : Effect α} {σ τ : State} {o : Outcome α}
    (h : x σ = (o, τ)) (f : α → β) : (x >>= fun a => pure (f a)) σ = (o.map f, τ) := by
  rw [bind_apply, h]
  cases o <;> rfl

/-- What is made of the immediate subterms is put in their places. -/
theorem Spine.onChildren_eq {t : Term} {f : List Cell → Effect (List (Option Term))}
    {otherwise : Effect Term} {σ τ : State} {o : Outcome Term} {g : Term → List Term}
    (hother : t.children = [] → otherwise σ = (o.map fun y => withChildren t (g y), τ))
    (hf : ∀ cs : List Cell, cs.map (·.head) = t.children →
      f cs σ = (o.map fun y => (g y).map some, τ)) :
    onChildren t (transform · f) otherwise σ = (o.map fun y => withChildren t (g y), τ) := by
  have htransform {list : Term} (hlist : list.isList) (hchildren : list.elems = t.children) :
      transform list f σ = (o.map fun y => rebuild list ((g y).map some), τ) := by
    have hcells := hf list.cells (list.map_head_cells.trans hchildren)
    rw [transform, if_pos hlist, Effect.bind_pure_eq hcells, Outcome.map_map]
    rfl
  rcases onChildren_cases t (transform · f) otherwise with
    ⟨ht, heq⟩ | ⟨functor, args, hshape, hargs, heq⟩ | ⟨hnone, heq⟩ <;> rw [heq]
  · rw [htransform ht (Term.children_of_isList ht).symm]
    simp only [withChildren_of_isList ht]
  · have hnew := htransform hargs (Term.children_of_appl hshape hargs).symm
    rw [Effect.bind_pure_eq hnew, Outcome.map_map]
    simp only [withChildren_of_appl hshape hargs]
    rfl
  · exact hother hnone

/-- Orders of positions: the root before what is below it, or after it. -/
inductive Visit where
  | pre
  | post

/-- The first position is visited before the second one. -/
inductive Visit.Before : Visit → List Nat → List Nat → Prop
  | above (i : Nat) (q : List Nat) : Before .pre [] (i :: q)
  | under (i : Nat) (p : List Nat) : Before .post (i :: p) []
  | left {v : Visit} {i j : Nat} (p q : List Nat) : i < j → Before v (i :: p) (j :: q)
  | inside {v : Visit} (i : Nat) {p q : List Nat} : Before v p q → Before v (i :: p) (i :: q)

namespace Strategy

variable {v : Visit} {s s₁ s₂ b : Strategy} {ρ : Env} {t c d : Term} {o : Outcome Term}
  {l : Label} {i : Nat} {q : List Nat}

/-- In every state, the strategy ends with the outcome. -/
def EndsWith (ρ : Env) (s : Strategy) (t : Term) (o : Outcome Term) : Prop :=
  ∀ σ, ∃ τ, Ends ρ s t σ o τ

/-- The first position of the term on which the strategy does not fail, and what stands there. -/
structure FirstAt (v : Visit) (s : Strategy) (t : Term) (q : List Nat) (c : Term) : Prop where
  there : t.at? q = some c
  applies : ¬s.FailsOn c
  before : ∀ p d, t.at? p = some d → v.Before p q → s.FailsOn d

theorem EndsWith.recursive (h : EndsWith ((l, b) :: ρ) b t o) :
    EndsWith ρ (recursive l b) t o := by
  intro σ
  obtain ⟨τ, n, hn, ho⟩ := h σ
  exact ⟨τ, n + 1, hn, ho⟩

theorem EndsWith.call {ρ' : Env} (hl : ρ.resolve l = some (b, ρ')) (h : EndsWith ρ' b t o) :
    EndsWith ρ (call l) t o := by
  intro σ
  obtain ⟨τ, n, hn, ho⟩ := h σ
  refine ⟨τ, n + 1, ?_, ho⟩
  simp only [apply, step, hl]
  exact hn

theorem EndsWith.second (h₁ : EndsWith ρ s₁ t .failure) (h₂ : EndsWith ρ s₂ t o) :
    EndsWith ρ (choice s₁ s₂) t o := by
  intro σ
  obtain ⟨σ', hfail⟩ := h₁ σ
  obtain ⟨τ, hends⟩ := h₂ σ'
  exact ⟨τ, ends_choice_iff.mpr (.inl ⟨σ', hfail, hends⟩)⟩

theorem EndsWith.first (h : EndsWith ρ s₁ t o) (ho : o ≠ .failure) (s₂ : Strategy) :
    EndsWith ρ (choice s₁ s₂) t o := by
  intro σ
  obtain ⟨τ, hends⟩ := h σ
  exact ⟨τ, ends_choice_iff.mpr (.inr ⟨hends, ho⟩)⟩

/-! Search through the immediate subterms. -/

/-- At every depth that suffices, the search through cells with the given heads ends with the
outcome. -/
def Fetches (ρ : Env) (s : Strategy) (es : List Term) (o : Outcome (List (Option Term))) : Prop :=
  ∀ σ, ∃ τ n, ∀ m, n ≤ m → ∀ cs : List Cell, cs.map (·.head) = es →
    Spine.fetchCells (s.apply m ρ) cs σ = (o, τ)

theorem fetches_nil (ρ : Env) (s : Strategy) : Fetches ρ s [] .failure := by
  refine fun σ => ⟨σ, 0, fun m _ cs hcs => ?_⟩
  cases List.map_eq_nil_iff.mp hcs
  rfl

theorem EndsWith.fetches (h : EndsWith ρ s c o) (ho : o ≠ .failure) (es : List Term) :
    Fetches ρ s (c :: es) (o.map fun y => some y :: es.map some) := by
  intro σ
  obtain ⟨τ, hends⟩ := h σ
  obtain ⟨n, hn⟩ := hends.at_depth
  refine ⟨τ, n, fun m hm cs hcs => ?_⟩
  obtain ⟨cell, cs, rfl, rfl, rfl⟩ := List.map_eq_cons_iff.mp hcs
  rw [Spine.fetchCells, Effect.bind_apply, Effect.attempt, hn m hm]
  cases o with
  | ok y => simp [Outcome.map]
  | failure => exact absurd rfl ho
  | fatal e | exhausted => rfl

/-- The search goes on behind an element on which the strategy fails. -/
theorem Fetches.cons {es : List Term} {o : Outcome (List (Option Term))}
    (h : Fetches ρ s es o) (hc : EndsWith ρ s c .failure) :
    Fetches ρ s (c :: es) (o.map (some c :: ·)) := by
  intro σ
  obtain ⟨σ', hfail⟩ := hc σ
  obtain ⟨n, hn⟩ := hfail.at_depth
  obtain ⟨τ, n', hn'⟩ := h σ'
  refine ⟨τ, max n n', fun m hm cs hcs => ?_⟩
  obtain ⟨hle, hle'⟩ := Nat.max_le.mp hm
  obtain ⟨cell, cs, rfl, rfl, hrest⟩ := List.map_eq_cons_iff.mp hcs
  rw [Spine.fetchCells, Effect.bind_apply, Effect.attempt, hn m hle]
  exact Effect.bind_pure_eq (hn' m hle' cs hrest) _

theorem fetches_failure {es : List Term} (h : ∀ e ∈ es, EndsWith ρ s e .failure) :
    Fetches ρ s es .failure := by
  induction es with
  | nil => exact fetches_nil ρ s
  | cons e es ih =>
      rw [List.forall_mem_cons] at h
      exact (ih h.2).cons h.1

theorem fetches_found {es : List Term} (hc : es[i]? = some c)
    (hbefore : ∀ j e, j < i → es[j]? = some e → EndsWith ρ s e .failure)
    (h : EndsWith ρ s c o) (ho : o ≠ .failure) :
    Fetches ρ s es (o.map fun y => (es.set i y).map some) := by
  induction es generalizing i with
  | nil => cases hc
  | cons e es ih =>
      cases i with
      | zero =>
          cases hc
          exact h.fetches ho es
      | succ i =>
          have hrest := ih hc fun j e hj he => hbefore (j + 1) e (Nat.succ_lt_succ hj) he
          have hfetches := hrest.cons (hbefore 0 e i.succ_pos rfl)
          rw [Outcome.map_map] at hfetches
          exact hfetches

theorem EndsWith.one_failure (h : ∀ c ∈ t.children, EndsWith ρ s c .failure) :
    EndsWith ρ (one s) t .failure := by
  intro σ
  obtain ⟨τ, n, hn⟩ := fetches_failure h σ
  have hfetch := hn n (Nat.le_refl n)
  refine ⟨τ, n + 1, ?_, by simp⟩
  refine Spine.onChildren_eq (o := .failure) (g := fun _ => []) (fun hnone => ?_) hfetch
  cases hfetch [] hnone.symm
  rfl

theorem EndsWith.one_found (hc : t.children[i]? = some c)
    (hbefore : ∀ j d, j < i → t.children[j]? = some d → EndsWith ρ s d .failure)
    (h : EndsWith ρ s c o) (ho : o ≠ .failure) :
    EndsWith ρ (one s) t (o.map fun y => Spine.withChildren t (t.children.set i y)) := by
  intro σ
  obtain ⟨τ, n, hn⟩ := fetches_found hc hbefore h ho σ
  obtain ⟨-, -, -, hne⟩ := h σ
  refine ⟨τ, n + 1, Spine.onChildren_eq (fun hnone => ?_) (hn n (Nat.le_refl n)),
    mt Outcome.map_eq_exhausted.mp hne⟩
  rw [hnone] at hc
  cases hc

/-! The first position. -/

theorem normalForm_iff : s.NormalForm t ↔ ∀ q c, t.at? q = some c → s.FailsOn c := by
  simp only [NormalForm, Term.reaches_iff]
  exact ⟨fun h q c hc => h c ⟨q, hc⟩, fun h c ⟨q, hc⟩ => h q c hc⟩

theorem NormalForm.child (h : s.NormalForm t) (hc : c ∈ t.children) : s.NormalForm c :=
  fun u hu => h u (.child hc hu)

theorem FirstAt.root (ht : ¬s.FailsOn t) (h : v = .pre ∨ ∀ c ∈ t.children, s.NormalForm c) :
    FirstAt v s t [] t where
  there := rfl
  applies := ht
  before p e he hp := by
    cases hp with
    | under i p =>
        obtain ⟨d, hd, hat⟩ := Term.at?_cons_eq_some.mp he
        have hbelow := h.resolve_left (by simp) d (List.mem_of_getElem? hd)
        exact normalForm_iff.mp hbelow p e hat

/-- The search goes on in the first immediate subterm that is not in normal form. -/
theorem FirstAt.cons (hd : t.children[i]? = some d) (h : FirstAt v s d q c)
    (hroot : v = .pre → s.FailsOn t)
    (hbefore : ∀ j e, j < i → t.children[j]? = some e → s.NormalForm e) :
    FirstAt v s t (i :: q) c where
  there := (Term.at?_cons hd q).trans h.there
  applies := h.applies
  before p e he hp := by
    cases hp with
    | above =>
        cases he
        exact hroot rfl
    | left p q hlt =>
        obtain ⟨d, hd, hat⟩ := Term.at?_cons_eq_some.mp he
        exact normalForm_iff.mp (hbefore _ d hlt hd) p e hat
    | inside i hp =>
        rw [Term.at?_cons hd] at he
        exact h.before _ e he hp

theorem FirstAt.inner (h : FirstAt v s t (i :: q) c) (hd : t.children[i]? = some d) :
    FirstAt v s d q c where
  there := (Term.at?_cons hd q).symm.trans h.there
  applies := h.applies
  before p e he hp := h.before (i :: p) e ((Term.at?_cons hd p).trans he) (.inside i hp)

theorem FirstAt.normalForm (h : FirstAt v s t (i :: q) c) {j : Nat} (hj : j < i)
    (hd : t.children[j]? = some d) : s.NormalForm d :=
  normalForm_iff.mpr fun p e he =>
    h.before (j :: p) e ((Term.at?_cons hd p).trans he) (.left p q hj)

theorem exists_firstAt (v : Visit) (h : ¬s.NormalForm t) : ∃ q c, FirstAt v s t q c := by
  classical
  induction t using Term.children_induction with
  | node t ih =>
      by_cases hroot : v = .pre ∧ ¬s.FailsOn t
      · exact ⟨[], t, .root hroot.2 (.inl hroot.1)⟩
      · by_cases hbelow : ∀ c ∈ t.children, s.NormalForm c
        · exact ⟨[], t, .root (fun ht => h (.of_children ht hbelow)) (.inr hbelow)⟩
        · have hfound : ∃ (i : Nat) (d : Term), t.children[i]? = some d ∧ ¬s.NormalForm d := by
            push Not at hbelow
            obtain ⟨d, hd, hnot⟩ := hbelow
            obtain ⟨i, hi⟩ := List.getElem?_of_mem hd
            exact ⟨i, d, hi, hnot⟩
          obtain ⟨d, hd, hnot⟩ := Nat.find_spec hfound
          obtain ⟨q, c, hfirst⟩ := ih d (List.mem_of_getElem? hd) hnot
          refine ⟨_, c, hfirst.cons hd (fun hv => by_contra fun ht => hroot ⟨hv, ht⟩) ?_⟩
          exact fun j e hj he => by_contra fun hne => Nat.find_min hfound hj ⟨e, he, hne⟩

end Strategy

theorem Visit.before_or (v : Visit) (p q : List Nat) : v.Before p q ∨ p = q ∨ v.Before q p := by
  induction p generalizing q with
  | nil =>
      cases q with
      | nil => exact .inr (.inl rfl)
      | cons j q =>
          cases v with
          | pre => exact .inl (.above j q)
          | post => exact .inr (.inr (.under j q))
  | cons i p ih =>
      cases q with
      | nil =>
          cases v with
          | pre => exact .inr (.inr (.above i p))
          | post => exact .inl (.under i p)
      | cons j q =>
          rcases Nat.lt_trichotomy i j with hij | rfl | hji
          · exact .inl (.left p q hij)
          · exact (ih q).imp (.inside i) (.imp (congrArg _) (.inside i))
          · exact .inr (.inr (.left q p hji))

namespace Strategy

theorem FirstAt.unique {p : List Nat} (h : FirstAt v s t p d) (h' : FirstAt v s t q c) :
    p = q := by
  rcases v.before_or p q with hlt | heq | hlt
  · exact absurd (h'.before p d h.there hlt) h.applies
  · exact heq
  · exact absurd (h.before q c h'.there hlt) h'.applies

/-! The traversals. -/

/-- The traversal in an order. -/
def once : Visit → Strategy → Strategy
  | .pre, s => oncetd s
  | .post, s => oncebu s

/-- The body of its recursion. -/
def onceBody : Visit → Strategy → Strategy
  | .pre, s => choice s (one (call .walk))
  | .post, s => choice (one (call .walk)) s

/-- The recursive strategies around the body. -/
def onceEnv (v : Visit) (s : Strategy) (ρ : Env) : Env :=
  (.walk, onceBody v s) :: ρ

theorem EndsWith.once (h : EndsWith (onceEnv v s ρ) (onceBody v s) t o) :
    EndsWith ρ (once v s) t o := by
  cases v <;> exact .recursive h

theorem EndsWith.walk (h : EndsWith (onceEnv v s ρ) (onceBody v s) t o) :
    EndsWith (onceEnv v s ρ) (Strategy.call .walk) t o :=
  .call rfl h

theorem onceBody_failure (h : s.NormalForm t) :
    EndsWith (onceEnv v s ρ) (onceBody v s) t .failure := by
  induction t using Term.children_induction with
  | node t ih =>
      have hroot : EndsWith (onceEnv v s ρ) s t .failure := h t (.refl t) _
      have hbelow : EndsWith (onceEnv v s ρ) (one (call .walk)) t .failure :=
        .one_failure fun c hc => .walk (ih c hc (h.child hc))
      cases v with
      | pre => exact hroot.second hbelow
      | post => exact hbelow.second hroot

theorem onceBody_first (h : FirstAt v s t q c) (hc : ∀ ρ, EndsWith ρ s c o) (ho : o ≠ .failure) :
    EndsWith (onceEnv v s ρ) (onceBody v s) t (o.map (t.replaceAt q)) := by
  induction q generalizing t with
  | nil =>
      cases h.there
      change EndsWith _ _ _ (o.map id)
      rw [Outcome.map_id]
      cases v with
      | pre => exact (hc _).first ho _
      | post =>
          refine .second (.one_failure fun d hd => .walk (onceBody_failure ?_)) (hc _)
          obtain ⟨j, hj⟩ := List.getElem?_of_mem hd
          exact normalForm_iff.mpr fun p e he =>
            h.before (j :: p) e ((Term.at?_cons hj p).trans he) (.under j p)
  | cons i q ih =>
      obtain ⟨d, hd, -⟩ := Term.at?_cons_eq_some.mp h.there
      have hne (f : Term → Term) : o.map f ≠ .failure := mt Outcome.map_eq_failure.mp ho
      have hone : EndsWith (onceEnv v s ρ) (one (call .walk)) t (o.map (t.replaceAt (i :: q))) := by
        have hinner := ih (h.inner hd)
        have hfound := EndsWith.one_found hd
          (fun j e hj he => .walk (onceBody_failure (h.normalForm hj he))) hinner.walk (hne _)
        rw [Outcome.map_map] at hfound
        have heq : t.replaceAt (i :: q) =
            (fun y => Spine.withChildren t (t.children.set i y)) ∘ d.replaceAt q :=
          funext (Term.replaceAt_cons hd q)
        rw [heq]
        exact hfound
      cases v with
      | pre => exact .second (h.before [] t rfl (.above i q) _) hone
      | post => exact hone.first (hne _) s

/-- If the strategy fails at all positions of a term, then so do the traversals. Otherwise there
is one position that comes first among those on which it does not fail, in either order. If it
ends there in a fatal error, then the traversal in this order ends in the same one; if it
succeeds, then the traversal returns the term with this result in the place of the subterm, and
all else as it was. -/
theorem once_first (hs : s.InputOnly) (v : Visit) (t : Term) :
    ((∀ q c, t.at? q = some c → s.FailsOn c) → ∀ ρ, EndsWith ρ (once v s) t .failure) ∧
    ((∃ q c, t.at? q = some c ∧ ¬s.FailsOn c) →
      ∃ q c, FirstAt v s t q c ∧ ∀ q' c', FirstAt v s t q' c' → q' = q) ∧
    ∀ q c, FirstAt v s t q c → ∀ ρ σ o τ, Ends ρ s c σ o τ →
      (∃ e, o = .fatal e ∧ ∀ ρ', EndsWith ρ' (once v s) t (.fatal e)) ∨
      ∃ u, o = .ok u ∧ (∀ ρ', EndsWith ρ' (once v s) t (.ok (t.replaceAt q u))) ∧
        Term.ReplacedAt q u t (t.replaceAt q u) := by
  refine ⟨fun h ρ => (onceBody_failure (normalForm_iff.mpr h)).once, ?_, ?_⟩
  · rintro ⟨p, d, hd, hnot⟩
    obtain ⟨q, c, hfirst⟩ := exists_firstAt v fun hnormal => hnot (normalForm_iff.mp hnormal p d hd)
    exact ⟨q, c, hfirst, fun _ _ h => h.unique hfirst⟩
  · intro q c hfirst ρ σ o τ hends
    have hc : ∀ ρ', EndsWith ρ' s c o := (hs ρ c σ o τ hends).2
    have ho : o ≠ .failure := by
      rintro rfl
      exact hfirst.applies hc
    have hwhole : ∀ ρ', EndsWith ρ' (once v s) t (o.map (t.replaceAt q)) :=
      fun ρ' => (onceBody_first hfirst hc ho).once
    obtain ⟨-, -, hne⟩ := hends
    cases o with
    | ok u => exact .inr ⟨u, rfl, hwhole, Term.replacedAt_replaceAt hfirst.there u⟩
    | fatal e => exact .inl ⟨e, rfl, hwhole⟩
    | failure => exact absurd rfl ho
    | exhausted => exact absurd rfl hne

theorem once_first_nested :
    ∃ (s : Strategy) (t c₁ c₂ u₁ u₂ leaf : Term), s.InputOnly ∧
      (FirstAt .pre s t [0, 0] c₁ ∧ EndsWith [] (oncetd s) t (.ok (t.replaceAt [0, 0] u₁)) ∧
        Term.ReplacedAt [0, 0] u₁ t (t.replaceAt [0, 0] u₁)) ∧
      (FirstAt .post s t [0, 0, 0] c₂ ∧
        EndsWith [] (oncebu s) t (.ok (t.replaceAt [0, 0, 0] u₂)) ∧
        Term.ReplacedAt [0, 0, 0] u₂ t (t.replaceAt [0, 0, 0] u₂)) ∧
      EndsWith [] (oncetd s) leaf .failure ∧ EndsWith [] (oncebu s) leaf .failure := by
  -- `A(x) -> B(x)` on `[F(A(A(1)){K}),A(2)]{L}`
  let app (f : String) (ts : List Term) : Term :=
    .appl .derived (.str .derived f) (.listOnto .empty ts)
  let anno (t : Term) (f : String) : Term :=
    .annotated .derived t (.listOnto .empty [app f []])
  let int (i : Int64) : Term := .int .derived i
  let x : Term := .var .derived "x" (.wildcard .derived)
  let s : Strategy := rule (app "A" [x]) (app "B" [x])
  let inner := app "A" [int 1]
  let outer := anno (app "A" [inner]) "K"
  let t := anno (.listOnto .empty [app "F" [outer], app "A" [int 2]]) "L"
  have hs : s.InputOnly := .rule_of_subset ⟨trivial, rfl, trivial⟩ (by decide)
  have hfails (u : Term) (h : (s.apply 1 [] u .initial).1 = .failure) : s.FailsOn u := by
    exact (hs [] u .initial .failure _ (.of_fst h (by simp))).2
  have happlies (c u : Term) (h : (s.apply 1 [] c .initial).1 = .ok u) : ¬s.FailsOn c := by
    intro hfail
    obtain ⟨τ, hτ⟩ := hfail [] .initial
    cases ((Ends.of_fst h (by simp)).unique hτ).1
  have hleaf : s.NormalForm (int 1) :=
    .of_children (hfails _ (by decide +kernel)) (List.forall_mem_nil _)
  have hpre : FirstAt .pre s t [0, 0] outer := by
    have houter : ¬s.FailsOn outer := happlies outer (app "B" [inner]) (by decide +kernel)
    refine .cons (d := app "F" [outer]) rfl (.cons rfl (.root houter (.inl rfl)) ?_ ?_) ?_ ?_
    · exact fun _ => hfails _ (by decide +kernel)
    · exact fun _ _ hj => absurd hj (Nat.not_lt_zero _)
    · exact fun _ => hfails _ (by decide +kernel)
    · exact fun _ _ hj => absurd hj (Nat.not_lt_zero _)
  have hpost : FirstAt .post s t [0, 0, 0] inner := by
    have hinner : ¬s.FailsOn inner := happlies inner (app "B" [int 1]) (by decide +kernel)
    have hchildren : ∀ c ∈ inner.children, s.NormalForm c := by
      rintro c hc
      cases List.mem_singleton.mp hc
      exact hleaf
    have hnone {ts : List Term} (j : Nat) (e : Term) (hj : j < 0) (_ : ts[j]? = some e) :
        s.NormalForm e := absurd hj (Nat.not_lt_zero j)
    exact .cons (d := app "F" [outer]) rfl (.cons (d := outer) rfl
      (.cons rfl (.root hinner (.inr hchildren)) (by simp) hnone) (by simp) hnone) (by simp) hnone
  have hends (c u : Term) (h : (s.apply 1 [] c .initial).1 = .ok u) :
      ∃ τ, Ends [] s c .initial (.ok u) τ := ⟨_, .of_fst h (by simp)⟩
  obtain ⟨τ₁, h₁⟩ := hends outer (app "B" [inner]) (by decide +kernel)
  obtain ⟨τ₂, h₂⟩ := hends inner (app "B" [int 1]) (by decide +kernel)
  obtain ⟨e, he, -⟩ | ⟨u₁, hu₁, hwhole₁, hreplaced₁⟩ :=
    (once_first hs .pre t).2.2 _ _ hpre [] .initial _ τ₁ h₁
  · cases he
  obtain ⟨e, he, -⟩ | ⟨u₂, hu₂, hwhole₂, hreplaced₂⟩ :=
    (once_first hs .post t).2.2 _ _ hpost [] .initial _ τ₂ h₂
  · cases he
  have hall := normalForm_iff.mp hleaf
  exact ⟨s, t, outer, inner, u₁, u₂, int 1, hs, ⟨hpre, hwhole₁ [], hreplaced₁⟩,
    ⟨hpost, hwhole₂ [], hreplaced₂⟩, (once_first hs .pre _).1 hall [],
    (once_first hs .post _).1 hall []⟩

end Strategy

end StrategicRewriting
