import Mathlib.Data.List.Forall2
import StrategicRewriting.Proofs.Strategy.Effect
import StrategicRewriting.Proofs.Strategy.Parts
import StrategicRewriting.Proofs.Strategy.Rebuild
import StrategicRewriting.Proofs.Term.Equivalence

/-!
Correspondence of two computations: from corresponding states, where the first one has
an answer, the second one has a corresponding answer and ends in a corresponding state.
The ways to compose computations respect every correspondence. A lawful one is also
respected by the operations on terms, frames and tables, and by the elementary
strategies.
-/
namespace StrategicRewriting

/-- The second shape may take the place of the first one. -/
inductive Shape.Fits : Shape → Shape → Prop
  | cons {h t h' t' : Term} : t'.isList → Fits (.cons h t) (.cons h' t')
  | args {f as as' : Term} : as'.isList → Fits (.appl f as) (.appl f as')
  | appl {f as f' as' : Term} :
      f'.toStr?.isNone = false → as'.isList → Fits (.appl f as) (.appl f' as')

/-- The shapes have the same terms below them. -/
def Shape.sameParts : Shape → Shape → Bool
  | .cons h t, .cons h' t' => h.same h' && t.same t'
  | .appl f as, .appl f' as' => f.same f' && as.same as'
  | _, _ => false

/-- The term with another shape, and the term itself if this changes nothing. -/
def Term.renew (t : Term) (s : Shape) : Term :=
  if s.sameParts t.shape then t else t.withShape s

theorem Shape.eq_of_sameParts {s s' : Shape} (h : s.sameParts s') : s = s' := by
  cases s <;> cases s' <;> simp only [sameParts, Bool.and_eq_true, Term.same_iff_eq,
    Bool.false_eq_true] at h
  · rw [h.1, h.2]
  · rw [h.1, h.2]

theorem Term.shape_renew (t : Term) (s : Shape) : (t.renew s).shape = s := by
  rw [renew]
  split
  · rename_i h
    exact (Shape.eq_of_sameParts h).symm
  · exact shape_withShape t s

namespace State

def push (σ : State) (f : Frame) : State :=
  { σ with context := σ.context.push f }

def pop (σ : State) : State :=
  { σ with context := σ.context.pop }

/-- The state with another context. -/
def into (σ : State) (c : Context) : State :=
  { σ with context := c }

end State

namespace Effect

variable {α : Type}

/-- Change the context all at once, or not at all if there is an error. -/
def change (f : Context → Except Fatal (α × Context)) : Effect α := do
  let (a, c) ← read f
  update fun _ => .ok c
  pure a

theorem read_apply (f : Context → Except Fatal α) (σ : State) :
    read f σ =
      match f σ.context with
      | .ok a => (.ok a, σ)
      | .error e => (.fatal e, σ) := by
  rw [read]
  cases f σ.context <;> rfl

theorem update_apply (f : Context → Except Fatal Context) (σ : State) :
    update f σ =
      match f σ.context with
      | .ok c => (.ok (), σ.into c)
      | .error e => (.fatal e, σ) := rfl

theorem change_apply (f : Context → Except Fatal (α × Context)) (σ : State) :
    change f σ =
      match f σ.context with
      | .ok (a, c) => (.ok a, σ.into c)
      | .error e => (.fatal e, σ) := by
  rw [change, bind_apply, read]
  cases f σ.context <;> rfl

theorem within_apply (f : Frame) (x : Effect α) (σ : State) :
    within f x σ = ((x (σ.push f)).1, (x (σ.push f)).2.pop) := rfl

end Effect

/-- How two runs correspond. -/
structure Correspondence where
  state : State → State → Prop
  term : Term → Term → Prop
  error : Fatal → Fatal → Prop
  frame : Frame → Frame → Prop
  table : Table → Table → Prop
  bindings : Bindings → Bindings → Prop
  /-- The strategies that are run. -/
  strategy : Strategy → Prop
  /-- How the first run may change its context. -/
  moves : Context → Context → Prop
  moves_refl (c : Context) : moves c c
  moves_trans {c c' c'' : Context} : moves c c' → moves c' c'' → moves c c''

namespace Correspondence

/-- What two runs from corresponding states end with, the first one having started in
the context. -/
inductive Answers (K : Correspondence) {α β : Type} (P : α → β → Prop) (c : Context) :
    Outcome α × State → Outcome β × State → Prop
  | ok {a : α} {b : β} {σ τ : State} :
      P a b → K.state σ τ → K.moves c σ.context → Answers K P c (.ok a, σ) (.ok b, τ)
  | failure {σ τ : State} :
      K.state σ τ → K.moves c σ.context → Answers K P c (.failure, σ) (.failure, τ)
  | fatal {e e' : Fatal} {σ τ : State} :
      K.error e e' → K.state σ τ → K.moves c σ.context →
      Answers K P c (.fatal e, σ) (.fatal e', τ)
  | exhausted {σ : State} {r : Outcome β × State} : Answers K P c (.exhausted, σ) r

def Simulates (K : Correspondence) {α β : Type} (P : α → β → Prop) (x : Effect α)
    (y : Effect β) : Prop :=
  ∀ σ τ, K.state σ τ → K.Answers P σ.context (x σ) (y τ)

variable {K : Correspondence} {α β γ δ : Type} {P : α → β → Prop} {Q : γ → δ → Prop}

theorem Answers.after {c c' : Context} {r : Outcome α × State} {r' : Outcome β × State}
    (h : K.Answers P c' r r') (hc : K.moves c c') : K.Answers P c r r' := by
  cases h with
  | ok hab hstate hmoves => exact .ok hab hstate (K.moves_trans hc hmoves)
  | failure hstate hmoves => exact .failure hstate (K.moves_trans hc hmoves)
  | fatal he hstate hmoves => exact .fatal he hstate (K.moves_trans hc hmoves)
  | exhausted => exact .exhausted

namespace Simulates

variable {x : Effect α} {y : Effect β}

theorem pure {a : α} {b : β} (h : P a b) : K.Simulates P (pure a) (pure b) :=
  fun _ _ hstate => .ok h hstate (K.moves_refl _)

theorem failure : K.Simulates P .failure .failure :=
  fun _ _ hstate => .failure hstate (K.moves_refl _)

theorem fatal {e e' : Fatal} (h : K.error e e') : K.Simulates P (.fatal e) (.fatal e') :=
  fun _ _ hstate => .fatal h hstate (K.moves_refl _)

theorem ofOption {a : Option α} {b : Option β} (h : Option.Rel P a b) :
    K.Simulates P (.ofOption a) (.ofOption b) := by
  cases h with
  | some hab => exact .pure hab
  | none => exact .failure

theorem exhausted (y : Effect β) : K.Simulates P .exhausted y :=
  fun _ _ _ => .exhausted

theorem bind {f : α → Effect γ} {g : β → Effect δ} (h : K.Simulates P x y)
    (hfg : ∀ a b, P a b → K.Simulates Q (f a) (g b)) : K.Simulates Q (x >>= f) (y >>= g) := by
  intro σ τ hstate
  have hxy := h σ τ hstate
  rw [Effect.bind_apply, Effect.bind_apply]
  generalize x σ = r at hxy
  generalize y τ = r' at hxy
  cases hxy with
  | ok hab hstate hmoves => exact (hfg _ _ hab _ _ hstate).after hmoves
  | failure hstate hmoves => exact .failure hstate hmoves
  | fatal he hstate hmoves => exact .fatal he hstate hmoves
  | exhausted => exact .exhausted

theorem map {f : α → γ} {g : β → δ} (h : K.Simulates P x y) (hfg : ∀ a b, P a b → Q (f a) (g b)) :
    K.Simulates Q (f <$> x) (g <$> y) :=
  h.bind fun a b hab => .pure (hfg a b hab)

theorem mono {P' : α → β → Prop} (h : K.Simulates P x y) (hP : ∀ a b, P a b → P' a b) :
    K.Simulates P' x y := by
  rw [← bind_pure x, ← bind_pure y]
  exact h.bind fun a b hab => .pure (hP a b hab)

theorem attempt (h : K.Simulates P x y) : K.Simulates (Option.Rel P) x.attempt y.attempt := by
  intro σ τ hstate
  have hxy := h σ τ hstate
  simp only [Effect.attempt]
  generalize x σ = r at hxy
  generalize y τ = r' at hxy
  cases hxy with
  | ok hab hstate hmoves => exact .ok (.some hab) hstate hmoves
  | failure hstate hmoves => exact .ok .none hstate hmoves
  | fatal he hstate hmoves => exact .fatal he hstate hmoves
  | exhausted => exact .exhausted

theorem undoing {undo undo' : Effect Unit} (h : K.Simulates P x y)
    (hundo : K.Simulates Eq undo undo') :
    K.Simulates P (x.undoing undo) (y.undoing undo') := by
  intro σ τ hstate
  have hxy := h σ τ hstate
  simp only [Effect.undoing]
  generalize x σ = r at hxy
  generalize y τ = r' at hxy
  cases hxy with
  | ok hab hstate hmoves => exact .ok hab hstate hmoves
  | failure hstate hmoves => exact (hundo.bind (fun _ _ _ => .failure) _ _ hstate).after hmoves
  | fatal he hstate hmoves => exact (hundo.bind (fun _ _ _ => .fatal he) _ _ hstate).after hmoves
  | exhausted => exact .exhausted

theorem inOrder {xs : List (Effect α)} {ys : List (Effect β)}
    (h : List.Forall₂ (K.Simulates P) xs ys) :
    K.Simulates (List.Forall₂ P) (Effect.inOrder xs) (Effect.inOrder ys) := by
  induction h with
  | nil => exact .pure .nil
  | cons hx _ ih =>
      exact hx.bind fun a b hab => ih.bind fun as bs habs => .pure (.cons hab habs)

theorem repeatFrom {f g : Term → Effect Term}
    (h : ∀ t t', K.term t t' → K.Simulates K.term (f t) (g t')) {n m : Nat} (hnm : n ≤ m)
    {t t' : Term} (ht : K.term t t') :
    K.Simulates K.term (Effect.repeatFrom f n t) (Effect.repeatFrom g m t') := by
  induction n generalizing m t t' with
  | zero => exact exhausted _
  | succ n ih =>
      obtain ⟨m, rfl⟩ := Nat.exists_eq_succ_of_ne_zero (Nat.ne_zero_of_lt hnm)
      refine (h t t' ht).attempt.bind fun o o' ho => ?_
      cases ho with
      | some hu => exact ih (Nat.le_of_succ_le_succ hnm) hu
      | none => exact .pure ht

end Simulates

/-- Corresponding values, or corresponding errors. -/
inductive Results (K : Correspondence) {α β : Type} (Q : α → β → Prop) :
    Except Fatal α → Except Fatal β → Prop
  | ok {a : α} {b : β} : Q a b → Results K Q (.ok a) (.ok b)
  | error {e e' : Fatal} : K.error e e' → Results K Q (.error e) (.error e')

theorem Results.bind {x : Except Fatal α} {y : Except Fatal β} {f : α → Except Fatal γ}
    {g : β → Except Fatal δ} (h : K.Results P x y)
    (hfg : ∀ a b, P a b → K.Results Q (f a) (g b)) : K.Results Q (x >>= f) (y >>= g) := by
  cases h with
  | ok hab => exact hfg _ _ hab
  | error he => exact .error he

theorem Results.mono {P' : α → β → Prop} {x : Except Fatal α} {y : Except Fatal β}
    (h : K.Results P x y) (hP : ∀ a b, P a b → P' a b) : K.Results P' x y := by
  cases h with
  | ok hab => exact .ok (hP _ _ hab)
  | error he => exact .error he

/-! Computations that only read or only change the context. -/

theorem simulates_read_iff {f : Context → Except Fatal α} {g : Context → Except Fatal β} :
    K.Simulates P (.read f) (.read g) ↔
      ∀ σ τ, K.state σ τ → K.Results P (f σ.context) (g τ.context) := by
  refine forall_congr' fun σ => forall_congr' fun τ => forall_congr' fun hστ => ?_
  rw [Effect.read_apply, Effect.read_apply]
  generalize f σ.context = r
  generalize g τ.context = r'
  constructor
  · intro h
    cases r <;> cases r' <;> cases h
    · exact .error ‹_›
    · exact .ok ‹_›
  · intro h
    cases h with
    | ok hab => exact .ok hab hστ (K.moves_refl _)
    | error he => exact .fatal he hστ (K.moves_refl _)

theorem simulates_update_iff {f g : Context → Except Fatal Context} :
    K.Simulates Eq (.update f) (.update g) ↔
      ∀ σ τ, K.state σ τ →
        K.Results (fun c c' => K.state (σ.into c) (τ.into c') ∧ K.moves σ.context c)
          (f σ.context) (g τ.context) := by
  refine forall_congr' fun σ => forall_congr' fun τ => forall_congr' fun hστ => ?_
  rw [Effect.update_apply, Effect.update_apply]
  generalize f σ.context = r
  generalize g τ.context = r'
  constructor
  · intro h
    cases r <;> cases r' <;> cases h
    · exact .error ‹_›
    · exact .ok ⟨‹_›, ‹_›⟩
  · intro h
    cases h with
    | ok h => exact .ok rfl h.1 h.2
    | error he => exact .fatal he hστ (K.moves_refl _)

theorem simulates_change_iff {f : Context → Except Fatal (α × Context)}
    {g : Context → Except Fatal (β × Context)} :
    K.Simulates P (.change f) (.change g) ↔
      ∀ σ τ, K.state σ τ →
        K.Results (fun r r' => P r.1 r'.1 ∧ K.state (σ.into r.2) (τ.into r'.2) ∧
          K.moves σ.context r.2) (f σ.context) (g τ.context) := by
  refine forall_congr' fun σ => forall_congr' fun τ => forall_congr' fun hστ => ?_
  rw [Effect.change_apply, Effect.change_apply]
  generalize f σ.context = r
  generalize g τ.context = r'
  constructor
  · intro h
    cases r <;> cases r' <;> cases h
    · exact .error ‹_›
    · exact .ok ⟨‹_›, ‹_›, ‹_›⟩
  · intro h
    cases h with
    | ok h => exact .ok h.1 h.2.1 h.2.2
    | error he => exact .fatal he hστ (K.moves_refl _)

/-- The operations on terms, bindings, contexts and tables respect the correspondence. -/
structure Lawful (K : Correspondence) : Prop where
  part {s s' : Strategy} : K.strategy s → s' ∈ s.parts → K.strategy s'
  unsetRec : K.error .unsetRec .unsetRec
  notAList {t t' : Term} : K.term t t' → K.error (.notAList t) (.notAList t')
  notAString {t t' : Term} : K.term t t' → K.error (.notAString t) (.notAString t')
  notAnInt {t t' : Term} : K.term t t' → K.error (.notAnInt t) (.notAnInt t')
  notAPair {t t' : Term} : K.term t t' → K.error (.notAPair t) (.notAPair t')
  -- terms
  shape {t t' : Term} : K.term t t' → Shape.Rel K.term t.shape t'.shape
  renew {t t' : Term} {s s' : Shape} : K.term t t' → t.shape.Fits s → Shape.Rel K.term s s' →
    K.term (t.renew s) (t'.renew s')
  rebuild {t t' : Term} {new new' : List (Option Term)} : K.term t t' →
    List.Forall₂ (Option.Rel K.term) new new' →
    K.term (Spine.rebuild t new) (Spine.rebuild t' new')
  int (i : Int64) : K.term (.make (.int i) none) (.make (.int i) none)
  list {ts ts' : List Term} : List.Forall₂ K.term ts ts' →
    K.term (Effect.listOf ts) (Effect.listOf ts')
  equivalent {t t' u u' : Term} : K.term t t' → K.term u u' → t.equivalent u = t'.equivalent u'
  setAnno {anno t t' : Term} : K.strategy (.setAnno anno) → K.term t t' →
    K.term (t.setAnno anno) (t'.setAnno anno)
  getAnno {name : String} {t t' : Term} : K.strategy (.getAnno name) → K.term t t' →
    Option.Rel K.term (t.anno? name) (t'.anno? name)
  removeAnno {name : String} {t t' : Term} : K.strategy (.removeAnno name) → K.term t t' →
    K.term (t.removeAnno name) (t'.removeAnno name)
  strip {t t' : Term} : K.strategy .strip → K.term t t' →
    K.term t.stripAnnotations t'.stripAnnotations
  -- bindings
  noBindings : K.bindings .empty .empty
  bindVar {b b' : Bindings} {t t' : Term} (x : String) : K.bindings b b' → K.term t t' →
    K.bindings (b.bind x t) (b'.bind x t')
  getVar {b b' : Bindings} (x : String) : K.bindings b b' →
    Option.Rel K.term (b.get? x) (b'.get? x)
  matchTerm {s : Strategy} {p t t' : Term} {b b' : Bindings} : K.strategy s → p ∈ s.embedded →
    K.term t t' → K.bindings b b' →
    (p.matchTerm t b).1 = (p.matchTerm t' b').1 ∧
      ((p.matchTerm t b).1 → K.bindings (p.matchTerm t b).2 (p.matchTerm t' b').2)
  build {s : Strategy} {p : Term} {b b' : Bindings} : K.strategy s → p ∈ s.embedded →
    K.bindings b b' →
    K.Simulates K.term (.read fun c => (p.build (b.lookup.orElse c.get) b.captures).1)
      (.read fun c => (p.build (b'.lookup.orElse c.get) b'.captures).1)
  -- contexts
  declaring (names : List String) : K.frame (.declaring names) (.declaring names)
  declaringTables {names : List String} {s : Strategy} : K.strategy (.tables names s) →
    K.frame (.declaringTables names) (.declaringTables names)
  bind {f f' : Frame} {t t' : Term} (x : String) : K.frame f f' → K.term t t' →
    K.frame (f.bind x t) (f'.bind x t')
  push {σ τ : State} {f f' : Frame} : K.state σ τ → K.frame f f' → K.state (σ.push f) (τ.push f')
  pop {σ τ : State} : K.state σ τ → K.state σ.pop τ.pop
  moves_pop {c c' : Context} {f : Frame} : K.moves (c.push f) c' → K.moves c c'.pop
  get (x : String) : K.Simulates (Option.Rel K.term) (.read (·.get x)) (.read (·.get x))
  assign {v v' : Option Term} (x : String) : Option.Rel K.term v v' →
    K.Simulates Eq (.update (·.assign x v)) (.update (·.assign x v'))
  -- tables
  table {s : Strategy} {name : String} : K.strategy s → name ∈ s.tableNames →
    K.Simulates K.table (.read (·.table name)) (.read (·.table name))
  setTable {s : Strategy} {name : String} {T T' : Table} : K.strategy s → name ∈ s.tableNames →
    K.table T T' → K.Simulates Eq (.update (·.setTable name T)) (.update (·.setTable name T'))
  clear {name : String} : K.strategy (.tableClear name) → K.table .empty .empty
  insert {T T' : Table} {k k' v v' : Term} : K.table T T' → K.term k k' → K.term v v' →
    K.table (T.insert k v) (T'.insert k' v')
  erase {T T' : Table} {k k' : Term} : K.table T T' → K.term k k' →
    K.table (T.erase k) (T'.erase k')
  entry {T T' : Table} {k k' : Term} : K.table T T' → K.term k k' →
    Option.Rel K.term (T.get? k) (T'.get? k')
  union {T T' U U' : Table} : K.table T T' → K.table U U' →
    K.table (T.union U) (T'.union U')
  inter {T T' U U' : Table} : K.table T T' → K.table U U' →
    K.table (T.inter U) (T'.inter U')
  equalTables {T T' U U' : Table} : K.table T T' → K.table U U' → T.equal U = T'.equal U'
  -- events
  ruleApplied {t t' u u' : Term} : K.term t t' → K.term u u' →
    K.Simulates Eq (.report (.ruleApplied t u)) (.report (.ruleApplied t' u'))
  trace {t t' : Term} (label : String) : K.term t t' →
    K.Simulates Eq (Effect.context >>= fun c => .report (.trace label c.depth t))
      (Effect.context >>= fun c => .report (.trace label c.depth t'))
  fixpoint : K.Simulates Eq (.report .fixpoint) (.report .fixpoint)

namespace Lawful

variable {x : Effect α} {y : Effect β} {t t' : Term}

theorem isList (hK : K.Lawful) (h : K.term t t') : t.isList = t'.isList :=
  (hK.shape h).isList

theorem toStr? (hK : K.Lawful) (h : K.term t t') : t.toStr? = t'.toStr? :=
  (hK.shape h).toStr?

theorem cells (hK : K.Lawful) (h : K.term t t') :
    List.Forall₂ (fun c c' => K.term c.head c'.head) t.cells t'.cells := by
  induction t using Term.spine_induction generalizing t' with
  | cons t hd tl hshape ih =>
      have hrel := hK.shape h
      generalize hshape' : t'.shape = s' at hrel
      rw [hshape] at hrel
      cases hrel with
      | cons hhd htl =>
          rw [Term.cells_of_cons hshape, Term.cells_of_cons hshape']
          exact .cons hhd (ih htl)
  | other t hshape =>
      have hshape' := (hK.shape h).ne_cons hshape
      rw [(Term.of_not_cons hshape).1, (Term.of_not_cons hshape').1]
      exact .nil

theorem length_elems (hK : K.Lawful) (h : K.term t t') : t.elems.length = t'.elems.length := by
  rw [← Term.length_cells, ← Term.length_cells]
  exact (hK.cells h).length_eq

theorem within (hK : K.Lawful) {f f' : Frame} (hf : K.frame f f') (h : K.Simulates P x y) :
    K.Simulates P (.within f x) (.within f' y) := by
  intro σ τ hstate
  have hxy := h _ _ (hK.push hstate hf)
  rw [Effect.within_apply, Effect.within_apply]
  generalize x (σ.push f) = r at hxy
  generalize y (τ.push f') = r' at hxy
  cases hxy with
  | ok hab hstate hmoves => exact .ok hab (hK.pop hstate) (hK.moves_pop hmoves)
  | failure hstate hmoves => exact .failure (hK.pop hstate) (hK.moves_pop hmoves)
  | fatal he hstate hmoves => exact .fatal he (hK.pop hstate) (hK.moves_pop hmoves)
  | exhausted => exact .exhausted

theorem bindAll (hK : K.Lawful) {bs bs' : List (String × Effect Term)}
    (h : List.Forall₂ (fun b b' => b.1 = b'.1 ∧ K.Simulates K.term b.2 b'.2) bs bs')
    {f f' : Frame} (hf : K.frame f f') :
    K.Simulates K.frame (Effect.bindAll bs f) (Effect.bindAll bs' f') := by
  induction h generalizing f f' with
  | nil => exact .pure hf
  | @cons b b' bs bs' hb _ ih =>
      obtain ⟨x, v⟩ := b
      obtain ⟨x', v'⟩ := b'
      obtain ⟨rfl, hv⟩ := hb
      exact hv.bind fun t t' ht => ih (hK.bind _ hf ht)

end Lawful

end Correspondence

end StrategicRewriting
