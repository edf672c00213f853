import StrategicRewriting.Proofs.Strategy.Depth
import StrategicRewriting.Proofs.Strategy.Script

/-!
How applications of strategies are nested. The marks of a run are balanced: what is applied inside
of an application ends before it. If something is known of every application in a script, it carries
over to the whole run: if all of them end, then so does the run, and if none of them goes too deep
into a recursion, then neither does the run.
-/
namespace StrategicRewriting

/-- The strategy goes on with the recursion of a traversal. -/
def Strategy.isWalk : Strategy → Bool
  | call .walk => true
  | _ => false

namespace Mark

variable {ms ms' before : List Mark} {given ss : List Strategy} {s : Strategy} {k m : Nat}

/-- The strategies whose applications have begun and not ended, the innermost one first. -/
def opened : List Strategy → List Mark → List Strategy
  | ss, [] => ss
  | ss, enter _ s _ _ :: ms => opened (s :: ss) ms
  | ss, leave _ _ :: ms => opened ss.tail ms

/-- Every application that begins also ends, and no other ends. -/
structure Balanced (ms : List Mark) : Prop where
  ends : ∀ ss, opened ss ms = ss
  stays : ∀ ss before, before <+: ms → ss <:+ opened ss before

/-- As long as none of the given strategies is applied, no more calls than the bound are open. -/
def Confined (given : List Strategy) (k : Nat) (ms : List Mark) : Prop :=
  ∀ ss before, before <+: ms → (∀ g ∈ given, g ∉ opened ss before) →
    (opened ss before).countP Strategy.isWalk ≤ k + ss.countP Strategy.isWalk

theorem opened_append (ss : List Strategy) (ms ms' : List Mark) :
    opened ss (ms ++ ms') = opened (opened ss ms) ms' := by
  induction ms generalizing ss with
  | nil => rfl
  | cons m ms ih =>
      cases m with
      | enter ρ s t σ => exact ih (s :: ss)
      | leave o τ => exact ih ss.tail

theorem prefix_append_cases (h : before <+: ms ++ ms') :
    before <+: ms ∨ ∃ rest, rest <+: ms' ∧ before = ms ++ rest := by
  rcases List.prefix_or_prefix_of_prefix h (List.prefix_append ms ms') with h' | ⟨rest, rfl⟩
  · exact .inl h'
  · exact .inr ⟨rest, (List.prefix_append_right_inj ms).mp h, rfl⟩

theorem balanced_nil : Balanced [] where
  ends _ := rfl
  stays ss before h := by
    rw [List.prefix_nil.mp h]
    exact List.suffix_refl ss

theorem Balanced.append (h : Balanced ms) (h' : Balanced ms') : Balanced (ms ++ ms') where
  ends ss := by rw [opened_append, h.ends, h'.ends]
  stays ss before hbefore := by
    rcases prefix_append_cases hbefore with hms | ⟨rest, hrest, rfl⟩
    · exact h.stays ss before hms
    · rw [opened_append, h.ends]
      exact h'.stays ss rest hrest

theorem confined_nil (given : List Strategy) (k : Nat) : Confined given k [] := by
  intro ss before h _
  rw [List.prefix_nil.mp h]
  exact Nat.le_add_left _ _

theorem Confined.mono (h : Confined given k ms) (hk : k ≤ m) : Confined given m ms :=
  fun ss before hbefore hgiven =>
    Nat.le_trans (h ss before hbefore hgiven) (Nat.add_le_add_right hk _)

theorem Confined.append (h : Confined given k ms) (hms : Balanced ms)
    (h' : Confined given k ms') : Confined given k (ms ++ ms') := by
  intro ss before hbefore hgiven
  rcases prefix_append_cases hbefore with hprefix | ⟨rest, hrest, rfl⟩
  · exact h ss before hprefix hgiven
  · rw [opened_append, hms.ends] at hgiven ⊢
    exact h' ss rest hrest hgiven

section

variable {ρ : Env} {t : Term} {σ τ : State} {o : Outcome Term}

/-- The strategy itself is being applied in an application until this one ends. -/
theorem opened_enclosed (hms : Balanced ms)
    (h : before <+: enter ρ s t σ :: ms ++ [leave o τ]) (ss : List Strategy) :
    opened ss before = ss ∨
      ∃ inside, inside <+: ms ∧ opened ss before = opened (s :: ss) inside := by
  rcases List.prefix_cons_iff.mp h with rfl | ⟨inside, rfl, hinside⟩
  · exact .inl rfl
  · rcases prefix_append_cases hinside with hprefix | ⟨rest, hrest, rfl⟩
    · exact .inr ⟨inside, hprefix, rfl⟩
    · rcases List.prefix_cons_iff.mp hrest with rfl | ⟨rest, rfl, hnil⟩
      · exact .inr ⟨ms, List.prefix_refl ms, by rw [List.append_nil]; rfl⟩
      · rw [List.prefix_nil.mp hnil]
        refine .inl ?_
        rw [opened, opened_append, hms.ends]
        rfl

theorem Balanced.enclose (h : Balanced ms) (ρ : Env) (s : Strategy) (t : Term) (σ : State)
    (o : Outcome Term) (τ : State) : Balanced (enter ρ s t σ :: ms ++ [leave o τ]) where
  ends ss := by
    rw [List.cons_append, opened, opened_append, h.ends]
    rfl
  stays ss before hbefore := by
    rcases opened_enclosed h hbefore ss with heq | ⟨inside, hinside, heq⟩
    · exact ⟨[], heq.symm⟩
    · rw [heq]
      exact (List.suffix_cons s ss).trans (h.stays (s :: ss) inside hinside)

theorem Confined.enclose (h : Confined given k ms) (hms : Balanced ms)
    (hk : k + [s].countP Strategy.isWalk ≤ m) :
    Confined given m (enter ρ s t σ :: ms ++ [leave o τ]) := by
  intro ss before hbefore hgiven
  rcases opened_enclosed hms hbefore ss with heq | ⟨inside, hinside, heq⟩ <;> rw [heq] at hgiven ⊢
  · exact Nat.le_add_left _ _
  · have hcount := h (s :: ss) inside hinside hgiven
    have hsplit : (s :: ss).countP Strategy.isWalk =
        [s].countP Strategy.isWalk + ss.countP Strategy.isWalk := by
      rw [← List.countP_append, List.singleton_append]
    omega

/-- Inside a given strategy, anything may be applied. -/
theorem confined_given (hs : s ∈ given) (hms : Balanced ms) (k : Nat) :
    Confined given k (enter ρ s t σ :: ms ++ [leave o τ]) := by
  intro ss before hbefore hgiven
  rcases opened_enclosed hms hbefore ss with heq | ⟨inside, hinside, heq⟩ <;> rw [heq] at hgiven ⊢
  · exact Nat.le_add_left _ _
  · have hsuffix := hms.stays (s :: ss) inside hinside
    exact absurd (hsuffix.subset List.mem_cons_self) (hgiven s hs)

end

end Mark

open Mark (Balanced Confined)

namespace Script

variable {α : Type} {Q : Env → Strategy → Term → Prop}

/-- All applications in the script have the property, and nothing else in it runs out of time. -/
def Applies (Q : Env → Strategy → Term → Prop) : {α : Type} → Script α → Prop
  | _, effect x => ∀ σ, (x σ).1 ≠ .exhausted
  | _, apply ρ s t => Q ρ s t
  | _, bind x f => Applies Q x ∧ ∀ a, Applies Q (f a)
  | _, attempt x => Applies Q x
  | _, within _ x => Applies Q x

section

variable {call : Env → Strategy → Term → Effect Term}
  {inner : Env → Strategy → Term → State → List Mark}
  (hinner : ∀ ρ s t σ, Balanced (inner ρ s t σ))
include hinner

theorem balanced (x : Script α) (σ : State) : Balanced (x.trail call inner σ) := by
  induction x generalizing σ with
  | effect x => exact Mark.balanced_nil
  | apply ρ s t => exact (hinner ρ s t σ).enclose ρ s t σ _ _
  | bind x f ihx ihf =>
      rw [trail]
      split
      · exact (ihx σ).append (ihf _ _)
      · exact ihx σ
  | attempt x ih => exact ih σ
  | within f x ih => exact ih _

theorem confined {given : List Strategy} {k : Nat} {x : Script α}
    (hx : x.Applies fun ρ s t => ∀ σ, Confined given k
      (.enter ρ s t σ :: inner ρ s t σ ++ [.leave (call ρ s t σ).1 (call ρ s t σ).2]))
    (σ : State) : Confined given k (x.trail call inner σ) := by
  induction x generalizing σ with
  | effect x => exact Mark.confined_nil given k
  | apply ρ s t => exact hx σ
  | bind x f ihx ihf =>
      rw [trail]
      split
      · exact (ihx hx.1 σ).append (x.balanced hinner σ) (ihf _ (hx.2 _) _)
      · exact ihx hx.1 σ
  | attempt x ih => exact ih hx σ
  | within f x ih => exact ih hx _

end

/-- If every application in a script ends, then so does the script. -/
theorem exists_run {x : Script α}
    (hx : x.Applies fun ρ s t => ∀ σ, ∃ o τ, Strategy.Ends ρ s t σ o τ) (σ : State) :
    ∃ n o τ, o ≠ .exhausted ∧ ∀ m, n ≤ m → x.run (Strategy.apply m) σ = (o, τ) := by
  induction x generalizing σ with
  | effect x => exact ⟨0, _, _, hx σ, fun _ _ => rfl⟩
  | apply ρ s t =>
      obtain ⟨o, τ, hends⟩ := hx σ
      obtain ⟨n, hn⟩ := hends.at_depth
      obtain ⟨-, -, ho⟩ := hends
      exact ⟨n, o, τ, ho, hn⟩
  | bind x f ihx ihf =>
      obtain ⟨n, o, σ', ho, hn⟩ := ihx hx.1 σ
      have hstep (m : Nat) (hm : n ≤ m) : (bind x f).run (Strategy.apply m) σ = _ :=
        (Effect.bind_apply _ _ σ).trans (by rw [hn m hm])
      cases o with
      | ok a =>
          obtain ⟨n', o', τ, ho', hn'⟩ := ihf a (hx.2 a) σ'
          refine ⟨max n n', o', τ, ho', fun m hm => ?_⟩
          obtain ⟨hle, hle'⟩ := Nat.max_le.mp hm
          exact (hstep m hle).trans (hn' m hle')
      | failure => exact ⟨n, .failure, σ', by simp, hstep⟩
      | fatal e => exact ⟨n, .fatal e, σ', by simp, hstep⟩
      | exhausted => exact absurd rfl ho
  | attempt x ih =>
      obtain ⟨n, o, τ, ho, hn⟩ := ih hx σ
      have hstep (m : Nat) (hm : n ≤ m) : (attempt x).run (Strategy.apply m) σ = _ :=
        show Effect.attempt _ σ = _ by rw [Effect.attempt, hn m hm]
      cases o with
      | ok a => exact ⟨n, .ok (some a), τ, by simp, hstep⟩
      | failure => exact ⟨n, .ok none, τ, by simp, hstep⟩
      | fatal e => exact ⟨n, .fatal e, τ, by simp, hstep⟩
      | exhausted => exact absurd rfl ho
  | within f x ih =>
      obtain ⟨n, o, τ, ho, hn⟩ := ih hx (σ.push f)
      exact ⟨n, o, τ.pop, ho, fun m hm => by rw [run, Effect.within_apply, hn m hm]⟩

theorem applies_pure (a : α) : (pure a : Script α).Applies Q :=
  fun _ => by simp

theorem applies_failure : (effect .failure : Script α).Applies Q :=
  fun _ => by simp [Effect.failure]

theorem applies_inOrder {xs : List (Script α)} (h : ∀ x ∈ xs, x.Applies Q) :
    (inOrder xs).Applies Q := by
  induction xs with
  | nil => exact applies_pure []
  | cons x xs ih =>
      rw [List.forall_mem_cons] at h
      exact ⟨h.1, fun a => ⟨ih h.2, fun as => applies_pure (a :: as)⟩⟩

theorem applies_mapCells {f : Term → Script Term} {cs : List Cell}
    (h : ∀ c ∈ cs, (f c.head).Applies Q) : (mapCells f cs).Applies Q := by
  refine applies_inOrder fun x hx => ?_
  obtain ⟨c, hc, rfl⟩ := List.mem_map.mp hx
  exact ⟨h c hc, fun y => applies_pure (some y)⟩

theorem applies_fetchCells {f : Term → Script Term} {cs : List Cell}
    (h : ∀ c ∈ cs, (f c.head).Applies Q) : (fetchCells f cs).Applies Q := by
  induction cs with
  | nil => exact applies_failure
  | cons c cs ih =>
      rw [List.forall_mem_cons] at h
      refine ⟨h.1, fun o => ?_⟩
      cases o with
      | some y => exact applies_pure _
      | none => exact ⟨ih h.2, fun new => applies_pure _⟩

theorem applies_onChildren {t : Term} {F : List Cell → Script (List (Option Term))}
    {otherwise : Script Term}
    (hF : ∀ cs : List Cell, (∀ c ∈ cs, c.head ∈ t.children) → (F cs).Applies Q)
    (hotherwise : otherwise.Applies Q) : (onChildren t (transform · F) otherwise).Applies Q := by
  have htransform {list : Term} (hlist : list.isList) (hchildren : t.children = list.elems) :
      (transform list F).Applies Q := by
    rw [transform, if_pos hlist]
    refine ⟨hF list.cells fun c hc => ?_, fun new => applies_pure _⟩
    rw [hchildren, ← list.map_head_cells]
    exact List.mem_map_of_mem hc
  rw [onChildren]
  split
  · rename_i hshape
    have ht : t.isList := by rw [Term.isList, hshape]
    exact htransform ht (Term.children_of_isList ht)
  · rename_i hshape
    have ht : t.isList := by rw [Term.isList, hshape]
    exact htransform ht (Term.children_of_isList ht)
  · rename_i functor args hshape
    split
    · rename_i hargs
      exact ⟨htransform hargs (Term.children_of_appl hshape hargs), fun new => applies_pure _⟩
    · exact hotherwise
  · exact hotherwise

end Script

namespace Strategy

variable {Q : Env → Strategy → Term → Prop} {ρ ρ' : Env} {s a b : Strategy} {t : Term} {l : Label}
  {given : List Strategy} {k n : Nat}

/-- The applications right inside the application of the strategy to the term have the property. -/
def AppliesOnly (Q : Env → Strategy → Term → Prop) (ρ : Env) (s : Strategy) (t : Term) : Prop :=
  ∃ x : Script Term, (∀ n, Plan.ofStrategy n ρ s t = .plain x) ∧ x.Applies Q

theorem AppliesOnly.seq (ha : Q ρ a t) (hb : ∀ u, Q ρ b u) : AppliesOnly Q ρ (seq a b) t :=
  ⟨_, fun _ => rfl, ha, hb⟩

theorem AppliesOnly.choice (ha : Q ρ a t) (hb : Q ρ b t) : AppliesOnly Q ρ (choice a b) t := by
  refine ⟨_, fun _ => rfl, ha, fun o => ?_⟩
  cases o with
  | some y => exact Script.applies_pure y
  | none => exact hb

theorem AppliesOnly.all (h : ∀ c ∈ t.children, Q ρ s c) : AppliesOnly Q ρ (all s) t := by
  refine ⟨_, fun _ => rfl, Script.applies_onChildren (fun cs hcs => ?_) (Script.applies_pure t)⟩
  exact Script.applies_mapCells fun c hc => h c.head (hcs c hc)

theorem AppliesOnly.one (h : ∀ c ∈ t.children, Q ρ s c) : AppliesOnly Q ρ (one s) t := by
  refine ⟨_, fun _ => rfl, Script.applies_onChildren (fun cs hcs => ?_) Script.applies_failure⟩
  exact Script.applies_fetchCells fun c hc => h c.head (hcs c hc)

theorem AppliesOnly.recursive (h : Q ((l, s) :: ρ) s t) : AppliesOnly Q ρ (recursive l s) t :=
  ⟨_, fun _ => rfl, h⟩

theorem AppliesOnly.call (hl : ρ.resolve l = some (s, ρ')) (h : Q ρ' s t) :
    AppliesOnly Q ρ (call l) t := by
  refine ⟨.apply ρ' s t, fun _ => ?_, h⟩
  simp only [Plan.ofStrategy, hl]

/-- In every state, the strategy ends on the term. -/
def Terminates (ρ : Env) (s : Strategy) (t : Term) : Prop :=
  ∀ σ, ∃ o τ, Ends ρ s t σ o τ

theorem AppliesOnly.terminates (h : AppliesOnly Terminates ρ s t) : Terminates ρ s t := by
  intro σ
  obtain ⟨x, hplan, hx⟩ := h
  obtain ⟨n, o, τ, ho, hn⟩ := Script.exists_run hx σ
  refine ⟨o, τ, n + 1, ?_, ho⟩
  rw [apply, ← Plan.run_ofStrategy, hplan n]
  exact hn n (Nat.le_refl n)

theorem balanced_trail (n : Nat) (ρ : Env) (s : Strategy) (t : Term) (σ : State) :
    Balanced (s.trail n ρ t σ) := by
  induction n generalizing ρ s t σ with
  | zero => exact Mark.balanced_nil
  | succ n ih =>
      rw [trail]
      cases Plan.ofStrategy n ρ s t with
      | plain x => exact x.balanced ih σ
      | saving m x =>
          rw [Plan.trail]
          split
          · exact (x _).balanced ih σ
          · exact Mark.balanced_nil

/-- In the application of the strategy to the term, as long as none of the given strategies is
applied, no more calls than the bound are open. -/
def StaysWithin (given : List Strategy) (k n : Nat) (ρ : Env) (s : Strategy) (t : Term) : Prop :=
  ∀ σ, Confined given k
    (.enter ρ s t σ :: s.trail n ρ t σ ++ [.leave (s.apply n ρ t σ).1 (s.apply n ρ t σ).2])

theorem AppliesOnly.confined (h : AppliesOnly (StaysWithin given k n) ρ s t) (σ : State) :
    Confined given k (s.trail (n + 1) ρ t σ) := by
  obtain ⟨x, hplan, hx⟩ := h
  rw [trail, hplan n]
  exact Script.confined (balanced_trail n) hx σ

end Strategy

end StrategicRewriting
