import Mathlib.Logic.Relation
import StrategicRewriting.Proofs.Strategy.Composition
import StrategicRewriting.Proofs.Strategy.InputOnly

/-!
Strategies only rewrite with their rules. What a strategy that is built from a rule returns
can be reached from its input by replacing single subterms by what the rule returns for them.
A list that is rebuilt at once, with the cells after its last new element used again, is what
the replacements of its elements lead to one after the other.
-/
namespace StrategicRewriting

open Relation (ReflTransGen)

namespace Term

variable {R Q : Term → Term → Prop}

/-- The second list is the first one with one element replaced by a related one. The nodes
that enclose it keep their annotations. -/
inductive AtElem (R : Term → Term → Prop) : Term → Term → Prop
  | head {t h tl h' : Term} : t.shape = .cons h tl → R h h' → AtElem R t (t.renew (.cons h' tl))
  | tail {t h tl tl' : Term} : t.shape = .cons h tl → AtElem R tl tl' →
      AtElem R t (t.renew (.cons h tl'))

section

variable {k : Term → Shape} (hk : ∀ a b, (k b).sameParts (k a) ↔ b = a)

include hk

theorem renew_of_eq {t a : Term} (ht : t.shape = k a) : t.renew (k a) = t := by
  rw [renew, ht, if_pos ((hk a a).mpr rfl)]

theorem renew_of_ne {t a b : Term} (ht : t.shape = k a) (hab : b ≠ a) :
    t.renew (k b) = t.withShape (k b) := by
  rw [renew, ht, if_neg fun h => hab ((hk a b).mp h)]

/-- Steps at one place of a node are steps of the node. They may lead back to what was there
at first, but then the node itself has to stay, so the last step decides. -/
theorem reflTransGen_renew (hstep : ∀ {t a b}, t.shape = k a → R a b → Q t (t.renew (k b)))
    {t a b : Term} (ht : t.shape = k a) (h : ReflTransGen R a b) :
    ReflTransGen Q t (t.renew (k b)) := by
  by_cases hab : b = a
  · rw [hab, renew_of_eq hk ht]
  · have hreach : ∃ u, ReflTransGen Q t u ∧ u.shape = k b ∧ (u = t ∨ u = t.withShape (k b)) := by
      clear hab
      induction h with
      | refl => exact ⟨t, .refl, ht, .inl rfl⟩
      | @tail b c _ hbc ih =>
          obtain ⟨u, hu, hshape, hnode⟩ := ih
          refine ⟨u.renew (k c), hu.tail (hstep hshape hbc), shape_renew u _, ?_⟩
          by_cases hcb : c = b
          · subst hcb
            rwa [renew_of_eq hk hshape]
          · right
            rw [renew_of_ne hk hshape hcb]
            rcases hnode with rfl | rfl
            · rfl
            · rw [withShape, annotations_withShape, ← withShape]
    obtain ⟨u, hu, hshape, rfl | rfl⟩ := hreach
    · rw [ht] at hshape
      exact absurd ((hk b a).mp (by rw [hshape]; exact (hk b b).mpr rfl)).symm hab
    · rwa [renew_of_ne hk ht hab]

end

theorem sameParts_head (tl a b : Term) : (Shape.cons b tl).sameParts (.cons a tl) ↔ b = a := by
  simp only [Shape.sameParts, Bool.and_eq_true, same_iff_eq, and_true]

theorem sameParts_tail (h a b : Term) : (Shape.cons h b).sameParts (.cons h a) ↔ b = a := by
  simp only [Shape.sameParts, Bool.and_eq_true, same_iff_eq, true_and]

theorem sameParts_args (f a b : Term) : (Shape.appl f b).sameParts (.appl f a) ↔ b = a := by
  simp only [Shape.sameParts, Bool.and_eq_true, same_iff_eq, true_and]

/-- The tail of a node and its head may be replaced one after the other. -/
theorem renew_tail_head {t h tl : Term} (ht : t.shape = .cons h tl) (h' tl' : Term) :
    (t.renew (.cons h tl')).renew (.cons h' tl') = t.renew (.cons h' tl') := by
  by_cases htl : tl' = tl
  · rw [htl, renew_of_eq (sameParts_tail h) ht]
  · rw [renew_of_ne (sameParts_tail h) ht htl]
    have hshape := shape_withShape t (.cons h tl')
    by_cases hh : h' = h
    · rw [hh, renew_of_eq (sameParts_head tl') hshape, renew_of_ne (sameParts_tail h) ht htl]
    · rw [renew_of_ne (sameParts_head tl') hshape hh, withShape, annotations_withShape, ← withShape,
        renew, if_neg]
      intro hsame
      have heq := Shape.eq_of_sameParts hsame
      rw [ht] at heq
      exact hh (Shape.cons.inj heq).1

end Term

namespace Spine

open Term

variable {R : Term → Term → Prop} {t : Term} {new : List (Option Term)}

theorem rebuild_eq_replaced (h : Renewed R t.cells new) : rebuild t new = replaced t new := by
  rw [rebuild, replaced]
  cases rebuildCells t.lastTail t.cells new with
  | none => rfl
  | some u =>
      dsimp only
      split
      · generalize t.cells = cs at h
        cases h with
        | cons hn _ =>
            obtain ⟨y, hy, -⟩ := hn
            cases hy
      · rfl

/-- A list stays the same only if all its elements do. -/
theorem unchanged_of_replaced (h : Renewed R t.cells new) (heq : replaced t new = t) :
    Renewed Eq t.cells new := by
  induction t using spine_induction generalizing new with
  | cons t hd tl hshape ih =>
      rw [cells_of_cons hshape] at h ⊢
      cases h with
      | @cons _ _ _ rest hn hnew =>
          obtain ⟨y, rfl, -⟩ := hn
          have hcons := shape_replaced_some hshape y rest
          rw [heq, hshape] at hcons
          obtain ⟨hy, htl⟩ := Shape.cons.inj hcons
          exact .cons ⟨y, rfl, hy⟩ (ih hnew htl.symm)
  | other t hshape =>
      rw [(of_not_cons hshape).1] at h ⊢
      cases h
      exact .nil

theorem replaced_eq_renew {hd tl y : Term} (hshape : t.shape = .cons hd tl)
    (hnew : Renewed R tl.cells new) :
    replaced t (some y :: new) = t.renew (.cons y (replaced tl new)) := by
  rcases replaced_some hshape y new with ⟨heq, rfl, htl⟩ | heq
  · rw [heq, htl, renew_of_eq (sameParts_tail y) hshape]
  · rw [renew]
    split
    · rename_i hsame
      have hparts := Shape.eq_of_sameParts hsame
      rw [hshape] at hparts
      obtain ⟨hy, htl⟩ := Shape.cons.inj hparts
      have hall : Renewed Eq t.cells (some y :: new) := by
        rw [cells_of_cons hshape]
        exact .cons ⟨y, rfl, hy.symm⟩ (unchanged_of_replaced hnew htl)
      rw [← rebuild_eq_replaced hall, rebuild_unchanged hall]
    · exact heq

/-- The elements of a list can be replaced one after the other. -/
theorem reflTransGen_rebuild (h : Renewed (ReflTransGen R) t.cells new) :
    ReflTransGen (AtElem R) t (rebuild t new) := by
  rw [rebuild_eq_replaced h]
  induction t using spine_induction generalizing new with
  | cons t hd tl hshape ih =>
      rw [cells_of_cons hshape] at h
      cases h with
      | @cons _ _ _ rest hn hnew =>
          obtain ⟨y, rfl, hy⟩ := hn
          rw [replaced_eq_renew hshape hnew, ← renew_tail_head hshape]
          generalize ht : t.renew (.cons hd (replaced tl rest)) = u
          have hu : u.shape = .cons hd (replaced tl rest) := ht ▸ shape_renew t _
          have htail : ReflTransGen (AtElem R) t u :=
            ht ▸ reflTransGen_renew (sameParts_tail hd) .tail hshape (ih hnew)
          have hhead : ReflTransGen (AtElem R) u (u.renew (.cons y (replaced tl rest))) :=
            reflTransGen_renew (sameParts_head _) .head hu hy
          exact htail.trans hhead
  | other t hshape => rw [replaced_of_not_cons hshape]

end Spine

namespace Strategy

/-- The strategy returns the second term for the first one, wherever it is applied to it. -/
def Returns (s : Strategy) (t u : Term) : Prop :=
  ∀ ρ σ, ∃ τ, Ends ρ s t σ (.ok u) τ

/-- The second term is the first one with one subterm replaced by what the strategy returns
for it: the term itself, an element of a list or an argument of an application, at any
depth. -/
inductive Rewrites (s : Strategy) : Term → Term → Prop
  | here {t u : Term} : s.Returns t u → Rewrites s t u
  | elem {t u : Term} : t.AtElem (Rewrites s) u → Rewrites s t u
  | arg {t functor args args' : Term} : t.shape = .appl functor args →
      args.AtElem (Rewrites s) args' → Rewrites s t (t.renew (.appl functor args'))

theorem congruence_rewrites (s : Strategy) : Congruence (ReflTransGen s.Rewrites) where
  refl _ := .refl
  trans := .trans
  elems _ hnew := ReflTransGen.mono (fun _ _ => .elem) _ _ (Spine.reflTransGen_rebuild hnew)
  args {_ functor _ _} hshape hnew :=
    Term.reflTransGen_renew (Term.sameParts_args functor) .arg hshape
      (Spine.reflTransGen_rebuild hnew)

/-- Strategies that are built from a given one. -/
inductive BuiltFrom (s : Strategy) : Strategy → Prop
  | self : BuiltFrom s s
  | composed {r : Strategy} : Composed (BuiltFrom s) r → BuiltFrom s r

theorem InputOnly.returns {s : Strategy} (hs : s.InputOnly) {n : Nat} {ρ : Env} {t u : Term}
    {σ τ : State} (h : s.apply n ρ t σ = (.ok u, τ)) : s.Returns t u :=
  (hs ρ t σ (.ok u) τ ⟨n, h, nofun⟩).2

theorem BuiltFrom.yields {s r : Strategy} (hr : BuiltFrom s r) (hs : s.InputOnly) (n : Nat)
    {ρ : Env} (hρ : ∀ e ∈ ρ, BuiltFrom s e.2) (t : Term) :
    (r.apply n ρ t).Yields (ReflTransGen s.Rewrites t) := by
  induction n generalizing r ρ t with
  | zero => exact .exhausted
  | succ n ih =>
      cases hr with
      | self => exact fun σ u τ hu => .single (.here (hs.returns hu))
      | composed hr =>
          exact hr.yields s.congruence_rewrites (fun ρ a t hρ ha => ih ha hρ t) hρ n t

/-- What a strategy that is built from another one returns can be reached from its input by
rewriting with this one. The traversals may be used in building it. -/
theorem builtFrom_rewrites {s : Strategy} (hs : s.InputOnly) :
    HasTraversals (BuiltFrom s) ∧
    ∀ {r : Strategy} {ρ : Env} {t u : Term} {σ τ : State}, BuiltFrom s r →
      (∀ e ∈ ρ, BuiltFrom s e.2) → Ends ρ r t σ (.ok u) τ → ReflTransGen s.Rewrites t u := by
  refine ⟨hasTraversals_of_composed fun _ => .composed, ?_⟩
  rintro r ρ t u σ τ hr hρ ⟨n, hn, -⟩
  exact hr.yields hs n hρ t σ u τ hn

theorem builtFrom_rewrites_innermost :
    ∃ (s r : Strategy) (t u : Term) (τ : State), s.InputOnly ∧ BuiltFrom s r ∧
      Ends [] r t .initial (.ok u) τ ∧ t ≠ u ∧ ReflTransGen s.Rewrites t u := by
  -- `P(x, 0) -> x` on `[P(A, 0), F(P(P(B, 0), 0)){A}]`
  let x : Term := .var .derived "x" (.wildcard .derived)
  let s : Strategy := rule (.appl .derived (.str .derived "P")
    (.listOnto .empty [x, .int .derived 0])) x
  let r : Strategy := guarded (oncetd s) (innermost s) fail
  let nil : Term := .nil (.serial 0)
  let a : Term := .appl (.serial 1) (.str (.serial 2) "A") nil
  let b : Term := .appl (.serial 3) (.str (.serial 4) "B") nil
  let p (n : Nat) (v : Term) : Term := .appl (.serial n) (.str (.serial 5) "P")
    (.cons (.serial 6) v (.cons (.serial 7) (.int (.serial 8) 0) nil))
  let f (o : Origin) (args : Term) : Term :=
    .annotated o (.appl .derived (.str (.serial 9) "F") args) (.cons (.serial 10) a nil)
  let t : Term := .cons (.serial 11) (p 20 a) (.cons (.serial 12)
    (f (.serial 13) (.cons (.serial 14) (p 21 (p 22 b)) nil)) nil)
  let u : Term := .cons .derived a (.cons .derived (f .derived (.cons .derived b nil)) nil)
  have hs : s.InputOnly := .rule_of_subset ⟨trivial, rfl, trivial, trivial⟩ (by decide)
  obtain ⟨htraversals, hrewrites⟩ := builtFrom_rewrites hs
  have hr : BuiltFrom s r :=
    .composed (.guarded (htraversals.oncetd .self) (htraversals.innermost .self) (.composed .fail))
  have hout : (r.apply 40 [] t .initial).1 = .ok u := by decide +kernel
  have hends := Ends.of_fst hout nofun
  exact ⟨s, r, t, u, _, hs, hr, hends, by decide +kernel,
    hrewrites hr (List.forall_mem_nil _) hends⟩

end Strategy

end StrategicRewriting
