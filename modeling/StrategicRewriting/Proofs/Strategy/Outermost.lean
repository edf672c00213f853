import StrategicRewriting.Proofs.Strategy.Elements
import StrategicRewriting.Proofs.Strategy.Rewriting

/-!
The traversal that applies a strategy at all outermost positions. It goes down from the root as far
as the strategy fails. Where the strategy succeeds, the result stands in the place of the subterm,
and the positions below are not visited. If the strategy fails everywhere, nothing is made anew.
-/
namespace StrategicRewriting

namespace Spine

open Term

/-- A term with its own immediate subterms is the term. -/
theorem withChildren_self (t : Term) : withChildren t t.children = t := by
  cases hshape : t.shape with
  | nil | cons h tl =>
      have ht : t.isList := by rw [isList, hshape]
      rw [withChildren_of_isList ht, children_of_isList ht, rebuild_self]
  | appl functor args =>
      by_cases hargs : args.isList
      · rw [withChildren_of_appl hshape hargs, children_of_appl hshape hargs, rebuild_self,
          if_pos (same_iff_eq.mpr rfl)]
      · simp [withChildren, hshape, hargs]
  | _ => simp only [withChildren, hshape]

end Spine

namespace Strategy

variable {ρ : Env} {s : Strategy} {t c d u u' : Term} {us : List Term} {i : Nat} {q : List Nat}

/-- A position on which the strategy succeeds, while it fails on all positions above it, with what
stands there and what the strategy returns for it. -/
structure OutermostAt (s : Strategy) (t : Term) (q : List Nat) (c u : Term) : Prop where
  there : t.at? q = some c
  returns : s.Returns c u
  above : ∀ p d, t.at? p = some d → p <+: q → p ≠ q → s.FailsOn d

/-- In the second term, what the strategy returns stands at the outermost positions on which it
succeeds, and the rest is as in the first one. -/
structure RewrittenOutermost (s : Strategy) (t v : Term) : Prop where
  there : ∀ q c u, OutermostAt s t q c u → v.at? q = some u
  apart : ∀ p, (∀ q c u, OutermostAt s t q c u → ¬p <+: q ∧ ¬q <+: p) → v.at? p = t.at? p
  above : ∀ q c u, OutermostAt s t q c u → ∀ p, p <+: q → p ≠ q →
    ∃ n n', t.at? p = some n ∧ v.at? p = some n' ∧ Term.SameOutline n n'
  same : (∀ q c u, ¬OutermostAt s t q c u) → v.same t

theorem EndsWith.unique {o o' : Outcome Term} (h : EndsWith ρ s t o) (h' : EndsWith ρ s t o') :
    o = o' := by
  obtain ⟨τ, hends⟩ := h .initial
  obtain ⟨τ', hends'⟩ := h' .initial
  exact (hends.unique hends').1

theorem Returns.unique (h : s.Returns t u) (h' : s.Returns t u') : u = u' :=
  Outcome.ok.inj (EndsWith.unique (h []) (h' []))

theorem Returns.not_failsOn (h : s.Returns t u) : ¬s.FailsOn t := by
  intro hfails
  cases EndsWith.unique (h []) (hfails [])

theorem InputOnly.failsOn_or_returns (hs : s.InputOnly)
    (h : ∃ ρ σ o τ, Ends ρ s t σ o τ ∧ ∀ e, o ≠ .fatal e) :
    s.FailsOn t ∨ ∃ u, s.Returns t u := by
  obtain ⟨ρ, σ, o, τ, hends, hfatal⟩ := h
  have hagain := (hs ρ t σ o τ hends).2
  cases o with
  | ok u => exact .inr ⟨u, hagain⟩
  | failure => exact .inl hagain
  | fatal e => exact absurd rfl (hfatal e)
  | exhausted => exact absurd rfl hends.choose_spec.2

/-- If the strategy succeeds on the root, there is no other outermost position. -/
theorem OutermostAt.eq_root (h : OutermostAt s t q c u') (hu : s.Returns t u) :
    q = [] ∧ u' = u := by
  have hq : q = [] := by
    by_contra hne
    exact hu.not_failsOn (h.above [] t rfl List.nil_prefix (Ne.symm hne))
  subst hq
  cases h.there
  exact ⟨rfl, h.returns.unique hu⟩

theorem OutermostAt.cons (ht : s.FailsOn t) (hd : t.children[i]? = some d)
    (h : OutermostAt s d q c u) : OutermostAt s t (i :: q) c u where
  there := (Term.at?_cons hd q).trans h.there
  returns := h.returns
  above p e he hp hne := by
    cases p with
    | nil =>
        cases he
        exact ht
    | cons j p =>
        obtain ⟨rfl, hpq⟩ := List.cons_prefix_cons.mp hp
        rw [Term.at?_cons hd] at he
        exact h.above p e he hpq fun heq => hne (heq ▸ rfl)

/-- If it fails there, the outermost positions are those of the immediate subterms. -/
theorem OutermostAt.exists_child (ht : s.FailsOn t) (h : OutermostAt s t q c u) :
    ∃ i p d, q = i :: p ∧ t.children[i]? = some d ∧ OutermostAt s d p c u := by
  cases q with
  | nil =>
      cases h.there
      exact absurd ht h.returns.not_failsOn
  | cons i p =>
      obtain ⟨d, hd, hat⟩ := Term.at?_cons_eq_some.mp h.there
      refine ⟨i, p, d, rfl, hd, hat, h.returns, fun r e he hr hne => ?_⟩
      refine h.above (i :: r) e ((Term.at?_cons hd r).trans he) ?_ fun heq => ?_
      · exact List.cons_prefix_cons.mpr ⟨rfl, hr⟩
      · exact hne (List.cons.inj heq).2

theorem OutermostAt.root (hu : s.Returns t u) : OutermostAt s t [] t u :=
  ⟨rfl, hu, fun _ _ _ hp hne => absurd (List.prefix_nil.mp hp) hne⟩

theorem rewrittenOutermost_root (hu : s.Returns t u) : RewrittenOutermost s t u := by
  have hroot := OutermostAt.root hu
  refine ⟨fun q c u' h => ?_, fun p h => ?_, fun q c u' h p hp hne => ?_, fun h => ?_⟩
  · obtain ⟨rfl, rfl⟩ := h.eq_root hu
    rfl
  · exact absurd List.nil_prefix (h [] t u hroot).2
  · obtain ⟨rfl, -⟩ := h.eq_root hu
    exact absurd (List.prefix_nil.mp hp) hne
  · exact absurd hroot (h [] t u)

/-- What the immediate subterms are rewritten to is put in their places. -/
theorem rewrittenOutermost_children (ht : s.FailsOn t)
    (h : List.Forall₂ (RewrittenOutermost s) t.children us) :
    RewrittenOutermost s t (Spine.withChildren t us) := by
  have hlen : us.length = t.children.length := h.length_eq.symm
  have hnew {i : Nat} {d : Term} (hd : t.children[i]? = some d) :
      ∃ y, (Spine.withChildren t us).children[i]? = some y ∧ RewrittenOutermost s d y := by
    obtain ⟨hi, rfl⟩ := List.getElem?_eq_some_iff.mp hd
    refine ⟨us[i], ?_, h.get hi (hlen ▸ hi)⟩
    rw [Spine.children_withChildren hlen]
    exact List.getElem?_eq_getElem (hlen ▸ hi)
  have hsame (hnone : ∀ q c u, ¬OutermostAt s t q c u) : Spine.withChildren t us = t := by
    have hus : us = t.children := by
      refine List.ext_getElem hlen fun i hi hi' => ?_
      refine Term.same_iff_eq.mp ((h.get hi' hi).same fun q c u hq => hnone (i :: q) c u ?_)
      exact hq.cons ht (List.getElem?_eq_getElem hi')
    rw [hus, Spine.withChildren_self]
  refine ⟨fun q c u hq => ?_, fun p hp => ?_, fun q c u hq p hp hne => ?_, fun hnone => ?_⟩
  · obtain ⟨i, r, d, rfl, hd, hinner⟩ := hq.exists_child ht
    obtain ⟨y, hy, hrewritten⟩ := hnew hd
    rw [Term.at?_cons hy]
    exact hrewritten.there r c u hinner
  · cases p with
    | nil =>
        refine congrArg some (hsame fun q c u hq => ?_)
        exact (hp q c u hq).1 List.nil_prefix
    | cons j p =>
        cases hd : t.children[j]? with
        | none =>
            have hnone : (Spine.withChildren t us).children[j]? = none := by
              rw [Spine.children_withChildren hlen, List.getElem?_eq_none_iff, hlen]
              exact List.getElem?_eq_none_iff.mp hd
            rw [Term.at?, Term.at?, hd, hnone]
        | some d =>
            obtain ⟨y, hy, hrewritten⟩ := hnew hd
            rw [Term.at?_cons hy, Term.at?_cons hd]
            refine hrewritten.apart p fun q c u hq => ?_
            have hapart := hp (j :: q) c u (hq.cons ht hd)
            rwa [List.prefix_cons_inj, List.prefix_cons_inj] at hapart
  · obtain ⟨i, r, d, rfl, hd, hinner⟩ := hq.exists_child ht
    cases p with
    | nil =>
        refine ⟨t, _, rfl, rfl, Spine.sameOutline_withChildren hlen fun hnil => ?_⟩
        rw [hnil] at hd
        cases hd
    | cons j p =>
        obtain ⟨rfl, hpr⟩ := List.cons_prefix_cons.mp hp
        obtain ⟨y, hy, hrewritten⟩ := hnew hd
        rw [Term.at?_cons hd, Term.at?_cons hy]
        exact hrewritten.above r c u hinner p hpr fun heq => hne (heq ▸ rfl)
  · exact Term.same_iff_eq.mpr (hsame hnone)

/-! The traversal. -/

theorem exists_sweeps {es : List Term}
    (h : List.Forall₂ (fun c u => EndsWith ρ s c (.ok u)) es us) (σ : State) :
    ∃ τ, Sweeps ρ s es σ (.ok (us.map some)) τ := by
  induction h generalizing σ with
  | nil => exact ⟨σ, .nil σ⟩
  | cons hc _ ih =>
      obtain ⟨σ', hends⟩ := hc σ
      obtain ⟨τ, hrest⟩ := ih σ'
      exact ⟨τ, .ok hends hrest⟩

theorem EndsWith.all
    (h : List.Forall₂ (fun c u => EndsWith ρ s c (.ok u)) t.children us) :
    EndsWith ρ (all s) t (.ok (Spine.withChildren t us)) := by
  intro σ
  obtain ⟨τ, hsweep⟩ := exists_sweeps h σ
  obtain ⟨n, hn⟩ := hsweep.filterCells
  have hmap (cs : List Cell) (hcs : cs.map (·.head) = t.children) :
      Spine.mapCells (s.apply n ρ) cs σ = (.ok (us.map some), τ) :=
    mapCells_eq_ok_iff.mpr ⟨hn n (Nat.le_refl n) cs hcs, by simp⟩
  refine ⟨τ, n + 1, ?_, by simp⟩
  refine Spine.onChildren_eq (o := .ok t) (g := fun _ => us) (fun hnone => ?_) hmap
  obtain rfl : us = [] := List.eq_nil_of_length_eq_zero (h.length_eq ▸ hnone ▸ rfl)
  have hself := Spine.withChildren_self t
  rw [hnone] at hself
  cases hmap [] hnone.symm
  simp only [Outcome.map, hself]
  rfl

/-- The body of the recursion. -/
def alltdBody (s : Strategy) : Strategy :=
  choice s (all (call .walk))

/-- The recursive strategies around the body. -/
def alltdEnv (s : Strategy) (ρ : Env) : Env :=
  (.walk, alltdBody s) :: ρ

theorem exists_alltdBody (h : ∀ q c, t.at? q = some c → s.FailsOn c ∨ ∃ u, s.Returns c u) :
    ∃ v, (∀ ρ, EndsWith (alltdEnv s ρ) (alltdBody s) t (.ok v)) ∧ RewrittenOutermost s t v := by
  induction t using Term.children_induction with
  | node t ih =>
      rcases h [] t rfl with hfails | ⟨u, hu⟩
      · have hbelow (c : Term) (hc : c ∈ t.children) (q : List Nat) (d : Term)
            (hd : c.at? q = some d) : s.FailsOn d ∨ ∃ u, s.Returns d u := by
          obtain ⟨i, hi⟩ := List.getElem?_of_mem hc
          exact h (i :: q) d ((Term.at?_cons hi q).trans hd)
        obtain ⟨us, hus⟩ := exists_forall₂ fun c hc => ih c hc (hbelow c hc)
        refine ⟨Spine.withChildren t us, fun ρ => .second (hfails _) (.all ?_), ?_⟩
        · exact hus.imp fun c u hc => .call rfl (hc.1 ρ)
        · exact rewrittenOutermost_children hfails (hus.imp fun c u hc => hc.2)
      · exact ⟨u, fun ρ => .first (hu _) (by simp) _, rewrittenOutermost_root hu⟩

/-- If the outcome of a strategy depends on nothing but its input, and the strategy is not fatal on
the subterms of a term, then the traversal succeeds on the term. It returns the term with the
results at the outermost positions on which the strategy succeeds, and all else as it was; if there
is no such position, it returns the very term. -/
theorem alltd_outermost (hs : s.InputOnly)
    (ht : ∀ q c, t.at? q = some c → ∃ ρ σ o τ, Ends ρ s c σ o τ ∧ ∀ e, o ≠ .fatal e) :
    ∃ v, (∀ ρ, EndsWith ρ (alltd s) t (.ok v)) ∧ RewrittenOutermost s t v := by
  obtain ⟨v, hbody, hrewritten⟩ := exists_alltdBody fun q c hc => hs.failsOn_or_returns (ht q c hc)
  exact ⟨v, fun ρ => .recursive (hbody ρ), hrewritten⟩

theorem alltd_outermost_nested :
    ∃ (s : Strategy) (t v outer last inner u₁ u₂ : Term), s.InputOnly ∧
      (OutermostAt s t [0, 0] outer u₁ ∧ outer.children = [inner] ∧ u₁.children = [inner] ∧
        ¬s.FailsOn inner) ∧
      OutermostAt s t [1] last u₂ ∧
      EndsWith [] (alltd s) t (.ok v) ∧ v.at? [0, 0] = some u₁ ∧ v.at? [1] = some u₂ ∧
      ∃ n, t.at? [0] = some n ∧ ∃ n', v.at? [0] = some n' ∧ Term.SameOutline n n' := by
  -- `A(x) -> B(x)` on `[F(A(A(1)){K}),A(2)]{L}`
  let app (f : String) (ts : List Term) : Term :=
    .appl .derived (.str .derived f) (.listOnto .empty ts)
  let anno (t : Term) (f : String) : Term :=
    .annotated .derived t (.listOnto .empty [app f []])
  let int (i : Int64) : Term := .int .derived i
  let x : Term := .var .derived "x" (.wildcard .derived)
  let s : Strategy := rule (app "A" [x]) (app "B" [x])
  let inner := app "A" [int 1]
  let outer := anno (app "A" [inner]) "K"
  let last := app "A" [int 2]
  let first := app "F" [outer]
  let t := anno (.listOnto .empty [first, last]) "L"
  let Settled (c : Term) : Prop := ∃ ρ σ o τ, Ends ρ s c σ o τ ∧ ∀ e, o ≠ .fatal e
  have hs : s.InputOnly := .rule_of_subset ⟨trivial, rfl, trivial⟩ (by decide)
  have hfails (c : Term) (h : (s.apply 1 [] c .initial).1 = .failure) :
      s.FailsOn c ∧ Settled c := by
    have hends := Ends.of_fst h (by simp)
    exact ⟨(hs _ _ _ _ _ hends).2, _, _, _, _, hends, by simp⟩
  have hreturns (c u : Term) (h : (s.apply 1 [] c .initial).1 = .ok u) :
      s.Returns c u ∧ Settled c := by
    have hends := Ends.of_fst h (by simp)
    exact ⟨(hs _ _ _ _ _ hends).2, _, _, _, _, hends, by simp⟩
  have hnode {c : Term} (hc : Settled c)
      (hbelow : ∀ d ∈ c.children, ∀ q e, d.at? q = some e → Settled e) :
      ∀ q e, c.at? q = some e → Settled e := by
    intro q e he
    cases q with
    | nil =>
        cases he
        exact hc
    | cons i q =>
        obtain ⟨d, hd, hat⟩ := Term.at?_cons_eq_some.mp he
        exact hbelow d (List.mem_of_getElem? hd) q e hat
  have hint (i : Int64) (h : (s.apply 1 [] (int i) .initial).1 = .failure) :
      ∀ q e, (int i).at? q = some e → Settled e :=
    hnode (hfails _ h).2 (List.forall_mem_nil _)
  obtain ⟨hinner, hinner'⟩ := hreturns inner (app "B" [int 1]) (by decide +kernel)
  obtain ⟨houter, houter'⟩ := hreturns outer (app "B" [inner]) (by decide +kernel)
  obtain ⟨hlast, hlast'⟩ := hreturns last (app "B" [int 2]) (by decide +kernel)
  obtain ⟨hfirst, hfirst'⟩ := hfails first (by decide +kernel)
  obtain ⟨hroot, hroot'⟩ := hfails t (by decide +kernel)
  have hsettled : ∀ q c, t.at? q = some c → Settled c := by
    refine hnode hroot' (List.forall_mem_cons.mpr ⟨?_, List.forall_mem_singleton.mpr ?_⟩)
    · refine hnode hfirst' (List.forall_mem_singleton.mpr ?_)
      refine hnode houter' (List.forall_mem_singleton.mpr ?_)
      exact hnode hinner' (List.forall_mem_singleton.mpr (hint 1 (by decide +kernel)))
    · exact hnode hlast' (List.forall_mem_singleton.mpr (hint 2 (by decide +kernel)))
  have hfound₁ : OutermostAt s t [0, 0] outer (app "B" [inner]) :=
    .cons (d := first) hroot rfl (.cons (d := outer) hfirst rfl (.root houter))
  have hfound₂ : OutermostAt s t [1] last (app "B" [int 2]) :=
    .cons (d := last) hroot rfl (.root hlast)
  obtain ⟨v, hends, hrewritten⟩ := alltd_outermost hs hsettled
  obtain ⟨n, n', hn, hn', hsame⟩ :=
    hrewritten.above _ _ _ hfound₁ [0] ⟨[0], rfl⟩ (by simp)
  exact ⟨s, t, v, outer, last, inner, _, _, hs, ⟨hfound₁, rfl, rfl, hinner.not_failsOn⟩, hfound₂,
    hends [], hrewritten.there _ _ _ hfound₁, hrewritten.there _ _ _ hfound₂, n, hn, n', hn', hsame⟩

end Strategy

end StrategicRewriting
