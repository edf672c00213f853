import StrategicRewriting.Factory.Basic
import StrategicRewriting.Proofs.Strategy.Composition
import StrategicRewriting.Proofs.Strategy.Depth

/-!
Passive strategies look at terms, and at most change the context. If they succeed, they return
the very node that they were given: no list and no application is made anew unless one of its
subterms has changed.
-/
namespace StrategicRewriting

theorem congruence_eq : Congruence Eq where
  refl _ := rfl
  trans := Eq.trans
  elems _ hnew := (Spine.rebuild_unchanged hnew).symm
  args {t functor args new} hshape hnew := by
    rw [Spine.rebuild_unchanged hnew, ← Term.renew_args hshape,
      if_pos (Term.same_iff_eq.mpr rfl)]

namespace Strategy

/-- The strategy applies no others, and it returns its input if it succeeds. -/
def returnsInput : Strategy → Bool
  | pattern _ | lt | gt | eq | nil | unset _ | trace _ | tableSet _ | tableAdd _ | tableErase _
  | tableClear _ => true
  | _ => false

/-- Strategies that do not change terms. -/
inductive Passive : Strategy → Prop
  | returnsInput {s : Strategy} : s.returnsInput → Passive s
  | cons {a b : Strategy} : Passive a → Passive b → Passive (cons a b)
  | appl {a b : Strategy} : Passive a → Passive b → Passive (appl a b)
  | composed {s : Strategy} : Composed Passive s → Passive s

theorem yields_of_returnsInput {s : Strategy} (hs : s.returnsInput)
    (apply : Env → Strategy → Term → Effect Term) (n : Nat) (ρ : Env) (t : Term) :
    (step apply n ρ s t).Yields (t = ·) := by
  have hcomparison (rel : Int64 → Int64 → Bool) : (Effect.comparison rel t).Yields (t = ·) := by
    refine .after fun ij => ?_
    dsimp only
    split
    · exact .pure rfl
    · exact .failure
  cases s with
  | pattern pat =>
      refine .after fun b => ?_
      split
      · exact .after fun _ => .pure rfl
      · exact .failure
  | lt => exact hcomparison (· < ·)
  | gt => exact hcomparison (· > ·)
  | eq =>
      refine .after fun ab => ?_
      dsimp only
      split
      · exact .pure rfl
      · exact .failure
  | nil =>
      simp only [step]
      split
      · exact .pure rfl
      · exact .failure
  | unset x | tableAdd name | tableErase name | tableClear name =>
      exact .after fun _ => .pure rfl
  | tableSet name | trace label => exact .after fun _ => .after fun _ => .pure rfl
  | _ => cases hs

/-- The cells of a list and the parts of an application are compared before a new node is
made. -/
theorem Passive.yields {s : Strategy} (hs : s.Passive) (n : Nat) {ρ : Env}
    (hρ : ∀ e ∈ ρ, e.2.Passive) (t : Term) : (s.apply n ρ t).Yields (t = ·) := by
  induction n generalizing s ρ t with
  | zero => exact .exhausted
  | succ n ih =>
      cases hs with
      | returnsInput hs => exact yields_of_returnsInput hs _ n ρ t
      | cons ha hb =>
          simp only [apply, step]
          split
          · refine (ih ha hρ _).bind fun h' hh => (ih hb hρ _).bind fun tl' htl => ?_
            subst hh htl
            split
            · simp only [Term.same_iff_eq.mpr, Bool.and_self, if_true]
              exact .pure rfl
            · exact .fatal _
          · exact .failure
      | appl ha hb =>
          simp only [apply, step]
          split
          · refine (ih ha hρ _).bind fun f' hf => (ih hb hρ _).bind fun as' has => ?_
            subst hf has
            split
            · exact .fatal _
            · split
              · simp only [Term.same_iff_eq.mpr, Bool.and_self, if_true]
                exact .pure rfl
              · exact .fatal _
          · exact .failure
      | composed hs =>
          exact hs.yields congruence_eq (fun ρ a t hρ ha => ih ha hρ t) hρ n t

/-- If a passive strategy succeeds, it returns the node that it was given. Traversals with
passive strategies are passive. -/
theorem passive_same : HasTraversals Passive ∧
    ∀ {ρ : Env} {s : Strategy} {t u : Term} {σ τ : State}, s.Passive → (∀ e ∈ ρ, e.2.Passive) →
      Ends ρ s t σ (.ok u) τ → u.same t := by
  refine ⟨hasTraversals_of_composed fun _ => .composed, ?_⟩
  rintro ρ s t u σ τ hs hρ ⟨n, hn, -⟩
  exact Term.same_iff_eq.mpr (hs.yields n hρ t σ u τ hn).symm

theorem passive_same_congruent :
    ∃ (s : Strategy) (t u : Term) (τ : State), s.Passive ∧ Ends [] s t .initial (.ok u) τ ∧
      u.same t := by
  -- all nodes of `C([1, *z], [2, 3]){A}` are numbered, so a node that was made anew would differ
  let w : Written := .annotated (.appl (.name "C")
    [.list [.int 1] (some (.var "z" none)), .list [.int 2, .int 3] none] none)
    [.appl (.name "A") [] none]
  let t : Term := (Factory.share w 2).1
  let x : Term := .var .derived "x" (.wildcard .derived)
  let first : Strategy := cons (pattern x) (map (test (build x)))
  let s : Strategy := scope ["x"] (tables ["k"] (join (topdown (tableAdd "k"))
    (congruent "C" [bottomup (trace "n"), first]) ⟨["k"], ["k"]⟩))
  have hadd : (tableAdd "k").Passive := .returnsInput rfl
  have htrace : (trace "n").Passive := .returnsInput rfl
  obtain ⟨htraversals, hsame⟩ := passive_same
  have hdown : (topdown (tableAdd "k")).Passive := htraversals.topdown hadd
  have hup : (bottomup (trace "n")).Passive := htraversals.bottomup htrace
  have hfirst : first.Passive :=
    .cons (.returnsInput rfl) (.composed (.map (.composed (.test _))))
  have hargs : ∀ a ∈ [bottomup (trace "n"), first], a.Passive :=
    List.forall_mem_cons.mpr ⟨hup, List.forall_mem_singleton.mpr hfirst⟩
  have hjoin : (join (topdown (tableAdd "k")) (congruent "C" [bottomup (trace "n"), first])
      ⟨["k"], ["k"]⟩).Passive :=
    .composed (.join _ hdown (.composed (.congruent "C" hargs)))
  have hs : s.Passive := .composed (.scope _ (.composed (.tables _ hjoin)))
  have hout : (s.apply 40 [] t .initial).1 = .ok t := by decide +kernel
  have hends := Ends.of_fst hout nofun
  exact ⟨s, t, t, _, hs, hends, hsame hs (List.forall_mem_nil _) hends⟩

end Strategy

end StrategicRewriting
