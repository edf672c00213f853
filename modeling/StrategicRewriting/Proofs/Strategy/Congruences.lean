import StrategicRewriting.Proofs.Strategy.Elements

/-!
Congruences and annotations. Where a congruence makes a node anew, the new node has the annotations
of the one that it stands for. To filter is the only congruence that can return another node than
the one in the place of its input, since it leaves out elements.
-/
namespace StrategicRewriting

namespace Spine

variable {R : Term → Term → Prop} {F : List Cell → Effect (List (Option Term))} {t : Term}
  {new : List (Option Term)}

theorem annotations_rebuild_of_renewed {cs : List Cell} (h : Renewed R cs new) :
    (rebuild t new).annotations = t.annotations := by
  obtain ⟨ys, rfl⟩ : ∃ ys : List Term, new = ys.map some := by
    induction h with
    | nil => exact ⟨[], rfl⟩
    | cons hy _ ih =>
        obtain ⟨y, rfl, -⟩ := hy
        obtain ⟨ys, rfl⟩ := ih
        exact ⟨y :: ys, rfl⟩
  rw [rebuild_map_some_eq, annotations_replaced]

theorem annotations_renew (t : Term) (shape : Shape) :
    (t.renew shape).annotations = t.annotations := by
  rw [Term.renew]
  split
  · rfl
  · exact Term.annotations_withShape t shape

theorem transform_keeps (hF : (F t.cells).Yields (Renewed R t.cells)) :
    (transform t F).Yields (·.annotations = t.annotations) :=
  yields_transform hF fun _ _ hnew => annotations_rebuild_of_renewed hnew

theorem onChildren_keeps
    (hF : ∀ list : Term, t.children = list.elems → (F list.cells).Yields (Renewed R list.cells))
    {otherwise : Effect Term} (hotherwise : otherwise.Yields (·.annotations = t.annotations)) :
    (onChildren t (transform · F) otherwise).Yields (·.annotations = t.annotations) :=
  yields_onChildren hF (fun _ _ hnew => annotations_rebuild_of_renewed hnew)
    (fun _ _ _ _ _ => annotations_renew t _) hotherwise

end Spine

namespace Strategy

open Spine

variable {ρ : Env} {s c : Strategy} {t u : Term} {σ τ : State}

/-- Congruences that leave out no element. -/
def keepsElements : Strategy → Bool
  | map _ | fetch _ | all _ | one _ | atLeastOne _ | cons _ _ | appl _ _ | congruent _ _ => true
  | _ => false

/-- Strategies that apply others to elements, or to the parts of a term. -/
def isCongruence : Strategy → Bool
  | filter _ => true
  | c => c.keepsElements

/-- Whatever the strategies inside it return, a congruence that leaves out no element returns a
term with the annotations of its input. -/
theorem yields_of_keepsElements (hc : c.keepsElements)
    (apply : Env → Strategy → Term → Effect Term) (n : Nat) (ρ : Env) (t : Term) :
    (step apply n ρ c t).Yields (·.annotations = t.annotations) := by
  have hany (s : Strategy) (t : Term) : (apply ρ s t).Yields fun _ => True := .any _
  cases c with
  | map s => exact transform_keeps (yields_mapCells (hany s) t.cells)
  | fetch s => exact transform_keeps (yields_fetchCells (fun _ => trivial) (hany s) t.cells)
  | all s => exact onChildren_keeps (fun list _ => yields_mapCells (hany s) list.cells) (.pure rfl)
  | one s =>
      exact onChildren_keeps
        (fun list _ => yields_fetchCells (fun _ => trivial) (hany s) list.cells) .failure
  | atLeastOne s =>
      exact onChildren_keeps
        (fun list _ => yields_someCells (fun _ => trivial) (hany s) list.cells) .failure
  | cons a b =>
      simp only [step]
      split
      · rename_i h tl hshape
        refine .after fun h' => .after fun tl' => ?_
        split
        · rw [Term.renew_cons hshape]
          exact .pure (annotations_renew t _)
        · exact .fatal _
      · exact .failure
  | appl a b =>
      simp only [step]
      split
      · rename_i f as hshape
        refine .after fun f' => .after fun as' => ?_
        split
        · exact .fatal _
        · split
          · rw [Term.renew_appl hshape]
            exact .pure (annotations_renew t _)
          · exact .fatal _
      · exact .failure
  | congruent name ss =>
      rcases congruent_cases apply n ρ name ss t with hfail | ⟨hlen, heq⟩
      · rw [hfail]
        exact .failure
      · rw [heq]
        refine onChildren_keeps (R := fun _ _ => True)
          (fun list hlist => yields_zipCells ?_ ?_) .failure
        · intro f hf
          obtain ⟨a, -, rfl⟩ := List.mem_map.mp hf
          exact hany a
        · rw [List.length_map, Term.length_cells, ← hlist, hlen]
  | _ => cases hc

/-- To filter the list leaves out its first elements, and then a node with annotations, which the
list does not have itself, is the first one. -/
def Uncovers (ρ : Env) (s : Strategy) (t : Term) (σ : State) : Prop :=
  t.annotations = none ∧ ∃ (new : List (Option Term)) (τ : State) (n : Term),
    Sweeps ρ s t.elems σ (.ok new) τ ∧
    t.nodes[(new.takeWhile Option.isNone).length]? = some n ∧ n.annotations ≠ none

theorem isList_of_filter (h : Ends ρ (filter s) t σ (.ok u) τ) : t.isList := by
  obtain ⟨n, hn, -⟩ := h
  cases n with
  | zero => cases hn
  | succ n =>
      simp only [apply, step, Spine.transform] at hn
      split at hn
      · assumption
      · cases hn

/-- To filter a list keeps its annotations, or gives it those of a node that was inside it. -/
theorem filter_keeps_iff (h : Ends ρ (filter s) t σ (.ok u) τ) :
    u.annotations = t.annotations ↔ ¬Uncovers ρ s t σ := by
  obtain ⟨hof, hto⟩ := rebuildsWith_filter (ρ := ρ) (s := s) (σ := σ) (isList_of_filter h)
  constructor
  · rintro heq ⟨hnone, new, τ', n, hsweep, hn, hne⟩
    obtain ⟨u', hu', hrebuilt⟩ := hto new τ' hsweep
    cases (h.unique hu').1
    rw [hrebuilt.annotations n hn, hnone, Option.none_or] at heq
    exact hne heq
  · intro hcovered
    obtain ⟨new, hsweep, hrebuilt⟩ := hof u τ h
    have hlt : (new.takeWhile Option.isNone).length < t.nodes.length := by
      have hle := (List.takeWhile_prefix (p := Option.isNone) (l := new)).length_le
      rw [hsweep.length_eq rfl] at hle
      rw [Term.length_nodes]
      exact Nat.lt_succ_of_le hle
    have hn := List.getElem?_eq_getElem hlt
    rw [hrebuilt.annotations _ hn]
    cases hannos : t.annotations with
    | some as => rw [Option.some_or]
    | none =>
        rw [Option.none_or]
        by_contra hne
        exact hcovered ⟨hannos, new, τ, _, hsweep, hn, hne⟩

/-- If a congruence succeeds, then the result has the annotations of the term that it was applied
to, except in one case: to filter can uncover a node inside a list without annotations. -/
theorem annotations_kept (hc : c.isCongruence) (h : Ends ρ c t σ (.ok u) τ) :
    u.annotations = t.annotations ↔ ¬∃ s, c = filter s ∧ Uncovers ρ s t σ := by
  by_cases hfilter : ∃ s, c = filter s
  · obtain ⟨s, rfl⟩ := hfilter
    rw [filter_keeps_iff h]
    simp only [filter.injEq, exists_eq_left']
  · have hkeeps : c.keepsElements := by
      cases c with
      | filter s => exact absurd ⟨s, rfl⟩ hfilter
      | _ => exact hc
    obtain ⟨n, hn, -⟩ := h
    cases n with
    | zero => cases hn
    | succ n =>
        refine ⟨fun _ ⟨s, hs, _⟩ => hfilter ⟨s, hs⟩, fun _ => ?_⟩
        exact yields_of_keepsElements hkeeps _ n ρ t σ u τ hn

theorem annotations_kept_dropped :
    ∃ (s : Strategy) (t u as : Term) (τ : State), t.WellFormed ∧
      Ends [] (filter s) t .initial (.ok u) τ ∧ t.annotations = some as ∧
      u.annotations = t.annotations ∧ ¬u.same t := by
  -- `[0 | [5]{B}]{A}` without `0`
  let anno (name : String) : Term :=
    .cons .derived (.appl .derived (.str .derived name) (.nil .derived)) (.nil .derived)
  let zero : Term := .int .derived 0
  let five : Term := .int .derived 5
  let t : Term := .annotated .derived (.cons .derived zero
    (.annotated .derived (.cons .derived five (.nil .derived)) (anno "B"))) (anno "A")
  let u : Term := .make (.cons five (.nil .derived)) (some (anno "A"))
  have hanno (name : String) : (anno name).WellFormed :=
    ⟨⟨trivial, trivial, rfl, rfl⟩, trivial, rfl⟩
  have ht : t.WellFormed :=
    ⟨⟨trivial, ⟨⟨trivial, trivial, rfl⟩, rfl, hanno "B", rfl⟩, rfl⟩, rfl, hanno "A", rfl⟩
  have hout : ((filter (.not (pattern zero))).apply 4 [] t .initial).1 = .ok u := by
    decide +kernel
  have hends := Ends.of_fst hout (by simp)
  have hcovered : ¬∃ s, filter (.not (pattern zero)) = filter s ∧ Uncovers [] s t .initial := by
    rintro ⟨s, -, hnone, -⟩
    cases hnone
  exact ⟨_, t, u, anno "A", _, ht, hends, rfl, (annotations_kept rfl hends).mpr hcovered, by decide⟩

/-- The list in `[0 | [5]{A}]` has annotations, while the one around it has none. -/
theorem annotations_uncovered :
    ∃ (s : Strategy) (t u as : Term) (τ : State), t.WellFormed ∧ t.isList ∧ u.isList ∧
      Ends [] (filter s) t .initial (.ok u) τ ∧ t.annotations = none ∧
      u.annotations = some as := by
  let as : Term :=
    .cons .derived (.appl .derived (.str .derived "A") (.nil .derived)) (.nil .derived)
  let zero : Term := .int .derived 0
  let u : Term := .annotated .derived (.cons .derived (.int .derived 5) (.nil .derived)) as
  let t : Term := .cons .derived zero u
  have hu : u.WellFormed :=
    ⟨⟨trivial, trivial, rfl⟩, rfl, ⟨⟨trivial, trivial, rfl, rfl⟩, trivial, rfl⟩, rfl⟩
  have hout : ((filter (.not (pattern zero))).apply 4 [] t .initial).1 = .ok u := by
    decide +kernel
  exact ⟨_, t, u, as, _, ⟨trivial, hu, rfl⟩, rfl, rfl, Ends.of_fst hout (by simp), rfl, rfl⟩

end Strategy

end StrategicRewriting
