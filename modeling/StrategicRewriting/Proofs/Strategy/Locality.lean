import StrategicRewriting.Proofs.Pattern.Binding
import StrategicRewriting.Proofs.Strategy.InputOnly

/-!
What a rule takes from the context. Its right-hand side is built from the values that matching
has found, and from the context where there are none. So variables of the left-hand side are its
own if matching gives them values. It does so except for variables that occur nowhere but in
constraints which are skipped, because the constrained variable has a value already.
-/
namespace StrategicRewriting

/-- The variable occurs in the pattern, but matching gives it no value. -/
def Term.Skips (lhs : Term) (x : String) : Prop :=
  lhs.HasVar x ∧ x ∉ lhs.boundAfter []

/-- Nothing is skipped if no variable has a constraint. -/
theorem Term.not_skips_of_plainVars {lhs : Term} (hplain : lhs.PlainVars) (x : String) :
    ¬lhs.Skips x :=
  fun h => h.2 (mem_boundAfter_of_plainVars hplain (.inr h.1))

namespace Strategy

variable {lhs rhs t : Term} {σ σ' : State}

/-- Values that matching has found hide those of the context. -/
theorem lookup_orElse_congr {b : Bindings} (hb : b.BindsExactly (lhs.boundAfter [])) {x : String}
    {vars vars' : Lookup} (h : x ∉ lhs.boundAfter [] → vars x = vars' x) :
    b.lookup.orElse vars x = b.lookup.orElse vars' x := by
  cases hx : b.get? x with
  | some v =>
      have hsome := Option.isSome_of_eq_some hx
      rw [InputOnly.lookup_orElse hsome, InputOnly.lookup_orElse hsome]
  | none =>
      simp only [Lookup.orElse, Bindings.lookup, hx]
      exact h (hb.not_mem hx)

/-- A rule leaves the context as it is, and it ends alike in contexts that agree on the variables
which its left-hand side does not have, and on those of its right-hand side that matching
skips. -/
theorem rule_local (lhs rhs t : Term) (σ σ' : State)
    (hother : ∀ x, ¬lhs.HasVar x → σ'.context.get x = σ.context.get x)
    (hskipped : ∀ x, lhs.Skips x → rhs.HasVar x → σ'.context.get x = σ.context.get x)
    (ρ ρ' : Env) :
    ∃ o τ τ', Ends ρ (rule lhs rhs) t σ o τ ∧ τ.context = σ.context ∧
      Ends ρ' (rule lhs rhs) t σ' o τ' ∧ τ'.context = σ'.context := by
  have hagree (x : String) (hx : rhs.HasVar x) (hunbound : x ∉ lhs.boundAfter []) :
      σ'.context.get x = σ.context.get x := by
    by_cases hlhs : lhs.HasVar x
    · exact hskipped x ⟨hlhs, hunbound⟩ hx
    · exact hother x hlhs
  obtain ⟨o, τ, τ', hne, hτ, hcontext, hτ', hcontext'⟩ :=
    InputOnly.applyRule_same lhs rhs t σ σ' fun b hm => by
      have hbinds : b.BindsExactly (lhs.boundAfter []) :=
        (Term.matches_of_matchTerm hm).bindsExactly Bindings.bindsExactly_empty
      exact Term.build_congr rhs fun x hx =>
        lookup_orElse_congr hbinds (hagree x (Term.mem_vars_iff.mp hx))
  exact ⟨o, τ, τ', ⟨1, hτ, hne⟩, hcontext, ⟨1, hτ', hne⟩, hcontext'⟩

theorem rule_local_constrained :
    ∃ (lhs rhs t u : Term) (σ σ' τ τ' : State), lhs.Skips "c" ∧ rhs.HasVar "c" ∧
      (∀ x ∈ ["f", "x", "y", "z", "w"], lhs.HasVar x ∧ σ'.context.get x ≠ σ.context.get x) ∧
      Ends [] (rule lhs rhs) t σ (.ok u) τ ∧ τ.context = σ.context ∧
      Ends [] (rule lhs rhs) t σ' (.ok u) τ' ∧ τ'.context = σ'.context := by
  -- `[f(x=[y,*z]),x=c]{A(w)} -> [f(c),y,w,*z]`, where only `c` is looked up in the context
  let var (x : String) : Term := .var .derived x (.wildcard .derived)
  let list (ts : List Term) : Term := .listOnto .empty ts
  let app (f : String) (ts : List Term) : Term := .appl .derived (.str .derived f) (list ts)
  let int (i : Int64) : Term := .int .derived i
  let lhs : Term := .annotated .derived
    (list [.appl .derived (var "f") (list [.var .derived "x" (.cons .derived (var "y") (var "z"))]),
      .var .derived "x" (var "c")]) (list [app "A" [var "w"]])
  let rhs : Term := .cons .derived (.appl .derived (var "f") (list [var "c"]))
    (.cons .derived (var "y") (.cons .derived (var "w") (var "z")))
  let pair := list [int 1, int 2]
  let t : Term := .annotated .derived (list [app "S" [pair], pair]) (list [app "A" [int 3]])
  let global : Frame := Frame.empty.bind "c" (int 4)
  let σ : State := ⟨⟨.empty, global⟩, []⟩
  let σ' : State := ⟨⟨⟨[.declaring ["f", "x", "y", "z", "w"]]⟩, global⟩, []⟩
  have hagree (x : String) (hx : x ∉ lhs.boundAfter []) : σ'.context.get x = σ.context.get x := by
    have hnone : (Frame.declaring ["f", "x", "y", "z", "w"]).vars.get? x = none := by
      have hbound : lhs.boundAfter [] = ["w", "x", "z", "y", "f"] := by decide +kernel
      rw [hbound] at hx
      simp only [List.mem_cons, List.not_mem_nil, or_false, not_or] at hx
      simp [Frame.declaring, Frame.declare, Frame.empty, hx]
      rfl
    simp [σ', σ, Context.get, Context.frames, Stack.empty, hnone]
  have hbound (x : String) (hx : x ∈ lhs.boundAfter []) : lhs.HasVar x :=
    (Term.hasVar_of_mem_boundAfter hx).resolve_left List.not_mem_nil
  obtain ⟨o, τ, τ', hends, hcontext, hends', hcontext'⟩ := rule_local lhs rhs t σ σ'
    (fun x hx => hagree x fun hmem => hx (hbound x hmem)) (fun x hx _ => hagree x hx.2) [] []
  have hout : ((rule lhs rhs).apply 1 [] t σ).1 =
      .ok (list [app "S" [int 4], int 1, int 3, int 2]) := by decide +kernel
  obtain ⟨rfl, -⟩ := (Ends.of_fst hout (by simp)).unique hends
  refine ⟨lhs, rhs, t, _, σ, σ', τ, τ', ⟨?_, by decide +kernel⟩, ?_, ?_, hends, hcontext, hends',
    hcontext'⟩
  · exact Term.mem_vars_iff.mp (by decide +kernel)
  · exact Term.mem_vars_iff.mp (by decide +kernel)
  · intro x hx
    refine ⟨Term.mem_vars_iff.mp ?_, ?_⟩
    · revert x
      decide +kernel
    · revert x
      decide +kernel

/-- In `[x,x=y] -> y`, matching skips `y`, so it is looked up in the context. -/
theorem rule_reads_skipped :
    ¬∀ (lhs rhs t : Term) (σ σ' τ τ' : State) (o o' : Outcome Term), lhs.WellFormed →
      rhs.WellFormed → (∀ x, ¬lhs.HasVar x → σ'.context.get x = σ.context.get x) →
      Ends [] (rule lhs rhs) t σ o τ → Ends [] (rule lhs rhs) t σ' o' τ' → o' = o := by
  let var (x : String) : Term := .var .derived x (.wildcard .derived)
  let list (ts : List Term) : Term := .listOnto .empty ts
  let int (i : Int64) : Term := .int .derived i
  let lhs := list [var "x", .var .derived "x" (var "y")]
  let t := list [int 1, int 1]
  let σ : State := ⟨⟨.empty, Frame.empty.declare "y"⟩, []⟩
  let σ' : State := ⟨⟨.empty, Frame.empty.bind "y" (int 5)⟩, []⟩
  intro h
  have hout : ((rule lhs (var "y")).apply 1 [] t σ).1 = .fatal (.unboundVar "y") := by
    decide +kernel
  have hout' : ((rule lhs (var "y")).apply 1 [] t σ').1 = .ok (int 5) := by decide +kernel
  have hagree (x : String) (hx : ¬lhs.HasVar x) : σ'.context.get x = σ.context.get x := by
    have hne : x ≠ "y" := by
      rintro rfl
      exact hx (Term.mem_vars_iff.mp (by decide +kernel))
    simp [σ, σ', Context.get, Context.frames, Stack.empty, Frame.bind, Frame.declare, hne]
  have heq := h lhs (var "y") t σ σ' _ _ _ _ ⟨trivial, ⟨trivial, trivial, rfl⟩, rfl⟩
    trivial hagree (Ends.of_fst hout (by simp)) (Ends.of_fst hout' (by simp))
  cases heq

end Strategy

end StrategicRewriting
