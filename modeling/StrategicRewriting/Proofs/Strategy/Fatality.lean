import StrategicRewriting.Proofs.Strategy.Scoping
import StrategicRewriting.Proofs.Strategy.Script

/-!
Fatal errors are final. After an application has ended in one, nothing else is applied, and
all applications around it end in the same error. Failures are caught in many places, but
fatal errors pass all of them. They also pass the strategies that restore tables, because
restoring cannot fail: the tables were declared before, and declarations stay in place.
-/
namespace StrategicRewriting

/-! Restoring of tables. -/

theorem FirstOnly.exists_isSome {α : Type} {vs vs' : List (Option α)} (h : FirstOnly vs vs')
    (hv : ∃ v ∈ vs, v.isSome) : ∃ v ∈ vs', v.isSome := by
  induction h with
  | nil => exact hv
  | skip _ ih =>
      simp only [List.exists_mem_cons_iff] at hv ⊢
      exact hv.imp_right ih
  | first a b vs => exact ⟨some b, List.mem_cons_self, rfl⟩

namespace Context

variable {c c' : Context} {name : String} {T : Table}

/-- Some frame has a table of the name. -/
def Declares (c : Context) (name : String) : Prop :=
  ∃ v ∈ c.contents name, v.isSome

theorem declares_of_table (h : c.table name = .ok T) : c.Declares name := by
  rw [table] at h
  split at h
  · rename_i hfind
    obtain ⟨f, hf, hT⟩ := List.exists_of_findSome?_eq_some hfind
    exact ⟨_, List.mem_map_of_mem hf, Option.isSome_of_eq_some hT⟩
  · cases h

theorem Declares.evolves (h : c.Declares name) (hc : c.Evolves c') : c'.Declares name :=
  (hc.contents name).exists_isSome h

theorem updateFirst?_isSome {f : Frame → Option Frame} {fs : List Frame}
    (h : ∃ fr ∈ fs, (f fr).isSome) : (updateFirst? f fs).isSome := by
  induction fs with
  | nil =>
      obtain ⟨fr, hfr, -⟩ := h
      cases hfr
  | cons fr fs ih =>
      rw [updateFirst?]
      cases hfr : f fr with
      | some fr' => rfl
      | none =>
          rw [List.exists_mem_cons_iff, hfr] at h
          simpa using ih (h.resolve_left (by simp))

/-- A name that some frame has can be changed. -/
theorem exists_update? {α : Type} {f : Frame → Option Frame} {g : Frame → Option α}
    (hfg : ∀ fr, (f fr).isSome = (g fr).isSome) (h : ∃ v ∈ c.frames.map g, v.isSome) :
    ∃ c', c.update? f = some c' := by
  obtain ⟨v, hv, hsome⟩ := h
  obtain ⟨fr, hfr, rfl⟩ := List.mem_map.mp hv
  have hupdate : (updateFirst? f c.frames).isSome :=
    updateFirst?_isSome ⟨fr, hfr, (hfg fr).trans hsome⟩
  rw [← frames_update?, Option.isSome_map] at hupdate
  exact Option.isSome_iff_exists.mp hupdate

theorem Declares.setTable (h : c.Declares name) (T : Table) : ∃ c', c.setTable name T = .ok c' := by
  obtain ⟨c', hc'⟩ := exists_update? (f := Frame.setTable? name T) (fun _ => Option.isSome_map) h
  exact ⟨c', by rw [Context.setTable, hc']⟩

end Context

namespace Merge

open Context

variable {c c' : Context}

theorem forall₂_of_mapM {names : List String} {before : List Table}
    (h : names.mapM c.table = .ok before) :
    List.Forall₂ (fun name T => c.table name = .ok T) names before := by
  induction names generalizing before with
  | nil =>
      cases h
      exact .nil
  | cons name names ih =>
      rw [List.mapM_cons] at h
      cases hT : c.table name with
      | error e =>
          rw [hT] at h
          cases h
      | ok T =>
          cases hrest : names.mapM c.table with
          | error e =>
              rw [hT, hrest] at h
              cases h
          | ok Ts =>
              rw [hT, hrest] at h
              cases h
              exact .cons hT (ih hrest)

theorem restoreAll_eq_ok {ts : List (String × Table)} (h : ∀ e ∈ ts, c.Declares e.1) :
    ∃ c', restoreAll ts c = .ok c' := by
  induction ts generalizing c with
  | nil => exact ⟨c, rfl⟩
  | cons e ts ih =>
      obtain ⟨name, T⟩ := e
      rw [List.forall_mem_cons] at h
      obtain ⟨d, hd⟩ := h.1.setTable T
      obtain ⟨c', hc'⟩ := ih fun e he => (h.2 e he).evolves (.of_setTable hd)
      exact ⟨c', by rw [restoreAll, hd]; exact hc'⟩

/-- Tables that could be read can be restored later. -/
theorem restore_eq_ok {m : Merge} {before : List Table} (h : m.snapshot c = .ok before)
    (hc : c.Evolves c') : ∃ d, m.restore before c' = .ok d := by
  refine restoreAll_eq_ok fun e he => ?_
  have hT : c.table e.1 = .ok e.2 := (List.forall₂_iff_zip.mp (forall₂_of_mapM h)).2 he
  exact (declares_of_table hT).evolves hc

end Merge

/-! Trails with a fatal error. -/

namespace Mark

variable {α β : Type} {ms ms' : List Mark} {o : Outcome α}

/-- No application ends in a fatal error. -/
def Calm (ms : List Mark) : Prop :=
  ∀ e τ, leave (.fatal e) τ ∉ ms

/-- After the first fatal error there are only applications that end in the same one, and so
does the whole run. -/
def Final (ms : List Mark) (o : Outcome α) : Prop :=
  Calm ms ∨ ∃ e calm rest, ms = calm ++ rest ∧ Calm calm ∧
    (∀ m ∈ rest, ∃ τ, m = leave (.fatal e) τ) ∧ o = .fatal e

theorem calm_nil : Calm [] :=
  fun _ _ => List.not_mem_nil

theorem Calm.append (h : Calm ms) (h' : Calm ms') : Calm (ms ++ ms') := by
  intro e τ hmem
  rcases List.mem_append.mp hmem with hms | hms'
  · exact h e τ hms
  · exact h' e τ hms'

theorem Final.calm (h : Final ms o) (ho : ∀ e, o ≠ .fatal e) : Calm ms := by
  rcases h with hcalm | ⟨e, -, -, -, -, -, heq⟩
  · exact hcalm
  · exact absurd heq (ho e)

theorem Final.of_outcome (h : Final ms o) {o' : Outcome β}
    (ho : ∀ e, o = .fatal e → o' = .fatal e) : Final ms o' := by
  rcases h with hcalm | ⟨e, calm, rest, hms, hcalm, hrest, heq⟩
  · exact .inl hcalm
  · exact .inr ⟨e, calm, rest, hms, hcalm, hrest, ho e heq⟩

theorem Calm.append_final (h : Calm ms) (h' : Final ms' o) : Final (ms ++ ms') o := by
  rcases h' with hcalm | ⟨e, calm, rest, rfl, hcalm, hrest, heq⟩
  · exact .inl (h.append hcalm)
  · refine .inr ⟨e, ms ++ calm, rest, ?_, h.append hcalm, hrest, heq⟩
    rw [List.append_assoc]

/-- An application ends like the run inside of it. -/
theorem Final.enclose {o : Outcome Term} (h : Final ms o) (ρ : Env) (s : Strategy) (t : Term)
    (σ τ : State) : Final (enter ρ s t σ :: ms ++ [leave o τ]) o := by
  have henter : Calm [enter ρ s t σ] := by simp [Calm]
  change Final ([enter ρ s t σ] ++ (ms ++ [leave o τ])) o
  refine henter.append_final ?_
  rcases h with hcalm | ⟨e, calm, rest, rfl, hcalm, hrest, rfl⟩
  · refine hcalm.append_final ?_
    cases o with
    | fatal e => exact .inr ⟨e, [], _, rfl, calm_nil, by simp, rfl⟩
    | ok a | failure | exhausted => exact .inl (by simp [Calm])
  · refine .inr ⟨e, calm, rest ++ [leave (.fatal e) τ], ?_, hcalm, ?_, rfl⟩
    · rw [List.append_assoc]
    · rw [List.forall_mem_append]
      exact ⟨hrest, by simp⟩

/-- What stands after an application that ended in a fatal error. -/
theorem Final.of_mem (h : Final ms o) {before after : List Mark} {e : Fatal} {τ : State}
    (hms : ms = before ++ leave (.fatal e) τ :: after) :
    o = .fatal e ∧ ∀ m ∈ after, ∃ τ', m = leave (.fatal e) τ' := by
  rcases h with hcalm | ⟨e', calm, rest, hsplit, hcalm, hrest, rfl⟩
  · exact absurd (by simp [hms]) (hcalm e τ)
  · have hsuffix : leave (.fatal e) τ :: after <:+ rest := by
      rcases List.append_eq_append_iff.mp (hms.symm.trans hsplit) with
        ⟨as, hcalm', hafter⟩ | ⟨bs, -, hrest'⟩
      · cases as with
        | nil => exact ⟨[], hafter⟩
        | cons m as =>
            cases hafter
            exact absurd (by simp [hcalm']) (hcalm e τ)
      · exact ⟨bs, hrest'.symm⟩
    obtain ⟨τ', hτ'⟩ := hrest _ (hsuffix.subset List.mem_cons_self)
    cases hτ'
    exact ⟨rfl, fun m hm => hrest m (hsuffix.subset (List.mem_cons_of_mem _ hm))⟩

end Mark

open Mark (Final)

section

variable {call : Env → Strategy → Term → Effect Term}
  {inner : Env → Strategy → Term → State → List Mark}
  (hinner : ∀ ρ s t σ, Final (inner ρ s t σ) (call ρ s t σ).1)
include hinner

theorem Script.final {α : Type} (x : Script α) (σ : State) :
    Final (x.trail call inner σ) (x.run call σ).1 := by
  induction x generalizing σ with
  | effect x => exact .inl Mark.calm_nil
  | apply ρ s t => exact (hinner ρ s t σ).enclose ρ s t σ _
  | bind x f ihx ihf =>
      have hx := ihx σ
      rw [trail, run, Effect.bind_apply]
      generalize x.run call σ = r at hx
      obtain ⟨o, τ⟩ := r
      cases o with
      | ok a => exact (hx.calm (by simp)).append_final (ihf a τ)
      | failure | exhausted => exact .inl (hx.calm (by simp))
      | fatal e => exact hx.of_outcome fun _ h => by cases h; rfl
  | attempt x ih =>
      have hx := ih σ
      rw [trail, run, Effect.attempt]
      generalize x.run call σ = r at hx
      obtain ⟨o, τ⟩ := r
      cases o with
      | ok a | failure | exhausted => exact .inl (hx.calm (by simp))
      | fatal e => exact hx.of_outcome fun _ h => by cases h; rfl
  | within f x ih => exact ih _

/-- Restoring lets a fatal error pass, if there is something to restore. -/
theorem Plan.final {p : Plan} (hp : ∀ m x, p = saving m x → ∀ before σ τ e,
      (x before).run call σ = (.fatal e, τ) → σ.context.Evolves τ.context) (σ : State) :
    Final (p.trail call inner σ) (p.run call σ).1 := by
  cases p with
  | plain x => exact x.final hinner σ
  | saving m x =>
      rw [trail, run, Effect.bind_apply, Effect.read_apply]
      cases hsnapshot : m.snapshot σ.context with
      | error e => exact .inl Mark.calm_nil
      | ok before =>
          have hx := (x before).final hinner σ
          have hevolves := hp m x rfl before σ
          dsimp only
          rw [Effect.undoing]
          generalize (x before).run call σ = r at hx hevolves
          obtain ⟨o, τ⟩ := r
          cases o with
          | ok a | failure | exhausted => exact .inl (hx.calm (by simp))
          | fatal e =>
              obtain ⟨c, hc⟩ := Merge.restore_eq_ok hsnapshot (hevolves τ e rfl)
              refine hx.of_outcome fun _ h => ?_
              cases h
              simp only [Effect.bind, Effect.update_apply, hc]
              rfl

end

open Correspondence in
theorem Plan.evolves {n : Nat} {ρ : Env} {s : Strategy} {t : Term} {m : Merge}
    {x : List Table → Script Term} (h : ofStrategy n ρ s t = saving m x) {before : List Table}
    {σ τ : State} {o : Outcome Term} (hx : (x before).run (Strategy.apply n) σ = (o, τ))
    (ho : o ≠ .exhausted) : σ.context.Evolves τ.context := by
  cases s with
  | join a b m =>
      cases h
      refine evolves_of_simulates (P := Eq) ?_ hx ho
      exact evolving_lawful.joinTables (s := .join a b m) trivial (fun _ h => h)
        (List.forall₂_same.mpr fun _ _ => rfl) (evolving_apply n ρ a rfl)
        fun _ _ => evolving_apply n ρ b
  | iterate a m =>
      cases h
      rw [Script.run_iterateTables] at hx
      refine evolves_of_simulates (P := Eq) ?_ hx ho
      exact evolving_lawful.iterateTables (s := .iterate a m) trivial (fun _ h => h)
        (evolving_apply n ρ a rfl) (Nat.le_refl n)
  | _ => cases h

namespace Strategy

theorem final_trail (n : Nat) (ρ : Env) (s : Strategy) (t : Term) (σ : State) :
    Final (s.trail n ρ t σ) (s.apply n ρ t σ).1 := by
  induction n generalizing ρ s t σ with
  | zero => exact .inl Mark.calm_nil
  | succ n ih =>
      rw [trail, apply, ← Plan.run_ofStrategy]
      exact Plan.final ih (fun _ _ h _ _ _ _ hx => Plan.evolves h hx (by simp)) σ

/-- If an application ends in a fatal error, at whatever place in a run, then nothing is
applied after it, and the applications around it and the run itself end in this error. -/
theorem fatal_final {n : Nat} {s : Strategy} {t : Term} {τ : State} {e : Fatal}
    {before after : List Mark} :
    (∀ ρ σ, s.trail n ρ t σ = before ++ .leave (.fatal e) τ :: after →
      (∀ m ∈ after, ∃ τ', m = .leave (.fatal e) τ') ∧ (s.apply n ρ t σ).1 = .fatal e) ∧
    (n ≤ depthLimit → s.trail n [] t .initial = before ++ .leave (.fatal e) τ :: after →
      (s.run t).1 = .fatal e) := by
  have hall (ρ : Env) (σ : State) (h : s.trail n ρ t σ = before ++ .leave (.fatal e) τ :: after) :
      (∀ m ∈ after, ∃ τ', m = .leave (.fatal e) τ') ∧ (s.apply n ρ t σ).1 = .fatal e :=
    ((final_trail n ρ s t σ).of_mem h).symm
  refine ⟨hall, fun hn h => ?_⟩
  have ho := (hall [] .initial h).2
  have hne : (s.apply n [] t .initial).1 ≠ .exhausted := by
    simp [ho]
  change (s.apply depthLimit [] t .initial).1 = .fatal e
  rw [refines_apply hn [] s t .initial hne, ho]

theorem fatal_final_join :
    ∃ (s : Strategy) (t : Term) (τ : State) (before after : List Mark),
      s.trail 9 [] t .initial = before ++ .leave (.fatal (.undeclaredVar "y")) τ :: after ∧
      (∀ m ∈ after, ∃ τ', m = .leave (.fatal (.undeclaredVar "y")) τ') ∧
      (s.apply 9 [] t .initial).1 = .fatal (.undeclaredVar "y") ∧
      (s.run t).1 = .fatal (.undeclaredVar "y") := by
  -- the error passes a choice, a list, the restoring of a table, a scope and a negation
  let s : Strategy := not (tables ["k"] (join (tableAdd "k")
    (map (attempt (build (.var .derived "y" (.wildcard .derived))))) ⟨["k"], []⟩))
  let t : Term := .listOnto .empty [.int .derived 1]
  let isError : Mark → Bool
    | .leave o _ => o = .fatal (.undeclaredVar "y")
    | .enter .. => false
  have hany : (s.trail 9 [] t .initial).any isError = true := by decide +kernel
  obtain ⟨m, hm, herror⟩ := List.any_eq_true.mp hany
  cases m with
  | enter ρ s t σ => cases herror
  | leave o τ =>
      obtain rfl : o = .fatal (.undeclaredVar "y") := of_decide_eq_true herror
      obtain ⟨before, after, htrail⟩ := List.append_of_mem hm
      obtain ⟨hafter, ho⟩ := fatal_final.1 _ _ htrail
      exact ⟨s, t, τ, before, after, htrail, hafter, ho, fatal_final.2 (by decide) htrail⟩

end Strategy

end StrategicRewriting
