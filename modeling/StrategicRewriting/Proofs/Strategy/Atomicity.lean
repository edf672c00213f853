import StrategicRewriting.Proofs.Strategy.Fatality

/-!
Merging of tables is atomic. When there is an error, the contents from the start are written
to the innermost declarations. These are the ones that were read, because no declaration is
lost or added meanwhile, and nothing that is further out has changed.
-/
namespace StrategicRewriting

theorem FirstOnly.eq_of_findSome? {α : Type} {vs vs' : List (Option α)} (h : FirstOnly vs vs')
    (hfirst : vs'.findSome? id = vs.findSome? id) : vs' = vs := by
  induction h with
  | nil => rfl
  | skip _ ih => rw [ih hfirst]
  | first a b vs =>
      obtain rfl : b = a := Option.some.inj hfirst
      rfl

namespace Context

variable {c c' : Context} {name : String} {T : Table}

theorem table_eq_ok_iff : c.table name = .ok T ↔ (c.contents name).findSome? id = some T := by
  rw [table, contents, List.findSome?_map, Function.id_comp]
  cases c.frames.findSome? (·.tables.get? name) with
  | some T' => simp
  | none => simp

theorem Declares.table (h : c.Declares name) : ∃ T, c.table name = .ok T := by
  simp only [table_eq_ok_iff]
  rw [← Option.isSome_iff_exists, List.findSome?_isSome_iff]
  exact h

theorem table_eq_error (h : ¬c.Declares name) : c.table name = .error (.undeclaredTable name) := by
  cases hT : c.table name with
  | ok T => exact absurd (declares_of_table hT) h
  | error e =>
      rw [table] at hT
      split at hT
      · cases hT
      · exact hT.symm

theorem contents_setTable_of_ne {other : String} (h : c.setTable name T = .ok c')
    (hne : other ≠ name) : c'.contents other = c.contents other := by
  refine map_updateFirst? (fun fr fr' hfr => ?_) (frames_of_setTable h)
  obtain ⟨_, -, rfl⟩ := Option.map_eq_some_iff.mp hfr
  rw [NameMap.get?_insert, if_neg hne]

theorem table_setTable (h : c.setTable name T = .ok c') : c'.table name = .ok T := by
  have hfind : c'.frames.findSome? (·.tables.get? name) = some T :=
    findSome?_updateFirst? (frames_of_setTable h) (fun fr hfr => Option.map_eq_none_iff.mp hfr)
      fun fr fr' hfr => by
        obtain ⟨_, -, rfl⟩ := Option.map_eq_some_iff.mp hfr
        rw [NameMap.get?_insert, if_pos rfl]
  rw [table, hfind]

/-- A table that is read as before has the same contents in every frame. -/
theorem Evolves.contents_eq (h : c.Evolves c') (hT : c.table name = .ok T)
    (hT' : c'.table name = .ok T) : c'.contents name = c.contents name := by
  rw [table_eq_ok_iff] at hT hT'
  exact (h.contents name).eq_of_findSome? (hT'.trans hT.symm)

theorem table_setTable_of_ne {other : String} {S : Table} (h : c.setTable name T = .ok c')
    (hne : other ≠ name) (hS : c.table other = .ok S) : c'.table other = .ok S := by
  rwa [table_eq_ok_iff, contents_setTable_of_ne h hne, ← table_eq_ok_iff]

end Context

namespace Merge

open Context

variable {c c' d : Context} {name : String} {T : Table} {ts : List (String × Table)} {m : Merge}
  {before : List Table}

theorem setTable_of_restoreAll (h : restoreAll ((name, T) :: ts) c = .ok d) :
    ∃ c', c.setTable name T = .ok c' ∧ restoreAll ts c' = .ok d := by
  rw [restoreAll] at h
  cases hc' : c.setTable name T with
  | ok c' =>
      rw [hc'] at h
      exact ⟨c', rfl, h⟩
  | error e =>
      rw [hc'] at h
      cases h

theorem evolves_restoreAll (h : restoreAll ts c = .ok d) : c.Evolves d := by
  induction ts generalizing c with
  | nil =>
      cases h
      exact .refl _
  | cons e ts ih =>
      obtain ⟨c', hc', hrest⟩ := setTable_of_restoreAll h
      exact (Evolves.of_setTable hc').trans (ih hrest)

-- a name may stand more than once in the list, then always with the same contents
theorem table_restoreAll (hts : ∀ e ∈ ts, c.table e.1 = .ok e.2) (h : restoreAll ts c' = .ok d)
    (hT : c.table name = .ok T) (hname : (∃ e ∈ ts, e.1 = name) ∨ c'.table name = .ok T) :
    d.table name = .ok T := by
  induction ts generalizing c' with
  | nil =>
      cases h
      exact hname.resolve_left (by simp)
  | cons e ts ih =>
      obtain ⟨first, S⟩ := e
      rw [List.forall_mem_cons] at hts
      rw [List.exists_mem_cons_iff] at hname
      obtain ⟨c₁, hc₁, hrest⟩ := setTable_of_restoreAll h
      refine ih hts.2 hrest ?_
      by_cases hfirst : name = first
      · subst hfirst
        obtain rfl : S = T := Except.ok.inj (hts.1.symm.trans hT)
        exact .inr (table_setTable hc₁)
      · rcases hname with (heq | hin) | hc'
        · exact absurd heq.symm hfirst
        · exact .inl hin
        · exact .inr (table_setTable_of_ne hc₁ hfirst hc')

/-- Tables that could be read can be restored later, to what they were in every frame. -/
theorem contents_restore (h : m.snapshot c = .ok before) (hc : c.Evolves c') :
    ∃ d, m.restore before c' = .ok d ∧ ∀ name ∈ m.names, d.contents name = c.contents name := by
  obtain ⟨d, hd⟩ := restore_eq_ok h hc
  refine ⟨d, hd, fun name hname => ?_⟩
  obtain ⟨hlen, hread⟩ := List.forall₂_iff_zip.mp (forall₂_of_mapM h)
  rw [← List.map_fst_zip (Nat.le_of_eq hlen)] at hname
  obtain ⟨e, he, rfl⟩ := List.mem_map.mp hname
  have hT : c.table e.1 = .ok e.2 := hread he
  have hT' : d.table e.1 = .ok e.2 :=
    table_restoreAll (fun _ he => hread he) hd hT (.inl ⟨e, he, rfl⟩)
  exact (hc.trans (evolves_restoreAll hd)).contents_eq hT hT'

theorem mapM_table_eq_error {names : List String} (hname : name ∈ names) (h : ¬c.Declares name) :
    ∃ x ∈ names, ¬c.Declares x ∧ names.mapM c.table = .error (.undeclaredTable x) := by
  induction names with
  | nil => cases hname
  | cons first names ih =>
      rw [List.mapM_cons]
      by_cases hfirst : c.Declares first
      · obtain ⟨T, hT⟩ := hfirst.table
        have hne : name ≠ first := by
          rintro rfl
          exact h hfirst
        obtain ⟨x, hx, hundeclared, herror⟩ := ih ((List.mem_cons.mp hname).resolve_left hne)
        refine ⟨x, List.mem_cons_of_mem first hx, hundeclared, ?_⟩
        rw [hT, herror]
        rfl
      · refine ⟨first, List.mem_cons_self, hfirst, ?_⟩
        rw [table_eq_error hfirst]
        rfl

end Merge

namespace Plan

variable {call : Env → Strategy → Term → Effect Term} {m : Merge} {x : List Table → Script Term}
  {σ τ : State} {o : Outcome Term}

/-- Errors of a run come after the tables have been restored. -/
theorem contents_of_saving (hx : ∀ before o' τ', (x before).run call σ = (o', τ') →
      o' ≠ .exhausted → σ.context.Evolves τ'.context)
    (h : (saving m x).run call σ = (o, τ)) (ho : o = .failure ∨ ∃ e, o = .fatal e) :
    ∀ name ∈ m.names, τ.context.contents name = σ.context.contents name := by
  rw [run, Effect.bind_apply, Effect.read_apply] at h
  cases hsnapshot : m.snapshot σ.context with
  | error e =>
      rw [hsnapshot] at h
      cases h
      exact fun name _ => rfl
  | ok before =>
      rw [hsnapshot] at h
      dsimp only at h
      rw [Effect.undoing] at h
      have hevolves := hx before
      generalize (x before).run call σ = r at h hevolves
      obtain ⟨o', τ'⟩ := r
      cases o' with
      | ok a | exhausted =>
          cases h
          simp at ho
      | failure | fatal e =>
          obtain ⟨d, hd, hcontents⟩ :=
            Merge.contents_restore hsnapshot (hevolves _ τ' rfl (by simp))
          simp only [Effect.bind, Effect.update_apply, hd] at h
          cases h
          exact hcontents

theorem run_saving_undeclared (call : Env → Strategy → Term → Effect Term)
    (x : List Table → Script Term) {name : String} (hname : name ∈ m.names)
    (h : ¬σ.context.Declares name) :
    ∃ undeclared ∈ m.names, ¬σ.context.Declares undeclared ∧
      (saving m x).run call σ = (.fatal (.undeclaredTable undeclared), σ) := by
  obtain ⟨undeclared, hmem, hundeclared, herror⟩ := Merge.mapM_table_eq_error hname h
  refine ⟨undeclared, hmem, hundeclared, ?_⟩
  rw [run, Effect.bind_apply, Effect.read_apply, Merge.snapshot, herror]

end Plan

namespace Strategy

/-- The strategies that merge tables. -/
inductive Merges (m : Merge) : Strategy → Prop
  | join (left right : Strategy) : Merges m (.join left right m)
  | iterate (s : Strategy) : Merges m (.iterate s m)

theorem Merges.exists_plan {m : Merge} {s : Strategy} (h : Merges m s) (n : Nat) (ρ : Env)
    (t : Term) : ∃ x, Plan.ofStrategy n ρ s t = .saving m x := by
  cases h with
  | join left right => exact ⟨_, rfl⟩
  | iterate s => exact ⟨_, rfl⟩

theorem Merges.ends_undeclared {m : Merge} {s : Strategy} (hs : Merges m s) (ρ : Env) (t : Term)
    {σ : State} {name : String} (hname : name ∈ m.names) (h : ¬σ.context.Declares name) :
    ∃ undeclared ∈ m.names, ¬σ.context.Declares undeclared ∧
      Ends ρ s t σ (.fatal (.undeclaredTable undeclared)) σ := by
  obtain ⟨x, hplan⟩ := hs.exists_plan 0 ρ t
  obtain ⟨undeclared, hmem, hundeclared, hrun⟩ :=
    Plan.run_saving_undeclared (Strategy.apply 0) x hname h
  refine ⟨undeclared, hmem, hundeclared, 1, ?_, by simp⟩
  rw [apply, ← Plan.run_ofStrategy, hplan, hrun]

/-- If a strategy that merges tables ends in an error, then its tables have the contents that
they had at its start. If one of them is not declared, this is the error, and nothing changes. -/
theorem merges_atomic {m : Merge} {s : Strategy} (hs : Merges m s) (ρ : Env) (t : Term)
    (σ : State) :
    (∀ o τ, Ends ρ s t σ o τ → (o = .failure ∨ ∃ e, o = .fatal e) →
      ∀ name ∈ m.names, τ.context.contents name = σ.context.contents name) ∧
    ∀ name ∈ m.names, ¬σ.context.Declares name →
      ∃ undeclared ∈ m.names, ¬σ.context.Declares undeclared ∧
        Ends ρ s t σ (.fatal (.undeclaredTable undeclared)) σ := by
  constructor
  · rintro o τ ⟨n, hn, hne⟩ ho
    cases n with
    | zero =>
        cases hn
        exact absurd rfl hne
    | succ n =>
        obtain ⟨x, hplan⟩ := hs.exists_plan n ρ t
        rw [apply, ← Plan.run_ofStrategy, hplan] at hn
        exact Plan.contents_of_saving (fun _ _ _ => Plan.evolves hplan) hn ho
  · intro name hname h
    exact hs.ends_undeclared ρ t hname h

theorem merges_atomic_overlapping :
    ∃ (m : Merge) (t : Term) (σ τ₁ τ₂ : State),
      (Ends [] (join (tableAdd "k") (seq (tableAdd "j") fail) m) t σ .failure τ₁ ∧
        ∀ name ∈ m.names, τ₁.context.contents name = σ.context.contents name) ∧
      (Ends [] (iterate (guarded (tableGet "k") (unset "x") (tableAdd "k")) m) t σ
          (.fatal (.undeclaredVar "x")) τ₂ ∧
        ∀ name ∈ m.names, τ₂.context.contents name = σ.context.contents name) ∧
      ∃ name, Ends [] (iterate ident ⟨m.names, ["i"]⟩) t σ (.fatal (.undeclaredTable name)) σ := by
  -- one name is repeated, one is in both lists, and one has a declaration further out
  let m : Merge := ⟨["k", "j", "k"], ["j"]⟩
  let t : Term := .int .derived 1
  let σ : State := ⟨⟨⟨[.declaringTables ["j", "k"]]⟩, .declaringTables ["k"]⟩, []⟩
  have hjoin : ((join (tableAdd "k") (seq (tableAdd "j") fail) m).apply 5 [] t σ).1 = .failure := by
    decide +kernel
  -- the first round adds a key, and the second one finds it
  have hiterate : ((iterate (guarded (tableGet "k") (unset "x") (tableAdd "k")) m).apply 5 [] t σ).1
      = .fatal (.undeclaredVar "x") := by
    decide +kernel
  have e₁ := Ends.of_fst hjoin (by simp)
  have e₂ := Ends.of_fst hiterate (by simp)
  have hundeclared : ¬σ.context.Declares "i" := by
    simp only [Context.Declares]
    decide +kernel
  obtain ⟨name, -, -, e₃⟩ :=
    (merges_atomic (m := ⟨m.names, ["i"]⟩) (.iterate ident) [] t σ).2 "i" (by decide) hundeclared
  exact ⟨m, t, σ, _, _, ⟨e₁, (merges_atomic (.join _ _) [] t σ).1 _ _ e₁ (.inl rfl)⟩,
    ⟨e₂, (merges_atomic (.iterate _) [] t σ).1 _ _ e₂ (.inr ⟨_, rfl⟩)⟩, name, e₃⟩

end Strategy

end StrategicRewriting
