import StrategicRewriting.Proofs.Context.Variables
import StrategicRewriting.Proofs.Pattern.Binding

/-!
Matching in the context. The values of the variables are read before the match and written after
it, one by one. No value that was read is changed by the match, so only variables without values
are written. When the same pattern is matched again, all values that the first match has found
are there, and the second one finds no others.
-/
namespace StrategicRewriting

/-- The values of the bindings are those of the listed variables in the context. -/
def Bindings.Reads (b : Bindings) (c : Context) (xs : List String) : Prop :=
  ∀ x v, b.get? x = some v ↔ x ∈ xs ∧ c.get x = .ok (some v)

theorem Bindings.reads_empty (c : Context) : empty.Reads c [] :=
  fun x v => by simp [empty, get?, NameMap.empty, NameMap.get?]

/-- Only variables of the pattern are given values. -/
theorem Term.Matches.hasVar {p t : Term} {b b' : Bindings} (h : Matches p t b b') {x : String}
    (hx : (b'.get? x).isSome) : (b.get? x).isSome ∨ p.HasVar x := by
  have hnames : b.BindsExactly b.vars.names := fun _ => NameMap.mem_names_iff.symm
  have hafter := (h.bindsExactly hnames x).mp hx
  exact (hasVar_of_mem_boundAfter hafter).imp_left (hnames x).mpr

namespace Effect

variable {b : Bindings} {xs done : List String} {σ : State}

theorem read_get_eq_ok {x : String} {v : Option Term} (h : σ.context.get x = .ok v) :
    read (·.get x) σ = (.ok v, σ) := by
  rw [read_apply, h]

theorem valuesOf_eq_ok (hxs : ∀ x ∈ xs, σ.context.DeclaresVar x)
    (hb : b.Reads σ.context done) :
    ∃ b', valuesOf xs b σ = (.ok b', σ) ∧ b'.Reads σ.context (done ++ xs) := by
  induction xs generalizing b done with
  | nil =>
      rw [List.append_nil]
      exact ⟨b, rfl, hb⟩
  | cons x xs ih =>
      rw [List.forall_mem_cons] at hxs
      obtain ⟨v, hv⟩ := Context.declaresVar_iff.mp hxs.1
      rw [valuesOf, bind_apply, read_get_eq_ok hv]
      rw [List.append_cons]
      cases v with
      | some v =>
          refine ih hxs.2 fun y w => ?_
          rw [Bindings.get?_bind]
          by_cases hy : y = x
          · simp [hy, hv]
          · simp [hy, hb y w]
      | none =>
          refine ih hxs.2 fun y w => ?_
          by_cases hy : y = x
          · simp [hy, hv, hb x w]
          · simp [hy, hb y w]

theorem valuesOf_undeclared (b : Bindings) {x : String} (hx : x ∈ xs)
    (h : ¬σ.context.DeclaresVar x) :
    ∃ y ∈ xs, ¬σ.context.DeclaresVar y ∧ valuesOf xs b σ = (.fatal (.undeclaredVar y), σ) := by
  induction xs generalizing b with
  | nil => cases hx
  | cons first xs ih =>
      by_cases hfirst : σ.context.DeclaresVar first
      · obtain ⟨v, hv⟩ := Context.declaresVar_iff.mp hfirst
        have hne : x ≠ first := by
          rintro rfl
          exact h hfirst
        have hx : x ∈ xs := (List.mem_cons.mp hx).resolve_left hne
        rw [valuesOf, bind_apply, read_get_eq_ok hv]
        cases v with
        | some v =>
            obtain ⟨y, hy, hrest⟩ := ih (b.bind first v) hx
            exact ⟨y, List.mem_cons_of_mem first hy, hrest⟩
        | none =>
            obtain ⟨y, hy, hrest⟩ := ih b hx
            exact ⟨y, List.mem_cons_of_mem first hy, hrest⟩
      · refine ⟨first, List.mem_cons_self, hfirst, ?_⟩
        rw [valuesOf, bind_apply, read_apply, Context.get_eq_error hfirst]

/-- One variable is written, unless its value is there or there is none to write. -/
theorem assignAll_cons {x : String} (xs : List String) (hx : σ.context.DeclaresVar x)
    (hb : ∀ v, σ.context.get x = .ok (some v) → b.get? x = some v) :
    ∃ c, assignAll b (x :: xs) σ = assignAll b xs (σ.into c) ∧
      σ.context.FillsIn (· = x) c ∧ ∀ v, c.get x = .ok (some v) ↔ b.get? x = some v := by
  cases hv : b.get? x with
  | none =>
      refine ⟨σ.context, ?_, .refl _ _, fun v => ⟨fun h => ?_, nofun⟩⟩
      · simp only [assignAll, hv]
        rfl
      · exact (hv.symm.trans (hb v h))
  | some v =>
      obtain ⟨c, hc⟩ := hx.assign (some v)
      refine ⟨c, ?_, ?_, fun w => ?_⟩
      · simp only [assignAll, hv, bind_apply, update_apply, Context.set, hc]
      · obtain ⟨w, hw⟩ := Context.declaresVar_iff.mp hx
        cases w with
        | none => exact .of_assign rfl hw hc
        | some w =>
            obtain rfl : v = w := Option.some.inj (hv.symm.trans (hb w hw))
            cases (Context.assign_self hw).symm.trans hc
            exact .refl _ _
      · rw [Context.get_assign hc, Except.ok.injEq]

/-- Variables that have values keep them, if these are the ones to be written. -/
theorem assignAll_eq_ok (hxs : ∀ x ∈ xs, σ.context.DeclaresVar x)
    (hb : ∀ x ∈ xs, ∀ v, σ.context.get x = .ok (some v) → b.get? x = some v) :
    ∃ c, assignAll b xs σ = (.ok (), σ.into c) ∧ σ.context.FillsIn (· ∈ xs) c ∧
      ∀ x ∈ xs, ∀ v, c.get x = .ok (some v) ↔ b.get? x = some v := by
  induction xs generalizing σ with
  | nil => exact ⟨σ.context, rfl, .refl _ _, List.forall_mem_nil _⟩
  | cons x xs ih =>
      rw [List.forall_mem_cons] at hxs hb
      obtain ⟨c₁, heq, hfirst, hvalue⟩ := assignAll_cons xs hxs.1 hb.1
      have hrest : ∀ y ∈ xs, ∀ v, c₁.get y = .ok (some v) → b.get? y = some v := by
        intro y hy v hv
        rcases hfirst.values y with hsame | ⟨rfl, -, -⟩
        · exact hb.2 y hy v ((Context.get_congr hsame).symm.trans hv)
        · exact (hvalue v).mp hv
      have hdeclared : ∀ y ∈ xs, (σ.into c₁).context.DeclaresVar y :=
        fun y hy => (hxs.2 y hy).evolves hfirst.evolves
      obtain ⟨c, hc, hfills, hvalues⟩ := ih hdeclared hrest
      have hhead : σ.context.FillsIn (· ∈ x :: xs) c₁ :=
        hfirst.mono fun y hy => hy ▸ List.mem_cons_self
      have htail : c₁.FillsIn (· ∈ x :: xs) c := hfills.mono fun y hy => List.mem_cons_of_mem x hy
      refine ⟨c, heq.trans hc, hhead.trans htail, List.forall_mem_cons.mpr ⟨fun v => ?_, hvalues⟩⟩
      rcases hfills.values x with hsame | ⟨hx, -, -⟩
      · rw [Context.get_congr hsame]
        exact hvalue v
      · exact hvalues x hx v

/-- Nothing changes if the values to be written are there. -/
theorem assignAll_self
    (h : ∀ x ∈ xs, ∀ v, b.get? x = some v → σ.context.get x = .ok (some v)) :
    assignAll b xs σ = (.ok (), σ) := by
  induction xs with
  | nil => rfl
  | cons x xs ih =>
      rw [List.forall_mem_cons] at h
      cases hv : b.get? x with
      | none =>
          simp only [assignAll, hv]
          exact ih h.2
      | some v =>
          simp only [assignAll, hv, bind_apply, update_apply, Context.set,
            Context.assign_self (h.1 v hv)]
          exact ih h.2

theorem matchPattern_eq_ok {p t : Term} {b b' : Bindings} {τ : State}
    (hvalues : valuesOf p.vars .empty σ = (.ok b, σ)) (hm : p.matchTerm t b = (true, b'))
    (hassign : assignAll b' p.vars σ = (.ok (), τ)) : matchPattern p t σ = (.ok t, τ) := by
  simp only [matchPattern, bind_apply, hvalues, hm, hassign]
  rfl

/-- Matching changes nothing in a context that has all values which an earlier match found. -/
theorem matchPattern_self {p t : Term} {b : Bindings} (hsettled : p.Settled t b)
    (hvars : ∀ x ∈ p.vars, σ.context.DeclaresVar x)
    (hb : ∀ x v, b.get? x = some v → x ∈ p.vars ∧ σ.context.get x = .ok (some v)) :
    matchPattern p t σ = (.ok t, σ) := by
  obtain ⟨b₁, hvalues, hreads⟩ := valuesOf_eq_ok hvars (Bindings.reads_empty σ.context)
  obtain ⟨b₂, hm, hsame⟩ := hsettled b₁ fun x v hv => (hreads x v).mpr (hb x v hv)
  refine matchPattern_eq_ok hvalues hm (assignAll_self fun x _ v hv => ?_)
  exact ((hreads x v).mp ((hsame x).symm.trans hv)).2

/-- Matching in a context that declares all variables of the pattern. -/
theorem matchPattern_declared {p : Term} (hvars : ∀ x ∈ p.vars, σ.context.DeclaresVar x)
    (t : Term) :
    matchPattern p t σ = (.failure, σ) ∨
      ∃ c, matchPattern p t σ = (.ok t, σ.into c) ∧ σ.context.FillsIn (· ∈ p.vars) c ∧
        matchPattern p t (σ.into c) = (.ok t, σ.into c) := by
  obtain ⟨b, hb, hreads⟩ := valuesOf_eq_ok hvars (Bindings.reads_empty σ.context)
  cases hm : p.matchTerm t b with
  | mk ok b' =>
      cases ok with
      | false =>
          refine .inl ?_
          simp only [matchPattern, bind_apply, hb, hm]
          rfl
      | true =>
          have hmatches := Term.matches_of_matchTerm hm
          have hkept : ∀ x ∈ p.vars, ∀ v, σ.context.get x = .ok (some v) → b'.get? x = some v :=
            fun x hx v hv => hmatches.extends x v ((hreads x v).mpr ⟨hx, hv⟩)
          obtain ⟨c, hc, hfills, hvalues⟩ := assignAll_eq_ok hvars hkept
          -- all values that the match has found are in the context now
          have hfound (x : String) (v : Term) (hv : b'.get? x = some v) :
              x ∈ p.vars ∧ c.get x = .ok (some v) := by
            have hx : x ∈ p.vars := by
              rcases hmatches.hasVar (Option.isSome_of_eq_some hv) with hbefore | hx
              · obtain ⟨w, hw⟩ := Option.isSome_iff_exists.mp hbefore
                exact ((hreads x w).mp hw).1
              · exact Term.mem_vars_iff.mpr hx
            exact ⟨hx, (hvalues x hx v).mpr hv⟩
          exact .inr ⟨c, matchPattern_eq_ok hb hm hc, hfills, matchPattern_self hmatches.settled
            (fun x hx => (hvars x hx).evolves hfills.evolves) hfound⟩

theorem matchPattern_undeclared {p : Term} {x : String} (hx : p.HasVar x)
    (h : ¬σ.context.DeclaresVar x) (t : Term) :
    ∃ y, p.HasVar y ∧ ¬σ.context.DeclaresVar y ∧
      matchPattern p t σ = (.fatal (.undeclaredVar y), σ) := by
  obtain ⟨y, hy, hundeclared, hvalues⟩ :=
    valuesOf_undeclared .empty (Term.mem_vars_iff.mpr hx) h
  refine ⟨y, Term.mem_vars_iff.mp hy, hundeclared, ?_⟩
  rw [matchPattern, bind_apply, hvalues]

end Effect

namespace Strategy

/-- Matching ends in a fatal error exactly if a variable of the pattern is not declared, and this
is the error then. It changes nothing if there is an error or a failure. If it succeeds, it
returns the term, and has only given values to variables of the pattern that had none; after
that, it succeeds again and changes nothing. -/
theorem pattern_conservative (p t : Term) (ρ : Env) (σ : State) :
    ∃ o τ, Ends ρ (pattern p) t σ o τ ∧
      ((o = .failure ∨ ∃ e, o = .fatal e) → τ = σ) ∧
      ((∃ x, o = .fatal (.undeclaredVar x)) ↔ ∃ x, p.HasVar x ∧ ¬σ.context.DeclaresVar x) ∧
      (∀ e, o = .fatal e → ∃ x, e = .undeclaredVar x ∧ p.HasVar x ∧ ¬σ.context.DeclaresVar x) ∧
      ∀ u, o = .ok u → u = t ∧ τ.log = σ.log ∧ σ.context.FillsIn p.HasVar τ.context ∧
        Ends ρ (pattern p) t τ (.ok t) τ := by
  by_cases hdeclared : ∀ x, p.HasVar x → σ.context.DeclaresVar x
  · have hnone : ¬∃ x, p.HasVar x ∧ ¬σ.context.DeclaresVar x :=
      fun ⟨x, hx, hundeclared⟩ => hundeclared (hdeclared x hx)
    obtain hfail | ⟨c, hok, hfills, hagain⟩ := Effect.matchPattern_declared
      (fun x hx => hdeclared x (Term.mem_vars_iff.mp hx)) t
    · exact ⟨.failure, σ, ⟨1, hfail, by simp⟩, fun _ => rfl, iff_of_false (by simp) hnone,
        by simp, by simp⟩
    · refine ⟨.ok t, σ.into c, ⟨1, hok, by simp⟩, by simp, iff_of_false (by simp) hnone, by simp,
        ?_⟩
      rintro u ⟨⟩
      exact ⟨rfl, rfl, hfills.mono fun x hx => Term.mem_vars_iff.mp hx, 1, hagain, by simp⟩
  · push Not at hdeclared
    obtain ⟨x, hx, hundeclared⟩ := hdeclared
    obtain ⟨y, hy, hy', hfatal⟩ := Effect.matchPattern_undeclared hx hundeclared t
    refine ⟨_, σ, ⟨1, hfatal, by simp⟩, fun _ => rfl, iff_of_true ⟨y, rfl⟩ ⟨y, hy, hy'⟩, ?_,
      by simp⟩
    rintro e ⟨⟩
    exact ⟨y, rfl, hy, hy'⟩

theorem pattern_conservative_nested :
    ∃ (p t : Term) (σ τ : State), Ends [] (pattern p) t σ (.ok t) τ ∧
      (∀ x ∈ ["x", "y", "z"], σ.context.get x = .ok none ∧ ∃ v, τ.context.get x = .ok (some v)) ∧
      σ.context.FillsIn p.HasVar τ.context ∧ Ends [] (pattern p) t τ (.ok t) τ ∧
      ∃ x, Ends [] (pattern p) t .initial (.fatal (.undeclaredVar x)) .initial := by
  -- `[x=[y,*x],y,*z]{A(w)}`, with a variable in its own constraint, in two frames
  let var (x : String) : Term := .var .derived x (.wildcard .derived)
  let anno (a : Term) : Term :=
    .listOnto .empty [.appl .derived (.str .derived "A") (.listOnto .empty [a])]
  let int (i : Int64) : Term := .int .derived i
  let p : Term := .annotated .derived
    (.cons .derived (.var .derived "x" (.cons .derived (var "y") (var "x")))
      (.cons .derived (var "y") (var "z"))) (anno (var "w"))
  let t : Term := .annotated .derived
    (.listOnto .empty [.listOnto .empty [int 1, int 2], int 1, int 4]) (anno (int 3))
  let σ : State := ⟨⟨⟨[.declaring ["y"]]⟩, (Frame.declaring ["x", "y", "z"]).bind "w" (int 3)⟩, []⟩
  have hok : ((pattern p).apply 1 [] t σ).1 = .ok t := by decide +kernel
  have hfatal : ((pattern p).apply 1 [] t .initial).1 = .fatal (.undeclaredVar "x") := by
    decide +kernel
  obtain ⟨o, τ, hends, -, -, -, hτ⟩ := pattern_conservative p t [] σ
  obtain ⟨rfl, rfl⟩ := (Ends.of_fst hok (by simp)).unique hends
  obtain ⟨-, -, hfills, hagain⟩ := hτ t rfl
  obtain ⟨o, τ', hends', hkept, -, -, -⟩ := pattern_conservative p t [] .initial
  obtain ⟨rfl, -⟩ := (Ends.of_fst hfatal (by simp)).unique hends'
  obtain rfl := hkept (.inr ⟨_, rfl⟩)
  refine ⟨p, t, σ, _, hends, ?_, hfills, hagain, "x", hends'⟩
  simp only [List.forall_mem_cons]
  exact ⟨⟨rfl, .listOnto .empty [int 1, int 2], by decide +kernel⟩, ⟨rfl, int 1, by decide +kernel⟩,
    ⟨rfl, .listOnto .empty [int 4], by decide +kernel⟩, List.forall_mem_nil _⟩

end Strategy

end StrategicRewriting
