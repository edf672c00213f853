import StrategicRewriting.Proofs.Context.Frames
import StrategicRewriting.Proofs.Strategy.Depth

/-!
Stack discipline: a strategy leaves the frames of the context in place, with the same
declarations, and a scope protects what the frames around it hold for the names that it
declares.
-/
namespace StrategicRewriting

namespace Context

/-- What the frames hold for a variable, the innermost one first. -/
def values (c : Context) (x : String) : List (Option (Option Term)) :=
  c.frames.map (·.vars.get? x)

/-- The tables of a name that the frames declare, the innermost one first. -/
def contents (c : Context) (name : String) : List (Option Table) :=
  c.frames.map (·.tables.get? name)

/-- For every name, only what the innermost declaration holds may change. -/
structure Evolves (c c' : Context) : Prop where
  values (x : String) : FirstOnly (c.values x) (c'.values x)
  contents (name : String) : FirstOnly (c.contents name) (c'.contents name)

namespace Evolves

variable {c c' c'' : Context}

theorem refl (c : Context) : Evolves c c :=
  ⟨fun _ => .refl _, fun _ => .refl _⟩

theorem trans (h : Evolves c c') (h' : Evolves c' c'') : Evolves c c'' :=
  ⟨fun x => (h.values x).trans (h'.values x),
    fun name => (h.contents name).trans (h'.contents name)⟩

theorem of_assign {x : String} {v : Option Term} (h : c.assign x v = .ok c') : Evolves c c' := by
  have hframes := frames_of_assign h
  constructor
  · refine .of_insert v (fun fr hfr => Option.map_eq_none_iff.mp hfr) (fun fr fr' hfr => ?_)
      hframes
    obtain ⟨w, hw, rfl⟩ := Option.map_eq_some_iff.mp hfr
    exact ⟨Option.isSome_of_eq_some hw, rfl⟩
  · intro name
    refine .of_unchanged (fun fr fr' hfr => ?_) hframes
    obtain ⟨w, -, rfl⟩ := Option.map_eq_some_iff.mp hfr
    rfl

theorem of_setTable {name : String} {T : Table} (h : c.setTable name T = .ok c') :
    Evolves c c' := by
  have hframes := frames_of_setTable h
  constructor
  · intro x
    refine .of_unchanged (fun fr fr' hfr => ?_) hframes
    obtain ⟨w, -, rfl⟩ := Option.map_eq_some_iff.mp hfr
    rfl
  · refine .of_insert T (fun fr hfr => Option.map_eq_none_iff.mp hfr) (fun fr fr' hfr => ?_)
      hframes
    obtain ⟨w, hw, rfl⟩ := Option.map_eq_some_iff.mp hfr
    exact ⟨Option.isSome_of_eq_some hw, rfl⟩

theorem length_frames (h : Evolves c c') : c.frames.length = c'.frames.length := by
  have hlen := (h.values "").isSome_eq.length_eq
  rwa [Context.values, Context.values, List.length_map, List.length_map] at hlen

theorem sameNames (h : Evolves c c') : List.Forall₂ Frame.SameNames c.frames c'.frames := by
  refine List.forall₂_iff_get.mpr ⟨h.length_frames, fun i hi hi' => ⟨fun x => ?_, fun name => ?_⟩⟩
  · have hx := (h.values x).isSome_eq
    rw [Context.values, Context.values, List.forall₂_map_left_iff, List.forall₂_map_right_iff] at hx
    rw [NameMap.mem_names_iff, NameMap.mem_names_iff, (List.forall₂_iff_get.mp hx).2 i hi hi']
  · have hname := (h.contents name).isSome_eq
    rw [Context.contents, Context.contents, List.forall₂_map_left_iff,
      List.forall₂_map_right_iff] at hname
    rw [NameMap.mem_names_iff, NameMap.mem_names_iff, (List.forall₂_iff_get.mp hname).2 i hi hi']

theorem frames_eq_cons {f : Frame} (h : Evolves (c.push f) c') :
    ∃ f', c'.frames = f' :: c'.pop.frames := by
  have hlen := h.length_frames
  rw [frames_push] at hlen
  cases hframes : c'.frames with
  | nil =>
      rw [hframes] at hlen
      cases hlen
  | cons f' fs =>
      refine ⟨f', ?_⟩
      rw [frames_pop hframes]
      rintro rfl
      rw [hframes] at hlen
      simp [frames] at hlen

theorem pop {f : Frame} (h : Evolves (c.push f) c') : Evolves c c'.pop := by
  obtain ⟨f', hframes⟩ := h.frames_eq_cons
  constructor
  · intro x
    have hx := h.values x
    rw [Context.values, Context.values, frames_push, hframes] at hx
    exact hx.tail
  · intro name
    have hx := h.contents name
    rw [Context.contents, Context.contents, frames_push, hframes] at hx
    exact hx.tail

theorem values_pop {f : Frame} (h : Evolves (c.push f) c') {x : String}
    (hx : (f.vars.get? x).isSome) : c'.pop.values x = c.values x := by
  obtain ⟨f', hframes⟩ := h.frames_eq_cons
  have hvalues := h.values x
  rw [Context.values, Context.values, frames_push, hframes] at hvalues
  exact hvalues.tail_eq hx

theorem contents_pop {f : Frame} (h : Evolves (c.push f) c') {name : String}
    (hname : (f.tables.get? name).isSome) : c'.pop.contents name = c.contents name := by
  obtain ⟨f', hframes⟩ := h.frames_eq_cons
  have hcontents := h.contents name
  rw [Context.contents, Context.contents, frames_push, hframes] at hcontents
  exact hcontents.tail_eq hname

end Evolves

end Context

namespace Correspondence

/-- Runs that go through the same states and leave all declarations in place. -/
def evolving : Correspondence :=
  identical (fun _ => True) Context.Evolves.refl .trans

theorem evolving_lawful : evolving.Lawful :=
  identical_lawful _ _ (fun _ _ _ _ => trivial) (fun _ _ _ => .pop)
    (fun _ _ _ _ => .of_assign) fun _ _ _ _ => .of_setTable

theorem evolving_apply (n : Nat) (ρ : Env) (s : Strategy) {t t' : Term} (ht : t = t') :
    evolving.Simulates Eq (s.apply n ρ t) (s.apply n ρ t') :=
  Strategy.simulates_apply evolving_lawful (Nat.le_refl n) (fun _ _ => trivial) trivial ht

theorem evolves_of_simulates {α : Type} {P : α → α → Prop} {x : Effect α}
    (h : evolving.Simulates P x x) {σ τ : State} {o : Outcome α} (hx : x σ = (o, τ))
    (ho : o ≠ .exhausted) : σ.context.Evolves τ.context := by
  have hself := h σ σ rfl
  rw [hx] at hself
  cases hself with
  | ok _ _ hmoves | failure _ hmoves | fatal _ _ hmoves => exact hmoves
  | exhausted => exact absurd rfl ho

end Correspondence

namespace Strategy

open Effect (Refines)

variable {ρ : Env} {s : Strategy} {t : Term} {σ τ : State} {o : Outcome Term}

theorem Ends.evolves (h : Ends ρ s t σ o τ) : σ.context.Evolves τ.context := by
  obtain ⟨n, hn, ho⟩ := h
  exact Correspondence.evolves_of_simulates (Correspondence.evolving_apply n ρ s rfl) hn ho

/-- What runs in a scope runs from the frame of the scope, which is dropped at the end. -/
theorem Ends.of_within {n : Nat} {f : Frame} (h : Effect.within f (s.apply n ρ t) σ = (o, τ))
    (ho : o ≠ .exhausted) : ∃ τ', Ends ρ s t (σ.push f) o τ' ∧ τ'.pop = τ := by
  rw [Effect.within_apply] at h
  obtain ⟨rfl, rfl⟩ := Prod.mk.inj h
  exact ⟨_, ⟨n, rfl, ho⟩, rfl⟩

theorem values_of_within {n : Nat} {f : Frame} (h : Effect.within f (s.apply n ρ t) σ = (o, τ))
    (ho : o ≠ .exhausted) {x : String} (hx : (f.vars.get? x).isSome) :
    τ.context.values x = σ.context.values x := by
  obtain ⟨τ', hends, rfl⟩ := Ends.of_within h ho
  exact hends.evolves.values_pop hx

theorem contents_of_within {n : Nat} {f : Frame} (h : Effect.within f (s.apply n ρ t) σ = (o, τ))
    (ho : o ≠ .exhausted) {name : String} (hname : (f.tables.get? name).isSome) :
    τ.context.contents name = σ.context.contents name := by
  obtain ⟨τ', hends, rfl⟩ := Ends.of_within h ho
  exact hends.evolves.contents_pop hname

theorem isSome_of_bindAll {bs : List (String × Effect Term)} {f f' : Frame}
    (h : Effect.bindAll bs f σ = (.ok f', τ)) {x : String}
    (hx : x ∈ bs.map (·.1) ∨ (f.vars.get? x).isSome) : (f'.vars.get? x).isSome := by
  induction bs generalizing f σ with
  | nil =>
      cases h
      exact hx.resolve_left List.not_mem_nil
  | cons b bs ih =>
      obtain ⟨u, σ', -, hrest⟩ := Effect.bind_eq_ok.mp h
      refine ih hrest ?_
      rw [List.map_cons, List.mem_cons, or_assoc] at hx
      rcases hx with hxb | hx | hf
      · exact .inr (NameMap.isSome_insert (.inl hxb))
      · exact .inl hx
      · exact .inr (NameMap.isSome_insert (.inr hf))

/-- The bindings of a scope have the same answer at every depth that suffices. -/
theorem refines_bindAll {n m : Nat} (hnm : n ≤ m) (ρ : Env) (bs : List (String × Strategy))
    (t : Term) :
    Refines (Effect.bindAll (bs.map fun b => (b.1, b.2.apply n ρ t)) .empty)
      (Effect.bindAll (bs.map fun b => (b.1, b.2.apply m ρ t)) .empty) := by
  rw [Effect.refines_iff fun _ => True]
  refine (Correspondence.same_lawful fun _ _ _ _ => trivial).bindAll ?_ rfl
  rw [List.forall₂_map_left_iff, List.forall₂_map_right_iff, List.forall₂_same]
  intro b _
  exact ⟨rfl, (Effect.refines_iff _).mp (refines_apply hnm ρ b.2 t)⟩

theorem Ends.values_of_letIn {bs : List (String × Strategy)} (h : Ends ρ (letIn bs s) t σ o τ)
    {n : Nat} {f : Frame} {σ₁ : State}
    (hbs : Effect.bindAll (bs.map fun b => (b.1, b.2.apply n ρ t)) .empty σ = (.ok f, σ₁))
    {x : String} (hx : x ∈ bs.map (·.1)) : τ.context.values x = σ₁.context.values x := by
  obtain ⟨m, hm⟩ := h.at_depth
  obtain ⟨-, -, ho⟩ := h
  have hletIn : (letIn bs s).apply (max m n + 1) ρ t σ = (o, τ) :=
    hm _ (Nat.le_succ_of_le (Nat.le_max_left m n))
  have hne : (Effect.bindAll (bs.map fun b => (b.1, b.2.apply n ρ t)) .empty σ).1 ≠ .exhausted := by
    rw [hbs]
    nofun
  have hbind := (refines_bindAll (Nat.le_max_right m n) ρ bs t σ hne).trans hbs
  rw [apply, step, Effect.bind_apply, hbind] at hletIn
  refine values_of_within hletIn ho (isSome_of_bindAll hbind (.inl ?_))
  rwa [List.map_map]

/-- However a strategy ends, the context has the same frames as before, with the same
declarations. The body of a scope leaves alone what the frames around it hold for the
names of the scope; the bindings of a scope belong to what is around it. -/
theorem stack_discipline :
    (Ends ρ s t σ o τ →
      τ.context.depth = σ.context.depth ∧
        List.Forall₂ Frame.SameNames σ.context.frames τ.context.frames) ∧
    (∀ names, Ends ρ (scope names s) t σ o τ →
      ∀ x ∈ names, τ.context.values x = σ.context.values x) ∧
    (∀ bs n f σ₁,
      Effect.bindAll (bs.map fun b => (b.1, b.2.apply n ρ t)) .empty σ = (.ok f, σ₁) →
      Ends ρ (letIn bs s) t σ o τ →
      ∀ x ∈ bs.map (·.1), τ.context.values x = σ₁.context.values x) ∧
    (∀ names, Ends ρ (tables names s) t σ o τ →
      ∀ name ∈ names, τ.context.contents name = σ.context.contents name) := by
  refine ⟨fun h => ⟨?_, h.evolves.sameNames⟩, ?_, fun bs n f σ₁ hbs h x hx => ?_, ?_⟩
  · rw [← Context.length_frames, ← Context.length_frames, h.evolves.length_frames]
  · rintro names ⟨n, hn, ho⟩ x hx
    cases n with
    | zero => cases hn; exact absurd rfl ho
    | succ n => exact values_of_within hn ho (Frame.isSome_declaring hx)
  · exact h.values_of_letIn hbs hx
  · rintro names ⟨n, hn, ho⟩ name hname
    cases n with
    | zero => cases hn; exact absurd rfl ho
    | succ n => exact contents_of_within hn ho (Frame.isSome_declaringTables hname)

theorem stack_discipline_fatal :
    ∃ (s : Strategy) (t : Term) (σ σ₁ τ₁ τ₂ τ₃ τ₄ : State) (f : Frame) (o : Outcome Term),
      (Ends [] s t σ o τ₁ ∧ τ₁.context.depth = σ.context.depth ∧
        List.Forall₂ Frame.SameNames σ.context.frames τ₁.context.frames) ∧
      (Ends [] (scope ["x"] s) t σ o τ₂ ∧ τ₂.context.values "x" = σ.context.values "x") ∧
      (Effect.bindAll [("x", (build t).apply 9 [] t)] .empty σ = (.ok f, σ₁) ∧
        Ends [] (letIn [("x", build t)] s) t σ o τ₃ ∧
        τ₃.context.values "x" = σ₁.context.values "x") ∧
      (Ends [] (tables ["k"] s) t σ o τ₄ ∧
        τ₄.context.contents "k" = σ.context.contents "k") := by
  -- the body writes the variable `x` and the table `k`, then reads `y`, which nothing declares
  let var (x : String) : Term := .var .derived x (.wildcard .derived)
  let s : Strategy :=
    seq (unset "x") (seq (pattern (var "x")) (seq (tableAdd "k") (build (var "y"))))
  let t : Term := .int .derived 1
  let σ : State :=
    ⟨⟨⟨[.declaring ["x", "z"]]⟩, ((Frame.declaringTables ["k"]).bind "x" t)⟩, []⟩
  let o : Outcome Term := .fatal (.undeclaredVar "y")
  have h₁ : (s.apply 9 [] t σ).1 = o := by decide +kernel
  have h₂ : ((scope ["x"] s).apply 9 [] t σ).1 = o := by decide +kernel
  have h₃ : ((letIn [("x", build t)] s).apply 9 [] t σ).1 = o := by decide +kernel
  have h₄ : ((tables ["k"] s).apply 9 [] t σ).1 = o := by decide +kernel
  have e₁ := Ends.of_fst h₁ nofun
  have e₂ := Ends.of_fst h₂ nofun
  have e₃ := Ends.of_fst h₃ nofun
  have e₄ := Ends.of_fst h₄ nofun
  refine ⟨s, t, σ, σ, _, _, _, _, Frame.empty.bind "x" t, o, ⟨e₁, stack_discipline.1 e₁⟩,
    ⟨e₂, stack_discipline.2.1 _ e₂ "x" (.head _)⟩, ⟨rfl, e₃, ?_⟩,
    ⟨e₄, stack_discipline.2.2.2 _ e₄ "k" (.head _)⟩⟩
  exact stack_discipline.2.2.1 [("x", build t)] 9 _ σ rfl e₃ "x" (.head _)

end Strategy

end StrategicRewriting
