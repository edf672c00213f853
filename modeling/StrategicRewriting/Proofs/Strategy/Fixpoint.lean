import Mathlib.Algebra.Order.BigOperators.Group.List
import Mathlib.Algebra.Order.Group.Nat
import StrategicRewriting.Proofs.Context.Tables

/-!
Iteration as a sequence of rounds. A round applies the body and merges what it made of the
tables with their contents before; the rounds go on as long as this changes a table. Keys of
united tables are never lost and intersected tables never grow, whatever the body does. So
with intersections only, every round but the last takes an entry away.
-/
namespace StrategicRewriting.Strategy

open Context

/-- One application of the body from `σ` to `after`, and the state after merging its tables. -/
structure Round (ρ : Env) (s : Strategy) (m : Merge) (t : Term) (σ after τ : State) (u : Term)
    (changed : Bool) : Prop where
  declared : ∀ x ∈ m.names, σ.context.Declares x
  ends : Ends ρ s t σ (.ok u) after
  merges : ∃ c, m.apply (m.names.map σ.context.tableOf) after.context = .ok (changed, c) ∧
    τ = after.into c

/-- Rounds that change a table, with the states before and after every application of the
body. -/
inductive Rounds (ρ : Env) (s : Strategy) (m : Merge) (t : Term) :
    State → List (State × State) → State → Prop
  | nil (σ : State) : Rounds ρ s m t σ [] σ
  | cons {σ after τ υ : State} {u : Term} {rs : List (State × State)} :
      Round ρ s m t σ after τ u true → Rounds ρ s m t τ rs υ →
      Rounds ρ s m t σ ((σ, after) :: rs) υ

/-- The last application of the body: it changes no table, or it ends in an error. -/
inductive Concludes (ρ : Env) (s : Strategy) (m : Merge) (t : Term) (σ : State) :
    Outcome Term → State → Prop
  | fixpoint {after τ : State} {u : Term} :
      Round ρ s m t σ after τ u false →
      Concludes ρ s m t σ (.ok u) { τ with log := .fixpoint :: τ.log }
  | error {o : Outcome Term} {τ : State} :
      (∀ x ∈ m.names, σ.context.Declares x) → Ends ρ s t σ o τ → (∀ u, o ≠ .ok u) →
      Concludes ρ s m t σ o τ

variable {ρ : Env} {s : Strategy} {m : Merge} {t u : Term} {σ σ' after τ : State}
  {changed : Bool} {rs : List (State × State)} {o : Outcome Term}

/-! The loop goes through rounds. -/

theorem read_eq_ok {α : Type} {f : Context → Except Fatal α} {a : α} :
    Effect.read f σ = (.ok a, τ) ↔ f σ.context = .ok a ∧ τ = σ := by
  rw [Effect.read_apply]
  cases f σ.context <;> simp [eq_comm]

theorem change_eq_ok {α : Type} {f : Context → Except Fatal (α × Context)} {a : α} :
    Effect.change f σ = (.ok a, τ) ↔ ∃ c, f σ.context = .ok (a, c) ∧ τ = σ.into c := by
  rw [Effect.change_apply]
  cases f σ.context <;> simp [Prod.ext_iff, eq_comm, and_assoc]

theorem rounds_of_iterateTables {n k : Nat}
    (h : Effect.iterateTables m (s.apply n ρ t) k σ = (.ok u, τ)) :
    ∃ rs σ' after υ, Rounds ρ s m t σ rs σ' ∧ Round ρ s m t σ' after υ u false ∧
      τ = { υ with log := .fixpoint :: υ.log } := by
  induction k generalizing σ with
  | zero => cases h
  | succ k ih =>
      rw [Effect.iterateTables_succ] at h
      obtain ⟨before, σ₁, hbefore, h⟩ := Effect.bind_eq_ok.mp h
      obtain ⟨v, after, hbody, h⟩ := Effect.bind_eq_ok.mp h
      obtain ⟨changed, τ₁, hchange, h⟩ := Effect.bind_eq_ok.mp h
      obtain ⟨hbefore, rfl⟩ := read_eq_ok.mp hbefore
      obtain ⟨hdeclared, rfl⟩ := Merge.snapshot_eq_ok_iff.mp hbefore
      have hround : Round ρ s m t σ₁ after τ₁ v changed :=
        ⟨hdeclared, ⟨n, hbody, by simp⟩, change_eq_ok.mp hchange⟩
      cases changed with
      | true =>
          obtain ⟨rs, σ', after', υ, hrounds, hlast, hτ⟩ := ih h
          exact ⟨_, σ', after', υ, .cons hround hrounds, hlast, hτ⟩
      | false =>
          cases h
          exact ⟨[], σ₁, after, τ₁, .nil σ₁, hround, rfl⟩

/-- The loop goes on from how the body ends. -/
theorem iterateTables_of_ends (hdeclared : ∀ x ∈ m.names, σ.context.Declares x)
    (h : Ends ρ s t σ o τ) :
    ∃ n, ∀ d, n ≤ d → ∀ k, Effect.iterateTables m (s.apply d ρ t) (k + 1) σ =
      Effect.bind (fun _ => (o, τ)) (fun u => do
        let changed ← Effect.change (m.apply (m.names.map σ.context.tableOf))
        if changed then Effect.iterateTables m (s.apply d ρ t) k
        else do
          Effect.report .fixpoint
          pure u) σ := by
  obtain ⟨n, hn⟩ := h.at_depth
  refine ⟨n, fun d hd k => ?_⟩
  have hsnapshot := read_eq_ok.mpr ⟨Merge.snapshot_eq_ok_iff.mpr ⟨hdeclared, rfl⟩, rfl⟩
  rw [Effect.iterateTables_succ, Effect.bind_apply, hsnapshot]
  simp only [Effect.bind_apply, hn d hd]
  rfl

theorem Round.iterateTables (h : Round ρ s m t σ after τ u changed) :
    ∃ n, ∀ d, n ≤ d → ∀ k, Effect.iterateTables m (s.apply d ρ t) (k + 1) σ =
      if changed then Effect.iterateTables m (s.apply d ρ t) k τ
      else (.ok u, { τ with log := .fixpoint :: τ.log }) := by
  obtain ⟨n, hn⟩ := iterateTables_of_ends h.declared h.ends
  refine ⟨n, fun d hd k => ?_⟩
  rw [hn d hd]
  simp only [Effect.bind, Effect.bind_apply, change_eq_ok.mpr h.merges]
  cases changed <;> rfl

theorem Concludes.iterateTables (h : Concludes ρ s m t σ o τ) :
    ∃ n, ∀ d, n ≤ d → ∀ k, Effect.iterateTables m (s.apply d ρ t) (k + 1) σ = (o, τ) := by
  cases h with
  | fixpoint hround => exact hround.iterateTables
  | error hdeclared hends hne =>
      obtain ⟨n, hn⟩ := iterateTables_of_ends hdeclared hends
      refine ⟨n, fun d hd k => ?_⟩
      rw [hn d hd]
      cases o with
      | ok u => exact absurd rfl (hne u)
      | _ => rfl

/-- The loop goes through all rounds if it has enough depth for them. -/
theorem iterateTables_of_rounds (h : Rounds ρ s m t σ rs σ') (hlast : Concludes ρ s m t σ' o τ) :
    ∃ n, ∀ d, n ≤ d → ∀ k, rs.length < k →
      Effect.iterateTables m (s.apply d ρ t) k σ = (o, τ) := by
  induction h with
  | nil σ =>
      obtain ⟨n, hn⟩ := hlast.iterateTables
      refine ⟨n, fun d hd k hk => ?_⟩
      obtain ⟨k, rfl⟩ := Nat.exists_eq_succ_of_ne_zero (Nat.ne_of_gt hk)
      exact hn d hd k
  | cons hround _ ih =>
      obtain ⟨n, hn⟩ := hround.iterateTables
      obtain ⟨n', ih⟩ := ih hlast
      refine ⟨max n n', fun d hd k hk => ?_⟩
      obtain ⟨hle, hle'⟩ := Nat.max_le.mp hd
      obtain ⟨k, rfl⟩ := Nat.exists_eq_succ_of_ne_zero (Nat.ne_of_gt (Nat.zero_lt_of_lt hk))
      rw [hn d hle k, if_pos rfl]
      exact ih d hle' k (Nat.lt_of_succ_lt_succ hk)

theorem undoing_eq_ok {α : Type} {x : Effect α} {undo : Effect Unit} {a : α}
    (h : x.undoing undo σ = (.ok a, τ)) : x σ = (.ok a, τ) := by
  rw [Effect.undoing] at h
  generalize x σ = r at h
  obtain ⟨o, σ₁⟩ := r
  cases o with
  | ok b => exact h
  | failure | fatal e =>
      obtain ⟨_, _, -, h⟩ := Effect.bind_eq_ok.mp h
      cases h
  | exhausted => cases h

theorem rounds_of_ends (h : Ends ρ (iterate s m) t σ (.ok u) τ) :
    ∃ rs σ' after υ, Rounds ρ s m t σ rs σ' ∧ Round ρ s m t σ' after υ u false ∧
      τ.context = υ.context := by
  obtain ⟨n, hn, -⟩ := h
  cases n with
  | zero => cases hn
  | succ n =>
      obtain ⟨before, σ₁, hbefore, h⟩ := Effect.bind_eq_ok.mp hn
      obtain ⟨-, rfl⟩ := read_eq_ok.mp hbefore
      obtain ⟨rs, σ', after, υ, hrounds, hlast, rfl⟩ := rounds_of_iterateTables (undoing_eq_ok h)
      exact ⟨rs, σ', after, υ, hrounds, hlast, rfl⟩

section

variable (hdisjoint : ∀ x ∈ m.union, x ∉ m.inter)
include hdisjoint

/-- A round merges every table with its earlier contents. -/
theorem Round.tables (h : Round ρ s m t σ after τ u changed) :
    σ.context.Evolves τ.context ∧
    (∀ x ∈ m.names, τ.context.tableOf x =
      m.way x (σ.context.tableOf x) (after.context.tableOf x)) ∧
    (changed = false ↔
      ∀ x ∈ m.names, (τ.context.tableOf x).equal (σ.context.tableOf x)) := by
  obtain ⟨hdeclared, hends, c, hc, rfl⟩ := h
  have hevolves := hends.evolves
  obtain ⟨changed', d, hd, hd', htables, hchanged⟩ := Merge.apply_eq hdisjoint
    (fun x hx => (hdeclared x hx).evolves hevolves) σ.context
  cases hc.symm.trans hd
  exact ⟨hevolves.trans hd', htables, hchanged⟩

theorem Rounds.evolves (h : Rounds ρ s m t σ rs σ') : σ.context.Evolves σ'.context := by
  induction h with
  | nil σ => exact .refl _
  | cons hround _ ih => exact (hround.tables hdisjoint).1.trans ih

/-- Iteration ends like the last application of its body. -/
theorem ends_iterate_of_rounds (hdeclared : ∀ x ∈ m.names, σ.context.Declares x)
    (h : Rounds ρ s m t σ rs σ') (hlast : Concludes ρ s m t σ' o τ) :
    ∃ υ, Ends ρ (iterate s m) t σ o υ := by
  obtain ⟨n, hn⟩ := iterateTables_of_rounds h hlast
  let d := max n (rs.length + 1)
  have hloop := hn d (Nat.le_max_left _ _) d (Nat.le_max_right _ _)
  have hsnapshot := Merge.snapshot_eq_ok_iff.mpr ⟨hdeclared, rfl⟩
  have hrun : (iterate s m).apply (d + 1) ρ t σ =
      ((Effect.iterateTables m (s.apply d ρ t) d).undoing
        (Effect.update (m.restore (m.names.map σ.context.tableOf)))) σ := by
    change (Effect.read m.snapshot >>= _) σ = _
    rw [Effect.bind_apply, read_eq_ok.mpr ⟨hsnapshot, rfl⟩]
  rw [Effect.undoing, hloop] at hrun
  cases hlast with
  | fixpoint hround => exact ⟨_, d + 1, hrun, by simp⟩
  | error _ hends hne =>
      obtain ⟨c, hc⟩ := Merge.restore_eq_ok hsnapshot ((h.evolves hdisjoint).trans hends.evolves)
      obtain ⟨-, -, ho⟩ := hends
      cases o with
      | ok u => exact absurd rfl (hne u)
      | exhausted => exact absurd rfl ho
      | failure | fatal e =>
          simp only [Effect.bind, Effect.update_apply, hc] at hrun
          exact ⟨_, d + 1, hrun, by simp⟩

/-! United tables. -/

/-- The application leaves no larger table behind, or no other value for the key. -/
def Spares (x : String) (k v : Term) (r : State × State) : Prop :=
  (r.2.context.tableOf x).size ≤ (r.1.context.tableOf x).size ∨
    ∀ v', (r.2.context.tableOf x).get? k = some v' → v'.equal v

section

variable {x : String} (hx : x ∈ m.union) {k v : Term}
include hx

theorem Round.tableOf_union (h : Round ρ s m t σ after τ u changed) : τ.context.tableOf x =
    (σ.context.tableOf x).union (after.context.tableOf x) := by
  rw [(h.tables hdisjoint).2.1 x (List.mem_append_left _ hx), Merge.way_of_union hx]

theorem Round.contains (h : Round ρ s m t σ after τ u changed) : (τ.context.tableOf x).contains k =
    ((σ.context.tableOf x).contains k || (after.context.tableOf x).contains k) := by
  rw [h.tableOf_union hdisjoint hx, Table.contains_union]

theorem Round.get?_equal (h : Round ρ s m t σ after τ u changed)
    (hv : ∃ v₀, (σ.context.tableOf x).get? k = some v₀ ∧ v₀.equal v)
    (hspares : Spares x k v (σ, after)) :
    ∃ v', (τ.context.tableOf x).get? k = some v' ∧ v'.equal v := by
  obtain ⟨v₀, hv₀, hequal⟩ := hv
  rw [h.tableOf_union hdisjoint hx]
  exact Table.get?_union_equal hv₀ hequal hspares

theorem Rounds.contains (h : Rounds ρ s m t σ rs σ') (hk : (σ.context.tableOf x).contains k) :
    (σ'.context.tableOf x).contains k := by
  induction h with
  | nil σ => exact hk
  | cons hround _ ih => exact ih (by rw [hround.contains hdisjoint hx, hk, Bool.true_or])

theorem Rounds.get?_equal (h : Rounds ρ s m t σ rs σ')
    (hv : ∃ v₀, (σ.context.tableOf x).get? k = some v₀ ∧ v₀.equal v)
    (hspares : ∀ r ∈ rs, Spares x k v r) :
    ∃ v', (σ'.context.tableOf x).get? k = some v' ∧ v'.equal v := by
  induction h with
  | nil σ => exact hv
  | cons hround _ ih =>
      rw [List.forall_mem_cons] at hspares
      exact ih (hround.get?_equal hdisjoint hx hv hspares.1) hspares.2

end

/-! Intersected tables. -/

section

variable {x : String} (hx : x ∈ m.inter)
include hx

theorem Round.tableOf_inter (h : Round ρ s m t σ after τ u changed) : τ.context.tableOf x =
    (σ.context.tableOf x).inter (after.context.tableOf x) := by
  rw [(h.tables hdisjoint).2.1 x (List.mem_append_right _ hx),
    Merge.way_of_inter fun hunion => hdisjoint x hunion hx]

theorem Rounds.sublist (h : Rounds ρ s m t σ rs σ') :
    (σ'.context.tableOf x).entries.Sublist (σ.context.tableOf x).entries := by
  induction h with
  | nil σ => exact .refl _
  | cons hround _ ih =>
      refine ih.trans ?_
      rw [hround.tableOf_inter hdisjoint hx]
      exact Table.inter_sublist _ _

end

end

/-! Intersected tables only. -/

section

variable (hunion : m.union = [])
include hunion

theorem not_mem_inter : ∀ x ∈ m.union, x ∉ m.inter := by
  rw [hunion]
  exact List.forall_mem_nil _

/-- If only intersections are taken, a table has lost an entry after every change. -/
theorem Round.entryCount_lt (h : Round ρ s m t σ after τ u true) :
    τ.context.entryCount m.names < σ.context.entryCount m.names := by
  have hdisjoint := not_mem_inter hunion
  have hnames : m.names = m.inter := by rw [Merge.names, hunion, List.nil_append]
  have hle : ∀ x ∈ m.names, (τ.context.tableOf x).size ≤ (σ.context.tableOf x).size := by
    intro x hx
    rw [h.tableOf_inter hdisjoint (hnames ▸ hx)]
    exact (Table.inter_sublist _ _).length_le
  have hlt : ∃ x ∈ m.names, (τ.context.tableOf x).size < (σ.context.tableOf x).size := by
    -- tables that stay as large as they are stay equal, so the round would have been the last
    by_contra hnone
    have hequal : ∀ x ∈ m.names, (τ.context.tableOf x).equal (σ.context.tableOf x) := by
      intro x hx
      have hsize := (hle x hx).eq_of_not_lt fun hx' => hnone ⟨x, hx, hx'⟩
      rw [h.tableOf_inter hdisjoint (hnames ▸ hx)] at hsize ⊢
      exact Table.equal_inter hsize
    cases (h.tables hdisjoint).2.2.mpr hequal
  obtain ⟨x, hx, hx'⟩ := hlt
  rw [Context.entryCount, Context.entryCount, List.length_flatMap, List.length_flatMap]
  exact List.sum_lt_sum _ _ (fun y hy => hle y (List.mem_dedup.mp hy))
    ⟨x, List.mem_dedup.mpr hx, hx'⟩

theorem exists_rounds (hdeclared : ∀ x ∈ m.names, σ.context.Declares x)
    (hbody : ∀ rs σ', Rounds ρ s m t σ rs σ' → ∃ o τ, Ends ρ s t σ' o τ) :
    ∃ rs σ' o τ, Rounds ρ s m t σ rs σ' ∧ Concludes ρ s m t σ' o τ ∧
      rs.length ≤ σ.context.entryCount m.names := by
  have hdisjoint := not_mem_inter hunion
  -- the induction is on the entries that are left, of which every change takes one away
  induction hcount : σ.context.entryCount m.names using Nat.strong_induction_on
    generalizing σ with
  | h n ih =>
      obtain ⟨o, after, hends⟩ := hbody [] σ (.nil σ)
      by_cases hok : ∃ u, o = .ok u
      · obtain ⟨u, rfl⟩ := hok
        obtain ⟨changed, c, hc, -⟩ := Merge.apply_eq hdisjoint
          (fun x hx => (hdeclared x hx).evolves hends.evolves) σ.context
        have hround : Round ρ s m t σ after (after.into c) u changed :=
          ⟨hdeclared, hends, c, hc, rfl⟩
        cases changed with
        | false => exact ⟨[], σ, _, _, .nil σ, .fixpoint hround, Nat.zero_le n⟩
        | true =>
            have hlt := hround.entryCount_lt hunion
            obtain ⟨rs, σ', o, τ, hrounds, hlast, hlength⟩ := ih _ (hcount ▸ hlt)
              (fun x hx => (hdeclared x hx).evolves (hround.tables hdisjoint).1)
              (fun rs σ' hrs => hbody _ σ' (.cons hround hrs)) rfl
            exact ⟨_, σ', o, τ, .cons hround hrounds, hlast,
              Nat.succ_le_of_lt (hlength.trans_lt (hcount ▸ hlt))⟩
      · exact ⟨[], σ, o, after, .nil σ,
          .error hdeclared hends fun u hu => hok ⟨u, hu⟩, Nat.zero_le n⟩

end

/-! Iteration as a whole. -/

/-- A united table at the end, against its contents at the start and those that the last
application of the body left behind. -/
structure United (x : String) (rs : List (State × State)) (start left last : Context) : Prop where
  keeps : ∀ k, (start.tableOf x).contains k → (last.tableOf x).contains k
  values : ∀ k v, (start.tableOf x).get? k = some v → (∀ r ∈ rs, Spares x k v r) →
    ∃ v', (last.tableOf x).get? k = some v' ∧ v'.equal v
  closed : ∀ k, (left.tableOf x).contains k → (last.tableOf x).contains k

/-- An intersected table, likewise. -/
structure Intersected (x : String) (start left last : Context) : Prop where
  sublist : (last.tableOf x).entries.Sublist (start.tableOf x).entries
  kept : ∀ e ∈ (last.tableOf x).entries, ∃ v, (left.tableOf x).get? e.1 = some v ∧ v.equal e.2

section

variable (hdisjoint : ∀ x ∈ m.union, x ∉ m.inter) {x : String}
include hdisjoint

theorem Rounds.united (h : Rounds ρ s m t σ rs σ') (hlast : Round ρ s m t σ' after τ u changed)
    (hx : x ∈ m.union) :
    United x (rs ++ [(σ', after)]) σ.context after.context τ.context where
  keeps k hk := by
    rw [hlast.contains hdisjoint hx, h.contains hdisjoint hx hk, Bool.true_or]
  values k v hv hspares := by
    rw [List.forall_mem_append, List.forall_mem_singleton] at hspares
    have hvalue := h.get?_equal hdisjoint hx ⟨v, hv, Term.equivalence_equal.refl v⟩ hspares.1
    exact hlast.get?_equal hdisjoint hx hvalue hspares.2
  closed k hk := by rw [hlast.contains hdisjoint hx, hk, Bool.or_true]

theorem Rounds.intersected (h : Rounds ρ s m t σ rs σ')
    (hlast : Round ρ s m t σ' after τ u changed) (hx : x ∈ m.inter) :
    Intersected x σ.context after.context τ.context where
  sublist := by
    rw [hlast.tableOf_inter hdisjoint hx]
    exact (Table.inter_sublist _ _).trans (h.sublist hdisjoint hx)
  kept e he := by
    rw [hlast.tableOf_inter hdisjoint hx] at he
    exact (Table.mem_inter_iff.mp he).2

end

/-- If iteration succeeds, then its tables are those that the last application of the body
started from. This has not left behind other keys of united tables, nor less entries of
intersected ones. United tables keep their keys, and their values unless the body overrides them
in a larger table. Intersected tables only lose entries: if there are no others and the body
always ends, it is applied at most once more than there are entries at the start. -/
theorem iterate_fixpoint (hdisjoint : ∀ x ∈ m.union, x ∉ m.inter) (ρ : Env) (s : Strategy)
    (t : Term) (σ : State) :
    (∀ u τ, Ends ρ (iterate s m) t σ (.ok u) τ → ∃ rs σ' after,
      Rounds ρ s m t σ rs σ' ∧ Ends ρ s t σ' (.ok u) after ∧
      (∀ x ∈ m.names, (τ.context.tableOf x).equal (σ'.context.tableOf x)) ∧
      (∀ x ∈ m.union, United x (rs ++ [(σ', after)]) σ.context after.context τ.context) ∧
      ∀ x ∈ m.inter, Intersected x σ.context after.context τ.context) ∧
    (m.union = [] → (∀ rs σ', Rounds ρ s m t σ rs σ' → ∃ o τ, Ends ρ s t σ' o τ) →
      (∃ x ∈ m.names, ¬σ.context.Declares x ∧
        Ends ρ (iterate s m) t σ (.fatal (.undeclaredTable x)) σ) ∨
      ∃ rs σ' o τ, Rounds ρ s m t σ rs σ' ∧ Concludes ρ s m t σ' o τ ∧
        rs.length + 1 ≤ 1 + σ.context.entryCount m.names ∧
        (∃ n, ∀ d, n ≤ d → Effect.iterateTables m (s.apply d ρ t)
          (1 + σ.context.entryCount m.names) σ = (o, τ)) ∧
        ∃ υ, Ends ρ (iterate s m) t σ o υ) := by
  constructor
  · intro u τ h
    obtain ⟨rs, σ', after, υ, hrounds, hlast, hτ⟩ := rounds_of_ends h
    rw [hτ]
    exact ⟨rs, σ', after, hrounds, hlast.ends, (hlast.tables hdisjoint).2.2.mp rfl,
      fun x hx => hrounds.united hdisjoint hlast hx,
      fun x hx => hrounds.intersected hdisjoint hlast hx⟩
  · intro hunion hbody
    by_cases hdeclared : ∀ x ∈ m.names, σ.context.Declares x
    · obtain ⟨rs, σ', o, τ, hrounds, hlast, hlength⟩ := exists_rounds hunion hdeclared hbody
      obtain ⟨n, hn⟩ := iterateTables_of_rounds hrounds hlast
      exact .inr ⟨rs, σ', o, τ, hrounds, hlast, by omega,
        ⟨n, fun d hd => hn d hd _ (by omega)⟩,
        ends_iterate_of_rounds hdisjoint hdeclared hrounds hlast⟩
    · push Not at hdeclared
      obtain ⟨x, hx, hundeclared⟩ := hdeclared
      exact .inl (Merges.ends_undeclared (.iterate s) ρ t hx hundeclared)

theorem iterate_fixpoint_moves :
    let t : Term := .int .derived 1
    let move := seq (tableErase "i") (tableAdd "u")
    let next := guarded (tableGet "i") (seq (build t) (tableErase "i"))
      (seq (build (.int .derived 2)) (tableErase "i"))
    ∃ σ, (σ.context.tableOf "u").entries = [(.int .derived 0, t)] ∧
      (σ.context.tableOf "i").entries = [(t, .empty), (.int .derived 2, .empty)] ∧
      (∃ τ, Ends [] (iterate move ⟨["u"], ["i"]⟩) t σ (.ok t) τ ∧
        ∃ rs after, United "u" rs σ.context after τ.context ∧
          Intersected "i" σ.context after τ.context) ∧
      ∃ rs σ' o τ υ, Rounds [] next ⟨[], ["i"]⟩ t σ rs σ' ∧
        Concludes [] next ⟨[], ["i"]⟩ t σ' o τ ∧ rs.length + 1 ≤ 3 ∧
        Ends [] (iterate next ⟨[], ["i"]⟩) t σ o υ := by
  intro t move next
  let entries : List (String × Table) :=
    [("u", ⟨[(.int .derived 0, t)]⟩), ("i", ⟨[(t, .empty), (.int .derived 2, .empty)]⟩)]
  let σ : State := ⟨⟨.empty, ⟨.empty, ⟨entries⟩⟩⟩, []⟩
  have hmove : ((iterate move ⟨["u"], ["i"]⟩).apply 5 [] t σ).1 = .ok t := by decide +kernel
  obtain ⟨rs, σ₁, after, -, -, -, hunited, hintersected⟩ :=
    (iterate_fixpoint (m := ⟨["u"], ["i"]⟩) (by decide) [] move t σ).1 _ _ (.of_fst hmove (by simp))
  -- the body ends in every state, whether the table is declared there or not
  have hnext (σ' : State) : (next.apply 3 [] t σ').1 ≠ .exhausted := by
    have herase (k : Term) : ((tableErase "i").apply 1 [] k σ').1 ≠ .exhausted := by
      simp only [apply, step, Effect.bind_apply, Effect.update_apply]
      cases σ'.context.modifyTable "i" (·.erase k) <;> simp
    simp only [next, apply, step, Effect.bind_apply, Effect.attempt, Effect.read_apply]
    cases σ'.context.table "i" with
    | error e => simp
    | ok T =>
        cases h : T.get? t with
        | none =>
            simp only [h]
            exact herase (.int .derived 2)
        | some v =>
            simp only [h]
            exact herase t
  have hdeclared : σ.context.Declares "i" := by
    simp only [Context.Declares]
    decide +kernel
  have hcount : 1 + σ.context.entryCount ["i"] = 3 := by decide +kernel
  refine ⟨σ, by decide +kernel, by decide +kernel,
    ⟨_, .of_fst hmove (by simp), _, _, hunited "u" (by simp), hintersected "i" (by simp)⟩, ?_⟩
  obtain ⟨x, hx, hundeclared, -⟩ | ⟨rs, σ', o, τ, hrounds, hlast, hlength, -, υ, hends⟩ :=
    (iterate_fixpoint (m := ⟨[], ["i"]⟩) (by decide) [] next t σ).2 rfl
      fun _ σ' _ => ⟨_, _, .of_fst rfl (hnext σ')⟩
  · cases List.mem_singleton.mp hx
    exact absurd hdeclared hundeclared
  · exact ⟨rs, σ', o, τ, υ, hrounds, hlast, hlength.trans_eq hcount, hends⟩

/-- A body that leaves a larger table behind overrides the value that a key had at the start. -/
theorem iterate_overrides :
    ¬∀ (m : Merge) (s : Strategy) (t u : Term) (σ τ : State), (∀ x ∈ m.union, x ∉ m.inter) →
      Ends [] (iterate s m) t σ (.ok u) τ → ∀ x ∈ m.union, ∀ k v,
        (σ.context.tableOf x).get? k = some v →
        ∃ v', (τ.context.tableOf x).get? k = some v' ∧ v'.equal v := by
  let k : Term := .int .derived 0
  let u : Term := .int .derived 1
  let pair : Term := .cons .derived k (.cons .derived u .empty)
  let s := seq (seq (build pair) (tableSet "u")) (seq (build u) (tableAdd "u"))
  let σ : State := ⟨⟨.empty, ⟨.empty, ⟨[("u", ⟨[(k, .empty)]⟩)]⟩⟩⟩, []⟩
  intro h
  have hrun : ((iterate s ⟨["u"], []⟩).apply 5 [] .empty σ).1 = .ok u := by decide +kernel
  have hvalue : ((((iterate s ⟨["u"], []⟩).apply 5 [] .empty σ).2.context.tableOf "u").get? k) =
      some u := by decide +kernel
  obtain ⟨v, hv, hequal⟩ := h ⟨["u"], []⟩ s .empty u σ _ (by simp) (Ends.of_fst hrun (by simp)) "u"
    (by simp) k .empty (by decide +kernel)
  cases hvalue.symm.trans hv
  revert hequal
  decide +kernel

end StrategicRewriting.Strategy
