import Mathlib.Data.List.Induction
import StrategicRewriting.Proofs.Context.Tables

/-!
Tables as maps. What a table gives for a key is what was stored last for an equal key, unless the
key was erased or the table cleared since then. Only changes of the innermost table of the name
count: not those of tables with other names, nor what is done in scopes that declare a table of
the name for themselves.
-/
namespace StrategicRewriting

namespace Table

/-- A change of the contents of a table. -/
inductive Edit where
  | store (key value : Term)
  | erase (key : Term)
  | clear

namespace Edit

def apply : Edit → Table → Table
  | store k v, T => T.insert k v
  | erase k, T => T.erase k
  | clear, _ => .empty

/-- The edit decides what the table has for the key. -/
def Concerns (k : Term) : Edit → Prop
  | store k' _ | erase k' => k'.equal k
  | clear => True

/-- The last one of the edits that concern the key stores the value. -/
def LastStores (es : List Edit) (k v : Term) : Prop :=
  ∃ before k' after, es = before ++ store k' v :: after ∧ k'.equal k ∧ ∀ e ∈ after, ¬e.Concerns k

end Edit

variable {T : Table} {k k' v : Term} {e : Edit} {es : List Edit}

theorem get?_insert (T : Table) (k k' v : Term) :
    (T.insert k v).get? k' = if k.equal k' then some v else T.get? k' := by
  obtain ⟨entries⟩ := T
  simp only [get?, insert]
  induction entries with
  | nil =>
      rw [insertEntry, List.find?_singleton]
      split <;> rfl
  | cons e entries ih =>
      rw [insertEntry]
      split
      · rename_i hkey
        have hsame : e.1.equal k' = k.equal k' := by
          rw [Bool.eq_iff_iff]
          exact ⟨fun h => Term.equivalence_equal.trans (Term.equivalence_equal.symm hkey) h,
            fun h => Term.equivalence_equal.trans hkey h⟩
        rw [List.find?_cons, List.find?_cons, hsame]
        cases k.equal k' <;> rfl
      · rename_i hkey
        rw [List.find?_cons, List.find?_cons]
        cases he : e.1.equal k' with
        | false => exact ih
        | true =>
            have hne : k.equal k' ≠ true := fun h =>
              hkey (Term.equivalence_equal.trans he (Term.equivalence_equal.symm h))
            rw [if_neg hne]

theorem get?_erase (T : Table) (k k' : Term) :
    (T.erase k).get? k' = if k.equal k' then none else T.get? k' := by
  have hkey (e : Term × Term) : (!e.1.equal k && e.1.equal k') =
      (!k.equal k' && e.1.equal k') := by
    cases he : e.1.equal k' with
    | false => rw [Bool.and_false, Bool.and_false]
    | true =>
        have hsame : e.1.equal k = k.equal k' := by
          rw [Bool.eq_iff_iff]
          exact ⟨fun h => Term.equivalence_equal.trans (Term.equivalence_equal.symm h) he,
            fun h => Term.equivalence_equal.trans he (Term.equivalence_equal.symm h)⟩
        rw [hsame]
  simp only [get?, erase, List.find?_filter, Bool.decide_and, Bool.decide_eq_true, hkey]
  cases k.equal k' with
  | true => simp
  | false => simp

theorem get?_apply_of_not_concerns (h : ¬e.Concerns k) : (e.apply T).get? k = T.get? k := by
  cases e with
  | store k' v => exact (get?_insert T k' k v).trans (if_neg h)
  | erase k' => exact (get?_erase T k' k).trans (if_neg h)
  | clear => exact absurd trivial h

theorem get?_apply_of_concerns (h : e.Concerns k) :
    (e.apply T).get? k = some v ↔ ∃ k', e = .store k' v := by
  cases e with
  | store k' w =>
      have hget : ((Edit.store k' w).apply T).get? k = some w :=
        (get?_insert T k' k w).trans (if_pos h)
      rw [hget]
      simp
  | erase k' =>
      have hget : ((Edit.erase k').apply T).get? k = none := (get?_erase T k' k).trans (if_pos h)
      rw [hget]
      simp
  | clear => simp [Edit.apply, get?, empty]

/-- The last edit counts if it concerns the key, otherwise the ones before it. -/
theorem Edit.lastStores_append :
    LastStores (es ++ [e]) k v ↔
      (e.Concerns k ∧ ∃ k', e = .store k' v) ∨ (¬e.Concerns k ∧ LastStores es k v) := by
  constructor
  · rintro ⟨before, k', after, heq, hk, hafter⟩
    rcases List.eq_nil_or_concat after with rfl | ⟨after, e', rfl⟩
    · obtain ⟨-, hlast⟩ := List.append_inj' heq rfl
      cases hlast
      exact .inl ⟨hk, k', rfl⟩
    · rw [List.concat_eq_append, ← List.cons_append, ← List.append_assoc] at heq
      obtain ⟨rfl, hlast⟩ := List.append_inj' heq rfl
      cases hlast
      rw [List.concat_eq_append, List.forall_mem_append] at hafter
      exact .inr ⟨hafter.2 e (List.mem_singleton_self e), before, k', after, rfl, hk, hafter.1⟩
  · rintro (⟨hk, k', rfl⟩ | ⟨he, before, k', after, rfl, hk, hafter⟩)
    · exact ⟨es, k', [], rfl, hk, List.forall_mem_nil _⟩
    · refine ⟨before, k', after ++ [e], by rw [List.append_assoc]; rfl, hk, ?_⟩
      rw [List.forall_mem_append, List.forall_mem_singleton]
      exact ⟨hafter, he⟩

/-- After edits of an empty table, a key has the value that was stored last for it. -/
theorem get?_foldl_iff :
    (es.foldl (fun T e => e.apply T) empty).get? k = some v ↔ Edit.LastStores es k v := by
  induction es using List.reverseRecOn with
  | nil => simp [Edit.LastStores, get?, empty]
  | append_singleton es e ih =>
      rw [List.foldl_append, List.foldl_cons, List.foldl_nil, Edit.lastStores_append, ← ih]
      by_cases he : e.Concerns k
      · simp [get?_apply_of_concerns he, he]
      · simp [get?_apply_of_not_concerns he, he]

end Table

open Table (Edit)

theorem Context.modifyTable_eq {c : Context} {name : String} {T : Table}
    (h : c.table name = .ok T) (f : Table → Table) :
    c.modifyTable name f = c.setTable name (f T) := by
  simp only [modifyTable, h]
  rfl

namespace Strategy

variable {ρ : Env} {s : Strategy} {t : Term} {σ τ : State} {name x : String} {e : Edit} {T : Table}
  {es : List (String × Edit)}

/-- The table that an application changes, and how it does so. -/
def editOf? : Strategy → Term → Option (String × Edit)
  | tableSet x, t => t.toPair?.map fun p => (x, .store p.1 p.2)
  | tableAdd x, t => some (x, .store t .empty)
  | tableErase x, t => some (x, .erase t)
  | tableClear x, _ => some (x, .clear)
  | _, _ => none

/-- A change of a declared table gives back its input. -/
theorem ends_of_editOf? (h : editOf? s t = some (x, e)) (hT : σ.context.table x = .ok T) :
    ∃ c, σ.context.setTable x (e.apply T) = .ok c ∧ Ends ρ s t σ (.ok t) (σ.into c) := by
  obtain ⟨c, hc⟩ := (Context.declares_of_table hT).setTable (e.apply T)
  refine ⟨c, hc, 1, ?_, by simp⟩
  have hupdate {f : Table → Table} (hf : f T = e.apply T) :
      (do Effect.update (·.modifyTable x f); pure t : Effect Term) σ = (.ok t, σ.into c) := by
    rw [Effect.bind_apply, Effect.update_apply, Context.modifyTable_eq hT, hf, hc]
    rfl
  cases s with
  | tableSet y =>
      obtain ⟨⟨k, v⟩, hpair, heq⟩ := Option.map_eq_some_iff.mp h
      cases heq
      refine Effect.bind_eq_ok.mpr ⟨(k, v), σ, ?_, hupdate rfl⟩
      rw [Effect.pairOf, hpair]
      rfl
  | tableAdd y | tableErase y | tableClear y =>
      cases h
      exact hupdate rfl
  | _ => cases h

theorem ends_tableGet (ρ : Env) (hT : σ.context.table name = .ok T) (k : Term) :
    Ends ρ (tableGet name) k σ
      (match T.get? k with
        | some v => .ok v
        | none => .failure) σ := by
  have hstep : step (apply 0) 0 ρ (tableGet name) k σ = Effect.ofOption (T.get? k) σ := by
    simp only [step, Effect.bind_apply, Effect.read_apply, hT]
  cases hget : T.get? k with
  | none =>
      rw [hget] at hstep
      exact ⟨1, hstep, by simp⟩
  | some v =>
      rw [hget] at hstep
      exact ⟨1, hstep, by simp⟩

/-- Changes of declared tables one after the other. Between them, anything may be done in scopes
that declare a table of the given name. -/
inductive Changes (ρ : Env) (name : String) : State → List (String × Edit) → State → Prop
  | nil (σ : State) : Changes ρ name σ [] σ
  | edit {s : Strategy} {t : Term} {x : String} {e : Edit} {o : Outcome Term}
      {es : List (String × Edit)} {σ σ' τ : State} :
      editOf? s t = some (x, e) → σ.context.Declares x → Ends ρ s t σ o σ' →
      Changes ρ name σ' es τ → Changes ρ name σ ((x, e) :: es) τ
  | inScope {names : List String} {s : Strategy} {t : Term} {o : Outcome Term}
      {es : List (String × Edit)} {σ σ' τ : State} :
      name ∈ names → Ends ρ (tables names s) t σ o σ' → Changes ρ name σ' es τ →
      Changes ρ name σ es τ

/-- The edits of tables of the name. -/
def editsOf (name : String) (es : List (String × Edit)) : List Edit :=
  (es.filter (·.1 = name)).map (·.2)

/-- What a scope declares for itself does not change the table of the name around it. -/
theorem Ends.contents_of_tables {names : List String} {o : Outcome Term}
    (h : Ends ρ (tables names s) t σ o τ) (hname : name ∈ names) :
    τ.context.contents name = σ.context.contents name := by
  obtain ⟨n, hn, ho⟩ := h
  cases n with
  | zero => cases hn; exact absurd rfl ho
  | succ n => exact contents_of_within hn ho (Frame.isSome_declaringTables hname)

theorem Changes.table (h : Changes ρ name σ es τ) (hT : σ.context.table name = .ok T) :
    τ.context.table name = .ok ((editsOf name es).foldl (fun T e => e.apply T) T) := by
  induction h generalizing T with
  | nil σ => exact hT
  | @edit s t x e o es σ σ' τ hedit hdeclares hends _ ih =>
      obtain ⟨S, hS⟩ := hdeclares.table
      obtain ⟨c, hc, hends'⟩ := ends_of_editOf? (ρ := ρ) hedit hS
      obtain ⟨-, rfl⟩ := hends.unique hends'
      by_cases hx : x = name
      · subst hx
        cases hT.symm.trans hS
        have htable := ih (Context.table_setTable hc)
        simpa [editsOf] using htable
      · have htable := ih (Context.table_setTable_of_ne hc (Ne.symm hx) hT)
        simpa [editsOf, hx] using htable
  | inScope hname hends _ ih =>
      refine ih ?_
      rwa [Context.table_eq_ok_iff, hends.contents_of_tables hname, ← Context.table_eq_ok_iff]

/-- Changes of declared tables go through, and they give back their inputs. -/
theorem exists_changes {as : List (Strategy × Term)} (name : String)
    (has : ∀ a ∈ as, ∃ x e, editOf? a.1 a.2 = some (x, e) ∧ σ.context.Declares x) :
    ∃ es τ, as.map (fun a => editOf? a.1 a.2) = es.map some ∧ Changes ρ name σ es τ := by
  induction as generalizing σ with
  | nil => exact ⟨[], σ, rfl, .nil σ⟩
  | cons a as ih =>
      rw [List.forall_mem_cons] at has
      obtain ⟨⟨x, e, hedit, hdeclares⟩, hrest⟩ := has
      obtain ⟨S, hS⟩ := hdeclares.table
      obtain ⟨c, hc, hends⟩ := ends_of_editOf? (ρ := ρ) hedit hS
      obtain ⟨es, τ, heq, hchanges⟩ := ih fun b hb => by
        obtain ⟨y, e', hedit', hdeclares'⟩ := hrest b hb
        exact ⟨y, e', hedit', hdeclares'.evolves hends.evolves⟩
      refine ⟨(x, e) :: es, τ, ?_, .edit hedit hdeclares hends hchanges⟩
      rw [List.map_cons, hedit, heq, List.map_cons]

/-- Changes of declared tables go through one after the other. If the innermost table of a name was
empty before them, then it gives for a key what was stored in it last for an equal key, unless the
key was erased or the table cleared later, and fails if there is nothing. Keys are equal if they
are equivalent and have equivalent annotations or none; this is an equivalence relation, and equal
keys have the same hash. -/
theorem tableGet_last_stored :
    (∀ ρ s t x e σ, editOf? s t = some (x, e) → σ.context.Declares x →
      ∃ τ, Ends ρ s t σ (.ok t) τ) ∧
    (∀ ρ name σ (as : List (Strategy × Term)),
      (∀ a ∈ as, ∃ x e, editOf? a.1 a.2 = some (x, e) ∧ σ.context.Declares x) →
      ∃ es τ, as.map (fun a => editOf? a.1 a.2) = es.map some ∧ Changes ρ name σ es τ) ∧
    (∀ ρ name σ es τ, σ.context.table name = .ok .empty → Changes ρ name σ es τ →
      ∀ k : Term,
        (∀ v, Edit.LastStores (editsOf name es) k v → Ends ρ (tableGet name) k τ (.ok v) τ) ∧
        ((∀ v, ¬Edit.LastStores (editsOf name es) k v) →
          Ends ρ (tableGet name) k τ .failure τ)) ∧
    (∀ k k' : Term, k.equal k' ↔ k.equivalent k' ∧
      ((k.annotations = none ∧ k'.annotations = none) ∨
        ∃ as bs, k.annotations = some as ∧ k'.annotations = some bs ∧ as.equivalent bs)) ∧
    Equivalence (fun k k' : Term => (k.equal k' : Prop)) ∧
    ∀ k k' : Term, k.equal k' → k.hash = k'.hash := by
  refine ⟨fun ρ s t x e σ hedit hdeclares => ?_, fun ρ name σ as => exists_changes name,
    fun ρ name σ es τ hempty hchanges k => ?_, fun k k' => ?_, Term.equivalence_equal,
    fun k k' h => Term.hash_eq_of_bare_eq (Term.equal_iff.mp h).1⟩
  · obtain ⟨S, hS⟩ := hdeclares.table
    obtain ⟨c, -, hends⟩ := ends_of_editOf? (ρ := ρ) hedit hS
    exact ⟨_, hends⟩
  · have hget := ends_tableGet ρ (hchanges.table hempty) k
    simp only [← Table.get?_foldl_iff]
    refine ⟨fun v hv => ?_, fun hnone => ?_⟩
    · rwa [hv] at hget
    · rwa [Option.eq_none_iff_forall_ne_some.mpr hnone] at hget
  · rw [Term.equal_iff, Term.map_bare_eq_iff, Term.equivalent_iff]

theorem tableGet_last_stored_annotated :
    ∃ (k k' : Term) (σ τ : State) (es : List (String × Edit)),
      k.equivalent k' ∧ ¬k.equal k' ∧ σ.context.depth = 2 ∧ es.length = 4 ∧
      σ.context.table "t" = .ok .empty ∧ Changes [] "t" σ es τ ∧
      Ends [] (tableGet "t") k τ (.ok (.int .derived 1)) τ ∧
      Ends [] (tableGet "t") k' τ .failure τ := by
  -- another table is cleared, and so is the table of the name that a scope declares
  let int (i : Int64) : Term := .int .derived i
  let list (ts : List Term) : Term := .listOnto .empty ts
  let k : Term := int 0
  let k' : Term := .annotated .derived k (list [int 5])
  let σ : State := ⟨⟨⟨[.declaringTables ["t"]]⟩, .declaringTables ["u", "t"]⟩, []⟩
  let run (s : Strategy) (t : Term) (σ : State) : State := (s.apply 5 [] t σ).2
  let σ₁ := run (tableSet "t") (list [k, int 1]) σ
  let σ₂ := run (tableAdd "t") k' σ₁
  let σ₃ := run (tableClear "u") k σ₂
  let σ₄ := run (tables ["t"] (seq (tableAdd "t") (tableClear "t"))) k σ₃
  let τ := run (tableErase "t") k' σ₄
  have h₁ : ((tableSet "t").apply 5 [] (list [k, int 1]) σ).1 = .ok (list [k, int 1]) := by
    decide +kernel
  have h₂ : ((tableAdd "t").apply 5 [] k' σ₁).1 = .ok k' := by decide +kernel
  have h₃ : ((tableClear "u").apply 5 [] k σ₂).1 = .ok k := by decide +kernel
  have h₄ : ((tables ["t"] (seq (tableAdd "t") (tableClear "t"))).apply 5 [] k σ₃).1 = .ok k := by
    decide +kernel
  have h₅ : ((tableErase "t").apply 5 [] k' σ₄).1 = .ok k' := by decide +kernel
  have e₁ := Ends.of_fst h₁ (by simp)
  have e₂ := Ends.of_fst h₂ (by simp)
  have e₃ := Ends.of_fst h₃ (by simp)
  have e₄ := Ends.of_fst h₄ (by simp)
  have e₅ := Ends.of_fst h₅ (by simp)
  have ht : σ.context.Declares "t" := by
    simp only [Context.Declares]
    decide +kernel
  have hu : σ.context.Declares "u" := by
    simp only [Context.Declares]
    decide +kernel
  have ht₁ := ht.evolves e₁.evolves
  have ht₄ := ((ht₁.evolves e₂.evolves).evolves e₃.evolves).evolves e₄.evolves
  have hu₂ := (hu.evolves e₁.evolves).evolves e₂.evolves
  have hchanges : Changes [] "t" σ [("t", .store k (int 1)), ("t", .store k' .empty),
      ("u", .clear), ("t", .erase k')] τ :=
    .edit rfl ht e₁ (.edit rfl ht₁ e₂ (.edit rfl hu₂ e₃
      (.inScope (.head _) e₄ (.edit rfl ht₄ e₅ (.nil _)))))
  have hget := tableGet_last_stored.2.2.1 [] "t" σ _ τ rfl hchanges
  refine ⟨k, k', σ, τ, _, by decide +kernel, by decide +kernel, rfl, rfl, rfl, hchanges,
    (hget k).1 (int 1) ?_, (hget k').2 fun v => ?_⟩
  · exact Table.get?_foldl_iff.mp (by decide +kernel)
  · exact Table.get?_foldl_iff.not.mp
      (Option.eq_none_iff_forall_ne_some.mp (by decide +kernel) v)

end Strategy

end StrategicRewriting
