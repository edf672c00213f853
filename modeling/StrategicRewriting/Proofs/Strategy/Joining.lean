import StrategicRewriting.Proofs.Strategy.Fixpoint

/-!
Joins. Both sides start from the same contents of the named tables, and everything else goes on
from the one to the other. At the end, a united table has the keys of both sides. A key that both
have keeps the value of the left side, unless the right side left the larger table behind; then
it has the value of the right side. An intersected table has those entries of the left side that
the right side has as well.
-/
namespace StrategicRewriting

namespace Context

variable {c c' c'' : Context} {names names' : List String}

/-- The contexts differ at most in the contents of the named tables. -/
structure SameApart (names : List String) (c c' : Context) : Prop where
  evolves : c.Evolves c'
  values (x : String) : c'.values x = c.values x
  contents (name : String) : name ∉ names → c'.contents name = c.contents name

namespace SameApart

theorem refl (names : List String) (c : Context) : SameApart names c c :=
  ⟨.refl c, fun _ => rfl, fun _ _ => rfl⟩

theorem trans (h : SameApart names c c') (h' : SameApart names c' c'') : SameApart names c c'' where
  evolves := h.evolves.trans h'.evolves
  values x := (h'.values x).trans (h.values x)
  contents name hname := (h'.contents name hname).trans (h.contents name hname)

theorem of_setTable {name : String} {T : Table} (hname : name ∈ names)
    (h : c.setTable name T = .ok c') : SameApart names c c' where
  evolves := .of_setTable h
  values x := by
    refine map_updateFirst? (fun fr fr' hfr => ?_) (frames_of_setTable h)
    obtain ⟨_, -, rfl⟩ := Option.map_eq_some_iff.mp hfr
    rfl
  contents other hother := contents_setTable_of_ne h fun heq => hother (heq ▸ hname)

end SameApart

end Context

namespace Merge

open Context (SameApart)

variable {m : Merge} {names : List String} {c d : Context}

theorem sameApart_restoreAll {ts : List (String × Table)} (hts : ∀ e ∈ ts, e.1 ∈ names)
    (h : restoreAll ts c = .ok d) : SameApart names c d := by
  induction ts generalizing c with
  | nil =>
      cases h
      exact .refl names _
  | cons e ts ih =>
      rw [List.forall_mem_cons] at hts
      obtain ⟨c', hc', hrest⟩ := setTable_of_restoreAll h
      exact (SameApart.of_setTable hts.1 hc').trans (ih hts.2 hrest)

theorem sameApart_restore {before : List Table} (h : m.restore before c = .ok d) :
    SameApart m.names c d :=
  sameApart_restoreAll (fun _ he => (List.of_mem_zip he).1) h

theorem setTable_of_applyAll {name : String} {way : Table → Table → Table} {earlier : Table}
    {rest : List ((String × (Table → Table → Table)) × Table)} {changed : Bool}
    (h : applyAll (((name, way), earlier) :: rest) c = .ok (changed, d)) :
    ∃ T c' changed', c.setTable name T = .ok c' ∧ applyAll rest c' = .ok (changed', d) := by
  rw [applyAll] at h
  cases hT : c.table name with
  | error e =>
      rw [hT] at h
      cases h
  | ok T =>
      cases hc' : c.setTable name (way earlier T) with
      | error e =>
          simp only [hT, hc', bind, Except.bind] at h
          cases h
      | ok c' =>
          cases hrest : applyAll rest c' with
          | error e =>
              simp only [hT, hc', hrest, bind, Except.bind] at h
              cases h
          | ok r =>
              simp only [hT, hc', hrest, bind, Except.bind] at h
              cases h
              exact ⟨_, c', r.1, hc', hrest⟩

theorem sameApart_applyAll {ts : List ((String × (Table → Table → Table)) × Table)}
    (hts : ∀ e ∈ ts, e.1.1 ∈ names) {changed : Bool} (h : applyAll ts c = .ok (changed, d)) :
    SameApart names c d := by
  induction ts generalizing c changed with
  | nil =>
      cases h
      exact .refl names _
  | cons e ts ih =>
      rw [List.forall_mem_cons] at hts
      obtain ⟨T, c', changed', hc', hrest⟩ := setTable_of_applyAll h
      exact (SameApart.of_setTable hts.1 hc').trans (ih hts.2 hrest)

theorem sameApart_apply (hdisjoint : ∀ x ∈ m.union, x ∉ m.inter) {earlier : List Table}
    {changed : Bool} (h : m.apply earlier c = .ok (changed, d)) : SameApart m.names c d := by
  refine sameApart_applyAll (fun e he => ?_) h
  have hplan := (List.of_mem_zip he).1
  rw [plan_eq hdisjoint] at hplan
  obtain ⟨x, hx, heq⟩ := List.mem_map.mp hplan
  exact heq ▸ hx

end Merge

namespace Table

/-- The union of what both sides left behind. -/
structure IsUnion (L R T : Table) : Prop where
  keys (k : Term) : T.contains k ↔ L.contains k ∨ R.contains k
  left (k v : Term) : L.get? k = some v →
    (R.size ≤ L.size ∨ ∀ w, R.get? k = some w → w.equal v) →
    ∃ v', T.get? k = some v' ∧ v'.equal v
  right (k : Term) : L.get? k = none → T.get? k = R.get? k
  /-- Conflicts are for the larger table to decide. -/
  larger (k w : Term) : L.size < R.size → R.get? k = some w → T.get? k = some w

theorem isUnion_union (L R : Table) : IsUnion L R (L.union R) where
  keys k := by rw [contains_union, Bool.or_eq_true]
  left k v hv := get?_union_equal hv (Term.equivalence_equal.refl v)
  right k hk := by
    rw [get?_union, hk, Option.none_or, Option.or_none, ite_self]
  larger k w hsize hw := by
    rw [get?_union, if_neg (Nat.not_le_of_lt hsize), hw, Option.some_or]

/-- The entries of the left table whose keys have equal values in the right one. -/
def IsInter (L R T : Table) : Prop :=
  ∀ e, e ∈ T.entries ↔ e ∈ L.entries ∧ ∃ v, R.get? e.1 = some v ∧ v.equal e.2

theorem isInter_inter (L R : Table) : IsInter L R (L.inter R) :=
  fun _ => mem_inter_iff

end Table

namespace Strategy

open Context (SameApart)

variable {ρ : Env} {left right : Strategy} {m : Merge} {t v : Term} {σ τ : State}

theorem update_eq_ok {f : Context → Except Fatal Context} :
    Effect.update f σ = (.ok (), τ) ↔ ∃ c, f σ.context = .ok c ∧ τ = σ.into c := by
  rw [Effect.update_apply]
  cases f σ.context <;> simp [eq_comm]

/-- The steps of a join that succeeds. -/
structure Joined (ρ : Env) (left right : Strategy) (m : Merge) (t u v : Term)
    (σ σ₁ σ₂ σ₃ τ : State) : Prop where
  declared : ∀ x ∈ m.names, σ.context.Declares x
  first : Ends ρ left t σ (.ok u) σ₁
  restored : ∃ c, m.restore (m.names.map σ.context.tableOf) σ₁.context = .ok c ∧ σ₂ = σ₁.into c
  second : Ends ρ right u σ₂ (.ok v) σ₃
  merged : ∃ changed c, m.apply (m.names.map σ₁.context.tableOf) σ₃.context = .ok (changed, c) ∧
    τ = σ₃.into c

theorem joined_of_ends (h : Ends ρ (join left right m) t σ (.ok v) τ) :
    ∃ u σ₁ σ₂ σ₃, Joined ρ left right m t u v σ σ₁ σ₂ σ₃ τ := by
  obtain ⟨n, hn, -⟩ := h
  cases n with
  | zero => cases hn
  | succ n =>
      obtain ⟨before, σ₀, hbefore, h⟩ := Effect.bind_eq_ok.mp hn
      obtain ⟨hbefore, rfl⟩ := read_eq_ok.mp hbefore
      obtain ⟨hdeclared, rfl⟩ := Merge.snapshot_eq_ok_iff.mp hbefore
      have h := undoing_eq_ok h
      rw [Effect.joinTables_eq] at h
      obtain ⟨u, σ₁, hleft, h⟩ := Effect.bind_eq_ok.mp h
      obtain ⟨after, σ₁', hafter, h⟩ := Effect.bind_eq_ok.mp h
      obtain ⟨hafter, rfl⟩ := read_eq_ok.mp hafter
      obtain ⟨-, rfl⟩ := Merge.snapshot_eq_ok_iff.mp hafter
      obtain ⟨_, σ₂, hrestore, h⟩ := Effect.bind_eq_ok.mp h
      obtain ⟨w, σ₃, hright, h⟩ := Effect.bind_eq_ok.mp h
      obtain ⟨changed, τ', hchange, h⟩ := Effect.bind_eq_ok.mp h
      cases h
      exact ⟨u, _, σ₂, σ₃, hdeclared, ⟨n, hleft, by simp⟩, update_eq_ok.mp hrestore,
        ⟨n, hright, by simp⟩, changed, change_eq_ok.mp hchange⟩

namespace Joined

variable {u : Term} {σ₁ σ₂ σ₃ : State} {x : String}

/-- The second side starts from the tables as they were, and from what else the first one did. -/
theorem start (h : Joined ρ left right m t u v σ σ₁ σ₂ σ₃ τ) :
    σ₂.log = σ₁.log ∧ SameApart m.names σ₁.context σ₂.context ∧
      ∀ x ∈ m.names, σ₂.context.contents x = σ.context.contents x := by
  obtain ⟨c, hc, rfl⟩ := h.restored
  obtain ⟨d, hd, hcontents⟩ := Merge.contents_restore
    (Merge.snapshot_eq_ok_iff.mpr ⟨h.declared, rfl⟩) h.first.evolves
  obtain rfl : c = d := Except.ok.inj (hc.symm.trans hd)
  exact ⟨rfl, Merge.sameApart_restore hc, hcontents⟩

theorem finish (hdisjoint : ∀ x ∈ m.union, x ∉ m.inter)
    (h : Joined ρ left right m t u v σ σ₁ σ₂ σ₃ τ) :
    τ.log = σ₃.log ∧ SameApart m.names σ₃.context τ.context ∧
      ∀ x ∈ m.names, ∃ L R, σ₁.context.table x = .ok L ∧ σ₃.context.table x = .ok R ∧
        τ.context.table x = .ok (m.way x L R) := by
  obtain ⟨changed, c, hc, rfl⟩ := h.merged
  have hevolves : σ₁.context.Evolves σ₃.context := h.start.2.1.evolves.trans h.second.evolves
  have hfirst : ∀ x ∈ m.names, σ₁.context.Declares x :=
    fun x hx => (h.declared x hx).evolves h.first.evolves
  have hsecond : ∀ x ∈ m.names, σ₃.context.Declares x :=
    fun x hx => (hfirst x hx).evolves hevolves
  obtain ⟨changed', d, hd, hd', htables, -⟩ := Merge.apply_eq hdisjoint hsecond σ₁.context
  cases hc.symm.trans hd
  refine ⟨rfl, Merge.sameApart_apply hdisjoint hc, fun x hx => ?_⟩
  refine ⟨_, _, (hfirst x hx).table_eq, (hsecond x hx).table_eq, ?_⟩
  rw [← htables x hx]
  exact ((hsecond x hx).evolves hd').table_eq

end Joined

/-- If a join succeeds, then its right side was started on the result of its left side, from the
named tables of the start and all else as the left side left it, and its result is the one of the
join. United tables have the keys of both sides, and the values of the left side unless the right
side has a larger table with another value; intersected tables have the common entries. All else
is as the right side left it. -/
theorem join_merges (hdisjoint : ∀ x ∈ m.union, x ∉ m.inter)
    (h : Ends ρ (join left right m) t σ (.ok v) τ) :
    ∃ u σ₁ σ₂ σ₃,
      Ends ρ left t σ (.ok u) σ₁ ∧
      (σ₂.log = σ₁.log ∧ SameApart m.names σ₁.context σ₂.context ∧
        ∀ x ∈ m.names, σ₂.context.contents x = σ.context.contents x) ∧
      Ends ρ right u σ₂ (.ok v) σ₃ ∧
      τ.log = σ₃.log ∧ SameApart m.names σ₃.context τ.context ∧
      (∀ x ∈ m.union, ∃ L R T, σ₁.context.table x = .ok L ∧ σ₃.context.table x = .ok R ∧
        τ.context.table x = .ok T ∧ L.IsUnion R T) ∧
      ∀ x ∈ m.inter, ∃ L R T, σ₁.context.table x = .ok L ∧ σ₃.context.table x = .ok R ∧
        τ.context.table x = .ok T ∧ L.IsInter R T := by
  obtain ⟨u, σ₁, σ₂, σ₃, hjoined⟩ := joined_of_ends h
  obtain ⟨hlog, hsame, htables⟩ := hjoined.finish hdisjoint
  refine ⟨u, σ₁, σ₂, σ₃, hjoined.first, hjoined.start, hjoined.second, hlog, hsame,
    fun x hx => ?_, fun x hx => ?_⟩
  · obtain ⟨L, R, hL, hR, hT⟩ := htables x (List.mem_append_left _ hx)
    rw [Merge.way_of_union hx] at hT
    exact ⟨L, R, _, hL, hR, hT, Table.isUnion_union L R⟩
  · obtain ⟨L, R, hL, hR, hT⟩ := htables x (List.mem_append_right _ hx)
    rw [Merge.way_of_inter fun hunion => hdisjoint x hunion hx] at hT
    exact ⟨L, R, _, hL, hR, hT, Table.isInter_inter L R⟩

theorem join_merges_conflicting :
    ∃ (left right : Strategy) (t u v k : Term) (σ σ₁ σ₂ σ₃ τ : State),
      Ends [] (join left right ⟨["u"], ["i"]⟩) t σ (.ok v) τ ∧
      Ends [] left t σ (.ok u) σ₁ ∧ Ends [] right u σ₂ (.ok v) σ₃ ∧
      (∃ L R T, σ₁.context.table "u" = .ok L ∧ σ₃.context.table "u" = .ok R ∧
        τ.context.table "u" = .ok T ∧ L.IsUnion R T ∧ T.get? k = L.get? k) ∧
      ∃ L R T, σ₁.context.table "i" = .ok L ∧ σ₃.context.table "i" = .ok R ∧
        τ.context.table "i" = .ok T ∧ L.IsInter R T ∧ T.entries = [(k, .empty)] := by
  -- both sides store another value, and both erase entries
  let int (i : Int64) : Term := .int .derived i
  let pair (i j : Int64) : Term := .listOnto .empty [int i, int j]
  let x : Term := .var .derived "x" (.wildcard .derived)
  let left := seq (tableSet "u") (seq (build (int 2)) (seq (tableErase "i") (pattern x)))
  let right := seq (seq (build (pair 0 5)) (tableSet "u"))
    (seq (seq (build (pair 1 5)) (tableSet "i")) (build x))
  let tables : List (String × Table) :=
    [("u", ⟨[(int 0, .empty)]⟩), ("i", ⟨[(int 0, .empty), (int 1, .empty), (int 2, .empty)]⟩)]
  let σ : State := ⟨⟨⟨[.declaring ["x"]]⟩, ⟨.empty, ⟨tables⟩⟩⟩, []⟩
  let s := join left right ⟨["u"], ["i"]⟩
  have hrun : (s.apply 9 [] (pair 0 1) σ).1 = .ok (int 2) := by decide +kernel
  have hleft : (left.apply 9 [] (pair 0 1) σ).1 = .ok (int 2) := by decide +kernel
  have hL : ((left.apply 9 [] (pair 0 1) σ).2.context.tableOf "u").get? (int 0) = some (int 1) := by
    decide +kernel
  have hT : ((s.apply 9 [] (pair 0 1) σ).2.context.tableOf "u").get? (int 0) = some (int 1) := by
    decide +kernel
  have hI : ((s.apply 9 [] (pair 0 1) σ).2.context.tableOf "i").entries = [(int 0, .empty)] := by
    decide +kernel
  have hends := Ends.of_fst hrun (by simp)
  obtain ⟨u, σ₁, σ₂, σ₃, h₁, -, h₂, -, -, hunion, hinter⟩ := join_merges (by simp) hends
  obtain ⟨hu, rfl⟩ := (Ends.of_fst hleft (by simp)).unique h₁
  cases hu
  obtain ⟨L, R, T, hu₁, hu₂, hu₃, hmerged⟩ := hunion "u" (by simp)
  obtain ⟨L', R', T', hi₁, hi₂, hi₃, hcommon⟩ := hinter "i" (by simp)
  rw [Context.tableOf_eq hu₁] at hL
  rw [Context.tableOf_eq hu₃] at hT
  rw [Context.tableOf_eq hi₃] at hI
  exact ⟨left, right, _, _, _, int 0, σ, _, σ₂, σ₃, _, hends, h₁, h₂,
    ⟨L, R, T, hu₁, hu₂, hu₃, hmerged, hT.trans hL.symm⟩, L', R', T', hi₁, hi₂, hi₃, hcommon, hI⟩

/-- A right side that leaves the larger table behind overrides a value of the left side. -/
theorem join_overrides :
    ¬∀ (m : Merge) (left right : Strategy) (t u v : Term) (σ σ₁ τ : State),
      m.union.Nodup → m.inter.Nodup → (∀ x ∈ m.union, x ∉ m.inter) →
      (∀ x ∈ m.names, σ.context.Declares x) →
      Ends [] (join left right m) t σ (.ok v) τ → Ends [] left t σ (.ok u) σ₁ →
      ∀ x ∈ m.union, ∀ k w, (σ₁.context.tableOf x).get? k = some w →
        ∃ w', (τ.context.tableOf x).get? k = some w' ∧ w'.equal w := by
  let k : Term := .int .derived 0
  let u : Term := .int .derived 1
  let pair : Term := .cons .derived k (.cons .derived u .empty)
  let left := seq (build k) (tableAdd "u")
  let right := seq (seq (build pair) (tableSet "u")) (seq (build u) (tableAdd "u"))
  let σ : State := ⟨⟨.empty, .declaringTables ["u"]⟩, []⟩
  intro h
  have hrun : ((join left right ⟨["u"], []⟩).apply 5 [] .empty σ).1 = .ok u := by decide +kernel
  have hleft : (left.apply 5 [] .empty σ).1 = .ok k := by decide +kernel
  have hvalue : (((join left right ⟨["u"], []⟩).apply 5 [] .empty σ).2.context.tableOf "u").get? k =
      some u := by decide +kernel
  have hdeclared : ∀ x ∈ (["u"] : List String), σ.context.Declares x := by
    simp only [Context.Declares]
    decide +kernel
  obtain ⟨w, hw, hequal⟩ := h ⟨["u"], []⟩ left right .empty k u σ _ _ (by simp) (by simp) (by simp)
    hdeclared (Ends.of_fst hrun (by simp)) (Ends.of_fst hleft (by simp)) "u" (by simp) k .empty
    (by decide +kernel)
  cases hvalue.symm.trans hw
  revert hequal
  decide +kernel

end Strategy

end StrategicRewriting
