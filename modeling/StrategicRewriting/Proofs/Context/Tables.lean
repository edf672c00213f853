import Mathlib.Data.List.Dedup
import StrategicRewriting.Proofs.Strategy.Atomicity
import StrategicRewriting.Proofs.Term.Equality

/-!
Merging of tables. A union has the keys of both tables, but where both have a value for a key,
that of the larger table stays. An intersection consists of entries of the left table, and it
differs from this table only if it is smaller. Merging once more with the same table changes
nothing, so it does not matter if a table is named more than once.
-/
namespace StrategicRewriting

namespace Table

variable {T l r : Table} {k k' v : Term}

theorem get?_congr (T : Table) (h : k.equal k') : T.get? k = T.get? k' := by
  have hkey (e : Term × Term) : e.1.equal k = e.1.equal k' := by
    rw [Bool.eq_iff_iff]
    exact ⟨fun he => Term.equivalence_equal.trans he h,
      fun he => Term.equivalence_equal.trans he (Term.equivalence_equal.symm h)⟩
  simp only [get?, hkey]

theorem mem_of_get? (h : T.get? k = some v) : ∃ e ∈ T.entries, e.1.equal k ∧ e.2 = v := by
  obtain ⟨e, he, hv⟩ := Option.map_eq_some_iff.mp h
  have hkey : e.1.equal k := by simpa using List.find?_some he
  exact ⟨e, List.mem_of_find?_eq_some he, hkey, hv⟩

theorem contains_iff : T.contains k ↔ ∃ e ∈ T.entries, e.1.equal k := by
  rw [contains, get?, Option.isSome_map, List.find?_isSome]

theorem contains_of_mem {e : Term × Term} (h : e ∈ T.entries) : T.contains e.1 :=
  contains_iff.mpr ⟨e, h, Term.equivalence_equal.refl e.1⟩

/-! Unions. -/

theorem get?_extend (l r : Table) (k : Term) :
    (l.extend r).get? k = (l.get? k).or (r.get? k) := by
  have hnew (hnone : l.get? k = none) (e : Term × Term) :
      (!l.contains e.1 && e.1.equal k) = e.1.equal k := by
    cases he : e.1.equal k with
    | false => rw [Bool.and_false]
    | true =>
        rw [contains, get?_congr l he, hnone]
        rfl
  simp only [get?, extend, List.find?_append, List.find?_filter]
  cases hl : l.entries.find? (·.1.equal k) with
  | some e => rfl
  | none =>
      have hnone : l.get? k = none := by
        rw [get?, hl]
        rfl
      simp only [Bool.decide_and, Bool.decide_eq_true, hnew hnone, Option.none_or,
        Option.map_none]

theorem get?_union (l r : Table) (k : Term) : (l.union r).get? k =
    if r.size ≤ l.size then (l.get? k).or (r.get? k) else (r.get? k).or (l.get? k) := by
  rw [union]
  split <;> exact get?_extend _ _ k

theorem contains_union (l r : Table) (k : Term) :
    (l.union r).contains k = (l.contains k || r.contains k) := by
  rw [contains, get?_union, contains, contains]
  split
  · exact Option.isSome_or
  · rw [Option.isSome_or, Bool.or_comm]

/-- A value stays unless the other table is larger and has a different one. -/
theorem get?_union_equal {v₀ : Term} (h : l.get? k = some v₀) (hv : v₀.equal v)
    (hother : r.size ≤ l.size ∨ ∀ v', r.get? k = some v' → v'.equal v) :
    ∃ v', (l.union r).get? k = some v' ∧ v'.equal v := by
  rw [get?_union, h]
  split
  · exact ⟨v₀, rfl, hv⟩
  · rename_i hlt
    cases hr : r.get? k with
    | none => exact ⟨v₀, rfl, hv⟩
    | some v' => exact ⟨v', rfl, hother.resolve_left hlt v' hr⟩

/-- Nothing is added to a table that has all keys already. -/
theorem extend_eq_self (h : ∀ e ∈ r.entries, l.contains e.1) : l.extend r = l := by
  have hnone : r.entries.filter (fun e => !l.contains e.1) = [] :=
    List.filter_eq_nil_iff.mpr fun e he => by simp [h e he]
  rw [extend, hnone, List.append_nil]

theorem size_le_extend (l r : Table) : l.size ≤ (l.extend r).size := by
  rw [size, size, extend, List.length_append]
  exact Nat.le_add_right _ _

theorem union_union (l r : Table) : l.union (l.union r) = l.union r := by
  have hkeys : ∀ e ∈ l.entries, (l.union r).contains e.1 := by
    intro e he
    rw [contains_union, contains_of_mem he, Bool.true_or]
  rw [union]
  split
  · -- nothing was added, so the left table was the larger one and has all keys
    rename_i hsize
    rw [union] at hsize ⊢
    split at hsize
    · rename_i hle
      rw [if_pos hle]
      have hnone : r.entries.filter (fun e => !l.contains e.1) = [] := by
        rw [size, size, extend, List.length_append] at hsize
        exact List.eq_nil_of_length_eq_zero (by omega)
      have hself : l.extend r = l := by rw [extend, hnone, List.append_nil]
      rw [hself]
      exact extend_eq_self fun e => contains_of_mem
    · rename_i hlt
      have := size_le_extend r l
      omega
  · exact extend_eq_self hkeys

/-! Intersections. -/

theorem inter_sublist (l r : Table) : (l.inter r).entries.Sublist l.entries :=
  List.filter_sublist

theorem mem_inter_iff {e : Term × Term} : e ∈ (l.inter r).entries ↔
    e ∈ l.entries ∧ ∃ v, r.get? e.1 = some v ∧ v.equal e.2 := by
  rw [inter, List.mem_filter, Option.any_eq_true]

/-- Entries of an intersection with equal keys have equal values. -/
theorem equal_of_mem_inter {e e' : Term × Term} (he : e ∈ (l.inter r).entries)
    (he' : e' ∈ (l.inter r).entries) (hkey : e.1.equal e'.1) : e.2.equal e'.2 := by
  obtain ⟨-, v, hv, hequal⟩ := mem_inter_iff.mp he
  obtain ⟨-, v', hv', hequal'⟩ := mem_inter_iff.mp he'
  rw [get?_congr r hkey] at hv
  cases hv.symm.trans hv'
  exact Term.equivalence_equal.trans (Term.equivalence_equal.symm hequal) hequal'

theorem get?_of_mem_inter {e : Term × Term} (he : e ∈ (l.inter r).entries) :
    ∃ v, (l.inter r).get? e.1 = some v ∧ v.equal e.2 := by
  obtain ⟨v, hv⟩ := Option.isSome_iff_exists.mp (contains_of_mem he)
  obtain ⟨e', he', hkey, rfl⟩ := mem_of_get? hv
  exact ⟨e'.2, hv, equal_of_mem_inter he' he hkey⟩

theorem inter_inter (l r : Table) : l.inter (l.inter r) = l.inter r := by
  have hiff (e : Term × Term) : e ∈ (l.inter (l.inter r)).entries ↔ e ∈ (l.inter r).entries := by
    constructor
    · intro he
      obtain ⟨hmem, v, hv, hequal⟩ := mem_inter_iff.mp he
      obtain ⟨e', he', hkey, rfl⟩ := mem_of_get? hv
      obtain ⟨-, v', hv', hequal'⟩ := mem_inter_iff.mp he'
      rw [get?_congr r hkey] at hv'
      exact mem_inter_iff.mpr ⟨hmem, v', hv', Term.equivalence_equal.trans hequal' hequal⟩
    · intro he
      exact mem_inter_iff.mpr ⟨(mem_inter_iff.mp he).1, get?_of_mem_inter he⟩
  rw [inter, inter]
  congr 1
  refine List.filter_congr fun e he => ?_
  have := hiff e
  simpa [inter, he] using this

/-- An intersection that is not smaller is equal to the left table. -/
theorem equal_inter (h : (l.inter r).size = l.size) : (l.inter r).equal l := by
  have hentries : (l.inter r).entries = l.entries := (inter_sublist l r).eq_of_length h
  have hsame : l.inter r = l := by
    cases hlr : l.inter r
    rw [hlr] at hentries
    cases hentries
    rfl
  rw [equal, h, beq_self_eq_true, Bool.true_and, List.all_eq_true]
  intro e he
  rw [← hsame, Option.any_eq_true]
  exact get?_of_mem_inter he

end Table

namespace Context

variable {c c' : Context} {name : String} {T : Table}

/-- The contents of a table, empty if it is not declared. -/
def tableOf (c : Context) (name : String) : Table :=
  match c.table name with
  | .ok T => T
  | .error _ => .empty

theorem tableOf_eq (h : c.table name = .ok T) : c.tableOf name = T := by
  rw [tableOf, h]

theorem Declares.table_eq (h : c.Declares name) : c.table name = .ok (c.tableOf name) := by
  obtain ⟨T, hT⟩ := h.table
  rw [hT, tableOf_eq hT]

theorem tableOf_setTable_of_ne {other : String} (h : c.setTable name T = .ok c')
    (hne : other ≠ name) : c'.tableOf other = c.tableOf other := by
  have hread (d : Context) : d.tableOf other = ((d.contents other).findSome? id).getD .empty := by
    rw [tableOf]
    split
    · rename_i T hT
      rw [table_eq_ok_iff.mp hT]
      rfl
    · rename_i e he
      have hnone : (d.contents other).findSome? id = none :=
        Option.eq_none_iff_forall_ne_some.mpr fun T hT => by
          rw [table_eq_ok_iff.mpr hT] at he
          cases he
      rw [hnone]
      rfl
  rw [hread, hread, contents_setTable_of_ne h hne]

/-- The number of entries of all tables of the names together. -/
def entryCount (c : Context) (names : List String) : Nat :=
  (names.dedup.flatMap fun x => (c.tableOf x).entries).length

end Context

namespace Merge

open Context

/-- How a table of the name is merged. -/
def way (m : Merge) (name : String) : Table → Table → Table :=
  if name ∈ m.union then Table.union else Table.inter

theorem way_of_union {m : Merge} {name : String} (h : name ∈ m.union) :
    m.way name = Table.union :=
  if_pos h

theorem way_of_inter {m : Merge} {name : String} (h : name ∉ m.union) :
    m.way name = Table.inter :=
  if_neg h

theorem way_way (m : Merge) (name : String) (l r : Table) :
    m.way name l (m.way name l r) = m.way name l r := by
  rw [way]
  split
  · exact Table.union_union l r
  · exact Table.inter_inter l r

variable {m : Merge} {c c₀ : Context}

theorem plan_eq (hdisjoint : ∀ x ∈ m.union, x ∉ m.inter) :
    m.plan = m.names.map fun x => (x, m.way x) := by
  rw [plan, names, List.map_append]
  congr 1
  · exact List.map_congr_left fun x hx => by rw [way_of_union hx]
  · exact List.map_congr_left fun x hx => by rw [way_of_inter fun h => hdisjoint x h hx]

theorem snapshot_eq_ok_iff {before : List Table} : m.snapshot c = .ok before ↔
    (∀ x ∈ m.names, c.Declares x) ∧ before = m.names.map c.tableOf := by
  rw [snapshot]
  generalize m.names = names
  constructor
  · intro h
    have hread := forall₂_of_mapM h
    clear h
    induction hread with
    | nil => exact ⟨List.forall_mem_nil _, rfl⟩
    | cons hT _ ih =>
        rw [List.map_cons, tableOf_eq hT, ← ih.2]
        exact ⟨List.forall_mem_cons.mpr ⟨declares_of_table hT, ih.1⟩, rfl⟩
  · rintro ⟨hnames, rfl⟩
    induction names with
    | nil => rfl
    | cons name names ih =>
        rw [List.forall_mem_cons] at hnames
        rw [List.mapM_cons, hnames.1.table_eq, ih hnames.2]
        rfl

/-- Every table is merged with its earlier contents, however often it is named. -/
theorem applyAll_eq (earlier : String → Table) {names : List String}
    (hnames : ∀ x ∈ names, c.Declares x) :
    ∃ d, applyAll (names.map fun x => ((x, m.way x), earlier x)) c =
        .ok (names.any fun x => !(m.way x (earlier x) (c.tableOf x)).equal (earlier x), d) ∧
      c.Evolves d ∧ (∀ x ∈ names, d.tableOf x = m.way x (earlier x) (c.tableOf x)) ∧
      ∀ x, x ∉ names → d.tableOf x = c.tableOf x := by
  induction names generalizing c with
  | nil => exact ⟨c, rfl, .refl c, List.forall_mem_nil _, fun _ _ => rfl⟩
  | cons name names ih =>
      rw [List.forall_mem_cons] at hnames
      obtain ⟨c₁, hc₁⟩ := hnames.1.setTable (m.way name (earlier name) (c.tableOf name))
      have hevolves := Evolves.of_setTable hc₁
      -- a later merge of the same table finds it merged already
      have hagain (x : String) : m.way x (earlier x) (c₁.tableOf x) =
          m.way x (earlier x) (c.tableOf x) := by
        by_cases hx : x = name
        · subst hx
          rw [tableOf_eq (table_setTable hc₁)]
          exact way_way m x _ _
        · rw [tableOf_setTable_of_ne hc₁ hx]
      obtain ⟨d, hd, hd', hin, hout⟩ := ih fun x hx => (hnames.2 x hx).evolves hevolves
      simp only [hagain] at hd hin
      refine ⟨d, ?_, hevolves.trans hd', ?_, ?_⟩
      · rw [List.any_cons, Bool.or_comm]
        simp only [List.map_cons, applyAll, hnames.1.table_eq, bind, Except.bind, hc₁, hd]
      · intro x hx
        by_cases hmem : x ∈ names
        · exact hin x hmem
        · obtain rfl := (List.mem_cons.mp hx).resolve_right hmem
          rw [hout x hmem, tableOf_eq (table_setTable hc₁)]
      · intro x hx
        rw [List.mem_cons, not_or] at hx
        rw [hout x hx.2, tableOf_setTable_of_ne hc₁ hx.1]

/-- Merging reports a change unless all merged tables are equal to their earlier contents. -/
theorem apply_eq (hdisjoint : ∀ x ∈ m.union, x ∉ m.inter) (hnames : ∀ x ∈ m.names, c.Declares x)
    (c₀ : Context) :
    ∃ changed d, m.apply (m.names.map c₀.tableOf) c = .ok (changed, d) ∧ c.Evolves d ∧
      (∀ x ∈ m.names, d.tableOf x = m.way x (c₀.tableOf x) (c.tableOf x)) ∧
      (changed = false ↔ ∀ x ∈ m.names, (d.tableOf x).equal (c₀.tableOf x)) := by
  obtain ⟨d, hd, hevolves, htables, -⟩ := applyAll_eq (m := m) c₀.tableOf hnames
  rw [← List.zip_map', ← plan_eq hdisjoint] at hd
  refine ⟨_, d, hd, hevolves, htables, ?_⟩
  rw [List.any_eq_false]
  refine forall₂_congr fun x hx => ?_
  rw [htables x hx]
  simp

end Merge

end StrategicRewriting
