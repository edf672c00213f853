import StrategicRewriting.Proofs.Context.Frames
import StrategicRewriting.Proofs.Pattern.Match
import StrategicRewriting.Proofs.Term.WellFormed

/-!
Bindings, tables and contexts that hold well-formed terms only. Matching a well-formed
term, storing one and merging tables keep to them, and what is looked up is well-formed.
-/
namespace StrategicRewriting

/-- The values of all variables and all captured terms are well-formed. -/
structure Bindings.WellFormed (b : Bindings) : Prop where
  values {x : String} {t : Term} : b.get? x = some t → t.WellFormed
  captures : ∀ t ∈ b.captures, t.WellFormed

/-- All keys and all values are well-formed. -/
def Table.WellFormed (T : Table) : Prop :=
  ∀ e ∈ T.entries, e.1.WellFormed ∧ e.2.WellFormed

/-- The values of all variables and the entries of all tables are well-formed. -/
structure Frame.WellFormed (f : Frame) : Prop where
  values {x : String} {t : Term} : f.vars.get? x = some (some t) → t.WellFormed
  tables {name : String} {T : Table} : f.tables.get? name = some T → T.WellFormed

def Context.WellFormed (c : Context) : Prop :=
  ∀ f ∈ c.frames, f.WellFormed

namespace Bindings.WellFormed

variable {b b' : Bindings} {t : Term}

theorem empty : Bindings.empty.WellFormed :=
  ⟨nofun, nofun⟩

theorem bind (hb : b.WellFormed) (x : String) (ht : t.WellFormed) : (b.bind x t).WellFormed := by
  refine ⟨?_, hb.captures⟩
  intro y u hu
  rw [get?_bind] at hu
  split at hu
  · cases hu
    exact ht
  · exact hb.values hu

theorem capture (hb : b.WellFormed) (ht : t.WellFormed) : (b.capture t).WellFormed := by
  refine ⟨hb.values, ?_⟩
  intro u hu
  rcases List.mem_append.mp hu with hu | hu
  · exact hb.captures u hu
  · rwa [List.mem_singleton.mp hu]

/-- Only parts of the term are bound and captured, whatever the pattern is. -/
theorem of_collects {p : Term} (hb : b.WellFormed) (ht : t.WellFormed)
    (h : p.Collects t b b') : b'.WellFormed := by
  induction h with
  | stopped p t b => exact hb
  | wildcard o t b => exact hb.capture ht
  | @plain o x c t b _ _ => exact hb.bind x ht
  | @constrained o x c t b b' _ _ _ ih => exact (ih hb ht).bind x ht
  | mismatched _ _ ih => exact ih hb ht
  | cons hshape _ _ ihp ihq | appl hshape _ _ ihp ihq =>
      have hparts := ht.shape
      rw [hshape] at hparts
      exact ihq (ihp hb hparts.1) hparts.2.1
  | @annotated o p q t b b₁ b' _ _ ihp ihq =>
      refine ihq (ihp hb ht) ?_
      cases has : t.annotations with
      | none => exact Term.wellFormed_empty
      | some as => exact (ht.annotations has).1

theorem of_matchTerm {p : Term} {ok : Bool} (hb : b.WellFormed) (ht : t.WellFormed)
    (h : p.matchTerm t b = (ok, b')) : b'.WellFormed := by
  have hcollects := Term.collects_matchTerm p t b
  rw [h] at hcollects
  exact hb.of_collects ht hcollects

end Bindings.WellFormed

namespace Table.WellFormed

variable {T U : Table} {k v : Term}

theorem empty : Table.empty.WellFormed :=
  nofun

theorem get? (hT : T.WellFormed) (h : T.get? k = some v) : v.WellFormed := by
  obtain ⟨e, he, rfl⟩ := Option.map_eq_some_iff.mp h
  exact (hT e (List.mem_of_find?_eq_some he)).2

theorem insert (hT : T.WellFormed) (hk : k.WellFormed) (hv : v.WellFormed) :
    (T.insert k v).WellFormed := by
  obtain ⟨es⟩ := T
  rw [Table.WellFormed, Table.insert]
  induction es with
  | nil => exact List.forall_mem_singleton.mpr ⟨hk, hv⟩
  | cons e es ih =>
      obtain ⟨he, hes⟩ := List.forall_mem_cons.mp hT
      rw [insertEntry]
      split
      · exact List.forall_mem_cons.mpr ⟨⟨hk, hv⟩, hes⟩
      · exact List.forall_mem_cons.mpr ⟨he, ih hes⟩

theorem filter (hT : T.WellFormed) (p : Term × Term → Bool) :
    (Table.mk (T.entries.filter p)).WellFormed :=
  fun e he => hT e (List.mem_filter.mp he).1

theorem extend (hT : T.WellFormed) (hU : U.WellFormed) : (T.extend U).WellFormed := by
  intro e he
  rcases List.mem_append.mp he with he | he
  · exact hT e he
  · exact hU.filter _ e he

theorem union (hT : T.WellFormed) (hU : U.WellFormed) : (T.union U).WellFormed := by
  rw [Table.union]
  split
  · exact hT.extend hU
  · exact hU.extend hT

end Table.WellFormed

namespace Frame.WellFormed

variable {f f' : Frame}

theorem empty : Frame.empty.WellFormed :=
  ⟨nofun, nofun⟩

theorem insertVar (hf : f.WellFormed) (x : String) {v : Option Term}
    (hv : ∀ t, v = some t → t.WellFormed) :
    Frame.WellFormed { f with vars := f.vars.insert x v } := by
  refine ⟨?_, hf.tables⟩
  intro y t ht
  rw [NameMap.get?_insert] at ht
  split at ht
  · exact hv t (Option.some.inj ht)
  · exact hf.values ht

theorem insertTable (hf : f.WellFormed) (name : String) {T : Table} (hT : T.WellFormed) :
    Frame.WellFormed { f with tables := f.tables.insert name T } := by
  refine ⟨hf.values, ?_⟩
  intro name' T' hT'
  rw [NameMap.get?_insert] at hT'
  split at hT'
  · cases hT'
    exact hT
  · exact hf.tables hT'

theorem foldl {ins : Frame → String → Frame}
    (hins : ∀ f x, f.WellFormed → (ins f x).WellFormed) (hf : f.WellFormed) (names : List String) :
    (names.foldl ins f).WellFormed := by
  induction names generalizing f with
  | nil => exact hf
  | cons x names ih => exact ih (hins f x hf)

theorem declaring (names : List String) : (Frame.declaring names).WellFormed :=
  empty.foldl (fun _ x hf => hf.insertVar x (v := none) nofun) names

theorem declaringTables (names : List String) : (Frame.declaringTables names).WellFormed :=
  empty.foldl (fun _ name hf => hf.insertTable name .empty) names

theorem setVar? {x : String} {v : Option Term} (hf : f.WellFormed)
    (hv : ∀ t, v = some t → t.WellFormed) (h : f.setVar? x v = some f') : f'.WellFormed := by
  obtain ⟨_, -, rfl⟩ := Option.map_eq_some_iff.mp h
  exact hf.insertVar x hv

theorem setTable? {name : String} {T : Table} (hf : f.WellFormed) (hT : T.WellFormed)
    (h : f.setTable? name T = some f') : f'.WellFormed := by
  obtain ⟨_, -, rfl⟩ := Option.map_eq_some_iff.mp h
  exact hf.insertTable name hT

end Frame.WellFormed

namespace Context.WellFormed

variable {c c' : Context}

theorem push {f : Frame} (hc : c.WellFormed) (hf : f.WellFormed) : (c.push f).WellFormed :=
  List.forall_mem_cons.mpr ⟨hf, hc⟩

theorem pop (hc : c.WellFormed) : c.pop.WellFormed := by
  obtain ⟨⟨locals⟩, global⟩ := c
  cases locals with
  | nil => exact hc
  | cons f fs => exact (List.forall_mem_cons.mp hc).2

theorem get {x : String} {t : Term} (hc : c.WellFormed) (h : c.get x = .ok (some t)) :
    t.WellFormed := by
  rw [Context.get] at h
  split at h
  · rename_i hfind
    obtain ⟨f, hf, hx⟩ := List.exists_of_findSome?_eq_some hfind
    cases h
    exact (hc f hf).values hx
  · cases h

theorem table {name : String} {T : Table} (hc : c.WellFormed) (h : c.table name = .ok T) :
    T.WellFormed := by
  rw [Context.table] at h
  split at h
  · rename_i hfind
    obtain ⟨f, hf, hT⟩ := List.exists_of_findSome?_eq_some hfind
    cases h
    exact (hc f hf).tables hT
  · cases h

theorem assign {x : String} {v : Option Term} (hc : c.WellFormed)
    (hv : ∀ t, v = some t → t.WellFormed) (h : c.assign x v = .ok c') : c'.WellFormed :=
  forall_updateFirst? (fun _ _ hf => hf.setVar? hv) hc (frames_of_assign h)

theorem setTable {name : String} {T : Table} (hc : c.WellFormed) (hT : T.WellFormed)
    (h : c.setTable name T = .ok c') : c'.WellFormed :=
  forall_updateFirst? (fun _ _ hf => hf.setTable? hT) hc (frames_of_setTable h)

end Context.WellFormed

end StrategicRewriting
