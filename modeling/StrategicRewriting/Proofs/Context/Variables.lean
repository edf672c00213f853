import StrategicRewriting.Proofs.Strategy.Fatality

/-!
Variables of a context. Reading and writing meet at the innermost declaration: what was written
is read, other variables and the tables stay as they are, and writing the value that is there
changes nothing.
-/
namespace StrategicRewriting

theorem NameMap.insert_self {α : Type} {m : NameMap α} {x : String} {a : α}
    (h : m.get? x = some a) : m.insert x a = m := by
  obtain ⟨es⟩ := m
  rw [insert, mk.injEq]
  rw [get?] at h
  induction es with
  | nil => cases h
  | cons e es ih =>
      obtain ⟨y, b⟩ := e
      rw [insertEntry]
      split
      · rename_i hy
        rw [hy, List.lookup_cons_self] at h
        cases h
        rw [hy]
      · rename_i hy
        rw [List.lookup_cons, beq_false_of_ne (Ne.symm hy)] at h
        rw [ih h]

namespace Context

variable {c c' c'' : Context} {x : String} {v : Option Term}

theorem frames_injective (h : c.frames = c'.frames) : c = c' := by
  obtain ⟨⟨locals⟩, global⟩ := c
  obtain ⟨⟨locals'⟩, global'⟩ := c'
  obtain ⟨hlocals, hglobal⟩ := List.append_inj' h rfl
  cases hlocals
  cases hglobal
  rfl

/-- Some frame has a variable of the name. -/
def DeclaresVar (c : Context) (x : String) : Prop :=
  ∃ v ∈ c.values x, v.isSome

theorem get_eq_ok_iff : c.get x = .ok v ↔ (c.values x).findSome? id = some v := by
  rw [get, values, List.findSome?_map, Function.id_comp]
  cases c.frames.findSome? (·.vars.get? x) with
  | some v' => simp
  | none => simp

theorem get_congr (h : c'.values x = c.values x) : c'.get x = c.get x := by
  have hfind (d : Context) : d.frames.findSome? (·.vars.get? x) = (d.values x).findSome? id := by
    rw [values, List.findSome?_map, Function.id_comp]
  rw [get, get, hfind, hfind, h]

theorem declaresVar_iff : c.DeclaresVar x ↔ ∃ v, c.get x = .ok v := by
  simp only [get_eq_ok_iff]
  rw [← Option.isSome_iff_exists, List.findSome?_isSome_iff]
  rfl

theorem get_eq_error (h : ¬c.DeclaresVar x) : c.get x = .error (.undeclaredVar x) := by
  cases hv : c.get x with
  | ok v => exact absurd (declaresVar_iff.mpr ⟨v, hv⟩) h
  | error e =>
      rw [get] at hv
      split at hv
      · cases hv
      · exact hv.symm

theorem DeclaresVar.evolves (h : c.DeclaresVar x) (hc : c.Evolves c') : c'.DeclaresVar x :=
  (hc.values x).exists_isSome h

theorem DeclaresVar.assign (h : c.DeclaresVar x) (v : Option Term) :
    ∃ c', c.assign x v = .ok c' := by
  obtain ⟨c', hc'⟩ := exists_update? (f := Frame.setVar? x v) (fun _ => Option.isSome_map) h
  exact ⟨c', by rw [Context.assign, hc']⟩

theorem values_assign_of_ne {y : String} (h : c.assign x v = .ok c') (hne : y ≠ x) :
    c'.values y = c.values y := by
  refine map_updateFirst? (fun fr fr' hfr => ?_) (frames_of_assign h)
  obtain ⟨_, -, rfl⟩ := Option.map_eq_some_iff.mp hfr
  rw [NameMap.get?_insert, if_neg hne]

theorem contents_assign (h : c.assign x v = .ok c') (name : String) :
    c'.contents name = c.contents name := by
  refine map_updateFirst? (fun fr fr' hfr => ?_) (frames_of_assign h)
  obtain ⟨_, -, rfl⟩ := Option.map_eq_some_iff.mp hfr
  rfl

theorem get_assign (h : c.assign x v = .ok c') : c'.get x = .ok v := by
  have hfind : c'.frames.findSome? (·.vars.get? x) = some v :=
    findSome?_updateFirst? (frames_of_assign h) (fun fr hfr => Option.map_eq_none_iff.mp hfr)
      fun fr fr' hfr => by
        obtain ⟨_, -, rfl⟩ := Option.map_eq_some_iff.mp hfr
        rw [NameMap.get?_insert, if_pos rfl]
  rw [get, hfind]

theorem updateFirst?_setVar?_self {fs : List Frame}
    (h : fs.findSome? (·.vars.get? x) = some v) :
    updateFirst? (Frame.setVar? x v) fs = some fs := by
  induction fs with
  | nil => cases h
  | cons fr fs ih =>
      rw [List.findSome?_cons] at h
      rw [updateFirst?, Frame.setVar?]
      cases hfr : fr.vars.get? x with
      | some w =>
          rw [hfr] at h
          cases h
          rw [Option.map_some, NameMap.insert_self hfr]
      | none =>
          rw [hfr] at h
          rw [Option.map_none, ih h]
          rfl

/-- Writing the value that is there changes nothing. -/
theorem assign_self (h : c.get x = .ok v) : c.assign x v = .ok c := by
  rw [get_eq_ok_iff, values, List.findSome?_map, Function.id_comp] at h
  obtain ⟨c', hc', hframes⟩ := Option.map_eq_some_iff.mp
    ((frames_update? c (Frame.setVar? x v)).trans (updateFirst?_setVar?_self h))
  rw [assign, hc', frames_injective hframes]

/-- The contexts differ only in that some of the variables, which had no value, have one. -/
structure FillsIn (p : String → Prop) (c c' : Context) : Prop where
  evolves : c.Evolves c'
  contents (name : String) : c'.contents name = c.contents name
  values (x : String) : c'.values x = c.values x ∨
    p x ∧ c.get x = .ok none ∧ ∃ t, c'.get x = .ok (some t)

namespace FillsIn

variable {p q : String → Prop}

theorem refl (p : String → Prop) (c : Context) : FillsIn p c c :=
  ⟨.refl c, fun _ => rfl, fun _ => .inl rfl⟩

theorem trans (h : FillsIn p c c') (h' : FillsIn p c' c'') : FillsIn p c c'' where
  evolves := h.evolves.trans h'.evolves
  contents name := (h'.contents name).trans (h.contents name)
  values x := by
    rcases h.values x with heq | ⟨hp, hnone, t, ht⟩
    · rcases h'.values x with heq' | ⟨hp, hnone, hsome⟩
      · exact .inl (heq'.trans heq)
      · exact .inr ⟨hp, (get_congr heq).symm.trans hnone, hsome⟩
    · rcases h'.values x with heq' | ⟨-, hnone', -⟩
      · exact .inr ⟨hp, hnone, t, (get_congr heq').trans ht⟩
      · cases ht.symm.trans hnone'

theorem mono (h : FillsIn p c c') (hpq : ∀ x, p x → q x) : FillsIn q c c' where
  evolves := h.evolves
  contents := h.contents
  values x := (h.values x).imp_right (And.imp_left (hpq x))

theorem of_assign {t : Term} (hp : p x) (hnone : c.get x = .ok none)
    (h : c.assign x (some t) = .ok c') : FillsIn p c c' where
  evolves := .of_assign h
  contents := contents_assign h
  values y := by
    by_cases hy : y = x
    · subst hy
      exact .inr ⟨hp, hnone, t, get_assign h⟩
    · exact .inl (values_assign_of_ne h hy)

end FillsIn

end Context

end StrategicRewriting
