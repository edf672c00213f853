import StrategicRewriting.Proofs.Context.Tables
import StrategicRewriting.Proofs.Context.Variables

/-!
Names of variables and of tables mean their innermost declaration, for reading and for writing.
What the frames hold for a name is seen as a list, in which a write changes the first value. A
scope puts one more place in front of this list, and takes it away again at its end: so the
writes inside it reach what is around it exactly for the names that it does not declare.
-/
namespace StrategicRewriting

/-- Change the first value of a list of places, some of which are empty. -/
def mapFirst {α : Type} (f : α → α) : List (Option α) → List (Option α)
  | [] => []
  | none :: vs => none :: mapFirst f vs
  | some a :: vs => some (f a) :: vs

section

variable {α : Type} {f : α → α} {vs : List (Option α)}

@[simp]
theorem length_mapFirst (f : α → α) (vs : List (Option α)) :
    (mapFirst f vs).length = vs.length := by
  induction vs with
  | nil => rfl
  | cons v vs ih => cases v <;> simp [mapFirst, ih]

@[simp]
theorem mapFirst_id (vs : List (Option α)) : mapFirst id vs = vs := by
  induction vs with
  | nil => rfl
  | cons v vs ih => cases v <;> simp [mapFirst, ih]

theorem mapFirst_mapFirst (f g : α → α) (vs : List (Option α)) :
    mapFirst g (mapFirst f vs) = mapFirst (fun a => g (f a)) vs := by
  induction vs with
  | nil => rfl
  | cons v vs ih => cases v <;> simp [mapFirst, ih]

theorem mapFirst_append {before : List (Option α)} (h : ∀ v ∈ before, v = none) :
    mapFirst f (before ++ vs) = before ++ mapFirst f vs := by
  induction before with
  | nil => rfl
  | cons v before ih =>
      obtain ⟨rfl, hbefore⟩ := List.forall_mem_cons.mp h
      rw [List.cons_append, mapFirst, ih hbefore]
      rfl

theorem mapFirst_of_forall_none (h : ∀ v ∈ vs, v = none) : mapFirst f vs = vs := by
  have happend : mapFirst f (vs ++ []) = vs ++ mapFirst f [] := mapFirst_append h
  rwa [List.append_nil, mapFirst, List.append_nil] at happend

theorem findSome?_mapFirst (f : α → α) (vs : List (Option α)) :
    (mapFirst f vs).findSome? id = (vs.findSome? id).map f := by
  induction vs with
  | nil => rfl
  | cons v vs ih => cases v <;> simp [mapFirst, ih]

end

namespace Context

theorem update?_eq_none_iff {c : Context} {f : Frame → Option Frame} :
    c.update? f = none ↔ ∀ fr ∈ c.frames, f fr = none := by
  rw [← Option.map_eq_none_iff (f := frames), frames_update?]
  induction c.frames with
  | nil => simp [updateFirst?]
  | cons fr fs ih =>
      rw [updateFirst?, List.forall_mem_cons, ← ih]
      cases f fr <;> simp

theorem updateFirst?_of_update? {c c' : Context} {f : Frame → Option Frame}
    (h : c.update? f = some c') : updateFirst? f c.frames = some c'.frames := by
  rw [← frames_update?, h, Option.map_some]

/-- A call that changes what a name holds. -/
inductive Write where
  | set (x : String) (t : Term)
  | unset (x : String)
  | changeTable (name : String) (change : Table → Table)

namespace Write

def apply : Write → Context → Except Fatal Context
  | set x t, c => c.set x t
  | unset x, c => c.unset x
  | changeTable name change, c => c.modifyTable name change

/-- What a write does to the frame that it reaches. -/
def onFrame : Write → Frame → Option Frame
  | set x t => Frame.setVar? x (some t)
  | unset x => Frame.setVar? x none
  | changeTable name change => fun fr =>
    (fr.tables.get? name).map fun T => { fr with tables := fr.tables.insert name (change T) }

/-- The error of a write that reaches no frame. -/
def error : Write → Fatal
  | set x _ | unset x => .undeclaredVar x
  | changeTable name _ => .undeclaredTable name

/-- The contents that are read are those of the table that is changed. -/
theorem updateFirst?_changeTable {name : String} {change : Table → Table} {T : Table}
    {fs : List Frame} (h : fs.findSome? (·.tables.get? name) = some T) :
    updateFirst? (Frame.setTable? name (change T)) fs =
      updateFirst? (changeTable name change).onFrame fs := by
  induction fs with
  | nil => rfl
  | cons fr fs ih =>
      rw [List.findSome?_cons] at h
      simp only [updateFirst?, Frame.setTable?, onFrame]
      cases hfr : fr.tables.get? name with
      | some S =>
          rw [hfr] at h
          cases h
          rfl
      | none =>
          rw [hfr] at h
          exact congrArg (Option.map (fr :: ·)) (ih h)

/-- A write changes the first frame that has the name. -/
theorem apply_eq (w : Write) (c : Context) :
    w.apply c =
      match c.update? w.onFrame with
      | some c' => .ok c'
      | none => .error w.error := by
  cases w with
  | set x t | unset x => rfl
  | changeTable name change =>
      simp only [apply, modifyTable]
      cases hfind : c.frames.findSome? (·.tables.get? name) with
      | some T =>
          have hT : c.table name = .ok T := by rw [table, hfind]
          have hupdate : c.update? (Frame.setTable? name (change T)) =
              c.update? (changeTable name change).onFrame := by
            refine Option.map_injective (fun _ _ => frames_injective) ?_
            rw [frames_update?, frames_update?, updateFirst?_changeTable hfind]
          simp only [hT, bind, Except.bind, setTable, hupdate]
          rfl
      | none =>
          have hT : c.table name = .error (.undeclaredTable name) := by rw [table, hfind]
          have hupdate : c.update? (changeTable name change).onFrame = none := by
            refine update?_eq_none_iff.mpr fun fr hfr => ?_
            simp only [onFrame, List.findSome?_eq_none_iff.mp hfind fr hfr, Option.map_none]
          simp only [hT, bind, Except.bind, hupdate]
          rfl

/-- The value that a write gives to a variable, if it is about this one. -/
def written? (x : String) : Write → Option (Option Term)
  | set y t => if y = x then some (some t) else none
  | unset y => if y = x then some none else none
  | changeTable .. => none

/-- The state after some writes. Those of names that are not declared change nothing. -/
def applyAll (ws : List Write) (σ : State) : State :=
  ws.foldl (fun σ w => (Effect.update w.apply σ).2) σ

end Write

end Context

open Context

/-- A kind of names that frames declare, and what a name of this kind holds. -/
structure Declarations (α : Type) where
  entries : Frame → NameMap α
  withEntries : Frame → NameMap α → Frame
  get : Context → String → Except Fatal α
  undeclared : String → Fatal
  /-- The name that a write is about, and how it changes what this name holds. -/
  change? : Write → Option (String × (α → α))

namespace Declarations

def vars : Declarations (Option Term) where
  entries := Frame.vars
  withEntries fr m := { fr with vars := m }
  get := Context.get
  undeclared := .undeclaredVar
  change?
    | .set x t => some (x, fun _ => some t)
    | .unset x => some (x, fun _ => none)
    | .changeTable .. => none

def tables : Declarations Table where
  entries := Frame.tables
  withEntries fr m := { fr with tables := m }
  get := Context.table
  undeclared := .undeclaredTable
  change?
    | .set .. | .unset _ => none
    | .changeTable name change => some (name, change)

theorem get_vars : vars.get = Context.get := rfl

theorem get_tables : tables.get = Context.table := rfl

variable {α : Type} (D : Declarations α)

/-- What the frames hold for the name, the innermost one first. -/
def held (c : Context) (x : String) : List (Option α) :=
  c.frames.map fun fr => (D.entries fr).get? x

/-- Some frame declares the name. -/
def Declared (c : Context) (x : String) : Prop :=
  ∃ v ∈ D.held c x, v.isSome

/-- How a write changes what the name holds. -/
def effect (x : String) (w : Write) : α → α :=
  match D.change? w with
  | some (y, f) => if y = x then f else id
  | none => id

/-- How some writes change what the name holds, one after the other. -/
def effects (x : String) (ws : List Write) (a : α) : α :=
  ws.foldl (fun a w => D.effect x w a) a

/-- The two contexts differ in the entry of the name in the innermost frame that declares it. -/
def ChangesInnermost (x : String) (f : α → α) (c c' : Context) : Prop :=
  ∃ before fr after a, c.frames = before ++ fr :: after ∧
    (∀ g ∈ before, x ∉ (D.entries g).names) ∧ (D.entries fr).get? x = some a ∧
    c'.frames = before ++ D.withEntries fr ((D.entries fr).insert x (f a)) :: after

/-- Reading and writing a name of this kind mean its innermost declaration. -/
structure Innermost : Prop where
  /-- Reading fails exactly if no frame declares the name. -/
  read_undeclared (σ : State) (x : String) :
    Effect.read (D.get · x) σ = (.fatal (D.undeclared x), σ) ↔ ¬D.Declared σ.context x
  /-- Writing fails in the same cases, and then changes nothing. -/
  write_undeclared (σ : State) (w : Write) (x : String) (f : α → α) :
    D.change? w = some (x, f) →
      (Effect.update w.apply σ = (.fatal (D.undeclared x), σ) ↔ ¬D.Declared σ.context x)
  /-- Otherwise only the innermost declaration of the name changes, and what is read is what was
  written. -/
  write_declared (c : Context) (w : Write) (x : String) (f : α → α) :
    D.change? w = some (x, f) → D.Declared c x →
      ∃ c' a, w.apply c = .ok c' ∧ D.ChangesInnermost x f c c' ∧
        D.get c x = .ok a ∧ D.get c' x = .ok (f a) ∧ ∀ y, y ≠ x → D.get c' y = D.get c y
  /-- After a scope, however it ended, the names that it declared hold what they held before, and
  the others what the writes inside the scope have made of it. -/
  within {β : Type} (fr : Frame) (body : Effect β) (σ : State) (ws : List Write) :
    (body (σ.push fr)).2.context = (Write.applyAll ws (σ.push fr)).context →
      ∀ x, D.get (Effect.within fr body σ).2.context x =
        if x ∈ (D.entries fr).names then D.get σ.context x
        else (D.get σ.context x).map (D.effects x ws)

/-- Reading and writing do with the frames what the kind of names says. -/
structure Lawful : Prop where
  entries_withEntries (fr : Frame) (m : NameMap α) : D.entries (D.withEntries fr m) = m
  get_eq_ok_iff {c : Context} {x : String} {a : α} :
    D.get c x = .ok a ↔ (D.held c x).findSome? id = some a
  get_eq_error {c : Context} {x : String} (h : ¬D.Declared c x) :
    D.get c x = .error (D.undeclared x)
  onFrame_eq {w : Write} {x : String} {f : α → α} (h : D.change? w = some (x, f)) (fr : Frame) :
    w.onFrame fr =
      ((D.entries fr).get? x).map fun a => D.withEntries fr ((D.entries fr).insert x (f a))
  error_eq {w : Write} {x : String} {f : α → α} (h : D.change? w = some (x, f)) :
    w.error = D.undeclared x
  entries_eq {w : Write} {fr fr' : Frame} (h : D.change? w = none)
    (hfr : w.onFrame fr = some fr') : D.entries fr' = D.entries fr

theorem lawful_vars : vars.Lawful where
  entries_withEntries _ _ := rfl
  get_eq_ok_iff := Context.get_eq_ok_iff
  get_eq_error := Context.get_eq_error
  onFrame_eq {w x f} h fr := by
    cases w <;> cases h <;> rfl
  error_eq {w x f} h := by
    cases w <;> cases h <;> rfl
  entries_eq {w fr fr'} h hfr := by
    cases w with
    | changeTable name change =>
        obtain ⟨_, -, rfl⟩ := Option.map_eq_some_iff.mp hfr
        rfl
    | _ => cases h

theorem lawful_tables : tables.Lawful where
  entries_withEntries _ _ := rfl
  get_eq_ok_iff := Context.table_eq_ok_iff
  get_eq_error := Context.table_eq_error
  onFrame_eq {w x f} h fr := by
    cases w with
    | changeTable name change =>
        cases h
        rfl
    | _ => cases h
  error_eq {w x f} h := by
    cases w with
    | changeTable name change =>
        cases h
        rfl
    | _ => cases h
  entries_eq {w fr fr'} h hfr := by
    cases w with
    | changeTable name change => cases h
    | _ =>
        obtain ⟨_, -, rfl⟩ := Option.map_eq_some_iff.mp hfr
        rfl

variable {D} {c c' : Context} {x : String} {w : Write}

theorem not_declared_iff : ¬D.Declared c x ↔ ∀ v ∈ D.held c x, v = none := by
  simp [Declared]

/-- The end of a scope takes away the place of its frame. -/
theorem held_pop (h : 1 < c.depth) (x : String) : D.held c.pop x = (D.held c x).tail := by
  rw [← length_frames] at h
  cases hframes : c.frames with
  | nil => simp [hframes] at h
  | cons fr fs =>
      have hfs : fs ≠ [] := by
        rintro rfl
        simp [hframes] at h
      rw [held, held, frames_pop hframes hfs, hframes]
      rfl

namespace Lawful

variable (hD : D.Lawful)

include hD

theorem declared_iff : D.Declared c x ↔ ∃ a, D.get c x = .ok a := by
  simp only [hD.get_eq_ok_iff]
  rw [← Option.isSome_iff_exists, List.findSome?_isSome_iff]
  rfl

theorem get_of_held {f : α → α} (h : D.held c' x = mapFirst f (D.held c x)) :
    D.get c' x = (D.get c x).map f := by
  have hfirst := congrArg (List.findSome? id) h
  rw [findSome?_mapFirst] at hfirst
  by_cases hx : D.Declared c x
  · obtain ⟨a, ha⟩ := hD.declared_iff.mp hx
    rw [hD.get_eq_ok_iff.mp ha] at hfirst
    rw [ha, hD.get_eq_ok_iff.mpr hfirst]
    rfl
  · have hx' : ¬D.Declared c' x := by
      rw [not_declared_iff, h, mapFirst_of_forall_none (not_declared_iff.mp hx)]
      exact not_declared_iff.mp hx
    rw [hD.get_eq_error hx, hD.get_eq_error hx']
    rfl

theorem get_congr (h : D.held c' x = D.held c x) : D.get c' x = D.get c x := by
  by_cases hx : D.Declared c x
  · obtain ⟨a, ha⟩ := hD.declared_iff.mp hx
    rw [ha, hD.get_eq_ok_iff, h]
    exact hD.get_eq_ok_iff.mp ha
  · have hx' : ¬D.Declared c' x := by rwa [Declared, h]
    rw [hD.get_eq_error hx, hD.get_eq_error hx']

/-- A write of a name changes the innermost frame that declares it. -/
theorem changesInnermost {f : α → α} (hw : D.change? w = some (x, f))
    (h : c.update? w.onFrame = some c') : D.ChangesInnermost x f c c' := by
  obtain ⟨before, fr, fr', after, heq, heq', hfr, hbefore⟩ :=
    split_of_updateFirst? (updateFirst?_of_update? h)
  rw [hD.onFrame_eq hw] at hfr
  obtain ⟨a, ha, rfl⟩ := Option.map_eq_some_iff.mp hfr
  refine ⟨before, fr, after, a, heq, fun g hg hx => ?_, ha, heq'⟩
  have hnone := hbefore g hg
  rw [hD.onFrame_eq hw, Option.map_eq_none_iff] at hnone
  rw [NameMap.mem_names_iff, hnone] at hx
  cases hx

theorem held_of_changesInnermost {f : α → α} (h : D.ChangesInnermost x f c c') (y : String) :
    D.held c' y = mapFirst (if x = y then f else id) (D.held c y) := by
  obtain ⟨before, fr, after, a, heq, hbefore, ha, heq'⟩ := h
  simp only [held, heq, heq', List.map_append, List.map_cons, hD.entries_withEntries,
    NameMap.get?_insert]
  by_cases hy : x = y
  · subst hy
    have hnone : ∀ v ∈ before.map fun g => (D.entries g).get? x, v = none := by
      intro v hv
      obtain ⟨g, hg, rfl⟩ := List.mem_map.mp hv
      have hx := hbefore g hg
      rwa [NameMap.mem_names_iff, Option.not_isSome_iff_eq_none] at hx
    rw [if_pos rfl, if_pos rfl, mapFirst_append hnone, ha, mapFirst]
  · rw [if_neg hy, if_neg (Ne.symm hy), mapFirst_id]

/-- One write. -/
theorem held_update (w : Write) (σ : State) (x : String) :
    D.held (Effect.update w.apply σ).2.context x =
      mapFirst (D.effect x w) (D.held σ.context x) := by
  rw [Effect.update_apply, Write.apply_eq, effect]
  cases hc : σ.context.update? w.onFrame with
  | some c' =>
      cases hw : D.change? w with
      | some change => exact hD.held_of_changesInnermost (hD.changesInnermost hw hc) x
      | none =>
          rw [mapFirst_id]
          refine map_updateFirst? (fun fr fr' hfr => ?_) (updateFirst?_of_update? hc)
          rw [hD.entries_eq hw hfr]
  | none =>
      cases hw : D.change? w with
      | some change =>
          obtain ⟨y, f⟩ := change
          by_cases hy : y = x
          · subst hy
            refine (mapFirst_of_forall_none fun v hv => ?_).symm
            obtain ⟨fr, hfr, rfl⟩ := List.mem_map.mp hv
            have hnone := update?_eq_none_iff.mp hc fr hfr
            rwa [hD.onFrame_eq hw, Option.map_eq_none_iff] at hnone
          · simp only [if_neg hy, mapFirst_id]
      | none => exact (mapFirst_id _).symm

/-- Writes one after the other. -/
theorem held_applyAll (ws : List Write) (σ : State) (x : String) :
    D.held (Write.applyAll ws σ).context x = mapFirst (D.effects x ws) (D.held σ.context x) := by
  induction ws generalizing σ with
  | nil => exact (mapFirst_id _).symm
  | cons w ws ih =>
      refine (ih _).trans ?_
      rw [hD.held_update, mapFirst_mapFirst]
      rfl

theorem read_undeclared (σ : State) (x : String) :
    Effect.read (D.get · x) σ = (.fatal (D.undeclared x), σ) ↔ ¬D.Declared σ.context x := by
  rw [Effect.read_apply]
  constructor
  · intro h hx
    obtain ⟨a, ha⟩ := hD.declared_iff.mp hx
    rw [ha] at h
    cases h
  · intro hx
    rw [hD.get_eq_error hx]

theorem update?_eq_none_iff {f : α → α} (hw : D.change? w = some (x, f)) :
    c.update? w.onFrame = none ↔ ¬D.Declared c x := by
  rw [Context.update?_eq_none_iff, not_declared_iff, held, List.forall_mem_map]
  simp only [hD.onFrame_eq hw, Option.map_eq_none_iff]

theorem write_undeclared (σ : State) {f : α → α} (hw : D.change? w = some (x, f)) :
    Effect.update w.apply σ = (.fatal (D.undeclared x), σ) ↔ ¬D.Declared σ.context x := by
  rw [← hD.update?_eq_none_iff hw, Effect.update_apply, Write.apply_eq]
  cases σ.context.update? w.onFrame with
  | some c' => simp
  | none => simp [hD.error_eq hw]

theorem write_declared {f : α → α} (hw : D.change? w = some (x, f)) (hx : D.Declared c x) :
    ∃ c' a, w.apply c = .ok c' ∧ D.ChangesInnermost x f c c' ∧
      D.get c x = .ok a ∧ D.get c' x = .ok (f a) ∧ ∀ y, y ≠ x → D.get c' y = D.get c y := by
  obtain ⟨a, ha⟩ := hD.declared_iff.mp hx
  obtain ⟨c', hc'⟩ : ∃ c', c.update? w.onFrame = some c' :=
    Option.ne_none_iff_exists'.mp ((hD.update?_eq_none_iff hw).not_left.mpr hx)
  have hchanges := hD.changesInnermost hw hc'
  have hget := hD.get_of_held (hD.held_of_changesInnermost hchanges x)
  refine ⟨c', a, by rw [Write.apply_eq, hc'], hchanges, ha, ?_, fun y hy => ?_⟩
  · rw [hget, ha, if_pos rfl]
    rfl
  · refine hD.get_congr ?_
    rw [hD.held_of_changesInnermost hchanges, if_neg (Ne.symm hy), mapFirst_id]

theorem held_within {β : Type} (fr : Frame) (body : Effect β) (σ : State) (ws : List Write)
    (hbody : (body (σ.push fr)).2.context = (Write.applyAll ws (σ.push fr)).context) (x : String) :
    D.held (Effect.within fr body σ).2.context x =
      (mapFirst (D.effects x ws) ((D.entries fr).get? x :: D.held σ.context x)).tail := by
  have hheld := hD.held_applyAll ws (σ.push fr) x
  rw [← hbody] at hheld
  change D.held (body (σ.push fr)).2.context.pop x = _
  have hdepth := congrArg List.length hheld
  rw [length_mapFirst, held, held, List.length_map, List.length_map, length_frames,
    length_frames] at hdepth
  rw [held_pop (by rw [hdepth]; exact Nat.succ_lt_succ (Nat.succ_pos _)), hheld]
  rfl

theorem get_within {β : Type} (fr : Frame) (body : Effect β) (σ : State) (ws : List Write)
    (hbody : (body (σ.push fr)).2.context = (Write.applyAll ws (σ.push fr)).context) (x : String) :
    D.get (Effect.within fr body σ).2.context x =
      if x ∈ (D.entries fr).names then D.get σ.context x
      else (D.get σ.context x).map (D.effects x ws) := by
  have hheld := hD.held_within fr body σ ws hbody x
  split
  · rename_i hx
    rw [NameMap.mem_names_iff] at hx
    obtain ⟨a, ha⟩ := Option.isSome_iff_exists.mp hx
    rw [ha] at hheld
    exact hD.get_congr hheld
  · rename_i hx
    rw [NameMap.mem_names_iff, Option.not_isSome_iff_eq_none] at hx
    rw [hx] at hheld
    exact hD.get_of_held hheld

end Lawful

theorem Lawful.innermost (hD : D.Lawful) : D.Innermost where
  read_undeclared := hD.read_undeclared
  write_undeclared σ _ _ _ := hD.write_undeclared σ
  write_declared _ _ _ _ := hD.write_declared
  within := hD.get_within

theorem effect_vars (x : String) (w : Write) (v : Option Term) :
    vars.effect x w v = (w.written? x).getD v := by
  cases w with
  | changeTable name change => rfl
  | set y t | unset y =>
      simp only [effect, vars, Write.written?]
      split <;> rfl

theorem effects_vars (x : String) (ws : List Write) (v : Option Term) :
    vars.effects x ws v = (ws.filterMap (·.written? x)).getLast?.getD v := by
  induction ws generalizing v with
  | nil => rfl
  | cons w ws ih =>
      have hrest : vars.effects x (w :: ws) v = vars.effects x ws (vars.effect x w v) := rfl
      rw [hrest, ih, effect_vars, List.filterMap_cons]
      cases w.written? x with
      | none => rfl
      | some u => rw [List.getLast?_cons, Option.getD_some, Option.getD_some]

/-- Names of variables and of tables mean their innermost declaration, for reading and for
writing, also after scopes in which names were written. What some writes make of a variable is
what the last one has written, if there is one. -/
theorem declarations_innermost :
    vars.Innermost ∧ tables.Innermost ∧
      ∀ x ws v, vars.effects x ws v = (ws.filterMap (·.written? x)).getLast?.getD v :=
  ⟨lawful_vars.innermost, lawful_tables.innermost, effects_vars⟩

theorem declarations_innermost_shadowed :
    ∃ (σ : State) (fr : Frame) (body : Effect Unit) (ws : List Write) (v : Term),
      σ.context.depth = 3 ∧ σ.context.get "x" = .ok none ∧ σ.context.get "y" = .ok (some v) ∧
      (body (σ.push fr)).2.context = (Write.applyAll ws (σ.push fr)).context ∧
      (Effect.within fr body σ).1 = .fatal (.undeclaredVar "z") ∧
      (Effect.within fr body σ).2.context.get "x" = .ok (some v) ∧
      (Effect.within fr body σ).2.context.get "y" = .ok (some v) ∧
      (Effect.within fr body σ).2.context.get "z" = .error (.undeclaredVar "z") ∧
      (σ.context.table "t").map (·.get? v) = .ok none ∧
      ((Effect.within fr body σ).2.context.table "t").map (·.get? v) = .ok (some v) ∧
      ∃ c', (Write.set "x" v).apply σ.context = .ok c' ∧ c'.get "x" = .ok (some v) ∧
        c'.get "y" = σ.context.get "y" := by
  -- `x` has a value in the global frame only, `y` is declared again by the scope, and `z` nowhere
  let v : Term := .int .derived 1
  let σ : State := ⟨⟨⟨[.declaring ["x"], .declaringTables ["t"]]⟩,
    ((Frame.declaringTables ["t"]).bind "x" v).bind "y" v⟩, []⟩
  let fr : Frame := .declaring ["y"]
  let ws : List Write :=
    [.set "x" .empty, .set "y" .empty, .changeTable "t" (·.insert v v), .set "z" v, .set "x" v]
  let body : Effect Unit := fun σ => (.fatal (.undeclaredVar "z"), Write.applyAll ws σ)
  obtain ⟨hvars, htables, -⟩ := declarations_innermost
  have hx : Declarations.vars.Declared σ.context "x" := by
    simp only [Declared, held]
    decide +kernel
  have hset := hvars.write_declared σ.context (.set "x" v) "x" (fun _ => some v) rfl hx
  have hbody (σ : State) : (body σ).2.context = (Write.applyAll ws σ).context := rfl
  have hwithin := hvars.within fr body σ ws (hbody (σ.push fr))
  have htable := htables.within fr body σ ws (hbody (σ.push fr)) "t"
  rw [get_vars] at hset hwithin
  rw [get_tables] at htable
  obtain ⟨c', -, hc', -, -, hget, hother⟩ := hset
  refine ⟨σ, fr, body, ws, v, rfl, by decide +kernel, by decide +kernel, hbody (σ.push fr), rfl,
    ?_, ?_, ?_, by decide +kernel, ?_, c', hc', hget, hother "y" (by decide)⟩
  · rw [hwithin]
    decide +kernel
  · rw [hwithin]
    decide +kernel
  · rw [hwithin]
    decide +kernel
  · rw [htable]
    decide +kernel

end Declarations

end StrategicRewriting
