import Mathlib.Data.List.Forall2
import StrategicRewriting.Context

/-!
Contexts as lists of frames, the innermost one first. A change goes to the first frame
that declares the name, so what the frames further out hold for the name stays as it is.
-/
namespace StrategicRewriting

theorem NameMap.mem_names_iff {α : Type} {m : NameMap α} {x : String} :
    x ∈ m.names ↔ (m.get? x).isSome := by
  rw [names, get?]
  induction m.entries with
  | nil => simp
  | cons e es ih =>
      obtain ⟨y, a⟩ := e
      by_cases hxy : x = y
      · simp [hxy]
      · simp [List.lookup_cons, beq_false_of_ne hxy, hxy, ih]

theorem NameMap.isSome_insert {α : Type} {m : NameMap α} {x y : String} {a : α}
    (h : x = y ∨ (m.get? x).isSome) : ((m.insert y a).get? x).isSome := by
  rw [get?_insert]
  split
  · rfl
  · exact h.resolve_left ‹_›

namespace Frame

/-- The frames declare the same variables and the same tables. -/
def SameNames (f g : Frame) : Prop :=
  (∀ x, x ∈ f.vars.names ↔ x ∈ g.vars.names) ∧
    ∀ name, name ∈ f.tables.names ↔ name ∈ g.tables.names

/-- Names that are inserted one after the other are all there. -/
theorem isSome_foldl {β : Type} {g : Frame → String → Option β} {ins : Frame → String → Frame}
    (hins : ∀ f x y, x = y ∨ (g f x).isSome → (g (ins f y) x).isSome)
    {names : List String} {x : String} {f : Frame} (h : x ∈ names ∨ (g f x).isSome) :
    (g (names.foldl ins f) x).isSome := by
  induction names generalizing f with
  | nil => exact h.resolve_left List.not_mem_nil
  | cons y names ih =>
      refine ih ?_
      rw [List.mem_cons, or_assoc] at h
      rcases h with hxy | hx | hf
      · exact .inr (hins f x y (.inl hxy))
      · exact .inl hx
      · exact .inr (hins f x y (.inr hf))

theorem isSome_declaring {names : List String} {x : String} (h : x ∈ names) :
    ((declaring names).vars.get? x).isSome :=
  isSome_foldl (g := fun f x => f.vars.get? x) (fun _ _ _ => NameMap.isSome_insert) (.inl h)

theorem isSome_declaringTables {names : List String} {name : String} (h : name ∈ names) :
    ((declaringTables names).tables.get? name).isSome :=
  isSome_foldl (g := fun f x => f.tables.get? x) (fun _ _ _ => NameMap.isSome_insert) (.inl h)

end Frame

namespace Context

variable {c c' : Context}

theorem frames_push (c : Context) (f : Frame) : (c.push f).frames = f :: c.frames := rfl

theorem length_frames (c : Context) : c.frames.length = c.depth := by
  simp [frames, depth, Stack.size]

theorem frames_pop {f : Frame} {fs : List Frame} (h : c.frames = f :: fs) (hfs : fs ≠ []) :
    c.pop.frames = fs := by
  obtain ⟨⟨locals⟩, global⟩ := c
  cases locals with
  | nil =>
      cases h
      exact absurd rfl hfs
  | cons f' fs' =>
      cases h
      rfl

theorem updateFirst?_append (f : Frame → Option Frame) (fs gs : List Frame) :
    updateFirst? f (fs ++ gs) =
      match updateFirst? f fs with
      | some fs' => some (fs' ++ gs)
      | none => (updateFirst? f gs).map (fs ++ ·) := by
  induction fs with
  | nil => simp [updateFirst?]
  | cons fr fs ih =>
      rw [List.cons_append, updateFirst?, updateFirst?]
      cases f fr with
      | some fr' => rfl
      | none =>
          dsimp only
          rw [ih]
          cases updateFirst? f fs with
          | some fs' => rfl
          | none => simp [Function.comp_def]

theorem frames_update? (c : Context) (f : Frame → Option Frame) :
    (c.update? f).map frames = updateFirst? f c.frames := by
  rw [frames, updateFirst?_append, update?]
  cases updateFirst? f c.locals.toList with
  | some locals => rfl
  | none =>
      simp only [updateFirst?]
      cases f c.global <;> rfl

theorem frames_of_assign {x : String} {v : Option Term} (h : c.assign x v = .ok c') :
    updateFirst? (Frame.setVar? x v) c.frames = some c'.frames := by
  rw [← frames_update?]
  rw [assign] at h
  split at h
  · rename_i heq
    cases h
    rw [heq, Option.map_some]
  · cases h

theorem frames_of_setTable {name : String} {T : Table} (h : c.setTable name T = .ok c') :
    updateFirst? (Frame.setTable? name T) c.frames = some c'.frames := by
  rw [← frames_update?]
  rw [setTable] at h
  split at h
  · rename_i heq
    cases h
    rw [heq, Option.map_some]
  · cases h

end Context

/-- Only the first value may change, and it stays a value. -/
inductive FirstOnly {α : Type} : List (Option α) → List (Option α) → Prop
  | nil : FirstOnly [] []
  | skip {vs vs' : List (Option α)} : FirstOnly vs vs' → FirstOnly (none :: vs) (none :: vs')
  | first (a b : α) (vs : List (Option α)) : FirstOnly (some a :: vs) (some b :: vs)

namespace FirstOnly

variable {α : Type} {vs vs' vs'' : List (Option α)}

theorem refl (vs : List (Option α)) : FirstOnly vs vs := by
  induction vs with
  | nil => exact .nil
  | cons v vs ih =>
      cases v with
      | none => exact .skip ih
      | some a => exact .first a a vs

theorem trans (h : FirstOnly vs vs') (h' : FirstOnly vs' vs'') : FirstOnly vs vs'' := by
  induction h generalizing vs'' with
  | nil => exact h'
  | skip _ ih =>
      cases h' with
      | skip h' => exact .skip (ih h')
  | first a b vs =>
      cases h' with
      | first _ d _ => exact .first a d vs

theorem tail {v v' : Option α} (h : FirstOnly (v :: vs) (v' :: vs')) : FirstOnly vs vs' := by
  cases h with
  | skip h => exact h
  | first a b vs => exact .refl vs

/-- Behind a value, nothing changes. -/
theorem tail_eq {v v' : Option α} (h : FirstOnly (v :: vs) (v' :: vs')) (hv : v.isSome) :
    vs' = vs := by
  cases h with
  | skip _ => cases hv
  | first _ _ _ => rfl

theorem append {before : List (Option α)} (hbefore : ∀ v ∈ before, v = none)
    (h : FirstOnly vs vs') : FirstOnly (before ++ vs) (before ++ vs') := by
  induction before with
  | nil => exact h
  | cons v before ih =>
      obtain ⟨rfl, hrest⟩ := List.forall_mem_cons.mp hbefore
      exact .skip (ih hrest)

theorem isSome_eq (h : FirstOnly vs vs') :
    List.Forall₂ (fun v v' => v.isSome = v'.isSome) vs vs' := by
  induction h with
  | nil => exact .nil
  | skip _ ih => exact .cons rfl ih
  | first a b vs => exact .cons rfl (List.forall₂_same.mpr fun _ _ => rfl)

end FirstOnly

section

variable {f : Frame → Option Frame} {fs fs' : List Frame} {α : Type}

/-- One frame changes, the first one that `f` can change. -/
theorem Context.split_of_updateFirst? (h : updateFirst? f fs = some fs') :
    ∃ before fr fr' after, fs = before ++ fr :: after ∧ fs' = before ++ fr' :: after ∧
      f fr = some fr' ∧ ∀ g ∈ before, f g = none := by
  induction fs generalizing fs' with
  | nil => cases h
  | cons fr fs ih =>
      rw [updateFirst?] at h
      cases hfr : f fr with
      | some fr' =>
          rw [hfr] at h
          cases h
          exact ⟨[], fr, fr', fs, rfl, rfl, hfr, nofun⟩
      | none =>
          rw [hfr] at h
          obtain ⟨gs, hgs, rfl⟩ := Option.map_eq_some_iff.mp h
          obtain ⟨before, g, g', after, rfl, rfl, hg, hbefore⟩ := ih hgs
          exact ⟨fr :: before, g, g', after, rfl, rfl, hg,
            List.forall_mem_cons.mpr ⟨hfr, hbefore⟩⟩

theorem Context.map_updateFirst? {g : Frame → α} (hf : ∀ fr fr', f fr = some fr' → g fr' = g fr)
    (h : updateFirst? f fs = some fs') : fs'.map g = fs.map g := by
  obtain ⟨before, fr, fr', after, rfl, rfl, hfr, -⟩ := split_of_updateFirst? h
  simp only [List.map_append, List.map_cons, hf fr fr' hfr]

/-- What is looked up afterwards is what the changed frame holds. -/
theorem Context.findSome?_updateFirst? {g : Frame → Option α} {a : α}
    (h : updateFirst? f fs = some fs') (hnone : ∀ fr, f fr = none → g fr = none)
    (hsome : ∀ fr fr', f fr = some fr' → g fr' = some a) : fs'.findSome? g = some a := by
  obtain ⟨before, fr, fr', after, -, rfl, hfr, hbefore⟩ := split_of_updateFirst? h
  have hfirst : before.findSome? g = none :=
    List.findSome?_eq_none_iff.mpr fun fr hmem => hnone fr (hbefore fr hmem)
  rw [List.findSome?_append, hfirst, List.findSome?_cons, hsome fr fr' hfr]
  rfl

theorem Context.forall_updateFirst? {P : Frame → Prop}
    (hf : ∀ fr fr', P fr → f fr = some fr' → P fr') (hfs : ∀ fr ∈ fs, P fr)
    (h : updateFirst? f fs = some fs') : ∀ fr ∈ fs', P fr := by
  obtain ⟨before, fr, fr', after, rfl, rfl, hfr, -⟩ := split_of_updateFirst? h
  simp only [List.forall_mem_append, List.forall_mem_cons] at hfs ⊢
  exact ⟨hfs.1, hf fr fr' hfs.2.1 hfr, hfs.2.2⟩

/-- The first frame that has the name gets a new value for it. -/
theorem FirstOnly.of_insert {m : Frame → NameMap α} {x : String} (a : α)
    (hnone : ∀ fr, f fr = none → (m fr).get? x = none)
    (hsome : ∀ fr fr', f fr = some fr' → ((m fr).get? x).isSome ∧ m fr' = (m fr).insert x a)
    (h : Context.updateFirst? f fs = some fs') (y : String) :
    FirstOnly (fs.map fun fr => (m fr).get? y) (fs'.map fun fr => (m fr).get? y) := by
  by_cases hy : y = x
  · subst hy
    obtain ⟨before, fr, fr', after, rfl, rfl, hfr, hbefore⟩ := Context.split_of_updateFirst? h
    obtain ⟨hb, heq⟩ := hsome fr fr' hfr
    obtain ⟨b, hb⟩ := Option.isSome_iff_exists.mp hb
    simp only [List.map_append, List.map_cons, hb, heq, NameMap.get?_insert, if_true]
    refine .append ?_ (.first b a _)
    intro v hv
    obtain ⟨g, hg, rfl⟩ := List.mem_map.mp hv
    exact hnone g (hbefore g hg)
  · have heq : (fs'.map fun fr => (m fr).get? y) = fs.map fun fr => (m fr).get? y := by
      refine Context.map_updateFirst? (fun fr fr' hfr => ?_) h
      rw [(hsome fr fr' hfr).2, NameMap.get?_insert, if_neg hy]
    rw [heq]
    exact .refl _

theorem FirstOnly.of_unchanged {g : Frame → Option α}
    (hf : ∀ fr fr', f fr = some fr' → g fr' = g fr) (h : Context.updateFirst? f fs = some fs') :
    FirstOnly (fs.map g) (fs'.map g) := by
  rw [Context.map_updateFirst? hf h]
  exact .refl _

end

namespace Context

/-! Two contexts with corresponding frames. -/

/-- The contexts have the same number of frames, and their frames are related. -/
def Framewise (R : Frame → Frame → Prop) (c c' : Context) : Prop :=
  List.Forall₂ R c.frames c'.frames

variable {R : Frame → Frame → Prop} {c c' : Context}

theorem Framewise.push (h : Framewise R c c') {f f' : Frame} (hf : R f f') :
    Framewise R (c.push f) (c'.push f') :=
  .cons hf h

theorem Framewise.pop (h : Framewise R c c') : Framewise R c.pop c'.pop := by
  obtain ⟨⟨fs⟩, g⟩ := c
  obtain ⟨⟨fs'⟩, g'⟩ := c'
  have hlen := List.Forall₂.length_eq h
  rw [length_frames, length_frames] at hlen
  cases fs with
  | nil =>
      cases fs' with
      | nil => exact h
      | cons f' fs' => cases hlen
  | cons f fs =>
      cases fs' with
      | nil => cases hlen
      | cons f' fs' =>
          cases h with
          | cons _ h => exact h

section

variable {α β : Type} {P : α → β → Prop} {f : Frame → Option α} {g : Frame → Option β}
  (hfg : ∀ fr fr', R fr fr' → Option.Rel P (f fr) (g fr'))

include hfg

theorem Framewise.findSome? (h : Framewise R c c') :
    Option.Rel P (c.frames.findSome? f) (c'.frames.findSome? g) := by
  rw [Framewise] at h
  generalize c.frames = fs at h
  generalize c'.frames = fs' at h
  induction h with
  | nil => exact .none
  | @cons fr fr' fs fs' hfr _ ih =>
      have hrel := hfg fr fr' hfr
      rw [List.findSome?_cons, List.findSome?_cons]
      generalize f fr = a at hrel
      generalize g fr' = b at hrel
      cases hrel with
      | some hab => exact .some hab
      | none => exact ih

end

section

variable {f g : Frame → Option Frame} (hfg : ∀ fr fr', R fr fr' → Option.Rel R (f fr) (g fr'))

include hfg

theorem forall₂_updateFirst? {fs fs' : List Frame} (h : List.Forall₂ R fs fs') :
    Option.Rel (List.Forall₂ R) (updateFirst? f fs) (updateFirst? g fs') := by
  induction h with
  | nil => exact .none
  | @cons fr fr' fs fs' hfr hfs ih =>
      have hrel := hfg fr fr' hfr
      rw [updateFirst?, updateFirst?]
      generalize f fr = a at hrel
      generalize g fr' = b at hrel
      cases hrel with
      | some hab => exact .some (.cons hab hfs)
      | none =>
          dsimp only
          generalize updateFirst? f fs = as at ih
          generalize updateFirst? g fs' = bs at ih
          cases ih with
          | some h => exact .some (.cons hfr h)
          | none => exact .none

theorem Framewise.update? (h : Framewise R c c') :
    Option.Rel (Framewise R) (c.update? f) (c'.update? g) := by
  have hrel := forall₂_updateFirst? hfg h
  rw [← frames_update?, ← frames_update?] at hrel
  generalize c.update? f = d at hrel
  generalize c'.update? g = d' at hrel
  cases d with
  | some d =>
      cases d' with
      | some d' =>
          cases hrel with
          | some h => exact .some h
      | none => cases hrel
  | none =>
      cases d' with
      | some d' => cases hrel
      | none => exact .none

end

end Context

end StrategicRewriting
