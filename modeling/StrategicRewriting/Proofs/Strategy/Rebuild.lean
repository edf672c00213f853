import StrategicRewriting.Proofs.Strategy.Effect
import StrategicRewriting.Strategy.Spine

/-!
Lists as sequences of cells have the elements of the list, and a rebuilt list has
the new elements, whichever of its cells are used again. Immediate subterms are
seen in the same way for lists and applications.
-/
namespace StrategicRewriting

namespace Term

/-- Induction along a list, whatever nodes of it are annotated. -/
@[elab_as_elim]
theorem spine_induction {P : Term → Prop}
    (cons : ∀ t h tl : Term, t.shape = .cons h tl → P tl → P t)
    (other : ∀ t : Term, (∀ h tl, t.shape ≠ .cons h tl) → P t) (t : Term) : P t := by
  have hboth : P t ∧ ∀ h tl, t.shape = .cons h tl → P tl := by
    induction t with
    | cons o h tl _ ih =>
        refine ⟨cons _ h tl rfl ih.1, ?_⟩
        rintro h' tl' ⟨⟩
        exact ih.1
    | annotated o b as ih _ =>
        refine ⟨?_, ih.2⟩
        by_cases hb : ∃ h tl, b.shape = .cons h tl
        · obtain ⟨h, tl, hb⟩ := hb
          exact cons _ h tl hb (ih.2 h tl hb)
        · exact other _ fun h tl hcons => hb ⟨h, tl, hcons⟩
    | _ => exact ⟨other _ nofun, nofun⟩
  exact hboth.1

theorem cells_of_cons {t h tl : Term} (hshape : t.shape = .cons h tl) :
    t.cells = ⟨t, h⟩ :: tl.cells := by
  induction t with
  | cons o h' tl' => cases hshape; rfl
  | annotated o b as ih _ => rw [cells, ih hshape]
  | _ => cases hshape

theorem lastTail_of_cons {t h tl : Term} (hshape : t.shape = .cons h tl) :
    t.lastTail = tl.lastTail := by
  induction t with
  | cons o h' tl' => cases hshape; rfl
  | annotated o b as ih _ =>
      have hb : b.shape = .cons h tl := hshape
      rw [lastTail, cells_of_cons hb, ← ih hb]
  | _ => cases hshape

theorem elems_of_cons {t h tl : Term} (hshape : t.shape = .cons h tl) :
    t.elems = h :: tl.elems := by
  induction t with
  | cons o h' tl' => cases hshape; rfl
  | annotated o b as ih _ => exact ih hshape
  | _ => cases hshape

/-- What follows the last list node has no list nodes itself. -/
theorem of_not_cons {t : Term} (hshape : ∀ h tl, t.shape ≠ .cons h tl) :
    t.cells = [] ∧ t.lastTail = t ∧ t.elems = [] := by
  induction t with
  | cons o h tl => exact absurd rfl (hshape h tl)
  | annotated o b as ih _ =>
      obtain ⟨hcells, -, helems⟩ := ih hshape
      exact ⟨by rw [cells, hcells], by rw [lastTail, hcells], helems⟩
  | _ => exact ⟨rfl, rfl, rfl⟩

theorem map_head_cells (t : Term) : t.cells.map (·.head) = t.elems := by
  induction t using spine_induction with
  | cons t h tl hshape ih => rw [cells_of_cons hshape, elems_of_cons hshape, ← ih]; rfl
  | other t hshape =>
      obtain ⟨hcells, -, helems⟩ := of_not_cons hshape
      rw [hcells, helems]
      rfl

theorem length_cells (t : Term) : t.cells.length = t.elems.length := by
  rw [← map_head_cells, List.length_map]

theorem start_cells (t : Term) : Spine.start t.lastTail t.cells = t := by
  by_cases hcons : ∃ h tl, t.shape = .cons h tl
  · obtain ⟨h, tl, hshape⟩ := hcons
    rw [cells_of_cons hshape]
    rfl
  · obtain ⟨hcells, htail, -⟩ := of_not_cons fun h tl hshape => hcons ⟨h, tl, hshape⟩
    rw [hcells, htail]
    rfl

/-- The immediate subterms: the elements of a list, or the arguments of an
application if they are a list. -/
def children (t : Term) : List Term :=
  match t.shape with
  | .nil | .cons .. => t.elems
  | .appl _ args => if args.isList then args.elems else []
  | _ => []

/-- The second term is the first one or below it. -/
inductive Reaches : Term → Term → Prop
  | refl (t : Term) : Reaches t t
  | child {t u v : Term} : u ∈ t.children → Reaches u v → Reaches t v

theorem children_of_isList {t : Term} (ht : t.isList) : t.children = t.elems := by
  simp only [isList] at ht
  simp only [children]
  split at ht <;> simp_all

theorem children_of_appl {t functor args : Term} (ht : t.shape = .appl functor args)
    (hargs : args.isList) : t.children = args.elems := by
  simp only [children, ht, hargs, if_true]

end Term

namespace Spine

open Term

/-- The list with new elements, before annotations go over from an element that is left
out. -/
def replaced (t : Term) (new : List (Option Term)) : Term :=
  (rebuildCells t.lastTail t.cells new).getD t

theorem replaced_nil (t : Term) : replaced t [] = t := by
  rw [replaced]
  cases t.cells <;> rfl

theorem replaced_of_not_cons {t : Term} (hshape : ∀ h tl, t.shape ≠ .cons h tl)
    (new : List (Option Term)) : replaced t new = t := by
  rw [replaced, (of_not_cons hshape).1]
  rfl

section

variable {t h tl : Term} (hshape : t.shape = .cons h tl)

include hshape

theorem replaced_none (new : List (Option Term)) : replaced t (none :: new) = replaced tl new := by
  rw [replaced, replaced, cells_of_cons hshape, lastTail_of_cons hshape]
  cases hrest : rebuildCells tl.lastTail tl.cells new with
  | some rest => simp only [rebuildCells, hrest, Option.getD_some]
  | none => simp only [rebuildCells, hrest, start_cells, Option.getD_some, Option.getD_none]

/-- A node is used again only if neither its element nor what follows it changes. -/
theorem replaced_some (y : Term) (new : List (Option Term)) :
    replaced t (some y :: new) = t ∧ y = h ∧ replaced tl new = tl ∨
      replaced t (some y :: new) = t.withShape (.cons y (replaced tl new)) := by
  rw [replaced, replaced, cells_of_cons hshape, lastTail_of_cons hshape]
  cases hrest : rebuildCells tl.lastTail tl.cells new with
  | some rest => exact .inr (by simp only [rebuildCells, hrest, Option.getD_some])
  | none =>
      simp only [rebuildCells, hrest, start_cells, Option.getD_none]
      split
      · rename_i hsame
        exact .inl ⟨rfl, same_iff_eq.mp hsame, trivial⟩
      · exact .inr rfl

theorem shape_replaced_some (y : Term) (new : List (Option Term)) :
    (replaced t (some y :: new)).shape = .cons y (replaced tl new) := by
  rcases replaced_some hshape y new with ⟨heq, rfl, htl⟩ | heq
  · rw [heq, htl, hshape]
  · rw [heq, shape_withShape]

end

theorem rebuild_cases (t : Term) (new : List (Option Term)) :
    rebuild t new = replaced t new ∨
      ∃ as, t.annotations = some as ∧ rebuild t new = make (replaced t new).shape (some as) := by
  rw [rebuild, replaced]
  cases rebuildCells t.lastTail t.cells new with
  | none => exact .inl rfl
  | some u =>
      dsimp only
      split
      · rename_i as has
        exact .inr ⟨as, has, rfl⟩
      · exact .inl rfl

theorem shape_rebuild (t : Term) (new : List (Option Term)) :
    (rebuild t new).shape = (replaced t new).shape := by
  rcases rebuild_cases t new with heq | ⟨as, -, heq⟩
  · rw [heq]
  · rw [heq, shape_make]

/-- A list keeps its nodes if no element is left out. -/
theorem rebuild_map_some_eq (t : Term) (us : List Term) :
    rebuild t (us.map some) = replaced t (us.map some) := by
  rw [rebuild, replaced]
  cases rebuildCells t.lastTail t.cells (us.map some) with
  | none => rfl
  | some u => cases us <;> rfl

theorem annotations_replaced (t : Term) (us : List Term) :
    (replaced t (us.map some)).annotations = t.annotations := by
  by_cases hcons : ∃ h tl, t.shape = .cons h tl
  · obtain ⟨h, tl, hshape⟩ := hcons
    cases us with
    | nil => rw [List.map_nil, replaced_nil]
    | cons u us =>
        rcases replaced_some hshape u (us.map some) with ⟨heq, -, -⟩ | heq
        · rw [List.map_cons, heq]
        · rw [List.map_cons, heq, annotations_withShape]
  · rw [replaced_of_not_cons fun h tl hshape => hcons ⟨h, tl, hshape⟩]

/-- A list of which no element is left out stays a list. -/
theorem isList_rebuild {t : Term} (ht : t.isList) {new : List (Option Term)}
    (hnew : ∀ n ∈ new, n.isSome) : (rebuild t new).isList := by
  rw [isList, shape_rebuild, ← isList]
  by_cases hcons : ∃ h tl, t.shape = .cons h tl
  · obtain ⟨h, tl, hshape⟩ := hcons
    cases new with
    | nil => rwa [replaced_nil]
    | cons n new =>
        obtain ⟨y, rfl⟩ := Option.isSome_iff_exists.mp (hnew n (.head _))
        rw [isList, shape_replaced_some hshape]
  · rwa [replaced_of_not_cons fun h tl hshape => hcons ⟨h, tl, hshape⟩]

theorem rebuildCells_map_some (t : Term) {ys : List Term} (hlen : ys.length = t.elems.length) :
    (rebuildCells t.lastTail t.cells (ys.map some) = none → ys = t.elems) ∧
    ∀ u, rebuildCells t.lastTail t.cells (ys.map some) = some u → u.elems = ys ∧ u.isList := by
  induction t using spine_induction generalizing ys with
  | cons t h tl hshape ih =>
      rw [elems_of_cons hshape] at hlen
      obtain ⟨y, ys, rfl⟩ := List.exists_cons_of_length_eq_add_one hlen
      obtain ⟨hnone, hsome⟩ := ih (Nat.succ.inj hlen)
      have hnode (u : Term) : (t.withShape (.cons y u)).elems = y :: u.elems :=
        elems_of_cons (shape_withShape t _)
      have hlist (u : Term) : (t.withShape (.cons y u)).isList := by
        rw [isList, shape_withShape]
      rw [cells_of_cons hshape, lastTail_of_cons hshape, elems_of_cons hshape, List.map_cons]
      cases hrest : rebuildCells tl.lastTail tl.cells (ys.map some) with
      | some rest =>
          simp only [rebuildCells, hrest, reduceCtorEq, Option.some.injEq, false_imp_iff, true_and]
          rintro u rfl
          rw [hnode, (hsome rest hrest).1]
          exact ⟨rfl, hlist rest⟩
      | none =>
          simp only [rebuildCells, hrest, start_cells]
          split
          · rename_i hsame
            rw [same_iff_eq.mp hsame, hnone hrest]
            exact ⟨fun _ => rfl, nofun⟩
          · simp only [reduceCtorEq, Option.some.injEq, false_imp_iff, true_and]
            rintro u rfl
            rw [hnode, hnone hrest]
            exact ⟨rfl, hlist tl⟩
  | other t hshape =>
      obtain ⟨hcells, -, helems⟩ := of_not_cons hshape
      rw [helems] at hlen
      rw [hcells, List.eq_nil_of_length_eq_zero hlen, helems]
      exact ⟨fun _ => rfl, nofun⟩

theorem rebuild_map_some {t : Term} (ht : t.isList) {ys : List Term}
    (hlen : ys.length = t.elems.length) :
    (rebuild t (ys.map some)).elems = ys ∧ (rebuild t (ys.map some)).isList := by
  obtain ⟨hnone, hsome⟩ := rebuildCells_map_some t hlen
  cases hcells : rebuildCells t.lastTail t.cells (ys.map some) with
  | none =>
      simp only [rebuild, hcells]
      exact ⟨(hnone hcells).symm, ht⟩
  | some u =>
      have hu : rebuild t (ys.map some) = u := by
        simp only [rebuild, hcells]
        cases ys <;> rfl
      rw [hu]
      exact hsome u hcells

section

variable {f : Term → Effect Term} {σ τ : State} {t u : Term}

theorem onChildren_cases (t : Term) (f : Term → Effect Term) (otherwise : Effect Term) :
    (t.isList ∧ onChildren t f otherwise = f t) ∨
    (∃ functor args, t.shape = .appl functor args ∧ args.isList ∧
      onChildren t f otherwise = do
        let new ← f args
        pure (if new.same args then t else t.withShape (.appl functor new))) ∨
    (t.children = [] ∧ onChildren t f otherwise = otherwise) := by
  cases hshape : t.shape with
  | nil | cons h tl =>
      refine .inl ⟨by simp only [isList, hshape], ?_⟩
      simp only [onChildren, hshape]
  | appl functor args =>
      cases hargs : args.isList with
      | true =>
          refine .inr (.inl ⟨functor, args, rfl, hargs, ?_⟩)
          simp only [onChildren, hshape, hargs, if_true]
      | false =>
          refine .inr (.inr ⟨?_, ?_⟩)
          · simp [children, hshape, hargs]
          · simp [onChildren, hshape, hargs]
  | _ =>
      refine .inr (.inr ⟨?_, ?_⟩)
      · simp only [children, hshape]
      · simp only [onChildren, hshape]

theorem mapCells_eq_ok {cs : List Cell} {new : List (Option Term)}
    (h : mapCells f cs σ = (.ok new, τ)) :
    ∃ ys : List Term, new = ys.map some ∧ ys.length = cs.length ∧
      ∀ y ∈ ys, ∃ v σ' τ', f v σ' = (.ok y, τ') := by
  induction cs generalizing σ τ new with
  | nil =>
      cases h
      exact ⟨[], rfl, rfl, nofun⟩
  | cons c cs ih =>
      obtain ⟨a, σ₁, ha, h⟩ := Effect.bind_eq_ok.mp h
      obtain ⟨as, σ₂, has, h⟩ := Effect.bind_eq_ok.mp h
      obtain ⟨y, σ₃, hy, hsome⟩ := Effect.bind_eq_ok.mp ha
      obtain ⟨ys, rfl, hlen, hys⟩ := ih has
      cases hsome
      cases h
      refine ⟨y :: ys, rfl, congrArg Nat.succ hlen, ?_⟩
      intro z hz
      cases hz with
      | head => exact ⟨_, _, _, hy⟩
      | tail _ hz => exact hys z hz

theorem mapCells_ne_failure (hf : ∀ v σ τ, f v σ ≠ (.failure, τ)) (cs : List Cell) :
    mapCells f cs σ ≠ (.failure, τ) := by
  induction cs generalizing σ τ with
  | nil => exact nofun
  | cons c cs ih =>
      intro h
      rcases Effect.bind_eq_failure.mp h with h | ⟨a, σ₁, -, h⟩
      · rcases Effect.bind_eq_failure.mp h with h | ⟨y, σ₂, -, h⟩
        · exact hf _ _ _ h
        · cases h
      · rcases Effect.bind_eq_failure.mp h with h | ⟨as, σ₂, -, h⟩
        · exact ih h
        · cases h

theorem transform_mapCells_eq_ok (h : transform t (mapCells f) σ = (.ok u, τ)) :
    u.isList ∧ ∀ y ∈ u.elems, ∃ v σ' τ', f v σ' = (.ok y, τ') := by
  simp only [transform] at h
  split at h
  · rename_i ht
    obtain ⟨new, σ₁, hnew, h⟩ := Effect.bind_eq_ok.mp h
    obtain ⟨ys, rfl, hlen, hys⟩ := mapCells_eq_ok hnew
    cases h
    rw [length_cells] at hlen
    obtain ⟨helems, hlist⟩ := rebuild_map_some ht hlen
    rw [helems]
    exact ⟨hlist, hys⟩
  · cases h

theorem transform_mapCells_ne_failure (hf : ∀ v σ τ, f v σ ≠ (.failure, τ)) :
    transform t (mapCells f) σ ≠ (.failure, τ) := by
  intro h
  simp only [transform] at h
  split at h
  · rcases Effect.bind_eq_failure.mp h with h | ⟨new, σ₁, -, h⟩
    · exact mapCells_ne_failure hf _ h
    · cases h
  · cases h

/-- Applying a computation to all immediate subterms gives a term whose immediate
subterms are its results. -/
theorem onChildren_eq_ok (h : onChildren t (transform · (mapCells f)) (pure t) σ = (.ok u, τ)) :
    ∀ y ∈ u.children, ∃ v σ' τ', f v σ' = (.ok y, τ') := by
  rcases onChildren_cases t (transform · (mapCells f)) (pure t) with
    ⟨-, heq⟩ | ⟨functor, args, hshape, hargs, heq⟩ | ⟨hnone, heq⟩ <;> rw [heq] at h
  · obtain ⟨hlist, helems⟩ := transform_mapCells_eq_ok h
    rw [children_of_isList hlist]
    exact helems
  · obtain ⟨new, σ₁, hnew, h⟩ := Effect.bind_eq_ok.mp h
    obtain ⟨hlist, helems⟩ := transform_mapCells_eq_ok hnew
    have hchildren : u.children = new.elems := by
      cases h
      split
      · rename_i hsame
        rw [same_iff_eq.mp hsame, children_of_appl hshape hargs]
      · exact children_of_appl (shape_withShape t _) hlist
    rw [hchildren]
    exact helems
  · cases h
    rw [hnone]
    exact nofun

theorem onChildren_ne_failure (hf : ∀ v σ τ, f v σ ≠ (.failure, τ)) :
    onChildren t (transform · (mapCells f)) (pure t) σ ≠ (.failure, τ) := by
  intro h
  rcases onChildren_cases t (transform · (mapCells f)) (pure t) with
    ⟨-, heq⟩ | ⟨functor, args, -, -, heq⟩ | ⟨-, heq⟩ <;> rw [heq] at h
  · exact transform_mapCells_ne_failure hf h
  · rcases Effect.bind_eq_failure.mp h with h | ⟨new, σ₁, -, h⟩
    · exact transform_mapCells_ne_failure hf h
    · cases h
  · cases h

end

end Spine

end StrategicRewriting
