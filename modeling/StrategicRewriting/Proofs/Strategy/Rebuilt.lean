import Mathlib.Data.List.ReduceOption
import StrategicRewriting.Proofs.Strategy.Composition

/-!
What a list shares with the list that it was rebuilt from. The nodes behind the last element that
is new or left out are used again. There is one exception: if the first element of a list with
annotations is left out, they go over to the first node that is left, and this node is made anew.
-/
namespace StrategicRewriting

namespace Term

variable {t u h tl : Term}

/-- The nodes of a list, from the first one to what follows the last one. -/
def nodes (t : Term) : List Term :=
  t.cells.map (·.node) ++ [t.lastTail]

theorem nodes_of_cons (hshape : t.shape = .cons h tl) : t.nodes = t :: tl.nodes := by
  rw [nodes, nodes, cells_of_cons hshape, lastTail_of_cons hshape]
  rfl

theorem nodes_of_not_cons (hshape : ∀ h tl, t.shape ≠ .cons h tl) : t.nodes = [t] := by
  obtain ⟨hcells, htail, -⟩ := of_not_cons hshape
  rw [nodes, hcells, htail]
  rfl

theorem nodes_zero (t : Term) : t.nodes[0]? = some t := by
  by_cases hcons : ∃ h tl, t.shape = .cons h tl
  · obtain ⟨h, tl, hshape⟩ := hcons
    rw [nodes_of_cons hshape]
    rfl
  · rw [nodes_of_not_cons fun h tl heq => hcons ⟨h, tl, heq⟩]
    rfl

theorem length_nodes (t : Term) : t.nodes.length = t.elems.length + 1 := by
  rw [nodes, List.length_append, List.length_map, length_cells]
  rfl

/-- Elements and end of a list do not depend on the annotations of its first node. -/
theorem elems_of_shape_eq (hshape : u.shape = t.shape) :
    u.elems = t.elems ∧ u.lastTail.shape = t.lastTail.shape := by
  by_cases hcons : ∃ h tl, t.shape = .cons h tl
  · obtain ⟨h, tl, ht⟩ := hcons
    have hu : u.shape = .cons h tl := hshape.trans ht
    rw [elems_of_cons hu, elems_of_cons ht, lastTail_of_cons hu, lastTail_of_cons ht]
    exact ⟨rfl, rfl⟩
  · have ht : ∀ h tl, t.shape ≠ .cons h tl := fun h tl heq => hcons ⟨h, tl, heq⟩
    obtain ⟨-, htail, helems⟩ := of_not_cons ht
    obtain ⟨-, htail', helems'⟩ := of_not_cons (t := u) (by rwa [hshape])
    rw [helems, helems', htail, htail']
    exact ⟨rfl, hshape⟩

/-- Behind the first node, a list has the same nodes whatever this one is annotated with. -/
theorem tail_nodes_of_shape_eq (hshape : u.shape = t.shape) : u.nodes.tail = t.nodes.tail := by
  by_cases hcons : ∃ h tl, t.shape = .cons h tl
  · obtain ⟨h, tl, ht⟩ := hcons
    rw [nodes_of_cons ht, nodes_of_cons (hshape.trans ht), List.tail_cons, List.tail_cons]
  · have ht : ∀ h tl, t.shape ≠ .cons h tl := fun h tl heq => hcons ⟨h, tl, heq⟩
    rw [nodes_of_not_cons ht, nodes_of_not_cons (t := u) (by rwa [hshape])]
    rfl

theorem lastTail_of_elems_eq_nil (h : t.elems = []) : t.lastTail = t := by
  have hcells : t.cells = [] := List.eq_nil_of_length_eq_zero (by rw [length_cells, h]; rfl)
  have hstart := start_cells t
  rwa [hcells] at hstart

end Term

namespace Spine

open Term

variable {t h tl : Term} {new : List (Option Term)}

theorem eq_map_some_of_reduceOption {α : Type} {new : List (Option α)} {es : List α}
    (h : new.reduceOption = es) (hlen : new.length = es.length) : new = es.map some := by
  induction new generalizing es with
  | nil =>
      cases h
      rfl
  | cons n new ih =>
      cases n with
      | none =>
          have hle := List.reduceOption_length_le new
          rw [List.reduceOption_cons_of_none] at h
          rw [h, ← hlen] at hle
          exact absurd hle (Nat.not_succ_le_self _)
      | some y =>
          rw [List.reduceOption_cons_of_some] at h
          subst h
          rw [List.map_cons, ← ih rfl (Nat.succ.inj hlen)]

theorem elems_replaced (hlen : new.length = t.elems.length) :
    (replaced t new).elems = new.reduceOption := by
  induction t using spine_induction generalizing new with
  | cons t h tl hshape ih =>
      rw [elems_of_cons hshape] at hlen
      obtain ⟨n, new, rfl⟩ := List.exists_cons_of_length_eq_add_one hlen
      have hrest := ih (Nat.succ.inj hlen)
      cases n with
      | none => rw [replaced_none hshape, hrest, List.reduceOption_cons_of_none]
      | some y =>
          rw [elems_of_cons (shape_replaced_some hshape y new), hrest,
            List.reduceOption_cons_of_some]
  | other t hshape =>
      have helems := (of_not_cons hshape).2.2
      rw [helems] at hlen
      rw [replaced_of_not_cons hshape, helems, List.eq_nil_of_length_eq_zero hlen]
      rfl

theorem lastTail_replaced (hlen : new.length = t.elems.length) :
    (replaced t new).lastTail = t.lastTail := by
  induction t using spine_induction generalizing new with
  | cons t h tl hshape ih =>
      rw [elems_of_cons hshape] at hlen
      obtain ⟨n, new, rfl⟩ := List.exists_cons_of_length_eq_add_one hlen
      have hrest := ih (Nat.succ.inj hlen)
      rw [lastTail_of_cons hshape]
      cases n with
      | none => rw [replaced_none hshape, hrest]
      | some y => rw [lastTail_of_cons (shape_replaced_some hshape y new), hrest]
  | other t hshape => rw [replaced_of_not_cons hshape]

theorem rebuild_self (t : Term) : rebuild t (t.elems.map some) = t := by
  refine rebuild_unchanged ?_
  rw [← map_head_cells, List.map_map]
  exact renewed_heads (R := Eq) (fun _ => rfl) t.cells

/-- The nodes from some place on are used again if no element changes there. -/
theorem nodes_replaced (hlen : new.length = t.elems.length) {k : Nat}
    (hk : new.drop k = (t.elems.drop k).map some) :
    t.nodes.drop k <:+ (replaced t new).nodes := by
  induction t using spine_induction generalizing new k with
  | cons t h tl hshape ih =>
      cases k with
      | zero =>
          rw [List.drop_zero, List.drop_zero] at hk
          rw [hk, ← rebuild_map_some_eq, rebuild_self]
          exact List.suffix_refl _
      | succ k =>
          rw [elems_of_cons hshape] at hlen hk
          obtain ⟨n, new, rfl⟩ := List.exists_cons_of_length_eq_add_one hlen
          have hrest := ih (Nat.succ.inj hlen) hk
          rw [nodes_of_cons hshape, List.drop_succ_cons]
          cases n with
          | none => rwa [replaced_none hshape]
          | some y =>
              rw [nodes_of_cons (shape_replaced_some hshape y new)]
              exact hrest.trans (List.suffix_cons _ _)
  | other t hshape =>
      rw [replaced_of_not_cons hshape]
      exact List.drop_suffix _ _

/-- So they are behind the first node if an element before them is kept. -/
theorem nodes_replaced_of_kept (hlen : new.length = t.elems.length) {k : Nat}
    (hk : new.drop k = (t.elems.drop k).map some) {y : Term} (hy : some y ∈ new.take k) :
    t.nodes.drop k <:+ (replaced t new).nodes.tail := by
  induction t using spine_induction generalizing new k with
  | cons t h tl hshape ih =>
      cases k with
      | zero => cases hy
      | succ k =>
          rw [elems_of_cons hshape] at hlen hk
          obtain ⟨n, new, rfl⟩ := List.exists_cons_of_length_eq_add_one hlen
          rw [nodes_of_cons hshape, List.drop_succ_cons]
          cases n with
          | none =>
              rw [replaced_none hshape]
              exact ih (Nat.succ.inj hlen) hk ((List.mem_cons.mp hy).resolve_left (by simp))
          | some z =>
              rw [nodes_of_cons (shape_replaced_some hshape z new), List.tail_cons]
              exact nodes_replaced (Nat.succ.inj hlen) hk
  | other t hshape =>
      rw [(of_not_cons hshape).2.2] at hlen
      rw [List.eq_nil_of_length_eq_zero hlen, List.take_nil] at hy
      cases hy

/-- If all elements before some place are left out, then the node there begins the list. -/
theorem replaced_of_dropped (hlen : new.length = t.elems.length) {k : Nat}
    (hk : new.drop k = (t.elems.drop k).map some) (hnone : ∀ y, some y ∉ new.take k) {n : Term}
    (hn : t.nodes[k]? = some n) : replaced t new = n := by
  induction t using spine_induction generalizing new k with
  | cons t h tl hshape ih =>
      rw [nodes_of_cons hshape] at hn
      cases k with
      | zero =>
          rw [List.drop_zero, List.drop_zero] at hk
          cases hn
          rw [hk, ← rebuild_map_some_eq, rebuild_self]
      | succ k =>
          rw [elems_of_cons hshape] at hlen hk
          obtain ⟨m, new, rfl⟩ := List.exists_cons_of_length_eq_add_one hlen
          rw [List.take_succ_cons] at hnone
          cases m with
          | none =>
              rw [replaced_none hshape]
              refine ih (Nat.succ.inj hlen) hk (fun y hy => hnone y (.tail _ hy)) hn
          | some y => exact absurd (.head _) (hnone y)
  | other t hshape =>
      rw [nodes_of_not_cons hshape] at hn
      rw [replaced_of_not_cons hshape]
      cases k with
      | zero => cases hn; rfl
      | succ k => cases hn

theorem rebuild_of_annotations_none (ht : t.annotations = none) (new : List (Option Term)) :
    rebuild t new = replaced t new := by
  rcases rebuild_cases t new with heq | ⟨as, has, -⟩
  · exact heq
  · rw [ht] at has
    cases has

theorem rebuild_of_kept (t : Term) (hfirst : ∀ rest, new ≠ none :: rest) :
    rebuild t new = replaced t new := by
  rw [rebuild, replaced]
  cases rebuildCells t.lastTail t.cells new with
  | none => rfl
  | some u =>
      dsimp only
      split
      · exact absurd rfl (hfirst _)
      · rfl

/-- Annotations go over to what is left behind the first element. -/
theorem rebuild_none (hshape : t.shape = .cons h tl) {as : Term} (has : t.annotations = some as)
    (new : List (Option Term)) :
    rebuild t (none :: new) = make (replaced tl new).shape (some as) := by
  rw [← replaced_none hshape, rebuild, replaced, cells_of_cons hshape, has]
  cases hrest : rebuildCells t.lastTail tl.cells new <;> simp only [rebuildCells, hrest] <;> rfl

theorem annotations_replaced_eq (hlen : new.length = t.elems.length) {n : Term}
    (hn : t.nodes[(new.takeWhile Option.isNone).length]? = some n) :
    (replaced t new).annotations = n.annotations := by
  induction t using spine_induction generalizing new with
  | cons t h tl hshape ih =>
      rw [elems_of_cons hshape] at hlen
      rw [nodes_of_cons hshape] at hn
      obtain ⟨m, new, rfl⟩ := List.exists_cons_of_length_eq_add_one hlen
      cases m with
      | none =>
          rw [replaced_none hshape]
          exact ih (Nat.succ.inj hlen) hn
      | some y =>
          cases hn
          rcases replaced_some hshape y new with ⟨heq, -, -⟩ | heq
          · rw [heq]
          · rw [heq, annotations_withShape]
  | other t hshape =>
      rw [(of_not_cons hshape).2.2] at hlen
      rw [List.eq_nil_of_length_eq_zero hlen, nodes_of_not_cons hshape] at hn
      cases hn
      rw [replaced_of_not_cons hshape]

/-- Without annotations of its own, a list has those of the first node that is left. -/
theorem annotations_rebuild (hlen : new.length = t.elems.length) {n : Term}
    (hn : t.nodes[(new.takeWhile Option.isNone).length]? = some n) :
    (rebuild t new).annotations = t.annotations.or n.annotations := by
  by_cases hfirst : ∃ rest, new = none :: rest
  · obtain ⟨rest, rfl⟩ := hfirst
    cases has : t.annotations with
    | none => rw [rebuild_of_annotations_none has, annotations_replaced_eq hlen hn, Option.none_or]
    | some as =>
        obtain ⟨h, tl, hshape⟩ : ∃ h tl, t.shape = .cons h tl := by
          by_contra hcons
          rw [(of_not_cons fun h tl heq => hcons ⟨h, tl, heq⟩).2.2] at hlen
          cases hlen
        rw [rebuild_none hshape has, annotations_make, Option.some_or]
  · have hkept : ∀ rest, new ≠ none :: rest := fun rest heq => hfirst ⟨rest, heq⟩
    obtain rfl : t = n := by
      cases new with
      | nil => exact Option.some.inj ((nodes_zero t).symm.trans hn)
      | cons m new =>
          cases m with
          | none => exact absurd rfl (hkept new)
          | some y => exact Option.some.inj ((nodes_zero t).symm.trans hn)
    rw [rebuild_of_kept t hkept, annotations_replaced_eq hlen hn, Option.or_self]

/-- The second list has the given elements, without those that are left out, in the places of the
elements of the first one. From some place on, where no element is new or left out, it has the
nodes of the first one. Only if all elements before this place are left out, and the first list
has annotations, then these go over to what is there, so that the first node is a new one. -/
structure Rebuilt (t : Term) (new : List (Option Term)) (u : Term) : Prop where
  elems : u.elems = new.reduceOption
  ending : u.lastTail.shape = t.lastTail.shape
  alone : new.reduceOption = [] → u.shape = t.lastTail.shape
  same_iff : u.same t ↔ new = t.elems.map some
  reused : ∀ k, new.drop k = (t.elems.drop k).map some →
    t.annotations = none ∨ new.take k = [] ∨ (∃ y, some y ∈ new.take k) →
    t.nodes.drop k <:+ u.nodes
  copied : ∀ k n, new.drop k = (t.elems.drop k).map some → (∀ y, some y ∉ new.take k) →
    t.nodes[k]? = some n → u.shape = n.shape
  annotations : ∀ n, t.nodes[(new.takeWhile Option.isNone).length]? = some n →
    u.annotations = t.annotations.or n.annotations

theorem rebuilt_rebuild (hlen : new.length = t.elems.length) : Rebuilt t new (rebuild t new) := by
  obtain ⟨helems, hend⟩ := elems_of_shape_eq (shape_rebuild t new)
  rw [elems_replaced hlen] at helems
  rw [lastTail_replaced hlen] at hend
  have hself (h : new = t.elems.map some) : rebuild t new = t := by rw [h, rebuild_self]
  refine ⟨helems, hend, fun hnil => ?_, ?_, fun k hk hkept => ?_, fun k n hk hnone hn => ?_,
    fun n hn => annotations_rebuild hlen hn⟩
  · rw [← hend, lastTail_of_elems_eq_nil (helems.trans hnil)]
  · rw [same_iff_eq]
    refine ⟨fun heq => ?_, hself⟩
    rw [heq] at helems
    exact eq_map_some_of_reduceOption helems.symm hlen
  · rcases hkept with hannos | htake | ⟨y, hy⟩
    · rw [rebuild_of_annotations_none hannos]
      exact nodes_replaced hlen hk
    · have hnew : new = t.elems.map some := by
        rw [← List.take_append_drop k new, htake, hk, List.nil_append]
        rcases List.take_eq_nil_iff.mp htake with rfl | rfl
        · rfl
        · rw [List.eq_nil_of_length_eq_zero hlen.symm, List.drop_nil]
      rw [hself hnew]
      exact List.drop_suffix k _
    · have hrest := nodes_replaced_of_kept hlen hk hy
      rw [← tail_nodes_of_shape_eq (shape_rebuild t new)] at hrest
      exact hrest.trans (List.tail_suffix _)
  · rw [shape_rebuild, replaced_of_dropped hlen hk hnone hn]

end Spine

end StrategicRewriting
