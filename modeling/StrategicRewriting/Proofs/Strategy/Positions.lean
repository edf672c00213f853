import StrategicRewriting.Proofs.Strategy.Traversal

/-!
Positions of a term: the root, and the positions of its immediate subterms, each behind the index
of the subterm. A subterm is replaced by rebuilding the terms above it. They keep their
annotations, functors, and list nodes, and all other subterms are the same as before.
-/
namespace StrategicRewriting

namespace Term

/-- The subterm at a position. -/
def at? (t : Term) : List Nat → Option Term
  | [] => some t
  | i :: q => t.children[i]?.bind (·.at? q)

/-- The term with another subterm at a position. -/
def replaceAt (t : Term) : List Nat → Term → Term
  | [], u => u
  | i :: q, u =>
    match t.children[i]? with
    | some c => Spine.withChildren t (t.children.set i (c.replaceAt q u))
    | none => t

/-- The annotations of the nodes of a list, and what follows the last one. -/
def backbone (t : Term) : List (Option Term) × Term :=
  (t.cells.map (·.node.annotations), t.lastTail)

/-- The terms have immediate subterms, and what is around these is the same. -/
inductive SameOutline : Term → Term → Prop
  | list {t u : Term} : t.isList → u.isList → u.annotations = t.annotations →
      u.backbone = t.backbone → SameOutline t u
  | appl {t u f as bs : Term} : t.shape = .appl f as → u.shape = .appl f bs → as.isList →
      bs.isList → u.annotations = t.annotations → bs.annotations = as.annotations →
      bs.backbone = as.backbone → SameOutline t u

/-- In the second term, another term stands at the position, and the rest is as in the first
one. -/
structure ReplacedAt (q : List Nat) (u t v : Term) : Prop where
  there : v.at? q = some u
  apart : ∀ p, ¬p <+: q → ¬q <+: p → v.at? p = t.at? p
  above : ∀ p, p <+: q → p ≠ q → ∃ n n', t.at? p = some n ∧ v.at? p = some n' ∧ SameOutline n n'

theorem at?_cons {t c : Term} {i : Nat} (hc : t.children[i]? = some c) (q : List Nat) :
    t.at? (i :: q) = c.at? q := by
  rw [at?, hc, Option.bind_some]

theorem at?_cons_eq_some {t c : Term} {i : Nat} {q : List Nat} :
    t.at? (i :: q) = some c ↔ ∃ d, t.children[i]? = some d ∧ d.at? q = some c :=
  Option.bind_eq_some_iff

theorem reaches_iff {t c : Term} : t.Reaches c ↔ ∃ q, t.at? q = some c := by
  constructor
  · intro h
    induction h with
    | refl t => exact ⟨[], rfl⟩
    | child hu _ ih =>
        obtain ⟨q, hq⟩ := ih
        obtain ⟨i, hi⟩ := List.getElem?_of_mem hu
        exact ⟨i :: q, (at?_cons hi q).trans hq⟩
  · rintro ⟨q, hq⟩
    induction q generalizing t with
    | nil =>
        cases hq
        exact .refl _
    | cons i q ih =>
        obtain ⟨d, hd, hat⟩ := at?_cons_eq_some.mp hq
        exact .child (List.mem_of_getElem? hd) (ih hat)

theorem replaceAt_cons {t c : Term} {i : Nat} (hc : t.children[i]? = some c) (q : List Nat)
    (u : Term) :
    t.replaceAt (i :: q) u = Spine.withChildren t (t.children.set i (c.replaceAt q u)) := by
  simp only [replaceAt, hc]

end Term

namespace Spine

open Term

/-- A list with other elements has the same annotations and the same end. -/
theorem backbone_replaced (t : Term) {us : List Term} (hlen : us.length = t.elems.length) :
    (replaced t (us.map some)).backbone = t.backbone := by
  induction t using spine_induction generalizing us with
  | cons t h tl hshape ih =>
      rw [elems_of_cons hshape] at hlen
      obtain ⟨u, us, rfl⟩ := List.exists_cons_of_length_eq_add_one hlen
      have hrest := ih (Nat.succ.inj hlen)
      rw [backbone, backbone, Prod.mk.injEq] at hrest
      rw [List.map_cons]
      rcases replaced_some hshape u (us.map some) with ⟨heq, -, -⟩ | heq
      · rw [heq]
      · have hnode := shape_withShape t (.cons u (replaced tl (us.map some)))
        rw [heq, backbone, backbone, cells_of_cons hnode, cells_of_cons hshape,
          lastTail_of_cons hnode, lastTail_of_cons hshape, List.map_cons, List.map_cons,
          annotations_withShape, hrest.1, hrest.2]
  | other t hshape => rw [replaced_of_not_cons hshape]

theorem withChildren_of_isList {t : Term} (ht : t.isList) (us : List Term) :
    withChildren t us = rebuild t (us.map some) := by
  rw [isList] at ht
  rw [withChildren]
  split at ht <;> simp_all

theorem withChildren_of_appl {t functor args : Term} (hshape : t.shape = .appl functor args)
    (hargs : args.isList) (us : List Term) :
    withChildren t us = if (rebuild args (us.map some)).same args then t
      else t.withShape (.appl functor (rebuild args (us.map some))) := by
  simp only [withChildren, hshape, hargs, if_true]

theorem withChildren_cases (t : Term) (us : List Term) :
    (t.isList ∧ withChildren t us = rebuild t (us.map some)) ∨
    (∃ functor args, t.shape = .appl functor args ∧ args.isList ∧
      (withChildren t us).shape = .appl functor (rebuild args (us.map some)) ∧
      (withChildren t us).annotations = t.annotations) ∨
    (t.children = [] ∧ withChildren t us = t) := by
  cases hshape : t.shape with
  | nil | cons h tl =>
      have ht : t.isList := by rw [isList, hshape]
      exact .inl ⟨ht, withChildren_of_isList ht us⟩
  | appl functor args =>
      by_cases hargs : args.isList
      · refine .inr (.inl ⟨functor, args, rfl, hargs, ?_, ?_⟩)
        · rw [shape_withChildren_appl hshape, if_pos hargs]
        · rw [withChildren_of_appl hshape hargs]
          split
          · rfl
          · exact annotations_withShape t _
      · refine .inr (.inr ⟨?_, ?_⟩)
        · simp [children, hshape, hargs]
        · simp [withChildren, hshape, hargs]
  | _ => exact .inr (.inr ⟨by simp only [children, hshape], by simp only [withChildren, hshape]⟩)

section

variable {t : Term} {us : List Term} (hlen : us.length = t.children.length)
include hlen

theorem children_withChildren : (withChildren t us).children = us := by
  rcases withChildren_cases t us with
    ⟨ht, heq⟩ | ⟨functor, args, hshape, hargs, hnew, -⟩ | ⟨hnone, heq⟩
  · rw [children_of_isList ht] at hlen
    obtain ⟨helems, hlist⟩ := rebuild_map_some ht hlen
    rw [heq, children_of_isList hlist, helems]
  · rw [children_of_appl hshape hargs] at hlen
    obtain ⟨helems, hlist⟩ := rebuild_map_some hargs hlen
    rw [children_of_appl hnew hlist, helems]
  · rw [hnone] at hlen
    rw [heq, hnone, List.eq_nil_of_length_eq_zero hlen]

theorem sameOutline_withChildren (hne : t.children ≠ []) :
    SameOutline t (withChildren t us) := by
  rcases withChildren_cases t us with
    ⟨ht, heq⟩ | ⟨functor, args, hshape, hargs, hnew, hannos⟩ | ⟨hnone, -⟩
  · rw [children_of_isList ht] at hlen
    have hlist := (rebuild_map_some ht hlen).2
    rw [rebuild_map_some_eq] at heq hlist
    rw [heq]
    exact .list ht hlist (annotations_replaced t us) (backbone_replaced t hlen)
  · rw [children_of_appl hshape hargs] at hlen
    have hlist := (rebuild_map_some hargs hlen).2
    rw [rebuild_map_some_eq] at hnew hlist
    exact .appl hshape hnew hargs hlist hannos (annotations_replaced args us)
      (backbone_replaced args hlen)
  · exact absurd hnone hne

end

end Spine

namespace Term

variable {t c u : Term} {i : Nat} {q : List Nat}

theorem children_replaceAt (hc : t.children[i]? = some c) (q : List Nat) (u : Term) :
    (t.replaceAt (i :: q) u).children = t.children.set i (c.replaceAt q u) := by
  rw [replaceAt_cons hc, Spine.children_withChildren List.length_set]

theorem getElem?_children_replaceAt (hc : t.children[i]? = some c) (q : List Nat) (u : Term) :
    (t.replaceAt (i :: q) u).children[i]? = some (c.replaceAt q u) := by
  rw [children_replaceAt hc, List.getElem?_set_self', hc]
  rfl

theorem at?_replaceAt (h : t.at? q = some c) (u : Term) : (t.replaceAt q u).at? q = some u := by
  induction q generalizing t with
  | nil => rfl
  | cons i q ih =>
      obtain ⟨d, hd, hq⟩ := at?_cons_eq_some.mp h
      rw [at?_cons (getElem?_children_replaceAt hd q u)]
      exact ih hq

theorem at?_replaceAt_apart (h : t.at? q = some c) (u : Term) {p : List Nat} (hp : ¬p <+: q)
    (hq : ¬q <+: p) : (t.replaceAt q u).at? p = t.at? p := by
  induction q generalizing t p with
  | nil => exact absurd List.nil_prefix hq
  | cons i q ih =>
      cases p with
      | nil => exact absurd List.nil_prefix hp
      | cons j p =>
          obtain ⟨d, hd, hat⟩ := at?_cons_eq_some.mp h
          by_cases hij : j = i
          · subst hij
            rw [List.prefix_cons_inj] at hp hq
            rw [at?_cons (getElem?_children_replaceAt hd q u), at?_cons hd]
            exact ih hat hp hq
          · rw [at?, at?, children_replaceAt hd, List.getElem?_set_ne (Ne.symm hij)]

theorem sameOutline_replaceAt (h : t.at? q = some c) (u : Term) {p : List Nat} (hp : p <+: q)
    (hne : p ≠ q) :
    ∃ n n', t.at? p = some n ∧ (t.replaceAt q u).at? p = some n' ∧ SameOutline n n' := by
  induction q generalizing t p with
  | nil => exact absurd (List.prefix_nil.mp hp) hne
  | cons i q ih =>
      obtain ⟨d, hd, hat⟩ := at?_cons_eq_some.mp h
      cases p with
      | nil =>
          refine ⟨t, _, rfl, rfl, ?_⟩
          rw [replaceAt_cons hd]
          refine Spine.sameOutline_withChildren List.length_set fun hnil => ?_
          rw [hnil] at hd
          cases hd
      | cons j p =>
          obtain ⟨rfl, hpq⟩ := List.cons_prefix_cons.mp hp
          rw [at?_cons hd, at?_cons (getElem?_children_replaceAt hd q u)]
          exact ih hat hpq fun heq => hne (heq ▸ rfl)

theorem replacedAt_replaceAt (h : t.at? q = some c) (u : Term) :
    ReplacedAt q u t (t.replaceAt q u) where
  there := at?_replaceAt h u
  apart _ := at?_replaceAt_apart h u
  above _ := sameOutline_replaceAt h u

end Term

end StrategicRewriting
