import StrategicRewriting.Proofs.Pattern.Match

/-!
What matching adds to the bindings. Nothing that was there is changed, be the match successful
or not: variables without values get values, these are variables of the pattern, and terms are
captured after those that were captured before. Nothing is made for this. All new values and
captured terms are nodes of the matched term itself, but for the empty list that stands for
missing annotations.
-/
namespace StrategicRewriting

namespace Term

/-- The term is a node of another one: this one itself, or a node of a part of its shape or of
its annotations. -/
inductive NodeOf (u : Term) : Term → Prop
  | root : NodeOf u u
  | head {t h tl : Term} : t.shape = .cons h tl → NodeOf u h → NodeOf u t
  | tail {t h tl : Term} : t.shape = .cons h tl → NodeOf u tl → NodeOf u t
  | functor {t f as : Term} : t.shape = .appl f as → NodeOf u f → NodeOf u t
  | args {t f as : Term} : t.shape = .appl f as → NodeOf u as → NodeOf u t
  | constraint {t c : Term} {x : String} : t.shape = .var x c → NodeOf u c → NodeOf u t
  | annos {t as : Term} : t.annotations = some as → NodeOf u as → NodeOf u t

/-- The term is a node of another one, or the empty list in the place of the annotations of a
node that has none. -/
def FoundIn (u t : Term) : Prop :=
  NodeOf u t ∨ u = empty ∧ ∃ v, NodeOf v t ∧ v.annotations = none

variable {t u : Term}

theorem FoundIn.root (t : Term) : FoundIn t t :=
  .inl .root

theorem FoundIn.of_nodes {t' : Term} (h : FoundIn u t) (ht : ∀ v, NodeOf v t → NodeOf v t') :
    FoundIn u t' := by
  rcases h with hnode | ⟨rfl, v, hv, hnone⟩
  · exact .inl (ht u hnode)
  · exact .inr ⟨rfl, v, ht v hv, hnone⟩

theorem eq_empty_of_nodeOf (h : NodeOf u empty) : u = empty := by
  cases h with
  | root => rfl
  | head hshape | tail hshape | functor hshape | args hshape | constraint hshape => cases hshape
  | annos hannos => cases hannos

theorem FoundIn.of_annotations (h : FoundIn u (t.annotations.getD empty)) : FoundIn u t := by
  cases hannos : t.annotations with
  | some as =>
      rw [hannos] at h
      exact h.of_nodes fun v => .annos hannos
  | none =>
      rw [hannos] at h
      have hempty : u = empty := h.elim eq_empty_of_nodeOf And.left
      exact .inr ⟨hempty, t, .root, hannos⟩

end Term

namespace Bindings

/-- The second bindings come from the first ones by binding variables of a pattern that have no
values yet, and by capturing, all with terms that are found in the term. -/
structure Grows (p t : Term) (b b' : Bindings) : Prop where
  kept : b.Extends b'
  bound : ∀ x v, b.get? x = none → b'.get? x = some v → p.HasVar x ∧ v.FoundIn t
  captured : ∃ us, b'.captures = b.captures ++ us ∧ ∀ u ∈ us, u.FoundIn t

namespace Grows

variable {p q t t' : Term} {b b₁ b' : Bindings} {x : String}

theorem refl (b : Bindings) : Grows p t b b := by
  refine ⟨.refl b, fun x v hx hv => ?_, [], (List.append_nil _).symm, nofun⟩
  rw [hx] at hv
  cases hv

theorem trans (h : Grows p t b b₁) (h' : Grows p t b₁ b') : Grows p t b b' := by
  refine ⟨h.kept.trans h'.kept, fun x v hx hv => ?_, ?_⟩
  · cases hx₁ : b₁.get? x with
    | none => exact h'.bound x v hx₁ hv
    | some w =>
        -- a value that was found on the way is the last one
        have hw := h'.kept x w hx₁
        rw [hv] at hw
        cases hw
        exact h.bound x v hx hx₁
  · obtain ⟨us, hus, hfound⟩ := h.captured
    obtain ⟨us', hus', hfound'⟩ := h'.captured
    refine ⟨us ++ us', by rw [hus', hus, List.append_assoc], fun u hu => ?_⟩
    exact (List.mem_append.mp hu).elim (hfound u) (hfound' u)

/-- The pattern and the term may be parts of larger ones. -/
theorem mono (h : Grows p t b b') (hp : ∀ x, p.HasVar x → q.HasVar x)
    (ht : ∀ u : Term, u.FoundIn t → u.FoundIn t') : Grows q t' b b' := by
  refine ⟨h.kept, fun x v hx hv => ?_, ?_⟩
  · exact (h.bound x v hx hv).imp (hp x) (ht v)
  · obtain ⟨us, hus, hfound⟩ := h.captured
    exact ⟨us, hus, fun u hu => ht u (hfound u hu)⟩

/-- A variable is bound that had no value at first, though it may have got one since. -/
theorem bind (h : Grows p t b b') (hx : b.get? x = none) (hp : p.HasVar x) :
    Grows p t b (b'.bind x t) := by
  refine ⟨h.kept.bind hx t, fun y v hy hv => ?_, h.captured⟩
  rw [get?_bind] at hv
  split at hv
  · rename_i heq
    cases hv
    exact ⟨heq ▸ hp, .root t⟩
  · exact h.bound y v hy hv

theorem capture (b : Bindings) : Grows p t b (b.capture t) := by
  obtain ⟨hkept, hbound, -⟩ := refl (p := p) (t := t) b
  exact ⟨hkept, hbound, [t], rfl, List.forall_mem_singleton.mpr (.root t)⟩

end Grows

end Bindings

namespace Term

variable {p : Term} {b b' : Bindings}

theorem Collects.grows (h : Collects p t b b') : Bindings.Grows p t b b' := by
  induction h with
  | stopped p t b => exact .refl b
  | wildcard o t b => exact .capture b
  | plain hx _ => exact (Bindings.Grows.refl _).bind hx (.inl rfl)
  | @constrained o x c t b b' hx _ _ ih =>
      have hconstraint : Bindings.Grows (.var o x c) t b b' :=
        ih.mono (fun _ => .inr) fun _ hu => hu
      exact hconstraint.bind hx (.inl rfl)
  | mismatched _ _ ih => exact ih.mono (fun _ => .inr) fun _ hu => hu
  | @cons o p q t l r b b₁ b' hshape _ _ ihp ihq =>
      have hhead : Bindings.Grows (.cons o p q) t b b₁ :=
        ihp.mono (fun _ => .inl) fun _ hu => hu.of_nodes fun _ => .head hshape
      have htail : Bindings.Grows (.cons o p q) t b₁ b' :=
        ihq.mono (fun _ => .inr) fun _ hu => hu.of_nodes fun _ => .tail hshape
      exact hhead.trans htail
  | @appl o p q t l r b b₁ b' hshape _ _ ihp ihq =>
      have hfunctor : Bindings.Grows (.appl o p q) t b b₁ :=
        ihp.mono (fun _ => .inl) fun _ hu => hu.of_nodes fun _ => .functor hshape
      have hargs : Bindings.Grows (.appl o p q) t b₁ b' :=
        ihq.mono (fun _ => .inr) fun _ hu => hu.of_nodes fun _ => .args hshape
      exact hfunctor.trans hargs
  | @annotated o p q t b b₁ b' _ _ ihp ihq =>
      have hbody : Bindings.Grows (.annotated o p q) t b b₁ :=
        ihp.mono (fun _ => .inl) fun _ hu => hu
      have hannos : Bindings.Grows (.annotated o p q) t b₁ b' :=
        ihq.mono (fun _ => .inr) fun _ => FoundIn.of_annotations
      exact hbody.trans hannos

/-- Matching only adds to the bindings, be it successful or not: values are kept, variables of
the pattern get values, terms are captured after the others, and all of them are nodes of the
matched term or empty lists in the place of missing annotations. -/
theorem matchTerm_grows {ok : Bool} (h : p.matchTerm t b = (ok, b')) :
    (∀ x v, b.get? x = some v → b'.get? x = some v) ∧
    (∀ x v, b.get? x = none → b'.get? x = some v → x ∈ p.vars ∧ FoundIn v t) ∧
    ∃ us, b'.captures = b.captures ++ us ∧ ∀ u ∈ us, FoundIn u t := by
  have hgrows := (collects_matchTerm p t b).grows
  rw [h] at hgrows
  refine ⟨hgrows.kept, fun x v hx hv => ?_, hgrows.captured⟩
  exact (hgrows.bound x v hx hv).imp_left mem_vars_iff.mpr

theorem matchTerm_grows_mismatched :
    ∃ (p t u v w : Term) (b b' : Bindings), p.matchTerm t b = (false, b') ∧
      b.get? "z" = some w ∧ b'.get? "z" = some w ∧
      b.get? "x" = none ∧ b'.get? "x" = some v ∧ "x" ∈ p.vars ∧ FoundIn v t ∧
      b.captures = [w] ∧ b'.captures = [w, u] ∧ FoundIn u t := by
  -- `[x=[x,_],z,5]` and `[[1,2],3,4]`, where `z` is 3 and 3 has been captured
  let int (n : Nat) (i : Int64) : Term := .int (.serial n) i
  let var (x : String) : Term := .var .derived x (.wildcard .derived)
  let list (ts : List Term) : Term := .listOnto .empty ts
  let p : Term :=
    list [.var .derived "x" (list [var "x", .wildcard .derived]), var "z", int 5 5]
  let v : Term := list [int 1 1, int 2 2]
  let t : Term := list [v, int 3 3, int 4 4]
  let b : Bindings := (Bindings.empty.bind "z" (int 3 3)).capture (int 3 3)
  have h : p.matchTerm t b = (false, (p.matchTerm t b).2) := Prod.ext (by decide +kernel) rfl
  have hcaptures : (p.matchTerm t b).2.captures = [int 3 3, int 2 2] := by decide +kernel
  have hx : (p.matchTerm t b).2.get? "x" = some v := by decide +kernel
  obtain ⟨hkept, hbound, us, hus, hfound⟩ := matchTerm_grows h
  have happend : [int 3 3] ++ [int 2 2] = [int 3 3] ++ us := hcaptures.symm.trans hus
  obtain rfl := List.append_cancel_left happend
  obtain ⟨hvar, hv⟩ := hbound "x" v rfl hx
  exact ⟨p, t, int 2 2, v, int 3 3, b, _, h, rfl, hkept "z" _ rfl, rfl, hx, hvar, hv, rfl,
    hcaptures, hfound _ (List.mem_singleton_self _)⟩

end Term

end StrategicRewriting
