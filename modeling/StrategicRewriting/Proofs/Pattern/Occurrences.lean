import Mathlib.Data.List.Basic
import Mathlib.Data.List.Induction
import StrategicRewriting.Proofs.Pattern.Growth

/-!
What occurs in a term. All its nodes are visited in one order: first the node itself, then the
parts of its shape from left to right, then its annotations. A term is ground exactly if none of
them is a wildcard or a variable, and its variables are listed in the order in which they are
met first. Ground parts are passed over on the way without leaving a variable out.
-/
namespace StrategicRewriting

/-- A name is added after those that are known, unless it is one of them. -/
def addName (seen : List String) (x : String) : List String :=
  if x ∈ seen then seen else seen ++ [x]

section Names

variable {names seen : List String} {x : String}

theorem mem_addName {y : String} : x ∈ addName seen y ↔ x ∈ seen ∨ x = y := by
  rw [addName]
  split
  · rename_i hy
    exact (or_iff_left_of_imp fun heq => heq ▸ hy).symm
  · rw [List.mem_append, List.mem_singleton]

theorem mem_foldl_addName : x ∈ names.foldl addName seen ↔ x ∈ seen ∨ x ∈ names := by
  induction names generalizing seen with
  | nil => simp
  | cons y names ih => rw [List.foldl_cons, ih, mem_addName, List.mem_cons, or_assoc]

/-- Names are listed by their first places. -/
theorem pairwise_foldl_addName (names : List String) :
    (names.foldl addName []).Pairwise fun x y => names.idxOf x < names.idxOf y := by
  induction names using List.reverseRecOn with
  | nil => exact .nil
  | append_singleton names z ih =>
      have hmem {x : String} (hx : x ∈ names.foldl addName []) : x ∈ names :=
        (mem_foldl_addName.mp hx).resolve_left List.not_mem_nil
      have hidx {x : String} (hx : x ∈ names.foldl addName []) :
          (names ++ [z]).idxOf x = names.idxOf x :=
        List.idxOf_append_of_mem (hmem hx)
      have hold : (names.foldl addName []).Pairwise fun x y =>
          (names ++ [z]).idxOf x < (names ++ [z]).idxOf y := by
        refine ih.imp_of_mem fun hx hy hlt => ?_
        rw [hidx hx, hidx hy]
        exact hlt
      rw [List.foldl_concat, addName]
      split
      · exact hold
      · rename_i hz
        rw [mem_foldl_addName, not_or] at hz
        refine List.pairwise_append.mpr ⟨hold, List.pairwise_singleton _ _, fun x hx y hy => ?_⟩
        -- the name is new, so its first place is the last one
        rw [List.mem_singleton.mp hy, hidx hx, List.idxOf_append_of_notMem hz.2]
        exact Nat.lt_add_right _ (List.idxOf_lt_length_iff.mpr (hmem hx))

end Names

namespace Term

/-- The name of a variable, whatever its constraint and its annotations are. -/
def varName? (t : Term) : Option String :=
  match t.shape with
  | .var x _ => some x
  | _ => none

/-- The nodes of a term but the first one, in the order of their visits. -/
def properSubterms : Term → List Term
  | .int .. | .real .. | .str .. | .nil _ | .wildcard _ => []
  | .cons _ l r | .appl _ l r => l :: l.properSubterms ++ r :: r.properSubterms
  | .var _ _ c => c :: c.properSubterms
  | .annotated _ b as => b.properSubterms ++ as :: as.properSubterms

/-- All nodes of a term in the order of their visits: the node itself, the parts of its shape
from left to right, its annotations. -/
def subterms (t : Term) : List Term :=
  t :: t.properSubterms

/-- The names of the variables in the order of their visits, as often as they occur. -/
def varNames (t : Term) : List String :=
  t.subterms.filterMap varName?

end Term

/-- The nodes in the parts of a shape. -/
def Shape.subterms : Shape → List Term
  | .cons l r | .appl l r => l.subterms ++ r.subterms
  | .var _ c => c.subterms
  | _ => []

namespace Term

variable {t u : Term}

/-! Every node is visited, and in a well-formed term, where no node has two annotation lists,
nothing else is. -/

theorem prefix_properSubterms (t : Term) : t.shape.subterms <+: t.properSubterms := by
  induction t with
  | int o i | real o r | str o s | nil o | wildcard o => exact List.prefix_rfl
  | cons o l r | appl o l r | var o x c => exact List.prefix_rfl
  | annotated o b as ihb _ => exact ihb.trans (List.prefix_append _ _)

theorem suffix_properSubterms {as : Term} (h : t.annotations = some as) :
    as.subterms <:+ t.properSubterms := by
  cases t with
  | annotated o b as' =>
      cases h
      exact List.suffix_append _ _
  | _ => cases h

theorem mem_subterms_of_nodeOf (h : NodeOf u t) : u ∈ t.subterms := by
  have hpart {t : Term} (hu : u ∈ t.shape.subterms) : u ∈ t.subterms :=
    List.mem_cons_of_mem _ ((prefix_properSubterms t).subset hu)
  induction h with
  | root => exact List.mem_cons_self
  | head hshape _ ih | functor hshape _ ih =>
      apply hpart
      rw [hshape]
      exact List.mem_append_left _ ih
  | tail hshape _ ih | args hshape _ ih =>
      apply hpart
      rw [hshape]
      exact List.mem_append_right _ ih
  | constraint hshape _ ih =>
      apply hpart
      rw [hshape]
      exact ih
  | annos hannos _ ih =>
      exact List.mem_cons_of_mem _ ((suffix_properSubterms hannos).subset ih)

theorem nodeOf_of_mem_properSubterms {t' : Term} (ht : t.WellFormed) (hshape : t'.shape = t.shape)
    (hannos : ∀ as, t.annotations = some as → t'.annotations = some as)
    (hu : u ∈ t.properSubterms) : NodeOf u t' := by
  -- the body of an annotated node is no node, so the node may be another one of this shape
  have hsub {s : Term} (hs : u ∈ s.subterms)
      (ih : ∀ {s' : Term}, s'.shape = s.shape →
        (∀ as, s.annotations = some as → s'.annotations = some as) →
        u ∈ s.properSubterms → NodeOf u s') : NodeOf u s := by
    cases hs with
    | head => exact .root
    | tail _ hs => exact ih rfl (fun _ => id) hs
  induction t generalizing t' with
  | int o i | real o r | str o s | nil o | wildcard o => cases hu
  | cons o l r ihl ihr =>
      cases List.mem_append.mp hu with
      | inl hl => exact .head hshape (hsub hl (ihl ht.1))
      | inr hr => exact .tail hshape (hsub hr (ihr ht.2.1))
  | appl o f as ihf ihas =>
      cases List.mem_append.mp hu with
      | inl hf => exact .functor hshape (hsub hf (ihf ht.1))
      | inr has => exact .args hshape (hsub has (ihas ht.2.1))
  | var o x c ih => exact .constraint hshape (hsub hu (ih ht))
  | annotated o b as ihb ihas =>
      obtain ⟨hb, hnone, has, -⟩ := ht
      cases List.mem_append.mp hu with
      | inl hbody =>
          refine ihb hb hshape (fun as' hsome => ?_) hbody
          rw [hnone] at hsome
          cases hsome
      | inr hlist => exact .annos (hannos as rfl) (hsub hlist (ihas has))

theorem nodeOf_of_mem_subterms (ht : t.WellFormed) (hu : u ∈ t.subterms) : NodeOf u t := by
  cases hu with
  | head => exact .root
  | tail _ hu => exact nodeOf_of_mem_properSubterms ht rfl (fun _ => id) hu

/-! Groundness. -/

theorem isGround_iff_forall_subterms :
    t.isGround ↔ ∀ u ∈ t.subterms, u.shape ≠ .wildcard ∧ ∀ x c, u.shape ≠ .var x c := by
  induction t with
  | int o i | real o r | str o s | nil o =>
      exact iff_of_true rfl (List.forall_mem_singleton.mpr ⟨nofun, nofun⟩)
  | wildcard o => exact iff_of_false nofun fun h => (h _ List.mem_cons_self).1 rfl
  | var o x c _ => exact iff_of_false nofun fun h => (h _ List.mem_cons_self).2 x c rfl
  | cons o l r ihl ihr | appl o l r ihl ihr =>
      change (l.isGround && r.isGround) = true ↔ ∀ u ∈ _ :: (l.subterms ++ r.subterms), _
      rw [Bool.and_eq_true, ihl, ihr, List.forall_mem_cons, List.forall_mem_append]
      exact (and_iff_right ⟨nofun, nofun⟩).symm
  | annotated o b as ihb ihas =>
      change (b.isGround && as.isGround) = true ↔
        ∀ u ∈ _ :: (b.properSubterms ++ as.subterms), _
      rw [Bool.and_eq_true, ihb, ihas, subterms, List.forall_mem_cons, List.forall_mem_cons,
        List.forall_mem_append, and_assoc]
      rfl

/-! Variables. -/

/-- An annotated node has the name of its body, in whose place it is visited. -/
theorem varNames_pair (o : Origin) (l r : Term) :
    (cons o l r).varNames = l.varNames ++ r.varNames ∧
    (appl o l r).varNames = l.varNames ++ r.varNames ∧
    (annotated o l r).varNames = l.varNames ++ r.varNames := by
  have happend : (l.subterms ++ r.subterms).filterMap varName? = l.varNames ++ r.varNames :=
    List.filterMap_append
  exact ⟨happend, happend, happend⟩

theorem varNames_var (o : Origin) (x : String) (c : Term) :
    (var o x c).varNames = x :: c.varNames :=
  rfl

/-- Collecting with the shortcut for ground terms adds the names of all variables, one after the
other. -/
theorem collectVars_eq_foldl (t : Term) (seen : List String) :
    t.collectVars seen = t.varNames.foldl addName seen := by
  induction t generalizing seen with
  | int o i | real o r | str o s | nil o => exact collectVars_of_isGround rfl seen
  | wildcard o =>
      have hnone : (wildcard o).varNames = [] := rfl
      rw [hnone, List.foldl_nil]
      simp [collectVars]
  | cons o l r ihl ihr | appl o l r ihl ihr | annotated o l r ihl ihr =>
      simp only [collectVars_pair, varNames_pair, List.foldl_append, ihl, ihr]
  | var o x c ih =>
      rw [collectVars_var, ih, varNames_var]
      rfl

theorem varName?_eq_some_iff {x : String} : t.varName? = some x ↔ ∃ c, t.shape = .var x c := by
  rw [varName?]
  cases t.shape <;> simp

theorem mem_varNames_iff {x : String} :
    x ∈ t.varNames ↔ ∃ u ∈ t.subterms, ∃ c, u.shape = .var x c := by
  simp only [varNames, List.mem_filterMap, varName?_eq_some_iff]

theorem vars_eq_foldl (t : Term) : t.vars = t.varNames.foldl addName [] :=
  collectVars_eq_foldl t []

/-- Whether a term is ground, and which variables it has, is found out exactly. The traversal
visits all nodes; the term is ground if none of them is a wildcard or a variable. The list of
the variables has no name twice, it has the names of all variables and no other ones, and they
are in the order of their first visits. What is collected is what visiting every node would
give, be it from the start or after other names: passing over ground terms loses nothing. -/
theorem groundness_and_vars_exact (t : Term) :
    (∀ u, NodeOf u t → u ∈ t.subterms) ∧ (t.WellFormed → ∀ u ∈ t.subterms, NodeOf u t) ∧
    (t.isGround ↔ ∀ u ∈ t.subterms, u.shape ≠ .wildcard ∧ ∀ x c, u.shape ≠ .var x c) ∧
    t.vars.Nodup ∧
    (∀ x, x ∈ t.vars ↔ ∃ u ∈ t.subterms, ∃ c, u.shape = .var x c) ∧
    t.vars.Pairwise (fun x y => t.varNames.idxOf x < t.varNames.idxOf y) ∧
    ∀ seen, t.collectVars seen = t.varNames.foldl addName seen := by
  have horder : t.vars.Pairwise fun x y => t.varNames.idxOf x < t.varNames.idxOf y := by
    rw [vars_eq_foldl]
    exact pairwise_foldl_addName t.varNames
  have hnodup : t.vars.Nodup := by
    refine horder.imp fun {x y} hlt heq => ?_
    rw [heq] at hlt
    exact Nat.lt_irrefl _ hlt
  refine ⟨fun u => mem_subterms_of_nodeOf, fun ht u => nodeOf_of_mem_subterms ht,
    isGround_iff_forall_subterms, hnodup, fun x => ?_, horder, collectVars_eq_foldl t⟩
  rw [vars_eq_foldl, mem_foldl_addName, mem_varNames_iff]
  exact or_iff_right List.not_mem_nil

theorem groundness_and_vars_exact_annotated :
    ∃ t u : Term, t.WellFormed ∧ u ∈ t.subterms ∧ NodeOf u t ∧ u.shape = .wildcard ∧
      t.isGround = false ∧ t.vars = ["f", "x", "y", "z", "w"] ∧ t.vars.Nodup ∧
      t.varNames = ["f", "x", "y", "z", "x", "w", "y"] := by
  -- `f(x=[y,*z],x){A(w),y,_}`
  let var (x : String) : Term := .var .derived x (.wildcard .derived)
  let list (ts : List Term) : Term := .listOnto .empty ts
  let body : Term := .appl .derived (var "f")
    (list [.var .derived "x" (.cons .derived (var "y") (var "z")), var "x"])
  let annos : Term :=
    list [.appl .derived (.str .derived "A") (list [var "w"]), var "y", .wildcard (.serial 0)]
  let t : Term := .annotated .derived body annos
  have ht : t.WellFormed := by repeat' constructor
  have hu : .wildcard (.serial 0) ∈ t.subterms := by decide +kernel
  obtain ⟨-, hnodes, hground, hnodup, -⟩ := groundness_and_vars_exact t
  have hpattern : t.isGround = false := by
    rw [Bool.eq_false_iff, ne_eq, hground]
    exact fun h => (h _ hu).1 rfl
  exact ⟨t, _, ht, hu, hnodes ht _ hu, rfl, hpattern, by decide +kernel, hnodup,
    by decide +kernel⟩

end Term

end StrategicRewriting
