import StrategicRewriting.Proofs.Pattern.Match

/-!
Matching without shortcuts: every node of a pattern is matched by its shape and then by its
annotations, with the tails of lists like all other parts. This finds out the same as matching
with shortcuts. A ground pattern need not be looked at where it is the very same node as the
term, and it does not matter where this is noticed. A list may be walked along as far as its
tails have no annotations, since nothing is left to be matched after such a tail.
-/
namespace StrategicRewriting.Term

/-- Match every node of a pattern by its shape, then by its annotations if it has any. -/
def matchPlain (p t : Term) (b : Bindings) : Bool × Bindings :=
  match p with
  | .int _ i => match t.shape with | .int j => (i == j, b) | _ => (false, b)
  | .real _ x => match t.shape with | .real y => (x == y, b) | _ => (false, b)
  | .str _ s => match t.shape with | .str s' => (s == s', b) | _ => (false, b)
  | .nil _ => match t.shape with | .nil => (true, b) | _ => (false, b)
  | .cons _ ph pt =>
    match t.shape with
    | .cons h tl => andThen (ph.matchPlain h b) fun b => pt.matchPlain tl b
    | _ => (false, b)
  | .appl _ pf pas =>
    match t.shape with
    | .appl f as => andThen (pf.matchPlain f b) fun b => pas.matchPlain as b
    | _ => (false, b)
  | .wildcard _ => (true, b.capture t)
  | .var _ x c =>
    match b.get? x with
    | some v => (v.equivalent t, b)
    | none =>
      if c.isUnconstrained then (true, b.bind x t)
      else andThen (c.matchPlain t b) fun b => (true, b.bind x t)
  | .annotated _ body annos =>
    andThen (body.matchPlain t b) fun b => annos.matchPlain (t.annotations.getD empty) b

theorem sizeOf_shape_lt (p : Term) : sizeOf p.shape < sizeOf p := by
  have horigin (o : Origin) : 0 < sizeOf o := by
    cases o with
    | derived => exact Nat.one_pos
    | serial n => exact Nat.lt_add_right n Nat.one_pos
  induction p with
  | annotated o body annos ih _ =>
      rw [annotated.sizeOf_spec]
      exact Nat.lt_of_lt_of_le ih (by omega)
  | int o | real o | str o | nil o | cons o | appl o | wildcard o | var o =>
      have hpos := horigin o
      simp [shape]
      omega

mutual

/-- Match a node of a pattern, with a test that notices some of the nodes that are the same. -/
def matchNode (shared : Term → Term → Bool) (p t : Term) (b : Bindings) : Bool × Bindings :=
  match p with
  | .annotated o body annos =>
    andThen (matchAlong shared (.annotated o body annos) body.shape t b) fun b =>
      matchNode shared annos (t.annotations.getD empty) b
  | p => matchAlong shared p p.shape t b
termination_by sizeOf p
decreasing_by
  · exact Nat.lt_trans (sizeOf_shape_lt body) (by decreasing_tactic)
  · decreasing_tactic
  · exact sizeOf_shape_lt p

/-- Match the shape of a node, going on along the tail as long as it has no annotations. -/
def matchAlong (shared : Term → Term → Bool) (p : Term) (s : Shape) (t : Term) (b : Bindings) :
    Bool × Bindings :=
  if p.isGround && shared p t then (true, b)
  else
    match s, t.shape with
    | .int i, .int j => (i == j, b)
    | .real x, .real y => (x == y, b)
    | .str s, .str s' => (s == s', b)
    | .nil, .nil => (true, b)
    | .cons ph pt, .cons h tl | .appl ph pt, .appl h tl =>
      andThen (matchNode shared ph h b) fun b =>
        if pt.annotations.isSome then matchNode shared pt tl b
        else matchAlong shared pt pt.shape tl b
    | .wildcard, _ => (true, b.capture t)
    | .var x c, _ =>
      match b.get? x with
      | some v => (v.equivalent t, b)
      | none =>
        if c.isUnconstrained then (true, b.bind x t)
        else andThen (matchNode shared c t b) fun b => (true, b.bind x t)
    | _, _ => (false, b)
termination_by sizeOf s
decreasing_by
  any_goals decreasing_tactic
  all_goals exact Nat.lt_trans (sizeOf_shape_lt pt) (by decreasing_tactic)

end

variable {o : Origin} {p node t : Term} {b : Bindings}

theorem matchPlain_self (hp : p.WellFormed) (hground : p.isGround) (hshape : t.shape = p.shape)
    (hannos : ∀ as, p.annotations = some as → t.annotations = some as) (b : Bindings) :
    p.matchPlain t b = (true, b) := by
  induction p generalizing t b with
  | wildcard o | var o x c => cases hground
  | int o i | real o r | str o s | nil o =>
      simp only [matchPlain, hshape, shape, BEq.rfl]
  | cons o p q ihp ihq | appl o p q ihp ihq =>
      obtain ⟨hgp, hgq⟩ := Bool.and_eq_true_iff.mp hground
      have hl := ihp hp.1 hgp rfl (fun _ h => h) b
      have hr := ihq hp.2.1 hgq rfl (fun _ h => h) b
      simp only [matchPlain, hshape, shape, hl, andThen, hr]
  | annotated o p q ihp ihq =>
      obtain ⟨hgp, hgq⟩ := Bool.and_eq_true_iff.mp hground
      have hnone : ∀ as, p.annotations = some as → t.annotations = some as := by
        intro as has
        rw [hp.2.1] at has
        cases has
      have hl := ihp hp.1 hgp hshape hnone b
      have hr := ihq hp.2.2.1 hgq rfl (fun _ h => h) b
      simp only [matchPlain, hl, andThen, hannos q rfl, Option.getD_some, hr]

/-- It is enough to look at the nodes that are not noticed to be the same. -/
theorem matchTerm_eq_unless_same (hp : p.WellFormed)
    (h : ¬ (p.isGround && p.same t) → p.matchTerm t b = p.matchPlain t b) :
    p.matchTerm t b = p.matchPlain t b := by
  by_cases hsame : p.isGround && p.same t
  · obtain rfl := eq_of_shortcut hsame
    have hground := (Bool.and_eq_true_iff.mp hsame).1
    rw [matchTerm.eq_def, if_pos hsame, matchPlain_self hp hground rfl (fun _ h => h)]
  · exact h hsame

theorem matchTerm_eq_matchPlain (hp : p.WellFormed) (t : Term) (b : Bindings) :
    p.matchTerm t b = p.matchPlain t b := by
  induction p generalizing t b with
  | int o i | real o r | str o s | nil o =>
      refine matchTerm_eq_unless_same hp fun hsame => ?_
      rw [matchTerm, if_neg hsame]
      cases hshape : t.shape <;> simp only [matchPlain, hshape]
  | wildcard o => rw [matchTerm_wildcard, matchPlain]
  | cons o p q ihp ihq | appl o p q ihp ihq =>
      refine matchTerm_eq_unless_same hp fun hsame => ?_
      rw [matchTerm, if_neg hsame, matchPlain]
      simp only [ihp hp.1, ihq hp.2.1]
      rfl
  | var o x c ih =>
      refine matchTerm_eq_unless_same hp fun hsame => ?_
      rw [matchTerm, if_neg hsame, matchPlain]
      simp only [ih hp]
      rfl
  | annotated o p q ihp ihq =>
      refine matchTerm_eq_unless_same hp fun hsame => ?_
      rw [matchTerm, if_neg hsame, matchPlain]
      simp only [ihp hp.1, ihq hp.2.2.1]
      rfl

/-- A ground pattern matches itself, and other nodes of the same shape as far as it
has no annotations. -/
theorem matchTerm_self (hp : p.WellFormed) (hground : p.isGround) (hshape : t.shape = p.shape)
    (hannos : ∀ as, p.annotations = some as → t.annotations = some as) (b : Bindings) :
    p.matchTerm t b = (true, b) := by
  rw [matchTerm_eq_matchPlain hp, matchPlain_self hp hground hshape hannos]

/-! The walk along the tails. -/

theorem matchNode_of_annotations {shared : Term → Term → Bool} (h : p.annotations = none) :
    matchNode shared p t b = matchAlong shared p p.shape t b := by
  cases p with
  | annotated o body annos => cases h
  | _ =>
      rw [matchNode]
      exact nofun

theorem isGround_of_shape (h : p.annotations = none) (hground : p.shape.isGround) :
    p.isGround := by
  cases p with
  | annotated o body annos => cases h
  | _ => exact hground

/-- A node is matched as without the test and the walk, on its own and, if it has no
annotations, as the shape of whatever node is the current one of the walk. -/
structure MatchesPlainly (shared : Term → Term → Bool) (p : Term) : Prop where
  node : ∀ t b, matchNode shared p t b = p.matchPlain t b
  along : p.annotations = none → ∀ node t b, node.shape = p.shape →
    matchAlong shared node p.shape t b = p.matchPlain t b

namespace MatchesPlainly

variable {shared : Term → Term → Bool}

/-- It is enough to look at the nodes that the test does not notice. -/
theorem of_unshared (hshared : ∀ l r, shared l r → l = r) (hp : p.WellFormed)
    (hnone : p.annotations = none)
    (h : ∀ node t b, ¬ (node.isGround && shared node t) →
      matchAlong shared node p.shape t b = p.matchPlain t b) :
    MatchesPlainly shared p := by
  have halong : ∀ node t b, node.shape = p.shape →
      matchAlong shared node p.shape t b = p.matchPlain t b := by
    intro node t b hshape
    by_cases hsame : node.isGround && shared node t
    · obtain ⟨hground, hnode⟩ := Bool.and_eq_true_iff.mp hsame
      obtain rfl := hshared node t hnode
      have hpground : p.isGround := isGround_of_shape hnone (hshape ▸ isGround_shape hground)
      have hannos : ∀ as, p.annotations = some as → node.annotations = some as := by
        intro as has
        rw [hnone] at has
        cases has
      rw [matchPlain_self hp hpground hshape hannos, matchAlong.eq_def, if_pos hsame]
    · exact h node t b hsame
  exact ⟨fun t b => (matchNode_of_annotations hnone).trans (halong p t b rfl), fun _ => halong⟩

/-- Recursion into annotated tails and walking along the others come to the same. -/
theorem tail (h : MatchesPlainly shared p) (t : Term) (b : Bindings) :
    (if p.annotations.isSome then matchNode shared p t b else matchAlong shared p p.shape t b) =
      p.matchPlain t b := by
  split
  · exact h.node t b
  · rename_i hsome
    exact h.along (Option.not_isSome_iff_eq_none.mp hsome) p t b rfl

theorem of_wellFormed (hshared : ∀ l r, shared l r → l = r) (hp : p.WellFormed) :
    MatchesPlainly shared p := by
  induction p with
  | int o i | real o r | str o s | nil o | wildcard o =>
      refine .of_unshared hshared hp rfl fun node t b hsame => ?_
      rw [matchAlong.eq_def, if_neg hsame]
      cases hshape : t.shape <;> simp only [matchPlain, shape, hshape]
  | cons o p q ihp ihq | appl o p q ihp ihq =>
      refine .of_unshared hshared hp rfl fun node t b hsame => ?_
      rw [matchAlong.eq_def, if_neg hsame]
      cases hshape : t.shape <;>
        simp only [matchPlain, shape, hshape, (ihp hp.1).node, (ihq hp.2.1).tail]
  | var o x c ih =>
      refine .of_unshared hshared hp rfl fun node t b hsame => ?_
      rw [matchAlong.eq_def, if_neg hsame]
      cases hshape : t.shape <;> simp only [matchPlain, shape, (ih hp).node]
  | annotated o p q ihp ihq =>
      refine ⟨fun t b => ?_, fun hnone => absurd hnone (Option.some_ne_none q)⟩
      have hbody := (ihp hp.1).along hp.2.1 (annotated o p q) t b rfl
      rw [matchNode, hbody, matchPlain]
      simp only [(ihq hp.2.2.1).node]

end MatchesPlainly

/-- Neither the test for the very same node nor the walk along the tails changes what matching
finds out. It does not matter which of the nodes that are the same the test notices. -/
theorem matchTerm_without_shortcuts (hp : p.WellFormed) (t : Term) (b : Bindings) :
    p.matchTerm t b = p.matchPlain t b ∧
      ∀ shared : Term → Term → Bool, (∀ l r, shared l r → l = r) →
        matchNode shared p t b = p.matchPlain t b :=
  ⟨matchTerm_eq_matchPlain hp t b,
    fun _ hshared => (MatchesPlainly.of_wellFormed hshared hp).node t b⟩

theorem matchTerm_without_shortcuts_nested :
    ∃ p t c i tl : Term, p.WellFormed ∧ c.isGround ∧
      p.matchTerm t .empty = p.matchPlain t .empty ∧
      matchNode same p t .empty = p.matchPlain t .empty ∧
      (p.matchPlain t .empty).1 ∧ (p.matchPlain t .empty).2.captures = [i] ∧
      (p.matchPlain t .empty).2.get? "z" = some t ∧
      (p.matchPlain t .empty).2.get? "x" = some tl := by
  -- `z=[C{A},_,*x{y}]` and `[C{A},1,*[2]{B}]`, both with the same node `C{A}`
  let appl (name : String) : Term := .appl .derived (.str .derived name) .empty
  let var (x : String) : Term := .var .derived x (.wildcard .derived)
  let list (ts : List Term) : Term := .listOnto .empty ts
  let c : Term := .annotated (.serial 1) (appl "C") (list [appl "A"])
  let p : Term := .var .derived "z" (.listOnto
    (.annotated .derived (var "x") (list [var "y"])) [c, .wildcard .derived])
  let i : Term := .int .derived 1
  let tl : Term := .annotated .derived (list [.int .derived 2]) (list [appl "B"])
  let t : Term := .listOnto tl [c, i]
  have happl (name : String) : (appl name).WellFormed := ⟨trivial, trivial, rfl, rfl⟩
  have hc : c.WellFormed :=
    ⟨happl "C", rfl, ⟨happl "A", trivial, rfl⟩, rfl⟩
  have hp : p.WellFormed :=
    ⟨hc, ⟨trivial, ⟨trivial, rfl, ⟨trivial, trivial, rfl⟩, rfl⟩, rfl⟩, rfl⟩
  obtain ⟨hterm, hnode⟩ := matchTerm_without_shortcuts hp t .empty
  exact ⟨p, t, c, i, tl, hp, rfl, hterm, hnode same fun _ _ => same_iff_eq.mp, rfl, rfl, rfl, rfl⟩

end StrategicRewriting.Term
