import StrategicRewriting.Pattern.Bindings

/-!
Matching of patterns. A node is matched by its shape first, then by its
annotations if the pattern has any. What was found before a mismatch is kept.
-/
namespace StrategicRewriting.Term

/-- Match a pattern against a term, extending the bindings. A ground pattern
matches the very same node without a look inside. A variable that has a value
matches the terms equivalent to it; else its constraint has to match, and a
plain wildcard as constraint captures nothing. -/
def matchTerm (pat t : Term) (b : Bindings) : Bool × Bindings :=
  if pat.isGround && pat.same t then (true, b)
  else
    match pat with
    | .int _ i => match t.shape with | .int j => (i == j, b) | _ => (false, b)
    | .real _ x => match t.shape with | .real y => (x == y, b) | _ => (false, b)
    | .str _ s => match t.shape with | .str s' => (s == s', b) | _ => (false, b)
    | .nil _ => match t.shape with | .nil => (true, b) | _ => (false, b)
    | .cons _ ph pt =>
      match t.shape with
      | .cons h tl =>
        match ph.matchTerm h b with
        | (true, b) => pt.matchTerm tl b
        | (false, b) => (false, b)
      | _ => (false, b)
    | .appl _ pf pas =>
      match t.shape with
      | .appl f as =>
        match pf.matchTerm f b with
        | (true, b) => pas.matchTerm as b
        | (false, b) => (false, b)
      | _ => (false, b)
    | .wildcard _ => (true, b.capture t)
    | .var _ x p =>
      match b.get? x with
      | some v => (v.equivalent t, b)
      | none =>
        if p.isUnconstrained then (true, b.bind x t)
        else
          match p.matchTerm t b with
          | (true, b) => (true, b.bind x t)
          | (false, b) => (false, b)
    | .annotated _ body annos =>
      match body.matchTerm t b with
      | (true, b) => annos.matchTerm (t.annotations.getD empty) b
      | (false, b) => (false, b)

@[simp]
theorem matchTerm_wildcard (o : Origin) (t : Term) (b : Bindings) :
    (wildcard o).matchTerm t b = (true, b.capture t) := by
  rw [matchTerm, isGround, Bool.false_and, if_neg Bool.false_ne_true]

end StrategicRewriting.Term
