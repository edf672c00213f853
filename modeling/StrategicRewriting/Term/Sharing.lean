import StrategicRewriting.Term.Basic

/-!
Which nodes of a term are nodes of another one.
-/
namespace StrategicRewriting

/-- How the nodes of two terms at the same places relate. -/
inductive Sharing where
  /-- The same node. -/
  | same
  /-- Different list nodes, with how their heads and tails relate. -/
  | cons (heads tails : Sharing)
  /-- Different applications, with how their functors and arguments relate. -/
  | appl (functors args : Sharing)
  /-- Different nodes with nothing to compare inside. -/
  | different

/-- Compare the nodes of two terms. -/
def Term.sharing (l r : Term) : Sharing :=
  if l.same r then .same
  else
    match l with
    | .cons _ h t =>
      match r.shape with
      | .cons h' t' => .cons (h.sharing h') (t.sharing t')
      | _ => .different
    | .appl _ f as =>
      match r.shape with
      | .appl f' as' => .appl (f.sharing f') (as.sharing as')
      | _ => .different
    | .annotated _ b _ =>
      match b with
      | .cons _ h t =>
        match r.shape with
        | .cons h' t' => .cons (h.sharing h') (t.sharing t')
        | _ => .different
      | .appl _ f as =>
        match r.shape with
        | .appl f' as' => .appl (f.sharing f') (as.sharing as')
        | _ => .different
      | _ => .different
    | _ => .different

end StrategicRewriting
