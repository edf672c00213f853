import StrategicRewriting.Pattern.Bindings
import StrategicRewriting.Term.Annotations

/-!
Building of terms from patterns.
-/
namespace StrategicRewriting

/-- Construction that takes captured terms from the front. What was taken stays
taken if the construction ends in an error. -/
abbrev Building := ExceptT Fatal (StateM (List Term))

namespace Building

/-- The next captured term. -/
def takeCapture : Building Term := fun
  | [] => (.error .emptyCaptures, [])
  | t :: ts => (.ok t, ts)

/-- The value of a variable, which has to have one. -/
def valueOf (vars : Lookup) (x : String) : Building Term := do
  match ← liftExcept (vars x) with
  | some t => pure t
  | none => throw (.unboundVar x)
where
  liftExcept (r : Except Fatal (Option Term)) : Building (Option Term) := fun caps => (r, caps)

end Building

/-- Build a term from a pattern: captured terms for wildcards, values for
variables. Ground patterns are used as they are. The parts of an application
and the tail of a list have to turn out well shaped. -/
def Term.build (vars : Lookup) (pat : Term) : Building Term :=
  if pat.isGround then pure pat
  else
    match pat with
    | .wildcard _ => Building.takeCapture
    | .var _ x _ => Building.valueOf vars x
    | .cons _ h t => do
      let h ← h.build vars
      let t ← t.build vars
      if t.isList then pure (make (.cons h t) none) else throw (.notAList t)
    | .appl _ f as => do
      let f ← f.build vars
      if f.toStr?.isNone then throw (.notAString f)
      let as ← as.build vars
      if as.isList then pure (make (.appl f as) none) else throw (.notAList as)
    | .annotated _ body annos => do
      let t ← body.build vars
      let as ← annos.build vars
      match t.setAnnotations as with
      | .ok t => pure t
      | .error e => throw e
    | t => pure t

end StrategicRewriting
