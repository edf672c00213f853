import StrategicRewriting.Term.Printer

/-!
Violations of shape and scoping contracts.
-/
namespace StrategicRewriting

inductive Fatal where
  | notAList (term : Term)
  | notAString (term : Term)
  | notAnInt (term : Term)
  /-- A list of two elements was expected. -/
  | notAPair (term : Term)
  /-- A wildcard was built, but nothing captured was left. -/
  | emptyCaptures
  | undeclaredVar (name : String)
  | unboundVar (name : String)
  | undeclaredTable (name : String)
  /-- A recursive call was made outside of the recursive strategy. -/
  | unsetRec
deriving DecidableEq

namespace Fatal

/-- The word for the error in a failure report. -/
def name : Fatal → String
  | notAList _ => "NotAList"
  | notAString _ => "NotAString"
  | notAnInt _ => "NotAnInt"
  | notAPair _ => "NotAPair"
  | emptyCaptures => "EmptyCaptures"
  | undeclaredVar _ => "UndeclaredVar"
  | unboundVar _ => "UnboundVar"
  | undeclaredTable _ => "UndeclaredTable"
  | unsetRec => "UnsetRec"

def message : Fatal → String
  | notAList t => "list expected, found " ++ t.text
  | notAString t => "string expected, found " ++ t.text
  | notAnInt t => "integer expected, found " ++ t.text
  | notAPair t => "pair expected, found " ++ t.text
  | emptyCaptures => "no captured term left to build wildcard"
  | undeclaredVar x => "undeclared variable " ++ x
  | unboundVar x => "unbound variable " ++ x
  | undeclaredTable t => "undeclared table " ++ t
  | unsetRec => "recursive strategy applied outside of its definition"

end Fatal

end StrategicRewriting
